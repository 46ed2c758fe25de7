import OwlEl.Completion.Rules

/-!
# Running the rules

The facts on the agenda are processed one after the other until none is left.
A run may be called off: it then stops at the fact that it has just taken from
the agenda. No clock is kept; of the times allowed, only none at all runs out.
-/

namespace OwlEl.Completion

variable {o : Ontology}

/-- By what a run may be called off. -/
structure Limits where
  cancelled : Bool
  /-- The time allowed, in milliseconds. -/
  timeoutMs : Option UInt64

namespace Limits

/-- A run to the end. -/
def unlimited : Limits := ⟨false, none⟩

/-- Why the run has to stop, if it has to. -/
def stop? (limits : Limits) : Option Fault :=
  if limits.cancelled then some .cancelled
  else if limits.timeoutMs = some 0 then some .timedOut
  else none

end Limits

namespace State

/-- No more facts than these can ever be derived: all that can be formed from the classes and
properties of the ontology and of the facts derived so far. -/
def capacity (st : State o) : Nat :=
  let classes := 2 + o.classes.length + 2 * st.factCount
  let properties := o.properties.length + st.edgeCount
  classes * classes + properties * classes * classes

end State

namespace RuleTable

/-- Process the oldest fact of the agenda. -/
def step? (rules : RuleTable) (st : State o) : Option (Fact × State o) :=
  st.pop?.map fun (fact, st) => (fact, rules.apply st fact)

/-- Process at most `steps` facts, after `processed` others. The answer is the number of
facts processed, or why the run was called off. -/
def runFor (rules : RuleTable) (limits : Limits) :
    Nat → Nat → State o → Except Fault Nat × State o
  | 0, processed, st => (.ok processed, st)
  | steps + 1, processed, st =>
      match st.pop? with
      | none => (.ok processed, st)
      | some (fact, st) =>
          match limits.stop? with
          | some fault => (.error fault, st)
          | none => rules.runFor limits steps (processed + 1) (rules.apply st fact)

/-- Process facts until the agenda is empty. Each fact that is derived is put on the agenda
once, so as many steps are enough as facts wait and can be derived. -/
def run (rules : RuleTable) (limits : Limits) (st : State o) : Except Fault Nat × State o :=
  rules.runFor limits (st.agenda.size + st.capacity) 0 st

/-- Apply the rules to every fact derived so far, in their order. -/
def applyToAll (rules : RuleTable) (st : State o) : State o := st.facts.foldl rules.apply st

end RuleTable

end OwlEl.Completion
