import OwlEl.Completion.State

/-!
# Completion rules

| rule | premises                                      | conclusion      |
|------|-----------------------------------------------|-----------------|
| CR-1 | `A ∈ S(x)`, `A ⊑ B`                           | `B ∈ S(x)`      |
| CR-2 | `A₁, …, Aₙ ∈ S(x)`, `A₁ ⊓ … ⊓ Aₙ ⊑ B`         | `B ∈ S(x)`      |
| CR-3 | `A ∈ S(x)`, `A ⊑ ∃r.B`                        | `(x, B) ∈ R(r)` |
| CR-4 | `(x, y) ∈ R(r)`, `A ∈ S(y)`, `r ⊑* s`, `∃s.A ⊑ B` | `B ∈ S(x)`  |
| CR-5 | `(x, y) ∈ R(r)`, `r ⊑* s`                     | `(x, y) ∈ R(s)` |
| CR-6 | `(x, y) ∈ R(r)`, `(y, z) ∈ R(s)`, `r ∘ s ⊑ t` | `(x, z) ∈ R(t)` |
| CR-7 | `(x, y) ∈ R(r)`, `⊥ ∈ S(y)`                   | `⊥ ∈ S(x)`      |
| CR-8 | `{a} ∈ S(x) ∩ S(y)`, `y` reachable for `x`    | `S(y) ⊆ S(x)`   |

A rule with two premises that may come last is applied to each of them. Every
application looks at one fact and at the facts derived so far, and adds what
follows.
-/

namespace OwlEl.Completion

variable {o : Ontology}

namespace State

/-- CR-1 for `a ∈ S(x)`. -/
def applyInclusion (st : State o) (x a : ClassId) : State o :=
  st.addAll ((o.supers.get a).map (.subsumer x))

/-- CR-2 for `a ∈ S(x)`. -/
def applyConjunction (st : State o) (x a : ClassId) : State o :=
  (o.conjunctions.get a).foldl
    (fun st conjunction =>
      if conjunction.operands.all fun b => b = a || st.hasSubsumer x b then
        st.add (.subsumer x conjunction.sup)
      else st)
    st

/-- CR-3 for `a ∈ S(x)`. -/
def applyExistsSuper (st : State o) (x a : ClassId) : State o :=
  st.addAll ((o.existsSupers.get a).map fun (r, b) => .edge r x b)

/-- CR-4 for `a ∈ S(y)`. -/
def applyExistsSubToSubsumer (st : State o) (y a : ClassId) : State o :=
  if (o.existsSubsByFiller.get a).isEmpty then st
  else
    st.addAll <| (st.propertiesInto.values y).flatMap fun r =>
      let targets := (o.propertiesAbove r).flatMap fun s => o.existsSubs.get (s, a)
      (st.predecessors.values (r, y)).flatMap fun x => targets.map (.subsumer x)

/-- CR-4 for `(x, y) ∈ R(r)`. -/
def applyExistsSubToEdge (st : State o) (r : PropertyId) (x y : ClassId) : State o :=
  st.addAll <| ((o.propertiesAbove r).filter o.existsSubsByProperty.hasKey).flatMap fun s =>
    (st.subsumers.values y).flatMap fun a => (o.existsSubs.get (s, a)).map (.subsumer x)

/-- CR-5 for `(x, y) ∈ R(r)`. -/
def applyHierarchy (st : State o) (r : PropertyId) (x y : ClassId) : State o :=
  st.addAll (((o.propertiesAbove r).filter (· ≠ r)).map fun s => .edge s x y)

/-- CR-6 for `(x, y) ∈ R(r)` as the first premise. -/
def applyCompositionOnLeft (st : State o) (r : PropertyId) (x y : ClassId) : State o :=
  (o.compositionsByLeft.get r).foldl
    (fun st c => st.addAll ((st.successors.values (c.right, y)).map (.edge c.sup x)))
    st

/-- CR-6 for `(y, z) ∈ R(s)` as the second premise. -/
def applyCompositionOnRight (st : State o) (s : PropertyId) (y z : ClassId) : State o :=
  (o.compositionsByRight.get s).foldl
    (fun st c => st.addAll ((st.predecessors.values (c.left, y)).map (.edge c.sup · z)))
    st

/-- CR-7 for `a ∈ S(y)`. -/
def applyBottomToSubsumer (st : State o) (y a : ClassId) : State o :=
  if a = .bottom then
    st.addAll <| (st.propertiesInto.values y).flatMap fun r =>
      (st.predecessors.values (r, y)).map (.subsumer · .bottom)
  else st

/-- CR-7 for an edge from `x` to `y`. -/
def applyBottomToEdge (st : State o) (x y : ClassId) : State o :=
  if st.hasSubsumer y .bottom then st.add (.subsumer x .bottom) else st

/-- Add what subsumes `y` to what subsumes `x`. -/
def copySubsumers (st : State o) (y x : ClassId) : State o :=
  st.addAll ((st.subsumers.values y).map (.subsumer x))

/-- Whether some nominal class subsumes both. -/
def shareNominal (st : State o) (x y : ClassId) : Bool :=
  (st.nominalsOf x).any (st.hasSubsumer y)

/-- CR-8 for an edge from `x` to `y`, by which further classes may become reachable. -/
def applyNominalToEdge (st : State o) (x y : ClassId) : State o :=
  let (st, news) := st.extendReachability x y
  let st := news.pairs.foldl
    (fun st (source, target) =>
      if source ≠ target ∧ st.shareNominal source target then st.copySubsumers target source
      else st)
    st
  news.fromNominals.foldl
    (fun st target =>
      (st.nominalsOf target).foldl
        (fun st nominal =>
          ((st.nominalMembers.values nominal).filter (· ≠ target)).foldl
            (fun st source => st.copySubsumers target source) st)
        st)
    st

/-- CR-8 for `a ∈ S(y)`: when `a` is a nominal class, `y` now shares it with all it
subsumes; and `a` is passed on to all that share a nominal class with `y` and reach it. -/
def applyNominalToSubsumer (st : State o) (y a : ClassId) : State o :=
  let st :=
    if o.isNominalClass a then
      ((st.nominalMembers.values a).filter (· ≠ y)).foldl
        (fun st w =>
          let st := if st.reachability.reaches y w then st.copySubsumers w y else st
          if st.reachability.reaches w y then st.copySubsumers y w else st)
        st
    else st
  (st.nominalsOf y).foldl
    (fun st nominal =>
      st.addAll <| ((st.nominalMembers.values nominal).filter fun x =>
        x ≠ y ∧ st.reachability.reaches x y).map (.subsumer · a))
    st

end State

/-! ## Tables of rules -/

/-- The rules that are applied to a fact on `S`. -/
inductive SubsumerRule where
  | inclusion
  | conjunction
  | existsSuper
  | existsSub
  | bottom
  | nominal
deriving DecidableEq

/-- The rules that are applied to a fact on `R`. -/
inductive EdgeRule where
  | existsSub
  | hierarchy
  | compositionOnLeft
  | compositionOnRight
  | bottom
  | nominal
deriving DecidableEq

/-- The name of the rule in the table above. -/
def SubsumerRule.label : SubsumerRule → String
  | .inclusion => "CR-1"
  | .conjunction => "CR-2"
  | .existsSuper => "CR-3"
  | .existsSub => "CR-4"
  | .bottom => "CR-7"
  | .nominal => "CR-8"

/-- The name of the rule in the table above; both halves of CR-6 share one. -/
def EdgeRule.label : EdgeRule → String
  | .existsSub => "CR-4"
  | .hierarchy => "CR-5"
  | .compositionOnLeft => "CR-6"
  | .compositionOnRight => "CR-6"
  | .bottom => "CR-7"
  | .nominal => "CR-8"

/-- Apply the rule to `a ∈ S(x)`. CR-8 is idle when there are no nominal classes. -/
def SubsumerRule.apply (rule : SubsumerRule) (st : State o) (x a : ClassId) : State o :=
  match rule with
  | .inclusion => st.applyInclusion x a
  | .conjunction => st.applyConjunction x a
  | .existsSuper => st.applyExistsSuper x a
  | .existsSub => st.applyExistsSubToSubsumer x a
  | .bottom => st.applyBottomToSubsumer x a
  | .nominal => if o.hasNominals then st.applyNominalToSubsumer x a else st

/-- Apply the rule to `(x, y) ∈ R(r)`. CR-8 is idle when there are no nominal classes. -/
def EdgeRule.apply (rule : EdgeRule) (st : State o) (r : PropertyId) (x y : ClassId) : State o :=
  match rule with
  | .existsSub => st.applyExistsSubToEdge r x y
  | .hierarchy => st.applyHierarchy r x y
  | .compositionOnLeft => st.applyCompositionOnLeft r x y
  | .compositionOnRight => st.applyCompositionOnRight r x y
  | .bottom => st.applyBottomToEdge x y
  | .nominal => if o.hasNominals then st.applyNominalToEdge x y else st

/-- Rules in the order in which they are applied. -/
structure RuleTable where
  onSubsumer : List SubsumerRule
  onEdge : List EdgeRule

namespace RuleTable

/-- All rules. -/
def full : RuleTable where
  onSubsumer := [.inclusion, .conjunction, .existsSuper, .existsSub, .bottom, .nominal]
  onEdge := [.existsSub, .hierarchy, .compositionOnLeft, .compositionOnRight, .bottom, .nominal]

/-- The rules of the given labels. -/
def ofLabels (onSubsumer onEdge : List String) : RuleTable where
  onSubsumer := full.onSubsumer.filter (onSubsumer.contains ·.label)
  onEdge := full.onEdge.filter (onEdge.contains ·.label)

/-- Apply all rules to a fact. -/
def apply (rules : RuleTable) (st : State o) : Fact → State o
  | .subsumer x a => rules.onSubsumer.foldl (fun st rule => rule.apply st x a) st
  | .edge r x y => rules.onEdge.foldl (fun st rule => rule.apply st r x y) st

end RuleTable

end OwlEl.Completion
