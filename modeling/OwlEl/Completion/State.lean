import OwlEl.Completion.Reachability
import OwlEl.Data.Queue
import OwlEl.Ontology

/-!
# Derived facts

While an ontology is classified, two relations grow: `S`, by which a class is
included in its subsumers, and `R`, by which `(x, y) ∈ R(r)` says that `x` is
included in `∃r.y`. The state keeps them with the tables by which the rules look
them up, and an agenda of the facts to which no rule has been applied yet.
-/

namespace OwlEl.Completion

/-- A derived fact. -/
inductive Fact where
  /-- Says that `a ∈ S(x)`. -/
  | subsumer (x a : ClassId)
  /-- Says that `(x, y) ∈ R(r)`. -/
  | edge (r : PropertyId) (x y : ClassId)
deriving DecidableEq

/-- The facts derived from an ontology. -/
structure State (o : Ontology) where
  /-- The relation `S`. -/
  subsumers : Multimap ClassId ClassId
  /-- For each nominal class the classes that it subsumes. -/
  nominalMembers : Multimap ClassId ClassId
  /-- The relations `R(r)`, by `r` and the first component. -/
  successors : Multimap (PropertyId × ClassId) ClassId
  /-- The relations `R(r)`, by `r` and the second component. -/
  predecessors : Multimap (PropertyId × ClassId) ClassId
  /-- The properties that lead out of a class. -/
  propertiesFrom : Multimap ClassId PropertyId
  /-- The properties that lead into a class. -/
  propertiesInto : Multimap ClassId PropertyId
  /-- The number of facts on `S`. -/
  subsumerCount : Nat
  /-- The number of facts on `R`. -/
  edgeCount : Nat
  /-- The facts to which no rule has been applied yet, the oldest first. -/
  agenda : Queue Fact
  /-- What the edges make reachable. -/
  reachability : Reachability

namespace State

variable {o : Ontology}

/-- Nothing has been derived. -/
def empty (o : Ontology) : State o where
  subsumers := ∅
  nominalMembers := ∅
  successors := ∅
  predecessors := ∅
  propertiesFrom := ∅
  propertiesInto := ∅
  subsumerCount := 0
  edgeCount := 0
  agenda := .empty
  reachability := .ofNominals o.nominalClasses

/-- Whether `a ∈ S(x)`. -/
def hasSubsumer (st : State o) (x a : ClassId) : Bool := st.subsumers.contains x a

/-- Whether `(x, y) ∈ R(r)`. -/
def hasEdge (st : State o) (r : PropertyId) (x y : ClassId) : Bool :=
  st.successors.contains (r, x) y

/-- Whether the fact has been derived. -/
def holds (st : State o) : Fact → Bool
  | .subsumer x a => st.hasSubsumer x a
  | .edge r x y => st.hasEdge r x y

/-- Add a fact and put it on the agenda, unless it has been derived before. -/
def add (st : State o) (fact : Fact) : State o :=
  if st.holds fact then st
  else
    match fact with
    | .subsumer x a =>
        { st with
          subsumers := st.subsumers.insert x a
          nominalMembers :=
            if o.isNominalClass a then st.nominalMembers.insert a x else st.nominalMembers
          subsumerCount := st.subsumerCount + 1
          agenda := st.agenda.push fact }
    | .edge r x y =>
        { st with
          successors := st.successors.insert (r, x) y
          predecessors := st.predecessors.insert (r, y) x
          propertiesFrom := st.propertiesFrom.insert x r
          propertiesInto := st.propertiesInto.insert y r
          edgeCount := st.edgeCount + 1
          agenda := st.agenda.push fact }

/-- Add the facts in their order. -/
def addAll (st : State o) (facts : List Fact) : State o := facts.foldl add st

/-- The facts that hold without any rule: a class is included in itself and in everything,
and a reflexive property leads from each class to itself. -/
def axiomatic (o : Ontology) : List Fact :=
  o.classes.flatMap (fun x => [.subsumer x x, .subsumer x .top]) ++
    o.reflexive.flatMap fun r => o.classes.map fun x => .edge r x x

/-- The state before any rule is applied. -/
def initial (o : Ontology) : State o := (empty o).addAll (axiomatic o)

/-- The number of derived facts. -/
def factCount (st : State o) : Nat := st.subsumerCount + st.edgeCount

/-- All derived facts. -/
def facts (st : State o) : List Fact :=
  st.subsumers.toList.map (fun (x, a) => .subsumer x a) ++
    st.successors.toList.map fun ((r, x), y) => .edge r x y

/-- The nominal classes in `S(x)`. -/
def nominalsOf (st : State o) (x : ClassId) : List ClassId :=
  (st.subsumers.values x).filter o.isNominalClass

/-- The classes that edges of whatever property lead to from `x`. -/
def allSuccessors (st : State o) (x : ClassId) : List ClassId :=
  (st.propertiesFrom.values x).flatMap fun r => st.successors.values (r, x)

/-- Take note of an edge in the index of what is reachable, which is kept only for an
ontology with nominal classes. -/
def extendReachability (st : State o) (x y : ClassId) : State o × NewlyReachable :=
  if o.hasNominals then
    let (reachability, news) :=
      st.reachability.extend st.allSuccessors (st.edgeCount + 1) x y
    ({ st with reachability }, news)
  else (st, ⟨[], []⟩)

/-- Take the oldest fact from the agenda. -/
def pop? (st : State o) : Option (Fact × State o) :=
  st.agenda.pop?.map fun (fact, agenda) => (fact, { st with agenda })

end State

end OwlEl.Completion
