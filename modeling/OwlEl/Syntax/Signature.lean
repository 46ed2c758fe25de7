import OwlEl.Entity

/-!
# Signatures

The entities that one or more axioms mention, kept apart by kind.
-/

namespace OwlEl

/-- Sets of classes, of properties and of individuals. -/
structure Signature where
  classes : OrderedSet ClassId
  properties : OrderedSet PropertyId
  individuals : OrderedSet IndividualId

namespace Signature

/-- Nothing is mentioned. -/
def empty : Signature := ⟨∅, ∅, ∅⟩

instance : EmptyCollection Signature := ⟨empty⟩

/-- The signature with the given classes, properties and individuals. -/
def ofLists (classes : List ClassId) (properties : List PropertyId)
    (individuals : List IndividualId) : Signature :=
  ⟨.ofList classes compare, .ofList properties compare, .ofList individuals compare⟩

/-- All entities of both. -/
def union (s t : Signature) : Signature :=
  ⟨s.classes ∪ t.classes, s.properties ∪ t.properties, s.individuals ∪ t.individuals⟩

instance : Union Signature := ⟨union⟩

/-- The entities in their canonical order: classes, properties, individuals. -/
def entities (s : Signature) : List Entity :=
  s.classes.toList.map Entity.ofId ++ s.properties.toList.map Entity.ofId ++
    s.individuals.toList.map Entity.ofId

end Signature

end OwlEl
