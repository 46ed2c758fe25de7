import OwlEl.Data.Grouping
import OwlEl.Data.Layers
import OwlEl.Vocabulary

/-!
# Ontologies

An ontology is a set of normal forms with the tables by which the completion
rules look them up. Every table lists what it holds in the order of the axioms.
`Ontology.build` refuses axioms that are malformed or that mention an entity not
in the vocabulary.
-/

namespace OwlEl

/-- The left-hand side of an axiom `A₁ ⊓ … ⊓ Aₙ ⊑ B`, with `B`. -/
structure Conjunction where
  operands : List ClassId
  sup : ClassId
deriving DecidableEq

/-- An axiom `left ∘ right ⊑ sup` between properties. -/
structure Composition where
  left : PropertyId
  right : PropertyId
  sup : PropertyId
deriving DecidableEq

/-- A set of normal forms and the tables over it. -/
structure Ontology where
  /-- The axioms in ascending order. -/
  axioms : List NormalAxiom
  /-- What each of the axioms mentions. -/
  signatures : List Signature
  /-- What the axioms mention together. -/
  signature : Signature
  /-- The classes of the vocabulary, whether they are mentioned or not. -/
  classes : List ClassId
  /-- The properties of the vocabulary, whether they are mentioned or not. -/
  properties : List PropertyId
  /-- The individuals that are mentioned. -/
  individuals : List IndividualId
  /-- The `B` of the axioms `A ⊑ B`, by `A`. -/
  supers : Grouping ClassId ClassId
  /-- The conjunctions, by each of their operands. -/
  conjunctions : Grouping ClassId Conjunction
  /-- The `(r, B)` of the axioms `A ⊑ ∃r.B`, by `A`. -/
  existsSupers : Grouping ClassId (PropertyId × ClassId)
  /-- The `(A, B)` of the axioms `∃r.A ⊑ B`, by `r`. -/
  existsSubsByProperty : Grouping PropertyId (ClassId × ClassId)
  /-- The `(r, B)` of the axioms `∃r.A ⊑ B`, by `A`. -/
  existsSubsByFiller : Grouping ClassId (PropertyId × ClassId)
  /-- The `B` of the axioms `∃r.A ⊑ B`, by `r` and `A`. -/
  existsSubs : Grouping (PropertyId × ClassId) ClassId
  /-- The `s` of the axioms `r ⊑ s`, by `r`. -/
  directSupers : Grouping PropertyId PropertyId
  /-- The `r` of the axioms `r ⊑ s`, by `s`. -/
  directSubs : Grouping PropertyId PropertyId
  /-- The compositions, by the property on the left. -/
  compositionsByLeft : Grouping PropertyId Composition
  /-- The compositions, by the property on the right. -/
  compositionsByRight : Grouping PropertyId Composition
  /-- What lies above each property, nearest first, beginning with the property itself. -/
  superProperties : Std.TreeMap PropertyId (List PropertyId)
  /-- What lies below each property, nearest first, beginning with the property itself. -/
  subProperties : Std.TreeMap PropertyId (List PropertyId)
  /-- The nominal classes, by the individual they hold. -/
  nominalsByIndividual : Grouping IndividualId ClassId
  /-- The individuals with the nominal classes that hold them. -/
  nominals : List (IndividualId × ClassId)
  /-- The nominal classes. -/
  nominalClasses : Std.TreeSet ClassId
  /-- The classes that a property leads into, by the property. -/
  ranges : Grouping PropertyId ClassId
  /-- The reflexive properties in ascending order. -/
  reflexive : List PropertyId
  /-- The functional properties. -/
  functional : OrderedSet PropertyId

namespace Ontology

/-- Refuse an axiom that is malformed or mentions what the vocabulary does not contain, the
first such entity in the order of entities being reported. -/
def accept (v : Vocabulary) (a : NormalAxiom) : Except Fault Unit := do
  a.check
  match a.signature.entities.find? (¬v.contains ·) with
  | some e => throw (.unknownEntity e)
  | none => return ()

/-- What the properties lead to along the given edges, for every property. -/
def closure (edges : Grouping PropertyId PropertyId) (properties : List PropertyId) :
    Std.TreeMap PropertyId (List PropertyId) :=
  .ofList (properties.map fun r => (r, Layers.reachable edges.get properties.length r)) compare

/-- The tables over axioms that are in ascending order. -/
def ofAxioms (v : Vocabulary) (axioms : List NormalAxiom) : Ontology :=
  let signatures := axioms.map NormalAxiom.signature
  let signature := signatures.foldl .union ∅
  let properties :=
    (Std.ExtTreeSet.ofList v.properties.toList compare ∪ signature.properties).toList
  let directSupers := .ofList <| axioms.filterMap fun
    | .inclusion r s => some (r, s)
    | _ => none
  let directSubs := .ofList <| axioms.filterMap fun
    | .inclusion r s => some (s, r)
    | _ => none
  let nominals := axioms.filterMap fun
    | .nominal a i => some (i, a)
    | _ => none
  { axioms, signatures, signature, properties, directSupers, directSubs, nominals
    classes := (Std.ExtTreeSet.ofList v.classes.toList compare ∪ signature.classes).toList
    individuals := signature.individuals.toList
    supers := .ofList <| axioms.filterMap fun
      | .subsumption a b => some (a, b)
      | _ => none
    conjunctions := .ofList <| axioms.flatMap fun
      | .conjunction operands b => operands.map (·, ⟨operands, b⟩)
      | _ => []
    existsSupers := .ofList <| axioms.filterMap fun
      | .existsSuper a r b => some (a, (r, b))
      | _ => none
    existsSubsByProperty := .ofList <| axioms.filterMap fun
      | .existsSub r a b => some (r, (a, b))
      | _ => none
    existsSubsByFiller := .ofList <| axioms.filterMap fun
      | .existsSub r a b => some (a, (r, b))
      | _ => none
    existsSubs := .ofList <| axioms.filterMap fun
      | .existsSub r a b => some ((r, a), b)
      | _ => none
    compositionsByLeft := .ofList <| axioms.filterMap fun
      | .composition r s t => some (r, ⟨r, s, t⟩)
      | _ => none
    compositionsByRight := .ofList <| axioms.filterMap fun
      | .composition r s t => some (s, ⟨r, s, t⟩)
      | _ => none
    superProperties := closure directSupers properties
    subProperties := closure directSubs properties
    nominalsByIndividual := .ofList nominals
    nominalClasses := .ofList (nominals.map Prod.snd) compare
    ranges := .ofList <| axioms.filterMap fun
      | .range r a => some (r, a)
      | _ => none
    reflexive := ascending <| axioms.filterMap fun
      | .reflexive r => some r
      | _ => none
    functional := .ofList (axioms.filterMap fun
      | .functional r => some r
      | _ => none) compare }

/-- The ontology of the axioms, all of whose entities must be in the vocabulary. The first
axiom to be refused is reported. -/
def build (v : Vocabulary) (axioms : OrderedSet NormalAxiom) : Except Fault Ontology := do
  axioms.toList.forM (accept v)
  return ofAxioms v axioms.toList

variable (o : Ontology)

/-- The property and all above it, nearest first. -/
def propertiesAbove (r : PropertyId) : List PropertyId := o.superProperties.getD r []

/-- The property and all below it, nearest first. -/
def propertiesBelow (r : PropertyId) : List PropertyId := o.subProperties.getD r []

/-- Whether the class holds just one individual. -/
def isNominalClass (c : ClassId) : Bool := o.nominalClasses.contains c

/-- Whether there are nominal classes at all. -/
def hasNominals : Bool := !o.nominalClasses.isEmpty

end Ontology

end OwlEl
