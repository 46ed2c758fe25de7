import OwlEl.Fault
import Std.Data.TreeMap

/-!
# The vocabulary

The vocabulary issues the identifiers of classes, properties and individuals, in
each kind one after the other from zero. A named entity is registered under its
name; auxiliary entities are minted for what has no name: the class that holds
one individual, the inverse of a property, and classes and properties that stand
for parts of axioms. An identifier is never withdrawn and what is recorded of it
never changes.

Actions on a vocabulary are of type `Minting`. An action that fails keeps what
it has added until then.
-/

namespace OwlEl

/-- What is known of an entity. -/
structure EntityRecord where
  name : String
  /-- Minted, and not registered under its name. -/
  auxiliary : Bool
deriving DecidableEq

/-- The entities of one kind. -/
structure NameTable (kind : Kind) where
  /-- The records of the issued identifiers in their order. -/
  records : Array EntityRecord
  /-- The registered names. -/
  ids : Std.TreeMap String (Id kind)

namespace NameTable

variable {k : Kind}

/-- No identifier has been issued. -/
def empty : NameTable k := ⟨#[], ∅⟩

/-- The number of issued identifiers. -/
def size (t : NameTable k) : Nat := t.records.size

/-- The identifier that is issued next. -/
def next (t : NameTable k) : Id k := ⟨.ofNat t.size⟩

/-- The record of an identifier, if it has been issued. -/
def record? (t : NameTable k) (id : Id k) : Option EntityRecord := t.records[id.position]?

/-- All issued identifiers. -/
def toList (t : NameTable k) : List (Id k) := (List.range t.size).map fun i => ⟨.ofNat i⟩

/-- Issue the next identifier with the given record. -/
def push (t : NameTable k) (record : EntityRecord) : NameTable k :=
  { t with records := t.records.push record }

/-- Issue the next identifier for a name that is not registered. -/
def register (t : NameTable k) (name : String) : NameTable k :=
  ⟨t.records.push ⟨name, false⟩, t.ids.insert name t.next⟩

end NameTable

/-- The issued identifiers of all kinds, with the correspondences between them. -/
structure Vocabulary where
  classes : NameTable .cls
  properties : NameTable .property
  individuals : NameTable .individual
  /-- The class that holds just the individual. -/
  nominalOf : Std.TreeMap IndividualId ClassId
  /-- The individual that the class was minted for. -/
  memberOf : Std.TreeMap ClassId IndividualId
  /-- Properties and their inverses, in both directions. -/
  inverses : Std.TreeMap PropertyId PropertyId

/-- Actions that may add to the vocabulary, and may fail. -/
abbrev Minting := EStateM Fault Vocabulary

namespace Vocabulary

/-- The vocabulary before anything but the reserved entities is registered. -/
def initial : Vocabulary where
  classes := (NameTable.empty.register "http://www.w3.org/2002/07/owl#Nothing").register
    "http://www.w3.org/2002/07/owl#Thing"
  properties := (NameTable.empty.register
    "http://www.w3.org/2002/07/owl#bottomObjectProperty").register
    "http://www.w3.org/2002/07/owl#topObjectProperty"
  individuals := .empty
  nominalOf := ∅
  memberOf := ∅
  inverses := ∅

/-- The entities of one kind. -/
def table (v : Vocabulary) : (k : Kind) → NameTable k
  | .cls => v.classes
  | .property => v.properties
  | .individual => v.individuals

/-- Change the entities of one kind. -/
def modifyTable (v : Vocabulary) : {k : Kind} → (NameTable k → NameTable k) → Vocabulary
  | .cls, f => { v with classes := f v.classes }
  | .property, f => { v with properties := f v.properties }
  | .individual, f => { v with individuals := f v.individuals }

/-- Whether the entity has been issued. -/
def contains (v : Vocabulary) (e : Entity) : Bool := e.id.position < (v.table e.kind).size

/-- The entity that is registered under the name. -/
def idOf? (v : Vocabulary) (k : Kind) (name : String) : Option (Id k) := (v.table k).ids[name]?

/-- The inverse of the property, if one exists. The reserved properties are their
own inverses. -/
def inverse? (v : Vocabulary) (p : PropertyId) : Option PropertyId :=
  if p = .top ∨ p = .bottom then some p else v.inverses[p]?

/-- What is recorded of an issued entity. -/
def record (v : Vocabulary) (e : Entity) : Except Fault EntityRecord :=
  match (v.table e.kind).record? e.id with
  | some record => .ok record
  | none => .error (.notIssued e)

/-- The name of an issued entity. -/
def nameOf (v : Vocabulary) (e : Entity) : Except Fault String :=
  EntityRecord.name <$> v.record e

/-- Whether an issued entity was minted and not registered under its name. -/
def isAuxiliary (v : Vocabulary) (e : Entity) : Except Fault Bool :=
  EntityRecord.auxiliary <$> v.record e

end Vocabulary

namespace Minting

/-- An answer that needs only what the vocabulary holds already. -/
def ofExcept {α : Type} : Except Fault α → Minting α
  | .ok a => pure a
  | .error fault => throw fault

/-- The identifier that is issued next, unless the last one has been issued. -/
def next (k : Kind) : Minting (Id k) := do
  let t := (← get).table k
  if t.size < UInt32.size - 1 then return t.next else throw .idsExhausted

/-- The entity of that name, registered at its first use. -/
def register (k : Kind) (name : String) : Minting (Id k) := do
  match (← get).idOf? k name with
  | some id => return id
  | none =>
      let id ← next k
      modify fun v => v.modifyTable fun t : NameTable k => t.register name
      return id

/-- A new auxiliary entity, named after its identifier. -/
def mint (k : Kind) (name : Id k → String) : Minting (Id k) := do
  let id ← next k
  modify fun v => v.modifyTable fun t : NameTable k => t.push ⟨name id, true⟩
  return id

/-- A class that stands for a part of an axiom. -/
def freshClass : Minting ClassId := mint .cls fun c => "_:class" ++ c.text

/-- A property that stands for a part of an axiom. -/
def freshProperty : Minting PropertyId := mint .property fun p => "_:property" ++ p.text

/-- The class that holds just the individual, minted at its first use. -/
def nominalOf (i : IndividualId) : Minting ClassId := do
  match (← get).nominalOf[i]? with
  | some c => return c
  | none =>
      let name ← ofExcept ((← get).nameOf i)
      let c ← mint .cls fun _ => "\x7b" ++ name ++ "\x7d"
      modify fun v =>
        { v with nominalOf := v.nominalOf.insert i c, memberOf := v.memberOf.insert c i }
      return c

/-- The inverse of the property, minted at its first use. -/
def inverseOf (p : PropertyId) : Minting PropertyId := do
  match (← get).inverse? p with
  | some q => return q
  | none =>
      let name ← ofExcept ((← get).nameOf p)
      let q ← mint .property fun _ => "ObjectInverseOf(" ++ name ++ ")"
      modify fun v => { v with inverses := (v.inverses.insert p q).insert q p }
      return q

/-- The property that the expression stands for, an inverse being minted at its first use. -/
def resolve : PropertyExpr → Minting PropertyId
  | .named p => return p
  | .inverseOf p => inverseOf p

end Minting

end OwlEl
