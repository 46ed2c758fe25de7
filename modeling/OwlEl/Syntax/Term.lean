import OwlEl.Json
import OwlEl.Syntax.Axiom

/-!
# Written structure

Every identifier, expression and axiom has a structure to be written down: the
name of its constructor and its fields. It is written in two notations. The
structural text spells everything out and serves in messages; the JSON form is
the exchange format, read back by the codecs.
-/

namespace OwlEl

/-- What is to be written of a value. -/
inductive Term where
  /-- A number, with the name of what it numbers. -/
  | number (name : String) (value : Nat)
  /-- Items whose order matters. -/
  | sequence (items : List Term)
  /-- The members of a set in ascending order. -/
  | set (members : List Term)
  /-- A constructor with fields that are told apart by their position. -/
  | tuple (constructor : String) (fields : List Term)
  /-- A constructor with named fields. -/
  | record (constructor : String) (fields : List (String × Term))

namespace Term

/-- The texts one after the other, with commas between them. -/
def commaSeparated (texts : List String) : String := ", ".intercalate texts

mutual
/-- The structural text. -/
def text : Term → String
  | .number name value => name ++ "(" ++ toString value ++ ")"
  | .sequence items => "[" ++ commaSeparated (texts items) ++ "]"
  | .set members => "\x7b" ++ commaSeparated (texts members) ++ "\x7d"
  | .tuple constructor fields => constructor ++ "(" ++ commaSeparated (texts fields) ++ ")"
  | .record constructor fields =>
      constructor ++ " \x7b " ++ commaSeparated (fieldTexts fields) ++ " \x7d"

/-- The structural texts of several terms. -/
def texts : List Term → List String
  | [] => []
  | t :: ts => text t :: texts ts

/-- The structural texts of named fields. -/
def fieldTexts : List (String × Term) → List String
  | [] => []
  | (name, t) :: fields => (name ++ ": " ++ text t) :: fieldTexts fields
end

mutual
/-- The JSON form: a constructor is the only key of an object, and a single field
without a name stands there by itself. -/
def toJson : Term → Json
  | .number _ value => .ofNat value
  | .sequence items => .array (toJsons items)
  | .set members => .array (toJsons members)
  | .tuple constructor [field] => .tagged constructor (toJson field)
  | .tuple constructor fields => .tagged constructor (.array (toJsons fields))
  | .record constructor fields => .tagged constructor (.object (fieldJsons fields))

/-- The JSON forms of several terms. -/
def toJsons : List Term → List Json
  | [] => []
  | t :: ts => toJson t :: toJsons ts

/-- The JSON forms of named fields. -/
def fieldJsons : List (String × Term) → List (String × Json)
  | [] => []
  | (name, t) :: fields => (name, toJson t) :: fieldJsons fields
end

end Term

/-- The name under which the numbers of the kind are written. -/
def Kind.idName : Kind → String
  | .cls => "ClassId"
  | .property => "PropertyId"
  | .individual => "IndividualId"

/-- The constructor under which an entity of the kind is written. -/
def Kind.tag : Kind → String
  | .cls => "Class"
  | .property => "Property"
  | .individual => "Individual"

/-- An identifier is written as its number. -/
def Id.term {k : Kind} (id : Id k) : Term := .number k.idName id.position

/-- An entity is written as its number under its kind. -/
def Entity.term (e : Entity) : Term := .tuple e.kind.tag [e.id.term]

/-- The written structure of a property expression. -/
def PropertyExpr.term : PropertyExpr → Term
  | .named p => .tuple "Property" [p.term]
  | .inverseOf p => .tuple "InverseOf" [p.term]

/-- The written structure of a class expression. -/
def ClassExpr.term : ClassExpr → Term :=
  fold
    { named := fun c => .tuple "Class" [c.term]
      intersection := fun operands => .tuple "IntersectionOf" [.set operands]
      existential := fun r filler =>
        .record "SomeValuesFrom" [("property", r.term), ("filler", filler)]
      oneOf := fun i => .tuple "OneOf" [i.term] }

/-- The written structure of a normal form. -/
def NormalAxiom.term : NormalAxiom → Term
  | .subsumption a b => .record "Gci0" [("sub_class", a.term), ("super_class", b.term)]
  | .conjunction operands b =>
      .record "Gci1" [("operands", .sequence (operands.map Id.term)), ("super_class", b.term)]
  | .existsSuper a r b =>
      .record "Gci2" [("sub_class", a.term), ("property", r.term), ("class_in_super", b.term)]
  | .existsSub r a b =>
      .record "Gci3" [("property", r.term), ("class_in_sub", a.term), ("super_class", b.term)]
  | .reflexive r => .record "Ri1" [("property", r.term)]
  | .inclusion r s => .record "Ri2" [("sub_property", r.term), ("super_property", s.term)]
  | .composition r s t =>
      .record "Ri3" [("left_sub_property", r.term), ("right_sub_property", s.term),
        ("super_property", t.term)]
  | .nominal a i => .record "Nominal" [("class", a.term), ("individual", i.term)]
  | .range r a => .record "Range" [("property", r.term), ("range", a.term)]
  | .functional r => .record "Functional" [("property", r.term)]

/-- The written structure of an axiom. -/
def Axiom.term : Axiom → Term
  | .subClassOf c d => .tuple "SubClassOf" [c.term, d.term]
  | .equivalentClasses cs => .tuple "EquivalentClasses" [.set (cs.map ClassExpr.term)]
  | .disjointClasses cs => .tuple "DisjointClasses" [.set (cs.map ClassExpr.term)]
  | .subPropertyOf r s => .tuple "SubPropertyOf" [r.term, s.term]
  | .subPropertyChainOf chain s =>
      .tuple "SubPropertyChainOf" [.sequence (chain.map PropertyExpr.term), s.term]
  | .equivalentProperties rs =>
      .tuple "EquivalentProperties" [.set (rs.map PropertyExpr.term)]
  | .inverseProperties r s => .tuple "InverseProperties" [r.term, s.term]
  | .propertyDomain r c => .tuple "PropertyDomain" [r.term, c.term]
  | .propertyRange r c => .tuple "PropertyRange" [r.term, c.term]
  | .functionalProperty r => .tuple "FunctionalProperty" [r.term]
  | .reflexiveProperty r => .tuple "ReflexiveProperty" [r.term]
  | .transitiveProperty r => .tuple "TransitiveProperty" [r.term]
  | .classAssertion c i => .tuple "ClassAssertion" [c.term, i.term]
  | .propertyAssertion r i j => .tuple "PropertyAssertion" [r.term, i.term, j.term]
  | .negativePropertyAssertion r i j =>
      .tuple "NegativePropertyAssertion" [r.term, i.term, j.term]
  | .sameIndividual is => .tuple "SameIndividual" [.set (is.map Id.term)]
  | .differentIndividuals is => .tuple "DifferentIndividuals" [.set (is.map Id.term)]
  | .normal a => .tuple "Normalized" [a.term]

end OwlEl
