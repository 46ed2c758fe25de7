import OwlEl.Syntax.Term

/-!
# Reading and writing JSON

`JsonCodec` pairs the JSON form of a type with its reader. A choice among forms
is an object of exactly one field, named for the form; fields with names are
looked up by name and further ones are ignored; fields without names are an
array of exactly that length. A set is read from any order, with repetitions,
and written in ascending order.
-/

namespace OwlEl

/-- A type whose values are written to JSON and read back. -/
class JsonCodec (α : Type) where
  encode : α → Json
  decode? : Json → Option α

export JsonCodec (encode decode?)

variable {α : Type} [JsonCodec α]

/-- Read every item of an array. -/
def Json.list? (json : Json) : Option (List α) :=
  json.items?.bind fun items => items.mapM decode?

/-- Read an array as a set. -/
def Json.set? [Ord α] [Std.TransOrd α] (json : Json) : Option (List α) :=
  json.list?.map ascending

/-- Read the field of that name. -/
def Json.fieldAs? (name : String) (json : Json) : Option α :=
  (json.field? name).bind decode?

instance : JsonCodec Json := ⟨id, some⟩

instance {k : Kind} : JsonCodec (Id k) where
  encode id := id.term.toJson
  decode? json := (json.natBelow? UInt32.size).map fun n => ⟨.ofNat n⟩

/-- Read an entity from its kind and number. -/
def Entity.ofJson? : Json → Option Entity
  | .object [("Class", body)] => (decode? body : Option ClassId).map Entity.ofId
  | .object [("Property", body)] => (decode? body : Option PropertyId).map Entity.ofId
  | .object [("Individual", body)] => (decode? body : Option IndividualId).map Entity.ofId
  | _ => none

instance : JsonCodec Entity := ⟨fun e => e.term.toJson, Entity.ofJson?⟩

/-- Read a property expression. -/
def PropertyExpr.ofJson? : Json → Option PropertyExpr
  | .object [("Property", body)] => (decode? body).map .named
  | .object [("InverseOf", body)] => (decode? body).map .inverseOf
  | _ => none

instance : JsonCodec PropertyExpr := ⟨fun r => r.term.toJson, PropertyExpr.ofJson?⟩

namespace ClassExpr

mutual
/-- Read a class expression. -/
def ofJson? : Json → Option ClassExpr
  | .object [("Class", body)] => (decode? body).map .named
  | .object [("IntersectionOf", .array operands)] => (allOfJson? operands).map .and
  | .object [("SomeValuesFrom", .object fields)] => do
      return .existential (← (fields.lookup "property").bind PropertyExpr.ofJson?)
        (← fieldOfJson? "filler" fields)
  | .object [("OneOf", body)] => (decode? body).map .oneOf
  | _ => none

/-- Read several class expressions. -/
def allOfJson? : List Json → Option (List ClassExpr)
  | [] => some []
  | json :: rest => do return (← ofJson? json) :: (← allOfJson? rest)

/-- Read the first field of that name. -/
def fieldOfJson? (name : String) : List (String × Json) → Option ClassExpr
  | [] => none
  | (key, json) :: rest => if name = key then ofJson? json else fieldOfJson? name rest
end

end ClassExpr

instance : JsonCodec ClassExpr := ⟨fun e => e.term.toJson, ClassExpr.ofJson?⟩

/-- Read a normal form. The operands of a conjunction are kept as they are given. -/
def NormalAxiom.ofJson? : Json → Option NormalAxiom
  | .object [("Gci0", body)] =>
      .subsumption <$> body.fieldAs? "sub_class" <*> body.fieldAs? "super_class"
  | .object [("Gci1", body)] =>
      .conjunction <$> (body.field? "operands").bind Json.list? <*> body.fieldAs? "super_class"
  | .object [("Gci2", body)] =>
      .existsSuper <$> body.fieldAs? "sub_class" <*> body.fieldAs? "property" <*>
        body.fieldAs? "class_in_super"
  | .object [("Gci3", body)] =>
      .existsSub <$> body.fieldAs? "property" <*> body.fieldAs? "class_in_sub" <*>
        body.fieldAs? "super_class"
  | .object [("Ri1", body)] => .reflexive <$> body.fieldAs? "property"
  | .object [("Ri2", body)] =>
      .inclusion <$> body.fieldAs? "sub_property" <*> body.fieldAs? "super_property"
  | .object [("Ri3", body)] =>
      .composition <$> body.fieldAs? "left_sub_property" <*>
        body.fieldAs? "right_sub_property" <*> body.fieldAs? "super_property"
  | .object [("Nominal", body)] =>
      .nominal <$> body.fieldAs? "class" <*> body.fieldAs? "individual"
  | .object [("Range", body)] => .range <$> body.fieldAs? "property" <*> body.fieldAs? "range"
  | .object [("Functional", body)] => .functional <$> body.fieldAs? "property"
  | _ => none

instance : JsonCodec NormalAxiom := ⟨fun a => a.term.toJson, NormalAxiom.ofJson?⟩

/-- Read an axiom. -/
def Axiom.ofJson? : Json → Option Axiom
  | .object [("SubClassOf", .array [c, d])] => .subClassOf <$> decode? c <*> decode? d
  | .object [("EquivalentClasses", cs)] => .equivalentClasses <$> cs.set?
  | .object [("DisjointClasses", cs)] => .disjointClasses <$> cs.set?
  | .object [("SubPropertyOf", .array [r, s])] =>
      .subPropertyOf <$> decode? r <*> decode? s
  | .object [("SubPropertyChainOf", .array [chain, s])] =>
      .subPropertyChainOf <$> chain.list? <*> decode? s
  | .object [("EquivalentProperties", rs)] => .equivalentProperties <$> rs.set?
  | .object [("InverseProperties", .array [r, s])] =>
      .inverseProperties <$> decode? r <*> decode? s
  | .object [("PropertyDomain", .array [r, c])] =>
      .propertyDomain <$> decode? r <*> decode? c
  | .object [("PropertyRange", .array [r, c])] =>
      .propertyRange <$> decode? r <*> decode? c
  | .object [("FunctionalProperty", r)] => .functionalProperty <$> decode? r
  | .object [("ReflexiveProperty", r)] => .reflexiveProperty <$> decode? r
  | .object [("TransitiveProperty", r)] => .transitiveProperty <$> decode? r
  | .object [("ClassAssertion", .array [c, i])] =>
      .classAssertion <$> decode? c <*> decode? i
  | .object [("PropertyAssertion", .array [r, i, j])] =>
      .propertyAssertion <$> decode? r <*> decode? i <*> decode? j
  | .object [("NegativePropertyAssertion", .array [r, i, j])] =>
      .negativePropertyAssertion <$> decode? r <*> decode? i <*> decode? j
  | .object [("SameIndividual", is)] => .sameIndividual <$> is.set?
  | .object [("DifferentIndividuals", is)] => .differentIndividuals <$> is.set?
  | .object [("Normalized", body)] => .normal <$> decode? body
  | _ => none

instance : JsonCodec Axiom := ⟨fun a => a.term.toJson, Axiom.ofJson?⟩

end OwlEl
