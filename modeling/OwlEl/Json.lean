/-!
# JSON values

Values of JSON as the codecs of this library read and write them. An integer is told
apart by how it is written: a number with a fraction or an exponent is a decimal even
when it is whole, so it never counts or identifies anything. The fields of an object
keep the order in which they are written, which carries no meaning.
-/

namespace OwlEl

/-- A JSON value. -/
inductive Json where
  | null
  | bool (value : Bool)
  /-- A number written without a fraction or an exponent. -/
  | integer (value : Int)
  /-- Any other number, which is `mantissa * 10 ^ (-places)`. -/
  | decimal (mantissa : Int) (places : Nat)
  | string (value : String)
  | array (items : List Json)
  | object (fields : List (String × Json))
deriving Inhabited

namespace Json

/-- A natural number, written as an integer. -/
def ofNat (n : Nat) : Json := .integer n

/-- An object of a single field, by which a choice among several forms is written. -/
def tagged (tag : String) (body : Json) : Json := .object [(tag, body)]

/-- The natural number below `bound` that the value is, written as an integer. -/
def natBelow? (bound : Nat) : Json → Option Nat
  | .integer (.ofNat n) => if n < bound then some n else none
  | _ => none

/-- The truth value that the value is. -/
def bool? : Json → Option Bool
  | .bool b => some b
  | _ => none

/-- The text that the value is. -/
def string? : Json → Option String
  | .string s => some s
  | _ => none

/-- The items of an array. -/
def items? : Json → Option (List Json)
  | .array items => some items
  | _ => none

/-- The fields of an object. -/
def fields? : Json → Option (List (String × Json))
  | .object fields => some fields
  | _ => none

/-- The value of the field of that name in an object. -/
def field? (name : String) : Json → Option Json
  | .object fields => fields.lookup name
  | _ => none

end Json

end OwlEl
