import OwlEl.Syntax.NormalAxiom

/-!
# The text of a normal form

A normal form is shown in functional style: the form's short name and its parts,
a compound class by the name of its constructor.
-/

namespace OwlEl.NormalAxiom

/-- A name applied to arguments. -/
def applied (name : String) (arguments : List String) : String :=
  name ++ "(" ++ " ".intercalate arguments ++ ")"

/-- The intersection of named classes in functional style. -/
def intersectionText (operands : List ClassId) : String :=
  applied "ObjectIntersectionOf" (operands.map Id.text)

/-- An existential restriction to a named class in functional style. -/
def existentialText (r : PropertyId) (filler : ClassId) : String :=
  applied "ObjectSomeValuesFrom" [r.text, filler.text]

/-- The axiom in functional style. -/
def text : NormalAxiom → String
  | .subsumption a b => applied "GCI0" [a.text, b.text]
  | .conjunction operands b => applied "GCI1" [intersectionText operands, b.text]
  | .existsSuper a r b => applied "GCI2" [a.text, existentialText r b]
  | .existsSub r a b => applied "GCI3" [existentialText r a, b.text]
  | .reflexive r => applied "RI1" [r.text]
  | .inclusion r s => applied "RI2" [r.text, s.text]
  | .composition r s t =>
      applied "RI3" [applied "ObjectPropertyChain" [r.text, s.text], t.text]
  | .nominal a i => applied "Nominal" [a.text, applied "ObjectOneOf" [i.text]]
  | .range r a => applied "Range" [r.text, a.text]
  | .functional r => applied "Functional" [r.text]

end OwlEl.NormalAxiom
