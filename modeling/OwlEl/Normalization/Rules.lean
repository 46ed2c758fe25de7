import OwlEl.Vocabulary

/-!
# Steps towards normal form

One step of normalization replaces an axiom by axioms that say the same, given
what the vocabulary says of the entities minted for the step. `replacement?` selects
the step: an axiom other than an inclusion has a step by its form, and for an
inclusion the rules of `inclusionRules` are tried in their order. An inclusion
to which none applies has one of the four shapes that `toNormal` reads as a
normal form.
-/

namespace OwlEl.Normalization

/-- The axioms that take the place of an axiom. -/
abbrev Replacement := Minting (List Axiom)

/-! ## Axioms other than inclusions -/

/-- Every two of the classes include each other. -/
def mutualInclusions (classes : List ClassExpr) : List Axiom :=
  classes.flatMap fun c => (classes.filter (c ≠ ·)).map (.subClassOf c)

/-- Every two of the classes have nothing in common. -/
def disjointPairs : List ClassExpr → List Axiom
  | [] => []
  | c :: rest =>
      rest.map (fun d => .subClassOf (.and [c, d]) (.named .bottom)) ++ disjointPairs rest

/-- Every two of the properties include each other. -/
def mutualPropertyInclusions (properties : List PropertyExpr) : List Axiom :=
  properties.flatMap fun r => (properties.filter (r ≠ ·)).map (.subPropertyOf r)

/-- The class of all that `property` leads to the individual `object`. -/
def assertedEdge (property : PropertyExpr) (object : IndividualId) : ClassExpr :=
  .existential property (.oneOf object)

/-- An inclusion of a property in itself says nothing. -/
def subProperty (r s : PropertyExpr) : Replacement :=
  if r = s then return [] else do
    let r ← Minting.resolve r
    let s ← Minting.resolve s
    return [.normal (.inclusion r s)]

/-- A chain, given from right to left, is shortened from the right: its last property
and a new property for the rest compose to `sup`. -/
def foldChain : List PropertyId → PropertyId → Replacement
  | [], sup => return [.normal (.reflexive sup)]
  | [r], sup => return [.normal (.inclusion r sup)]
  | [right, left], sup => return [.normal (.composition left right sup)]
  | last :: rest, sup => do
      let shorter ← Minting.freshProperty
      return .normal (.composition shorter last sup) :: (← foldChain rest shorter)

/-- The inverses in a chain are minted from left to right, and then that of `sup`. -/
def propertyChain (chain : List PropertyExpr) (sup : PropertyExpr) : Replacement := do
  let chain ← chain.mapM Minting.resolve
  let sup ← Minting.resolve sup
  foldChain chain.reverse sup

/-- Each of the two properties is the other's inverse. -/
def inverseProperties (r s : PropertyId) : Replacement := do
  let r' ← Minting.inverseOf r
  let s' ← Minting.inverseOf s
  return [.inclusion s r', .inclusion r' s, .inclusion r s', .inclusion s' r].map .normal

/-- A class that is not named is given a name first. -/
def propertyRange (property : PropertyExpr) (range : ClassExpr) : Replacement := do
  let property ← Minting.resolve property
  match range.asNamed? with
  | some c => return [.normal (.range property c)]
  | none =>
      let fresh ← Minting.freshClass
      return [.normal (.range property fresh), .subClassOf fresh range]

/-! ## Inclusions -/

/-- A rule for inclusions either does not apply or says what replaces the inclusion. -/
abbrev InclusionRule := ClassExpr → ClassExpr → Option Replacement

/-- An empty class is included in every class. -/
def dropEmptySub : InclusionRule := fun c _ =>
  if c.containsBottom then some (return []) else none

/-- What is included in everything, in itself or in one of its own operands says nothing. -/
def dropTrivial : InclusionRule := fun c d =>
  let amongOperands : Bool :=
    match c with
    | .intersection operands => operands.contains d
    | _ => false
  if d = .named .top ∨ c = d ∨ amongOperands then some (return []) else none

/-- An intersection of one class is that class, and one of none is everything. -/
def sole? : ClassExpr → Option ClassExpr
  | .intersection [] => some (.named .top)
  | .intersection [e] => some e
  | _ => none

/-- An intersection of fewer than two classes is replaced on either side. -/
def unwrapIntersection : InclusionRule := fun c d =>
  if (sole? c).isSome ∨ (sole? d).isSome then
    some (return [.subClassOf ((sole? c).getD c) ((sole? d).getD d)])
  else none

/-- A nominal to the right is replaced by its class. -/
def nameNominalSuper : InclusionRule := fun c d =>
  match d with
  | .oneOf i => some do
      let nominal ← Minting.nominalOf i
      return [.subClassOf c nominal, .normal (.nominal nominal i)]
  | _ => none

/-- The expression with the class of each nominal in place of the nominal, and what
these classes are. -/
def nameNominals : ClassExpr → Minting (ClassExpr × List NormalAxiom) :=
  ClassExpr.fold
    { named := fun c => return (.named c, [])
      intersection := fun operands => do
        let operands ← operands.mapM id
        return (.and (operands.map Prod.fst), operands.flatMap Prod.snd)
      existential := fun r filler => do
        let (filler, nominals) ← filler
        return (.existential r filler, nominals)
      oneOf := fun i => do
        let c ← Minting.nominalOf i
        return (.named c, [.nominal c i]) }

/-- Nominals anywhere in the inclusion are replaced by their classes. -/
def nameAllNominals : InclusionRule := fun c d =>
  if c.containsNominal ∨ d.containsNominal then some do
    let (c, nominals) ← nameNominals c
    let (d, nominals') ← nameNominals d
    return .subClassOf c d :: (nominals ++ nominals').map .normal
  else none

/-- To lie in an intersection is to lie in each operand. -/
def splitSuper : InclusionRule := fun c d =>
  match d with
  | .intersection operands =>
      if c.isNamed then some (return operands.map (.subClassOf c)) else none
  | _ => none

/-- Between two compound classes a new class is put. -/
def nameBetween : InclusionRule := fun c d =>
  if ¬c.isNamed ∧ ¬d.isNamed then some do
    let fresh ← Minting.freshClass
    return [.subClassOf c fresh, .subClassOf fresh d]
  else none

/-- A compound filler to the right is replaced by a new class below it. -/
def nameFillerSuper : InclusionRule := fun c d =>
  match d with
  | .existential r filler =>
      if c.isNamed ∧ ¬filler.isNamed then some do
        let fresh ← Minting.freshClass
        return [.subClassOf c (.existential r fresh), .subClassOf fresh filler]
      else none
  | _ => none

/-- Whether the expression is an intersection. -/
def isIntersection : ClassExpr → Bool
  | .intersection _ => true
  | _ => false

/-- The operands with those of the intersections among them in their place. -/
def flatten (operands : List ClassExpr) : List ClassExpr :=
  operands.flatMap fun
    | .intersection inner => inner
    | e => [e]

/-- Intersections within an intersection to the left are dissolved; when there are
none, the first compound operand is replaced by a new class above it. -/
def simplifyOperands : InclusionRule := fun c d =>
  match c with
  | .intersection operands =>
      if ¬d.isNamed then none
      else if operands.any isIntersection then
        some (return [.subClassOf (.and (flatten operands)) d])
      else
        (operands.find? (¬·.isNamed)).map fun compound => do
          let fresh ← Minting.freshClass
          return [.subClassOf compound fresh,
            .subClassOf (.and (.named fresh :: operands.filter (· ≠ compound))) d]
  | _ => none

/-- A compound filler to the left is replaced by a new class above it. -/
def nameFillerSub : InclusionRule := fun c d =>
  match c with
  | .existential r filler =>
      if d.isNamed ∧ ¬filler.isNamed then some do
        let fresh ← Minting.freshClass
        return [.subClassOf filler fresh, .subClassOf (.existential r fresh) d]
      else none
  | _ => none

/-- The rules for inclusions; the first that applies is taken. -/
def inclusionRules : List InclusionRule :=
  [ dropEmptySub, dropTrivial, unwrapIntersection, nameNominalSuper, nameAllNominals,
    splitSuper, nameBetween, nameFillerSuper, simplifyOperands, nameFillerSub ]

/-! ## Every axiom -/

/-- What takes the place of the axiom, if a step is left to do. -/
def replacement? : Axiom → Option Replacement
  | .subClassOf c d => inclusionRules.findSome? fun rule => rule c d
  | .equivalentClasses classes => some (return mutualInclusions classes)
  | .disjointClasses classes => some (return disjointPairs classes)
  | .subPropertyOf r s => some (subProperty r s)
  | .subPropertyChainOf chain sup => some (propertyChain chain sup)
  | .equivalentProperties properties => some (return mutualPropertyInclusions properties)
  | .inverseProperties r s => some (inverseProperties r s)
  | .propertyDomain r domain =>
      some (return [.subClassOf (.existential r (.named .top)) domain])
  | .propertyRange r range => some (propertyRange r range)
  | .functionalProperty r => some (return [.normal (.functional (← Minting.resolve r))])
  | .reflexiveProperty r => some (return [.normal (.reflexive (← Minting.resolve r))])
  | .transitiveProperty r => some do
      let r ← Minting.resolve r
      return [.normal (.composition r r r)]
  | .classAssertion c i => some (return [.subClassOf (.oneOf i) c])
  | .propertyAssertion r i j => some (return [.subClassOf (.oneOf i) (assertedEdge r j)])
  | .negativePropertyAssertion r i j =>
      some (return [.subClassOf (.and [.oneOf i, assertedEdge r j]) (.named .bottom)])
  | .sameIndividual individuals => some (return [.equivalent (individuals.map .oneOf)])
  | .differentIndividuals individuals => some (return [.disjoint (individuals.map .oneOf)])
  | .normal _ => none

/-- The inclusion of an intersection of named classes. Among the operands, the class of
everything says nothing. -/
def intersectionToNormal (operands : List ClassId) (sup : ClassId) : Except Fault NormalAxiom :=
  match operands.filter (· ≠ .top) with
  | [] => .ok (.subsumption .top sup)
  | [c] => .ok (.subsumption c sup)
  | operands => NormalAxiom.conjunctionOf operands sup

/-- The normal form of an axiom for which no step is left. -/
def toNormal (source : Axiom) : Minting NormalAxiom :=
  match source with
  | .subClassOf (.named a) (.named b) => return .subsumption a b
  | .subClassOf (.intersection operands) (.named b) =>
      match operands.mapM ClassExpr.asNamed? with
      | some operands => Minting.ofExcept (intersectionToNormal operands b)
      | none => throw (.noNormalForm source)
  | .subClassOf (.named a) (.existential r (.named b)) =>
      return .existsSuper a (← Minting.resolve r) b
  | .subClassOf (.existential r (.named a)) (.named b) =>
      return .existsSub (← Minting.resolve r) a b
  | _ => throw (.noNormalForm source)

end OwlEl.Normalization
