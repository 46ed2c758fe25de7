import OwlEl.Syntax.Axiom

/-!
# How long normalization can take

The weight of an axiom bounds the number of steps that it takes to bring it and
all that replaces it into normal form: every step replaces an axiom by
axioms that together weigh less, and a normal form weighs one.
-/

namespace OwlEl

/-- What several parts weigh together. -/
def totalWeight (weights : List Nat) : Nat := weights.foldr (· + ·) 0

/-- Named classes weigh nothing. Every other part weighs enough to pay for the new
class that it may be named by and for the axiom that says so. -/
def ClassExpr.weight : ClassExpr → Nat :=
  fold
    { named := fun _ => 0
      intersection := fun operands => 3 + operands.length + totalWeight operands
      existential := fun _ filler => 2 + filler
      oneOf := fun _ => 4 }

namespace Axiom

/-- The weight of an inclusion between classes of the given weights. -/
def inclusionWeight (sub sup : Nat) : Nat := max 1 (sub + sup - 1)

/-- A bound for the inclusions between every two classes of the given weights. -/
def pairsWeight (weights : List Nat) : Nat :=
  1 + 2 * weights.length * totalWeight weights + 4 * weights.length * weights.length

/-- A bound on the number of steps that normalizing the axiom takes. -/
def weight : Axiom → Nat
  | .subClassOf c d => inclusionWeight c.weight d.weight
  | .equivalentClasses cs | .disjointClasses cs => pairsWeight (cs.map ClassExpr.weight)
  | .subPropertyOf .. => 2
  | .subPropertyChainOf chain _ => chain.length + 2
  | .equivalentProperties rs => 1 + 2 * rs.length * rs.length
  | .inverseProperties .. => 5
  | .propertyDomain _ c | .propertyRange _ c => c.weight + 3
  | .functionalProperty _ | .reflexiveProperty _ | .transitiveProperty _ => 2
  | .classAssertion c _ => c.weight + 5
  | .propertyAssertion .. => 11
  | .negativePropertyAssertion .. => 15
  | .sameIndividual is | .differentIndividuals is =>
      1 + pairsWeight (is.map fun _ => 4)
  | .normal _ => 1

end Axiom

end OwlEl
