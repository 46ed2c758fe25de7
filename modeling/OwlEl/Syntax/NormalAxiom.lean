import OwlEl.Syntax.Signature

/-!
# Axioms in normal form

The ten forms on which the reasoner works:

| form           | meaning                          |
|----------------|----------------------------------|
| `subsumption`  | `A ⊑ B`                          |
| `conjunction`  | `A₁ ⊓ … ⊓ Aₙ ⊑ B` with `n ≥ 2`   |
| `existsSuper`  | `A ⊑ ∃r.B`                       |
| `existsSub`    | `∃r.A ⊑ B`                       |
| `reflexive`    | `r` is reflexive                 |
| `inclusion`    | `r ⊑ s`                          |
| `composition`  | `r ∘ s ⊑ t`                      |
| `nominal`      | `A ≡ {a}`                        |
| `range`        | everything `r` leads into is `A` |
| `functional`   | `r` is functional                |

The operands of a conjunction are meant to be ascending and at least two. A value
that breaks this can be read from outside, so `IsWellFormed` is a predicate.
-/

namespace OwlEl

/-- An axiom in one of the normal forms. -/
inductive NormalAxiom where
  | subsumption (sub sup : ClassId)
  | conjunction (operands : List ClassId) (sup : ClassId)
  | existsSuper (sub : ClassId) (property : PropertyId) (filler : ClassId)
  | existsSub (property : PropertyId) (filler sup : ClassId)
  | reflexive (property : PropertyId)
  | inclusion (sub sup : PropertyId)
  | composition (left right sup : PropertyId)
  | nominal (cls : ClassId) (individual : IndividualId)
  | range (property : PropertyId) (cls : ClassId)
  | functional (property : PropertyId)
deriving DecidableEq

namespace NormalAxiom

/-- The forms are ordered as they are declared, and each by its parts from left to right. -/
def shape : NormalAxiom → Shape
  | .subsumption a b => .node 0 [a.shape, b.shape]
  | .conjunction operands b => .node 1 [.list (operands.map Id.shape), b.shape]
  | .existsSuper a r b => .node 2 [a.shape, r.shape, b.shape]
  | .existsSub r a b => .node 3 [r.shape, a.shape, b.shape]
  | .reflexive r => .node 4 [r.shape]
  | .inclusion r s => .node 5 [r.shape, s.shape]
  | .composition r s t => .node 6 [r.shape, s.shape, t.shape]
  | .nominal a i => .node 7 [a.shape, i.shape]
  | .range r a => .node 8 [r.shape, a.shape]
  | .functional r => .node 9 [r.shape]

instance : Ord NormalAxiom := ⟨compareOn shape⟩

theorem shape_injective (a b : NormalAxiom) (h : a.shape = b.shape) : a = b := by
  cases a <;> cases b <;>
    simp_all [shape, Shape.list, Id.shape_inj, List.map_inj_right]

theorem shape_inj {a b : NormalAxiom} : a.shape = b.shape ↔ a = b :=
  ⟨shape_injective a b, congrArg shape⟩

instance : Std.TransOrd NormalAxiom := transOrd_of_shape fun _ _ => rfl

instance : Std.LawfulEqOrd NormalAxiom := lawfulEqOrd_of_shape (fun _ _ => rfl) shape_injective

/-- Whether the axiom speaks of classes and not of properties alone. -/
def isClassAxiom : NormalAxiom → Bool
  | .subsumption .. | .conjunction .. | .existsSuper .. | .existsSub .. | .nominal .. => true
  | .reflexive .. | .inclusion .. | .composition .. | .range .. | .functional .. => false

/-- A conjunction has at least two operands, in ascending order. -/
def IsWellFormed : NormalAxiom → Prop
  | .conjunction operands _ => 2 ≤ operands.length ∧ IsAscending operands
  | _ => True

instance (a : NormalAxiom) : Decidable a.IsWellFormed := by
  cases a <;> unfold IsWellFormed <;> infer_instance

/-- The entities that the axiom mentions. -/
def signature : NormalAxiom → Signature
  | .subsumption a b => .ofLists [a, b] [] []
  | .conjunction operands b => .ofLists (operands ++ [b]) [] []
  | .existsSuper a r b => .ofLists [a, b] [r] []
  | .existsSub r a b => .ofLists [a, b] [r] []
  | .reflexive r => .ofLists [] [r] []
  | .inclusion r s => .ofLists [] [r, s] []
  | .composition r s t => .ofLists [] [r, s, t] []
  | .nominal a i => .ofLists [a] [] [i]
  | .range r a => .ofLists [a] [r] []
  | .functional r => .ofLists [] [r] []

end NormalAxiom

end OwlEl
