import Std.Data.ExtTreeSet

/-!
# The canonical order of structured values

Entities, expressions and axioms share one total order: first the position of
the constructor within its type, then the fields from left to right, a list
being compared element by element with a proper initial segment first. A value
is reduced to its `Shape`, a finite tree of numbers, and shapes are compared.

Main statements: `eq_of_compare`, `compare_swap` and `compare_trans`, which
together say that the comparison of shapes is a total order whose equality is
identity; `transOrd_of_shape` and `lawfulEqOrd_of_shape` carry this over to
every type with an injective shape.
-/

namespace OwlEl

/-- The position of a value's constructor and the shapes of its fields. -/
inductive Shape where
  | node (rank : Nat) (parts : List Shape)

namespace Shape

/-- The shape of a number. -/
def leaf (n : Nat) : Shape := .node n []

/-- The shape of a list or of a set in ascending order. -/
def list (parts : List Shape) : Shape := .node 0 parts

mutual
/-- The constructors decide, then the fields from left to right. -/
def compare : Shape → Shape → Ordering
  | .node m xs, .node n ys => (Ord.compare m n).then (compareParts xs ys)

/-- The first difference decides, and a proper initial segment is smaller. -/
def compareParts : List Shape → List Shape → Ordering
  | [], [] => .eq
  | [], _ :: _ => .lt
  | _ :: _, [] => .gt
  | x :: xs, y :: ys => (compare x y).then (compareParts xs ys)
end

instance : Ord Shape := ⟨compare⟩

theorem compare_def (a b : Shape) : Ord.compare a b = a.compare b := rfl

mutual
theorem eq_of_compare : ∀ a b : Shape, compare a b = .eq → a = b
  | .node m xs, .node n ys, h => by
      rw [compare, Ordering.then_eq_eq, Nat.compare_eq_eq] at h
      rw [h.1, eq_of_compareParts xs ys h.2]

theorem eq_of_compareParts : ∀ xs ys : List Shape, compareParts xs ys = .eq → xs = ys
  | [], [], _ => rfl
  | [], _ :: _, h => by simp [compareParts] at h
  | _ :: _, [], h => by simp [compareParts] at h
  | x :: xs, y :: ys, h => by
      rw [compareParts, Ordering.then_eq_eq] at h
      rw [eq_of_compare x y h.1, eq_of_compareParts xs ys h.2]
end

mutual
theorem compare_swap : ∀ a b : Shape, compare a b = (compare b a).swap
  | .node m xs, .node n ys => by
      rw [compare, compare, Ordering.swap_then, Nat.compare_swap, compareParts_swap xs ys]

theorem compareParts_swap :
    ∀ xs ys : List Shape, compareParts xs ys = (compareParts ys xs).swap
  | [], [] => rfl
  | [], _ :: _ => rfl
  | _ :: _, [] => rfl
  | x :: xs, y :: ys => by
      rw [compareParts, compareParts, Ordering.swap_then, compare_swap x y,
        compareParts_swap xs ys]
end

theorem then_eq_lt_iff {o p : Ordering} : o.then p = .lt ↔ o = .lt ∨ o = .eq ∧ p = .lt := by
  cases o <;> simp [Ordering.then]

mutual
theorem compare_trans :
    ∀ a b c : Shape, compare a b = .lt → compare b c = .lt → compare a c = .lt
  | .node m xs, .node n ys, .node k zs, h, h' => by
      rw [compare, then_eq_lt_iff] at *
      simp only [Nat.compare_eq_lt, Nat.compare_eq_eq] at *
      rcases h with h | ⟨h, hp⟩ <;> rcases h' with h' | ⟨h', hp'⟩
      · exact .inl (by omega)
      · exact .inl (by omega)
      · exact .inl (by omega)
      · exact .inr ⟨by omega, compareParts_trans xs ys zs hp hp'⟩

theorem compareParts_trans :
    ∀ xs ys zs : List Shape,
      compareParts xs ys = .lt → compareParts ys zs = .lt → compareParts xs zs = .lt
  | [], [], [], h, _ => h
  | [], _ :: _, [], _, h' => by simp [compareParts] at h'
  | [], _, _ :: _, _, _ => by simp [compareParts]
  | _ :: _, [], _, h, _ => by simp [compareParts] at h
  | _ :: _, _ :: _, [], _, h' => by simp [compareParts] at h'
  | x :: xs, y :: ys, z :: zs, h, h' => by
      rw [compareParts, then_eq_lt_iff] at *
      rcases h with h | ⟨h, hp⟩ <;> rcases h' with h' | ⟨h', hp'⟩
      · exact .inl (compare_trans x y z h h')
      · exact .inl (eq_of_compare y z h' ▸ h)
      · exact .inl (eq_of_compare x y h ▸ h')
      · rw [eq_of_compare x y h, h']
        exact .inr ⟨rfl, compareParts_trans xs ys zs hp hp'⟩
end

theorem compare_self (a : Shape) : compare a a = .eq := by
  have h := compare_swap a a
  cases hc : compare a a <;> simp [hc] at h ⊢

instance : Std.TransOrd Shape where
  eq_swap := compare_swap _ _
  isLE_trans := by
    intro a b c h h'
    rw [compare_def] at *
    cases hab : compare a b with
    | gt => simp [hab] at h
    | eq => rwa [eq_of_compare a b hab]
    | lt =>
        cases hbc : compare b c with
        | gt => simp [hbc] at h'
        | eq => rw [← eq_of_compare b c hbc, hab]; rfl
        | lt => rw [compare_trans a b c hab hbc]; rfl

end Shape

section OfShape

variable {α : Type} [Ord α] {shape : α → Shape}

/-- An order read off the shapes is a total preorder. -/
theorem transOrd_of_shape (h : ∀ a b : α, compare a b = compare (shape a) (shape b)) :
    Std.TransOrd α where
  eq_swap := by intro a b; rw [h, h]; exact Shape.compare_swap _ _
  isLE_trans := by
    intro a b c hab hbc
    rw [h] at *
    exact Std.TransCmp.isLE_trans hab hbc

/-- An order read off shapes that determine the value identifies only equal values. -/
theorem lawfulEqOrd_of_shape (h : ∀ a b : α, compare a b = compare (shape a) (shape b))
    (inj : ∀ a b : α, shape a = shape b → a = b) : Std.LawfulEqOrd α where
  compare_self := by intro a; rw [h]; exact Shape.compare_self _
  eq_of_compare := by intro a b hab; rw [h] at hab; exact inj a b (Shape.eq_of_compare _ _ hab)

end OfShape

end OwlEl
