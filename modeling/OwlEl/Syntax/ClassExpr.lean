import OwlEl.Syntax.PropertyExpr

/-!
# Class expressions

Class expressions of OWL 2 EL: named classes, intersections, existential
restrictions and nominals of one individual. The operands of an intersection
form a set and are kept in ascending order; `IsCanonical` says so at every
depth, and `ClassExpr.and` builds such intersections.

Main statements: `fold_intersection`, by which functions on expressions are
computed, `ClassExpr.induction`, by which facts on them are shown, and the laws
of the canonical order.
-/

namespace OwlEl

/-- A class expression. -/
inductive ClassExpr where
  | named (cls : ClassId)
  /-- The operands are a set, listed in ascending order. -/
  | intersection (operands : List ClassExpr)
  /-- The things that some `property` leads into `filler`. -/
  | existential (property : PropertyExpr) (filler : ClassExpr)
  /-- The class that holds one individual. -/
  | oneOf (individual : IndividualId)

namespace ClassExpr

universe u

instance : Coe ClassId ClassExpr := ⟨named⟩

/-- What a function computes at each form of expression from its values below. -/
structure Algebra (β : Type u) where
  named : ClassId → β
  intersection : List β → β
  existential : PropertyExpr → β → β
  oneOf : IndividualId → β

variable {β : Type u}

mutual
/-- Compute a value from the leaves upwards. -/
def fold (alg : Algebra β) : ClassExpr → β
  | .named c => alg.named c
  | .intersection operands => alg.intersection (foldAll alg operands)
  | .existential r filler => alg.existential r (fold alg filler)
  | .oneOf i => alg.oneOf i

/-- Compute the values of several expressions. -/
def foldAll (alg : Algebra β) : List ClassExpr → List β
  | [] => []
  | e :: es => fold alg e :: foldAll alg es
end

theorem foldAll_eq_map (alg : Algebra β) (es : List ClassExpr) :
    foldAll alg es = es.map (fold alg) := by
  induction es with
  | nil => rfl
  | cons e es ih => rw [foldAll, ih, List.map_cons]

theorem fold_intersection (alg : Algebra β) (operands : List ClassExpr) :
    fold alg (.intersection operands) = alg.intersection (operands.map (fold alg)) := by
  rw [fold, foldAll_eq_map]

/-- A property of expressions holds of all if it passes from the parts to the whole. -/
@[elab_as_elim]
theorem induction {motive : ClassExpr → Prop} (named : ∀ c, motive (.named c))
    (intersection : ∀ operands, (∀ e ∈ operands, motive e) → motive (.intersection operands))
    (existential : ∀ r filler, motive filler → motive (.existential r filler))
    (oneOf : ∀ i, motive (.oneOf i)) (e : ClassExpr) : motive e :=
  ClassExpr.rec (motive_2 := fun es => ∀ e ∈ es, motive e) named intersection existential oneOf
    (by simp) (fun _ _ he hes => List.forall_mem_cons.2 ⟨he, hes⟩) e

/-- Named classes come first, then intersections, existential restrictions and nominals. -/
def shape : ClassExpr → Shape :=
  fold
    { named := fun c => .node 0 [c.shape]
      intersection := .node 1
      existential := fun r filler => .node 2 [r.shape, filler]
      oneOf := fun i => .node 3 [i.shape] }

instance : Ord ClassExpr := ⟨compareOn shape⟩

@[simp] theorem shape_named (c : ClassId) : shape (.named c) = .node 0 [c.shape] := rfl

@[simp] theorem shape_intersection (operands : List ClassExpr) :
    shape (.intersection operands) = .node 1 (operands.map shape) := fold_intersection ..

@[simp] theorem shape_existential (r : PropertyExpr) (filler : ClassExpr) :
    shape (.existential r filler) = .node 2 [r.shape, filler.shape] := rfl

@[simp] theorem shape_oneOf (i : IndividualId) : shape (.oneOf i) = .node 3 [i.shape] := rfl

theorem eq_of_map_shape {xs ys : List ClassExpr}
    (inj : ∀ x ∈ xs, ∀ b : ClassExpr, x.shape = b.shape → x = b)
    (h : xs.map shape = ys.map shape) : xs = ys := by
  induction xs generalizing ys with
  | nil => simpa using h
  | cons x xs ih =>
      cases ys with
      | nil => simp at h
      | cons y ys =>
          rw [List.map_cons, List.map_cons, List.cons.injEq] at h
          rw [inj x (by simp) y h.1, ih (fun z hz => inj z (by simp [hz])) h.2]

theorem shape_injective (a b : ClassExpr) (h : a.shape = b.shape) : a = b := by
  induction a using ClassExpr.induction generalizing b with
  | named c => cases b <;> simp_all [Id.shape_inj]
  | intersection operands ih =>
      cases b with
      | intersection operands' => rw [eq_of_map_shape ih (by simpa using h)]
      | named | existential | oneOf => simp at h
  | existential r filler ih =>
      cases b with
      | existential s filler' =>
          simp only [shape_existential, Shape.node.injEq, List.cons.injEq, and_true, true_and] at h
          rw [PropertyExpr.shape_injective r s h.1, ih filler' h.2]
      | named | intersection | oneOf => simp at h
  | oneOf i => cases b <;> simp_all [Id.shape_inj]

theorem shape_inj {a b : ClassExpr} : a.shape = b.shape ↔ a = b :=
  ⟨shape_injective a b, congrArg shape⟩

instance : Std.TransOrd ClassExpr := transOrd_of_shape fun _ _ => rfl

instance : Std.LawfulEqOrd ClassExpr := lawfulEqOrd_of_shape (fun _ _ => rfl) shape_injective

instance : DecidableEq ClassExpr := fun a b =>
  decidable_of_iff (compare a b = .eq) Std.LawfulEqCmp.compare_eq_iff_eq

/-- The intersection of the given classes, in whatever order and however often they are given. -/
def and (operands : List ClassExpr) : ClassExpr := .intersection (ascending operands)

mutual
/-- The operands of every intersection inside the expression are in ascending order. -/
def IsCanonical : ClassExpr → Prop
  | .named _ | .oneOf _ => True
  | .intersection operands => IsAscending operands ∧ AreCanonical operands
  | .existential _ filler => IsCanonical filler

/-- Every one of the expressions is canonical. -/
def AreCanonical : List ClassExpr → Prop
  | [] => True
  | e :: es => IsCanonical e ∧ AreCanonical es
end

theorem areCanonical_iff {es : List ClassExpr} : AreCanonical es ↔ ∀ e ∈ es, e.IsCanonical := by
  induction es with
  | nil => simp [AreCanonical]
  | cons e es ih => simp [AreCanonical, ih]

theorem isCanonical_intersection {operands : List ClassExpr} :
    (intersection operands).IsCanonical ↔
      IsAscending operands ∧ ∀ e ∈ operands, e.IsCanonical :=
  and_congr_right fun _ => areCanonical_iff

theorem isCanonical_and {operands : List ClassExpr} (h : ∀ e ∈ operands, e.IsCanonical) :
    (ClassExpr.and operands).IsCanonical :=
  isCanonical_intersection.2
    ⟨isAscending_ascending operands, fun e he => h e (mem_ascending.1 he)⟩

mutual
def decideCanonical : (e : ClassExpr) → Decidable e.IsCanonical
  | .named _ => .isTrue trivial
  | .oneOf _ => .isTrue trivial
  | .intersection operands =>
      have := decideAllCanonical operands
      inferInstanceAs (Decidable (IsAscending operands ∧ AreCanonical operands))
  | .existential _ filler => decideCanonical filler

def decideAllCanonical : (es : List ClassExpr) → Decidable (AreCanonical es)
  | [] => .isTrue trivial
  | e :: es =>
      have := decideCanonical e
      have := decideAllCanonical es
      inferInstanceAs (Decidable (IsCanonical e ∧ AreCanonical es))
end

instance (e : ClassExpr) : Decidable e.IsCanonical := decideCanonical e

/-- The class, if the expression names one. -/
def asNamed? : ClassExpr → Option ClassId
  | .named c => some c
  | _ => none

/-- Whether the expression names a class. -/
def isNamed (e : ClassExpr) : Bool := e.asNamed?.isSome

@[simp] theorem isNamed_named (c : ClassId) : (named c).isNamed = true := rfl

/-- Whether the empty class stands where it makes the whole expression empty. -/
def containsBottom : ClassExpr → Bool :=
  fold
    { named := (· = .bottom)
      intersection := fun operands => operands.any id
      existential := fun _ filler => filler
      oneOf := fun _ => false }

/-- Whether a nominal occurs in the expression. -/
def containsNominal : ClassExpr → Bool :=
  fold
    { named := fun _ => false
      intersection := fun operands => operands.any id
      existential := fun _ filler => filler
      oneOf := fun _ => true }

/-- The entities that the expression mentions, one for each mention. -/
def mentions : ClassExpr → List Entity :=
  fold
    { named := fun c => [Entity.ofId c]
      intersection := List.flatten
      existential := fun r filler => Entity.ofId r.property :: filler
      oneOf := fun i => [Entity.ofId i] }

end ClassExpr

end OwlEl
