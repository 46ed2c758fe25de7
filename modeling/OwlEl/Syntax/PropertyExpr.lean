import OwlEl.Entity

/-!
# Property expressions

A property is mentioned either by itself or as the inverse of a property.
-/

namespace OwlEl

/-- A property or the inverse of one. -/
inductive PropertyExpr where
  | named (property : PropertyId)
  | inverseOf (property : PropertyId)
deriving DecidableEq

namespace PropertyExpr

instance : Coe PropertyId PropertyExpr := ⟨named⟩

/-- The property that the expression mentions. -/
def property : PropertyExpr → PropertyId
  | .named p => p
  | .inverseOf p => p

/-- Properties come before inverses of properties. -/
def shape : PropertyExpr → Shape
  | .named p => .node 0 [p.shape]
  | .inverseOf p => .node 1 [p.shape]

instance : Ord PropertyExpr := ⟨compareOn shape⟩

theorem shape_injective : ∀ r s : PropertyExpr, r.shape = s.shape → r = s := by
  intro r s h
  cases r <;> cases s <;>
    simp_all [shape, Id.shape_inj]

theorem shape_inj {r s : PropertyExpr} : r.shape = s.shape ↔ r = s :=
  ⟨shape_injective r s, congrArg shape⟩

instance : Std.TransOrd PropertyExpr := transOrd_of_shape fun _ _ => rfl

instance : Std.LawfulEqOrd PropertyExpr := lawfulEqOrd_of_shape (fun _ _ => rfl) shape_injective

end PropertyExpr

end OwlEl
