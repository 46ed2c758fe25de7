import OwlEl.Order.OrderedSet
import OwlEl.Order.Shape

/-!
# Entities

Classes, object properties and individuals are addressed by numbers of 32 bits,
each kind with a numbering of its own. Among the classes and among the
properties the numbers 0 and 1 are set aside for the empty and the universal one.
-/

namespace OwlEl

/-- What an entity is. -/
inductive Kind where
  | cls
  | property
  | individual
deriving DecidableEq

/-- The kinds in their canonical order. -/
def Kind.rank : Kind → Nat
  | .cls => 0
  | .property => 1
  | .individual => 2

/-- The word for one entity of the kind. -/
def Kind.word : Kind → String
  | .cls => "class"
  | .property => "property"
  | .individual => "individual"

/-- The number of an entity of the given kind. -/
structure Id (kind : Kind) where
  index : UInt32
deriving DecidableEq

/-- The number of a class. -/
abbrev ClassId := Id .cls

/-- The number of an object property. -/
abbrev PropertyId := Id .property

/-- The number of an individual. -/
abbrev IndividualId := Id .individual

namespace Id

variable {k : Kind}

/-- The empty class, or the empty property. -/
def bottom : Id k := ⟨0⟩

/-- The class of everything, or the property that holds between all things. -/
def top : Id k := ⟨1⟩

/-- The position of the entity among those of its kind. -/
def position (id : Id k) : Nat := id.index.toNat

/-- The number in decimal digits. -/
def text (id : Id k) : String := toString id.position

/-- Identifiers of one kind are ordered by their numbers. -/
def shape (id : Id k) : Shape := .leaf id.position

instance : Ord (Id k) := ⟨compareOn index⟩

instance : Std.TransOrd (Id k) := inferInstanceAs (Std.TransCmp (compareOn index))

instance : Std.LawfulEqOrd (Id k) where
  compare_self := by
    rintro ⟨a⟩
    have haa : compare a a = .eq := Std.ReflCmp.compare_self
    exact haa
  eq_of_compare := by
    rintro ⟨a⟩ ⟨b⟩ h
    have hab : compare a b = .eq := h
    rw [Std.LawfulEqCmp.eq_of_compare hab]

theorem position_inj {a b : Id k} : a.position = b.position ↔ a = b := by
  cases a; cases b; simp [position, UInt32.toNat_inj]

theorem shape_inj {a b : Id k} : a.shape = b.shape ↔ a = b := by
  simp [shape, Shape.leaf, position_inj]

theorem compare_position (a b : Id k) : compare a.position b.position = compare a b := by
  change compareOfLessAndEq _ _ = compareOfLessAndEq _ _
  simp only [compareOfLessAndEq, position, UInt32.lt_iff_toNat_lt, UInt32.toNat_inj]

theorem position_lt (a : Id k) : a.position < UInt32.size := a.index.toNat_lt

end Id

/-- An entity of any kind. -/
structure Entity where
  kind : Kind
  index : UInt32
deriving DecidableEq

namespace Entity

/-- The entity an identifier stands for. -/
def ofId {k : Kind} (id : Id k) : Entity := ⟨k, id.index⟩

instance {k : Kind} : CoeOut (Id k) Entity := ⟨ofId⟩

/-- The number of the entity among those of its kind. -/
def id (e : Entity) : Id e.kind := ⟨e.index⟩

/-- Entities are ordered by kind, then by number. -/
def shape (e : Entity) : Shape := .node e.kind.rank [e.id.shape]

instance : Ord Entity := ⟨compareOn shape⟩

theorem shape_injective : ∀ a b : Entity, a.shape = b.shape → a = b := by
  rintro ⟨k, i⟩ ⟨l, j⟩ h
  simp only [shape, id, Id.shape, Id.position, Shape.leaf, Shape.node.injEq, List.cons.injEq,
    and_true, UInt32.toNat_inj] at h
  obtain ⟨hk, rfl⟩ := h
  cases k <;> cases l <;> simp_all [Kind.rank]

instance : Std.TransOrd Entity := transOrd_of_shape fun _ _ => rfl

instance : Std.LawfulEqOrd Entity := lawfulEqOrd_of_shape (fun _ _ => rfl) shape_injective

/-- The kind and the number of the entity. -/
def text (e : Entity) : String := e.kind.word ++ " " ++ e.id.text

end Entity

end OwlEl
