import Std.Data.ExtTreeSet
import Std.Data.TreeSet

/-!
# Ordered sets and ascending lists

A finite set is kept in the order of its elements. `OrderedSet` is the set as
such, equal to another exactly when both have the same members; an ascending
list is the form in which a set occurs inside an expression. Main statements:
`mem_ascending` and `isAscending_ascending` say what sorting a list yields, and
`IsAscending.ext` that an ascending list is determined by its members.
-/

namespace OwlEl

/-- A finite set, listed by `toList` in the order of its elements. -/
abbrev OrderedSet (α : Type) [Ord α] : Type := Std.ExtTreeSet α compare

/-- Pairs are compared by the first component, then by the second. -/
instance instOrdPair {α β : Type} [Ord α] [Ord β] : Ord (α × β) := lexOrd

variable {α : Type} [Ord α]

/-- Every element is smaller than all that follow it. -/
def IsAscending (xs : List α) : Prop := xs.Pairwise (compare · · = .lt)

instance (xs : List α) : Decidable (IsAscending xs) :=
  inferInstanceAs (Decidable (xs.Pairwise _))

variable [Std.TransOrd α]

/-- The elements of a list in ascending order, each once. -/
def ascending (xs : List α) : List α := (Std.ExtTreeSet.ofList xs compare).toList

theorem isAscending_toList (s : OrderedSet α) : IsAscending s.toList :=
  Std.ExtTreeSet.ordered_toList

theorem isAscending_ascending (xs : List α) : IsAscending (ascending xs) :=
  isAscending_toList _

variable [Std.LawfulEqOrd α]

theorem mem_ascending [DecidableEq α] {xs : List α} {a : α} : a ∈ ascending xs ↔ a ∈ xs := by
  rw [ascending, Std.ExtTreeSet.mem_toList, Std.ExtTreeSet.mem_ofList, List.contains_iff_mem]

omit [Std.TransOrd α] in
theorem IsAscending.nodup {xs : List α} (h : IsAscending xs) : xs.Nodup :=
  List.Pairwise.imp (fun hab hab' => by simp [hab', Std.ReflCmp.compare_self] at hab) h

/-- Two ascending lists with the same members are the same list. -/
theorem IsAscending.ext {xs ys : List α} (hx : IsAscending xs) (hy : IsAscending ys)
    (h : ∀ a, a ∈ xs ↔ a ∈ ys) : xs = ys :=
  List.Perm.eq_of_pairwise
    (fun a b _ _ hab hba => absurd (hba : compare b a = .lt)
      (Std.OrientedCmp.not_lt_of_lt (hab : compare a b = .lt)))
    hx hy ((List.perm_ext_iff_of_nodup hx.nodup hy.nodup).2 h)

/-- Different elements stay as many as they are. -/
theorem length_ascending [DecidableEq α] {xs : List α} (h : xs.Nodup) :
    (ascending xs).length = xs.length :=
  ((List.perm_ext_iff_of_nodup (isAscending_ascending xs).nodup h).2
    fun _ => mem_ascending).length_eq

theorem ascending_eq_self [DecidableEq α] {xs : List α} (h : IsAscending xs) :
    ascending xs = xs :=
  (isAscending_ascending xs).ext h fun _ => mem_ascending

namespace OrderedSet

variable {s : OrderedSet α} {a b : α}

theorem mem_insert_iff : b ∈ s.insert a ↔ b = a ∨ b ∈ s := by
  rw [Std.ExtTreeSet.mem_insert, Std.LawfulEqCmp.compare_eq_iff_eq, eq_comm]

theorem mem_erase_iff : b ∈ s.erase a ↔ b ≠ a ∧ b ∈ s := by
  rw [Std.ExtTreeSet.mem_erase, ne_eq, Std.LawfulEqCmp.compare_eq_iff_eq, ne_comm]

theorem mem_ofList_iff [DecidableEq α] {xs : List α} :
    b ∈ Std.ExtTreeSet.ofList xs compare ↔ b ∈ xs := by
  rw [Std.ExtTreeSet.mem_ofList, List.contains_iff_mem]

theorem mem_filter_iff {f : α → Bool} : b ∈ s.filter f ↔ b ∈ s ∧ f b = true := by
  rw [← Std.ExtTreeSet.mem_toList, Std.ExtTreeSet.toList_filter, List.mem_filter,
    Std.ExtTreeSet.mem_toList]

theorem nodup_toList : s.toList.Nodup := (isAscending_toList s).nodup

/-- The list of a set has a member and then the others, up to the order. -/
theorem toList_perm_cons_erase (h : a ∈ s) : s.toList.Perm (a :: (s.erase a).toList) := by
  refine (List.perm_ext_iff_of_nodup nodup_toList ?_).2 fun b => ?_
  · refine List.nodup_cons.2 ⟨fun ha => ?_, nodup_toList⟩
    exact (mem_erase_iff.1 (Std.ExtTreeSet.mem_toList.1 ha)).1 rfl
  · rw [List.mem_cons, Std.ExtTreeSet.mem_toList, Std.ExtTreeSet.mem_toList, mem_erase_iff]
    by_cases hb : b = a
    · simp [hb, h]
    · simp [hb]

end OrderedSet

end OwlEl
