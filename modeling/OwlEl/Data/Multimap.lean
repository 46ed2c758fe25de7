import OwlEl.Order.OrderedSet
import Std.Data.TreeMap

/-!
# Relations by their first component

A `Multimap` is a finite binary relation, asked for all that is related to a
given key. The main statement is `mem_insert`: inserting a pair relates that pair
and changes nothing else.
-/

namespace OwlEl

/-- A set of values for every key, empty for almost all of them. -/
structure Multimap (κ ν : Type) [Ord κ] [Ord ν] where
  sets : Std.TreeMap κ (Std.TreeSet ν)

namespace Multimap

variable {κ ν : Type} [Ord κ] [Ord ν]

/-- Nothing is related. -/
def empty : Multimap κ ν := ⟨∅⟩

instance : EmptyCollection (Multimap κ ν) := ⟨empty⟩

/-- The values at a key. -/
def get (m : Multimap κ ν) (k : κ) : Std.TreeSet ν := m.sets.getD k ∅

/-- The values at a key in ascending order. -/
def values (m : Multimap κ ν) (k : κ) : List ν := (m.get k).toList

/-- Whether the value is related to the key. -/
def contains (m : Multimap κ ν) (k : κ) (v : ν) : Bool := (m.get k).contains v

/-- Whether some value stands at the key. -/
def hasKey (m : Multimap κ ν) (k : κ) : Bool := m.sets.contains k

/-- Relate a value to a key. -/
def insert (m : Multimap κ ν) (k : κ) (v : ν) : Multimap κ ν :=
  ⟨m.sets.alter k fun set => some ((set.getD ∅).insert v)⟩

/-- All pairs, in the order of the keys and then of the values. -/
def toList (m : Multimap κ ν) : List (κ × ν) :=
  m.sets.toList.flatMap fun (k, set) => set.toList.map (k, ·)

variable [Std.TransOrd κ]

@[simp] theorem get_empty (k : κ) : (∅ : Multimap κ ν).get k = ∅ := by
  show (∅ : Std.TreeMap κ (Std.TreeSet ν)).getD k ∅ = ∅
  simp

theorem get_insert [Std.LawfulEqOrd κ] [DecidableEq κ] (m : Multimap κ ν) (k k' : κ) (v : ν) :
    (m.insert k v).get k' = if k = k' then (m.get k').insert v else m.get k' := by
  simp only [get, insert, Std.TreeMap.getD_alter, Std.LawfulEqCmp.compare_eq_iff_eq,
    Option.getD_some]
  split
  · next h => subst h; rw [Std.TreeMap.getD_eq_getD_getElem?]
  · rfl

theorem mem_insert [Std.LawfulEqOrd κ] [Std.TransOrd ν] [Std.LawfulEqOrd ν] [DecidableEq κ]
    {m : Multimap κ ν} {k k' : κ} {v v' : ν} :
    v' ∈ (m.insert k v).get k' ↔ k = k' ∧ v = v' ∨ v' ∈ m.get k' := by
  rw [get_insert]
  split <;> simp_all [Std.TreeSet.mem_insert, Std.LawfulEqCmp.compare_eq_iff_eq]

omit [Std.TransOrd κ] in
theorem contains_iff_mem {m : Multimap κ ν} {k : κ} {v : ν} :
    m.contains k v = true ↔ v ∈ m.get k := Std.TreeSet.contains_iff_mem

omit [Std.TransOrd κ] in
theorem mem_values [Std.TransOrd ν] [Std.LawfulEqOrd ν] {m : Multimap κ ν} {k : κ} {v : ν} :
    v ∈ m.values k ↔ m.contains k v = true := by
  rw [values, Std.TreeSet.mem_toList, contains_iff_mem]

omit [Std.TransOrd κ] in
theorem nodup_values [Std.TransOrd ν] [Std.LawfulEqOrd ν] (m : Multimap κ ν) (k : κ) :
    (m.values k).Nodup :=
  List.Pairwise.imp (fun hne heq => hne (Std.LawfulEqCmp.compare_eq_iff_eq.2 heq))
    Std.TreeSet.distinct_toList

theorem mem_toList [Std.LawfulEqOrd κ] [Std.TransOrd ν] [Std.LawfulEqOrd ν] {m : Multimap κ ν}
    {k : κ} {v : ν} : (k, v) ∈ m.toList ↔ m.contains k v = true := by
  rw [contains_iff_mem, get, Std.TreeMap.getD_eq_getD_getElem?]
  simp only [toList, List.mem_flatMap, List.mem_map, Std.TreeSet.mem_toList, Prod.exists,
    Std.TreeMap.mem_toList_iff_getElem?_eq_some]
  constructor
  · rintro ⟨k', set, hset, v', hv', heq⟩
    obtain ⟨rfl, rfl⟩ := Prod.mk.inj heq
    rwa [hset]
  · intro hv
    cases hset : m.sets[k]? with
    | none => simp [hset] at hv
    | some set => exact ⟨k, set, hset, v, by simpa [hset] using hv, rfl⟩

theorem contains_empty {k : κ} {v : ν} : (∅ : Multimap κ ν).contains k v = false := by
  simp [contains]

theorem contains_insert [Std.LawfulEqOrd κ] [Std.TransOrd ν] [Std.LawfulEqOrd ν] [DecidableEq κ]
    {m : Multimap κ ν} {k k' : κ} {v v' : ν} :
    (m.insert k v).contains k' v' = true ↔ k = k' ∧ v = v' ∨ m.contains k' v' = true := by
  rw [contains_iff_mem, mem_insert, contains_iff_mem]

end Multimap

end OwlEl
