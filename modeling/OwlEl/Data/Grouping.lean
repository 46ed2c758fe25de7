import Std.Data.TreeMap

/-!
# Values grouped by a key

A `Grouping` lists the values that stand under a key, in the order in which the
pairs were given and as often as they were given.
-/

namespace OwlEl

/-- A list of values for every key, empty for almost all of them. -/
structure Grouping (κ ν : Type) [Ord κ] where
  lists : Std.TreeMap κ (Array ν)

namespace Grouping

variable {κ ν : Type} [Ord κ]

/-- No value stands under any key. -/
def empty : Grouping κ ν := ⟨∅⟩

/-- The values at a key. -/
def get (g : Grouping κ ν) (k : κ) : List ν := (g.lists.getD k #[]).toList

/-- Whether some value stands at the key. -/
def hasKey (g : Grouping κ ν) (k : κ) : Bool := g.lists.contains k

/-- Add a value behind those that stand at the key. -/
def push (g : Grouping κ ν) (entry : κ × ν) : Grouping κ ν :=
  ⟨g.lists.alter entry.1 fun values => some ((values.getD #[]).push entry.2)⟩

/-- The values of the pairs, by their keys. -/
def ofList (entries : List (κ × ν)) : Grouping κ ν := entries.foldl push empty

variable [Std.TransOrd κ] [Std.LawfulEqOrd κ] [DecidableEq κ]

omit [Std.LawfulEqOrd κ] [DecidableEq κ] in
theorem get_empty (k : κ) : (empty : Grouping κ ν).get k = [] := by
  simp [get, empty]

theorem get_push (g : Grouping κ ν) (entry : κ × ν) (k : κ) :
    (g.push entry).get k = g.get k ++ if entry.1 = k then [entry.2] else [] := by
  simp only [get, push, Std.TreeMap.getD_alter, Std.LawfulEqCmp.compare_eq_iff_eq]
  split
  · next h => subst h; simp [Std.TreeMap.getD_eq_getD_getElem?]
  · simp

/-- The values at a key are those of the pairs with that key, in their order. -/
theorem get_ofList (entries : List (κ × ν)) (k : κ) :
    (ofList entries).get k = entries.filterMap fun e => if e.1 = k then some e.2 else none := by
  suffices h : ∀ g : Grouping κ ν, (entries.foldl push g).get k =
      g.get k ++ entries.filterMap fun e => if e.1 = k then some e.2 else none by
    simp [ofList, h, get_empty]
  intro g
  induction entries generalizing g with
  | nil => simp
  | cons e entries ih =>
      rw [List.foldl_cons, ih, get_push, List.filterMap_cons]
      split <;> simp

theorem mem_get_ofList {entries : List (κ × ν)} {k : κ} {v : ν} :
    v ∈ (ofList entries).get k ↔ (k, v) ∈ entries := by
  rw [get_ofList, List.mem_filterMap]
  constructor
  · rintro ⟨⟨k', v'⟩, h, heq⟩
    split at heq
    · next hk => exact Option.some.inj heq ▸ hk ▸ h
    · exact absurd heq (by simp)
  · exact fun h => ⟨(k, v), h, by simp⟩

theorem hasKey_push {g : Grouping κ ν} {entry : κ × ν} {k : κ} :
    (g.push entry).hasKey k = true ↔ entry.1 = k ∨ g.hasKey k = true := by
  simp only [hasKey, push, Std.TreeMap.contains_alter, Std.LawfulEqCmp.compare_eq_iff_eq]
  split
  · next h => simp [h]
  · next h => simp [h]

/-- Some value stands at just the keys that have values. -/
theorem hasKey_ofList {entries : List (κ × ν)} {k : κ} :
    (ofList entries).hasKey k = true ↔ (ofList entries).get k ≠ [] := by
  suffices hfold : ∀ g : Grouping κ ν, (g.hasKey k = true ↔ g.get k ≠ []) →
      ((entries.foldl push g).hasKey k = true ↔ (entries.foldl push g).get k ≠ []) by
    refine hfold empty (iff_of_false ?_ fun h => h (get_empty k))
    simp [hasKey, empty]
  induction entries with
  | nil => exact fun _ => id
  | cons e entries ih =>
      intro g hg
      refine ih (g.push e) ?_
      rw [hasKey_push, get_push, hg]
      by_cases hk : e.1 = k <;> simp [hk]

end Grouping

end OwlEl
