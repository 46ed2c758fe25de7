import Mathlib.Order.Lattice.Nat
import OwlEl.Proofs.Layers

/-!
# Layers come in the order of distance

A layer holds the nodes at one distance from the start: those found before are nearer, and a node
that is one step further has a predecessor in the last layer. So `Layers.reachable` lists the nodes
that can be reached nearest first, however many layers it is given: `Layers.listsNearest_reachable`.
-/

namespace OwlEl

/-! ## Distance -/

section Distance

variable {α : Type}

/-- The relation leads from the first element to the second in just so many steps. -/
inductive Steps (rel : α → α → Prop) (a : α) : Nat → α → Prop
  | refl : Steps rel a 0 a
  | tail {n b c} (h : Steps rel a n b) (hbc : rel b c) : Steps rel a (n + 1) c

variable {rel : α → α → Prop} {a b : α} {n : Nat}

/-- The least number of steps in which the relation leads from the first element to the second,
or zero if it does not lead there. -/
noncomputable def distance (rel : α → α → Prop) (a b : α) : Nat := sInf {n | Steps rel a n b}

theorem distance_le (h : Steps rel a n b) : distance rel a b ≤ n := Nat.sInf_le h

theorem distance_eq (h : IsLeast {n | Steps rel a n b} n) : distance rel a b = n := h.csInf_eq

/-- The list begins with the element and has all that the relation leads to from there, each
once and none before what is nearer. -/
structure ListsNearest (rel : α → α → Prop) (a : α) (list : List α) : Prop where
  head : list.head? = some a
  nodup : list.Nodup
  mem_iff : ∀ b, b ∈ list ↔ Relation.ReflTransGen rel a b
  nearest : list.Pairwise fun b c => distance rel a b ≤ distance rel a c

end Distance

namespace Layers

variable {α : Type} {successors : α → List α} {nodes found frontier : List α} {start b : α}
  {n bound : Nat}

/-- What has been found from `start` up to the given distance, the frontier being the last layer. -/
structure Measured (successors : α → List α) (start : α) (n : Nat) (found frontier : List α) :
    Prop where
  found_iff : ∀ {b}, b ∈ found ↔ ∃ m ≤ n, Steps (Leads successors) start m b
  frontier_iff : ∀ {b}, b ∈ frontier ↔ IsLeast {m | Steps (Leads successors) start m b} n
  nearest : found.Pairwise fun b c =>
    distance (Leads successors) start b ≤ distance (Leads successors) start c

theorem measured_start : Measured successors start 0 [start] [start] := by
  have hzero : ∀ {b}, b = start ↔ Steps (Leads successors) start 0 b := by
    intro b
    constructor
    · rintro rfl
      exact .refl
    · intro h
      cases h
      rfl
  refine ⟨fun {b} => ?_, fun {b} => ?_, List.pairwise_singleton _ _⟩
  · rw [List.mem_singleton, hzero]
    exact ⟨fun h => ⟨0, Nat.le_refl 0, h⟩, fun ⟨m, hm, h⟩ => Nat.le_zero.1 hm ▸ h⟩
  · rw [List.mem_singleton, hzero]
    exact ⟨fun h => ⟨h, fun _ _ => Nat.zero_le _⟩, fun h => h.1⟩

theorem Measured.distance_le (h : Measured successors start n found frontier) (hb : b ∈ found) :
    distance (Leads successors) start b ≤ n := by
  obtain ⟨m, hm, hsteps⟩ := h.found_iff.1 hb
  exact (OwlEl.distance_le hsteps).trans hm

variable [DecidableEq α]

/-- The nodes that are new behind the last layer are those that are one step further. -/
theorem Measured.mem_unseen_iff (h : Measured successors start n found frontier) :
    b ∈ unseen found (frontier.flatMap successors) ↔
      IsLeast {m | Steps (Leads successors) start m b} (n + 1) := by
  rw [mem_unseen, List.mem_flatMap]
  constructor
  · rintro ⟨⟨a, ha, hab⟩, hnew⟩
    refine ⟨(h.frontier_iff.1 ha).1.tail hab, fun m hm => ?_⟩
    by_contra hlt
    exact hnew (h.found_iff.2 ⟨m, by omega, hm⟩)
  · rintro ⟨hsteps, hleast⟩
    refine ⟨?_, fun hold => ?_⟩
    · cases hsteps with
      | @tail _ a _ hsteps hab =>
          refine ⟨a, h.frontier_iff.2 ⟨hsteps, fun m hm => ?_⟩, hab⟩
          exact Nat.le_of_succ_le_succ (hleast (hm.tail hab))
    · obtain ⟨m, hm, hsteps⟩ := h.found_iff.1 hold
      have hle := hleast hsteps
      omega

theorem Measured.extend (h : Measured successors start n found frontier) :
    Measured successors start (n + 1) (found ++ unseen found (frontier.flatMap successors))
      (unseen found (frontier.flatMap successors)) := by
  refine ⟨fun {b} => ?_, h.mem_unseen_iff, ?_⟩
  · rw [List.mem_append, h.mem_unseen_iff]
    constructor
    · rintro (hb | hb)
      · obtain ⟨m, hm, hsteps⟩ := h.found_iff.1 hb
        exact ⟨m, Nat.le_succ_of_le hm, hsteps⟩
      · exact ⟨n + 1, Nat.le_refl _, hb.1⟩
    · rintro ⟨m, hm, hsteps⟩
      by_cases hb : b ∈ found
      · exact .inl hb
      · have hfar : ∀ k, Steps (Leads successors) start k b → n + 1 ≤ k := fun k hk => by
          by_contra hlt
          exact hb (h.found_iff.2 ⟨k, by omega, hk⟩)
        obtain rfl : m = n + 1 := Nat.le_antisymm hm (hfar m hsteps)
        exact .inr ⟨hsteps, hfar⟩
  · refine List.pairwise_append.2 ⟨h.nearest, ?_, fun b hb c hc => ?_⟩
    · refine List.pairwise_of_forall_mem_list fun b hb c hc => ?_
      rw [distance_eq (h.mem_unseen_iff.1 hb), distance_eq (h.mem_unseen_iff.1 hc)]
    · rw [distance_eq (h.mem_unseen_iff.1 hc)]
      exact Nat.le_succ_of_le (h.distance_le hb)

/-- Whenever the search ends, what it has found comes nearest first. -/
theorem Measured.nearest_extend (h : Measured successors start n found frontier) :
    (OwlEl.Layers.extend successors bound found frontier).Pairwise fun b c =>
      distance (Leads successors) start b ≤ distance (Leads successors) start c := by
  induction bound generalizing n found frontier with
  | zero => exact h.nearest
  | succ bound ih =>
      rw [OwlEl.Layers.extend]
      have hnext := h.extend
      split
      · exact h.nearest
      · exact ih hnext

/-- With as many layers as there are nodes, the search lists all that it leads to. -/
theorem listsNearest_reachable (hstart : start ∈ nodes)
    (hnodes : ∀ a ∈ nodes, ∀ b ∈ successors a, b ∈ nodes) :
    ListsNearest (Leads successors) start (reachable successors nodes.length start) := by
  obtain ⟨more, hmore, hnodup⟩ : ∃ more, reachable successors nodes.length start =
      [start] ++ more ∧ ([start] ++ more).Nodup :=
    exists_extend_eq_append (List.pairwise_singleton _ start)
  refine ⟨?_, ?_, fun b => mem_reachable hstart hnodes, measured_start.nearest_extend⟩
  · rw [hmore]
    rfl
  · rwa [hmore]

end Layers

end OwlEl
