import Mathlib.Data.List.Perm.Subperm
import Mathlib.Logic.Relation
import OwlEl.Data.Layers

/-!
# Layers reach everything

With as many layers as there are nodes, `Layers.reachable` lists exactly the nodes
to which the successors lead: `Layers.mem_reachable`. All nodes found so far are
reachable, and the nodes outside the last layer have their successors among them;
since every layer adds a node, the last layer is empty before the bound is used up.
-/

namespace OwlEl.Layers

variable {α : Type} [DecidableEq α] {successors : α → List α} {nodes found frontier : List α}
  {start a b : α} {bound : Nat}

/-- The second node is among the successors of the first. -/
def Leads (successors : α → List α) (a b : α) : Prop := b ∈ successors a

theorem mem_unseen {seen xs : List α} : a ∈ unseen seen xs ↔ a ∈ xs ∧ a ∉ seen := by
  induction xs generalizing seen with
  | nil => simp [unseen]
  | cons x xs ih =>
      rw [unseen]
      split
      · next hx =>
          rw [ih, List.mem_cons]
          constructor
          · exact fun ⟨ha, hseen⟩ => ⟨.inr ha, hseen⟩
          · rintro ⟨rfl | ha, hseen⟩
            · exact absurd hx hseen
            · exact ⟨ha, hseen⟩
      · next hx =>
          rw [List.mem_cons, ih, List.mem_cons, List.mem_cons]
          by_cases hax : a = x
          · simp [hax, hx]
          · simp [hax]

theorem nodup_unseen {seen xs : List α} : (unseen seen xs).Nodup := by
  induction xs generalizing seen with
  | nil => exact List.nodup_nil
  | cons x xs ih =>
      rw [unseen]
      split
      · exact ih
      · refine List.nodup_cons.2 ⟨fun hx => ?_, ih⟩
        exact (mem_unseen.1 hx).2 (List.mem_cons_self ..)

/-- What holds between two layers of the search from `start`. -/
structure Layered (successors : α → List α) (nodes : List α) (start : α)
    (found frontier : List α) : Prop where
  start_mem : start ∈ found
  nodup : found.Nodup
  subset : found ⊆ nodes
  sound : ∀ a ∈ found, Relation.ReflTransGen (Leads successors) start a
  frontier_subset : frontier ⊆ found
  explored : ∀ a ∈ found, a ∉ frontier → ∀ b ∈ successors a, b ∈ found

theorem Layered.extend (h : Layered successors nodes start found frontier)
    (hnodes : ∀ a ∈ nodes, ∀ b ∈ successors a, b ∈ nodes) :
    Layered successors nodes start (found ++ unseen found (frontier.flatMap successors))
      (unseen found (frontier.flatMap successors)) := by
  have hlayer : ∀ b ∈ unseen found (frontier.flatMap successors),
      b ∉ found ∧ ∃ a ∈ frontier, b ∈ successors a := by
    intro b hb
    obtain ⟨hb, hnew⟩ := mem_unseen.1 hb
    exact ⟨hnew, List.mem_flatMap.1 hb⟩
  refine ⟨List.mem_append_left _ h.start_mem, ?_, ?_, ?_, List.subset_append_right _ _, ?_⟩
  · refine List.nodup_append.2 ⟨h.nodup, nodup_unseen, ?_⟩
    rintro a ha b hb rfl
    exact (hlayer a hb).1 ha
  · refine List.append_subset.2 ⟨h.subset, fun b hb => ?_⟩
    obtain ⟨-, a, ha, hab⟩ := hlayer b hb
    exact hnodes a (h.subset (h.frontier_subset ha)) b hab
  · intro b hb
    rcases List.mem_append.1 hb with hb | hb
    · exact h.sound b hb
    · obtain ⟨-, a, ha, hab⟩ := hlayer b hb
      exact (h.sound a (h.frontier_subset ha)).tail hab
  · intro a ha hafrontier b hab
    have ha := (List.mem_append.1 ha).resolve_right hafrontier
    by_cases hbfound : b ∈ found
    · exact List.mem_append_left _ hbfound
    · by_cases haold : a ∈ frontier
      · exact List.mem_append_right _
          (mem_unseen.2 ⟨List.mem_flatMap.2 ⟨a, haold, hab⟩, hbfound⟩)
      · exact absurd (h.explored a ha haold b hab) hbfound

omit [DecidableEq α] in
/-- When the last layer is empty, everything has been found. -/
theorem Layered.mem_of_reaches (h : Layered successors nodes start found [])
    (hb : Relation.ReflTransGen (Leads successors) start b) : b ∈ found := by
  induction hb with
  | refl => exact h.start_mem
  | tail _ hab ha => exact h.explored _ ha List.not_mem_nil _ hab

theorem mem_extend (h : Layered successors nodes start found frontier)
    (hnodes : ∀ a ∈ nodes, ∀ b ∈ successors a, b ∈ nodes)
    (hbound : nodes.length < bound + found.length) :
    b ∈ extend successors bound found frontier ↔
      Relation.ReflTransGen (Leads successors) start b := by
  induction bound generalizing found frontier with
  | zero =>
      have hle := (List.subperm_of_subset h.nodup h.subset).length_le
      omega
  | succ bound ih =>
      have hnext := h.extend hnodes
      rw [OwlEl.Layers.extend]
      cases hlayer : unseen found (frontier.flatMap successors) with
      | nil =>
          rw [hlayer, List.append_nil] at hnext
          exact ⟨h.sound b, hnext.mem_of_reaches⟩
      | cons c layer =>
          rw [hlayer] at hnext
          refine ih hnext ?_
          simp only [List.length_append, List.length_cons]
          omega

/-- As many layers as there are nodes reach all nodes that can be reached. -/
theorem mem_reachable (hstart : start ∈ nodes)
    (hnodes : ∀ a ∈ nodes, ∀ b ∈ successors a, b ∈ nodes) :
    b ∈ reachable successors nodes.length start ↔
      Relation.ReflTransGen (Leads successors) start b := by
  have hfirst : Layered successors nodes start [start] [start] := by
    refine ⟨by simp, by simp, ?_, ?_, List.Subset.refl _, ?_⟩
    · exact List.cons_subset.2 ⟨hstart, List.nil_subset _⟩
    · intro a ha
      rw [List.mem_singleton.1 ha]
    · exact fun a ha hafrontier => absurd ha hafrontier
  exact mem_extend hfirst hnodes (by simp)

theorem exists_extend_eq_append (hfound : found.Nodup) :
    ∃ more, extend successors bound found frontier = found ++ more ∧ (found ++ more).Nodup := by
  induction bound generalizing found frontier with
  | zero => exact ⟨[], by rw [extend, List.append_nil], by rwa [List.append_nil]⟩
  | succ bound ih =>
      rw [extend]
      have hlayer : (found ++ unseen found (frontier.flatMap successors)).Nodup := by
        refine List.nodup_append.2 ⟨hfound, nodup_unseen, ?_⟩
        rintro a ha b hb rfl
        exact (mem_unseen.1 hb).2 ha
      split
      · exact ⟨[], by rw [List.append_nil], by rwa [List.append_nil]⟩
      · obtain ⟨more, hmore, hnodup⟩ := ih hlayer
        rw [List.append_assoc] at hmore hnodup
        exact ⟨_, hmore, hnodup⟩

/-- All but the first of the nodes that are reached are the others than the start. -/
theorem mem_tail_reachable (hstart : start ∈ nodes)
    (hnodes : ∀ a ∈ nodes, ∀ b ∈ successors a, b ∈ nodes) :
    b ∈ (reachable successors nodes.length start).tail ↔
      b ≠ start ∧ Relation.ReflTransGen (Leads successors) start b := by
  obtain ⟨more, hmore, hnodup⟩ : ∃ more, extend successors nodes.length [start] [start] =
      [start] ++ more ∧ ([start] ++ more).Nodup :=
    exists_extend_eq_append (List.pairwise_singleton _ start)
  rw [← mem_reachable hstart hnodes]
  unfold reachable
  rw [hmore, List.singleton_append, List.tail_cons, List.mem_cons]
  have hnot := (List.nodup_cons.1 hnodup).1
  constructor
  · intro hb
    exact ⟨fun heq => hnot (heq ▸ hb), .inr hb⟩
  · exact fun ⟨hne, hb⟩ => hb.resolve_left hne

end OwlEl.Layers
