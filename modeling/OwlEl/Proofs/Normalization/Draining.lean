import OwlEl.Normalization.Worklist
import OwlEl.Proofs.Normalization.Descent

/-!
# Draining the worklist

`Drained` says what a run of normalization can do: take a pending axiom and keep
it, replace it by a step or read it as a normal form, until nothing is pending.
The weight of the worklist falls with every axiom that is taken, so the number of
steps that `normalize` allows is never used up, and its result is drained:
`drained_of_normalize`.
-/

namespace OwlEl.Normalization

namespace Worklist

variable {w w' : Worklist} {a b : Axiom} {axioms : List Axiom}

/-! ## Taking and adding axioms -/

theorem pop?_eq_none : w.pop? = none ↔ ∀ a, a ∉ w.pending := by
  rw [pop?, Option.map_eq_none_iff, Std.ExtTreeSet.min?_eq_none_iff,
    Std.ExtTreeSet.eq_empty_iff_forall_not_mem]

theorem pop?_eq_some (h : w.pop? = some (a, w')) :
    a ∈ w.pending ∧ w' = { w with pending := w.pending.erase a } := by
  obtain ⟨b, hb, heq⟩ := Option.map_eq_some_iff.1 h
  obtain ⟨rfl, rfl⟩ := Prod.mk.inj heq
  exact ⟨Std.ExtTreeSet.min?_mem hb, rfl⟩

/-- What is pending comes to so much, when each axiom counts for `f`. -/
def total (f : Axiom → Nat) (w : Worklist) : Nat := totalWeight (w.pending.toList.map f)

section Total

variable {f : Axiom → Nat}

theorem total_pop? (h : w.pop? = some (a, w')) : w.total f = f a + w'.total f := by
  obtain ⟨ha, rfl⟩ := pop?_eq_some h
  exact totalWeight_perm (OrderedSet.toList_perm_cons_erase ha)

theorem total_push (w : Worklist) (a : Axiom) : (w.push a).total f ≤ w.total f + f a := by
  unfold push
  split
  · exact Nat.le_add_right _ _
  · have hsub : (w.pending.insert a).toList ⊆ a :: w.pending.toList := by
      intro b hb
      rw [Std.ExtTreeSet.mem_toList, OrderedSet.mem_insert_iff] at hb
      exact List.mem_cons.2 (hb.imp_right Std.ExtTreeSet.mem_toList.2)
    have hle := totalWeight_subset (f := f) OrderedSet.nodup_toList hsub
    rw [List.map_cons, totalWeight_cons] at hle
    rw [Nat.add_comm]
    exact hle

end Total

/-- Take up several axioms. -/
def pushAll (w : Worklist) (axioms : List Axiom) : Worklist := axioms.foldl .push w

theorem total_pushAll {f : Axiom → Nat} (w : Worklist) (axioms : List Axiom) :
    (w.pushAll axioms).total f ≤ w.total f + totalWeight (axioms.map f) := by
  induction axioms generalizing w with
  | nil => exact Nat.le_add_right _ _
  | cons a axioms ih =>
      have hpush := total_push (f := f) w a
      calc ((w.push a).pushAll axioms).total f
          ≤ (w.push a).total f + totalWeight (axioms.map f) := ih _
        _ ≤ w.total f + totalWeight ((a :: axioms).map f) := by
            rw [List.map_cons, totalWeight_cons]
            omega

theorem weight_pop? (h : w.pop? = some (a, w')) : w.weight = a.weight + w'.weight :=
  total_pop? h

theorem weight_pushAll (w : Worklist) (axioms : List Axiom) :
    (w.pushAll axioms).weight ≤ w.weight + totalWeight (axioms.map Axiom.weight) :=
  total_pushAll w axioms

theorem mem_seen_push : b ∈ (w.push a).seen ↔ b = a ∨ b ∈ w.seen := by
  unfold push
  split
  · next h =>
      have ha : a ∈ w.seen := Std.ExtTreeSet.contains_iff_mem.1 h
      exact ⟨.inr, fun hb => hb.elim (fun hba => hba ▸ ha) id⟩
  · exact OrderedSet.mem_insert_iff

theorem mem_pending_push :
    b ∈ (w.push a).pending ↔ b ∈ w.pending ∨ b = a ∧ a ∉ w.seen := by
  unfold push
  split
  · next h =>
      have ha : a ∈ w.seen := Std.ExtTreeSet.contains_iff_mem.1 h
      exact ⟨.inl, fun hb => hb.elim id fun hb => absurd ha hb.2⟩
  · next h =>
      have ha : a ∉ w.seen := fun ha => h (Std.ExtTreeSet.contains_iff_mem.2 ha)
      rw [OrderedSet.mem_insert_iff]
      exact ⟨fun hb => hb.elim (fun hba => .inr ⟨hba, ha⟩) .inl,
        fun hb => hb.elim .inr fun hb => .inl hb.1⟩

theorem mem_seen_pushAll : b ∈ (w.pushAll axioms).seen ↔ b ∈ axioms ∨ b ∈ w.seen := by
  induction axioms generalizing w with
  | nil => simp [pushAll]
  | cons a axioms ih =>
      have hrest : b ∈ ((w.push a).pushAll axioms).seen ↔ b ∈ axioms ∨ b ∈ (w.push a).seen := ih
      rw [mem_seen_push] at hrest
      rw [List.mem_cons]
      exact hrest.trans (by tauto)

/-- An axiom waits if it waited before or is taken up for the first time. -/
theorem mem_pending_pushAll :
    b ∈ (w.pushAll axioms).pending ↔ b ∈ w.pending ∨ b ∈ axioms ∧ b ∉ w.seen := by
  induction axioms generalizing w with
  | nil => simp [pushAll]
  | cons a axioms ih =>
      have hrest : b ∈ ((w.push a).pushAll axioms).pending ↔
          b ∈ (w.push a).pending ∨ b ∈ axioms ∧ b ∉ (w.push a).seen := ih
      rw [mem_seen_push, mem_pending_push] at hrest
      rw [List.mem_cons]
      refine hrest.trans ?_
      by_cases hba : b = a
      · subst hba
        tauto
      · tauto

theorem mem_seen_ofList : b ∈ (ofList axioms).seen ↔ b ∈ axioms := OrderedSet.mem_ofList_iff

theorem mem_pending_ofList : b ∈ (ofList axioms).pending ↔ b ∈ axioms := OrderedSet.mem_ofList_iff

end Worklist

/-! ## Runs -/

/-- From the worklist, the forms found so far and the first vocabulary a run ends with the
forms and the vocabulary that are given last. -/
inductive Drained : Worklist → OrderedSet NormalAxiom → Vocabulary →
    OrderedSet NormalAxiom → Vocabulary → Prop
  | done {l found v} (h : ∀ a, a ∉ l.pending) : Drained l found v found v
  | keep {l l' found v a out w} (hpop : l.pop? = some (.normal a, l'))
      (hcheck : a.check = .ok ()) (rest : Drained l' (found.insert a) v out w) :
      Drained l found v out w
  | step {l l' found v a axioms u out w} (hpop : l.pop? = some (a, l'))
      (hstep : Step v a axioms u) (rest : Drained (l'.pushAll axioms) found u out w) :
      Drained l found v out w
  | read {l l' found v a form u out w} (hpop : l.pop? = some (a, l'))
      (hleft : replacement? a = none) (hread : Reading v a form u)
      (rest : Drained l' (found.insert form) u out w) :
      Drained l found v out w

variable {v w : Vocabulary} {l : Worklist} {found out : OrderedSet NormalAxiom}

theorem drain_none {steps : Nat} (hpop : l.pop? = none) : drain steps l found = pure found := by
  cases steps with
  | zero => rfl
  | succ steps => simp only [drain, hpop]

/-- A pending normal form is checked and kept, and another axiom is replaced or read. -/
theorem drain_some {a : Axiom} {l' : Worklist} (found : OrderedSet NormalAxiom)
    (hpop : l.pop? = some (a, l')) :
    (∃ form, a = .normal form ∧ ∀ steps, drain (steps + 1) l found = (do
      Minting.ofExcept form.check
      drain steps l' (found.insert form))) ∨
    (∃ m, replacement? a = some m ∧ ∀ steps, drain (steps + 1) l found =
      m >>= fun axioms => drain steps (l'.pushAll axioms) found) ∨
    (replacement? a = none ∧ (∀ form, a ≠ .normal form) ∧ ∀ steps, drain (steps + 1) l found =
      toNormal a >>= fun form => drain steps l' (found.insert form)) := by
  by_cases hform : ∃ form, a = .normal form
  · obtain ⟨form, rfl⟩ := hform
    exact .inl ⟨form, rfl, fun steps => by simp only [drain, hpop]⟩
  rw [not_exists] at hform
  cases hm : replacement? a with
  | some m =>
      refine .inr (.inl ⟨m, rfl, fun steps => ?_⟩)
      cases a
      case normal form => exact absurd rfl (hform form)
      all_goals
        simp only [drain, hpop, hm]
        rfl
  | none =>
      refine .inr (.inr ⟨rfl, hform, fun steps => ?_⟩)
      cases a
      case normal form => exact absurd rfl (hform form)
      all_goals simp only [drain, hpop, hm]

/-- Nothing is pending if nothing weighs anything. -/
theorem Worklist.pop?_of_weight (h : l.weight = 0) : l.pop? = none := by
  cases hpop : l.pop? with
  | none => rfl
  | some popped =>
      have hweight := weight_pop? hpop
      have hone := popped.1.one_le_weight
      omega

/-- As many steps as the worklist weighs are enough. -/
theorem drained_of_drain {steps : Nat} (hsteps : l.weight ≤ steps)
    (h : drain steps l found v = .ok out w) : Drained l found v out w := by
  induction steps generalizing l found v with
  | zero =>
      obtain ⟨rfl, rfl⟩ := Minting.pure_eq_ok.1 h
      exact .done (Worklist.pop?_eq_none.1 (Worklist.pop?_of_weight (Nat.le_zero.1 hsteps)))
  | succ steps ih =>
      cases hpop : l.pop? with
      | none =>
          rw [drain_none hpop] at h
          obtain ⟨rfl, rfl⟩ := Minting.pure_eq_ok.1 h
          exact .done (Worklist.pop?_eq_none.1 hpop)
      | some popped =>
          obtain ⟨a, l'⟩ := popped
          have hweight := Worklist.weight_pop? hpop
          have hone := a.one_le_weight
          rcases drain_some found hpop with
            ⟨form, rfl, hdrain⟩ | ⟨m, hm, hdrain⟩ | ⟨hm, -, hdrain⟩
          · rw [hdrain] at h
            obtain ⟨⟨⟩, u, hcheck, hrest⟩ := Minting.bind_eq_ok.1 h
            obtain ⟨hwf, rfl⟩ := Minting.ofExcept_eq_ok.1 hcheck
            exact .keep hpop hwf (ih (by omega) hrest)
          · rw [hdrain] at h
            obtain ⟨axioms, u, haxioms, hrest⟩ := Minting.bind_eq_ok.1 h
            have hstep := step_of_replacement? hm haxioms
            have hdescends := hstep.descends
            have hpush := Worklist.weight_pushAll l' axioms
            exact .step hpop hstep (ih (by omega) hrest)
          · rw [hdrain] at h
            obtain ⟨form, u, hform, hrest⟩ := Minting.bind_eq_ok.1 h
            exact .read hpop hm (reading_of_toNormal hform) (ih (by omega) hrest)

/-- More steps than the worklist weighs make no difference. -/
theorem drain_eq_drain {steps steps' : Nat} (hsteps : l.weight ≤ steps)
    (hsteps' : l.weight ≤ steps') : drain steps l found v = drain steps' l found v := by
  induction steps generalizing steps' l found v with
  | zero =>
      have hpop := Worklist.pop?_of_weight (Nat.le_zero.1 hsteps)
      rw [drain_none hpop, drain_none hpop]
  | succ steps ih =>
      cases hpop : l.pop? with
      | none => rw [drain_none hpop, drain_none hpop]
      | some popped =>
          obtain ⟨a, l'⟩ := popped
          have hweight := Worklist.weight_pop? hpop
          have hone := a.one_le_weight
          obtain ⟨steps', rfl⟩ : ∃ n, steps' = n + 1 := ⟨steps' - 1, by omega⟩
          rcases drain_some found hpop with
            ⟨form, rfl, hdrain⟩ | ⟨m, hm, hdrain⟩ | ⟨-, -, hdrain⟩
          · rw [hdrain, hdrain]
            exact Minting.bind_apply_congr fun _ _ _ => ih (by omega) (by omega)
          · rw [hdrain, hdrain]
            refine Minting.bind_apply_congr fun axioms u haxioms => ?_
            have hdescends := (step_of_replacement? hm haxioms).descends
            have hpush := Worklist.weight_pushAll l' axioms
            exact ih (by omega) (by omega)
          · rw [hdrain, hdrain]
            exact Minting.bind_apply_congr fun _ _ _ => ih (by omega) (by omega)

/-- A successful normalization ends with nothing pending. -/
theorem drained_of_normalize {axioms : List Axiom} (h : normalize axioms v = .ok out w) :
    Drained (.ofList axioms) ∅ v out w :=
  drained_of_drain (Nat.le_refl _) h

end OwlEl.Normalization
