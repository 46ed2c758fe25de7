import OwlEl.Proofs.Normalization.Faults
import OwlEl.Proofs.Normalization.Runs

/-!
# Runs that mint nothing

One turn of the loop takes an axiom; other axioms are taken up in its place, or a normal form is
found. An axiom is settled if neither its turn nor the turns of what takes its place mint anything.
Settled axioms do not get in each other's way: a run on them succeeds, leaves the vocabulary as it
is and finds what each of them ends in.

Main statement: `normalize_settled`.
-/

namespace OwlEl.Normalization

open Minting

/-! ## Turns -/

/-- A turn that leaves the vocabulary as it is: the axioms are taken up in the place of the axiom
that is taken, and the normal forms are found. -/
inductive Turn (v : Vocabulary) : Axiom → List Axiom → List NormalAxiom → Prop
  | keep {form} (hform : form.IsWellFormed) : Turn v (.normal form) [] [form]
  | step {a m out} (hm : replacement? a = some m) (hout : m v = .ok out v) : Turn v a out []
  | read {a form} (hleft : replacement? a = none) (hread : toNormal a v = .ok form v) :
      Turn v a [] [form]

/-- Normalizing the axiom mints nothing. -/
inductive Settled (v : Vocabulary) : Axiom → Prop
  | intro {a out new} (h : Turn v a out new) (hrest : ∀ b ∈ out, Settled v b) : Settled v a

/-- The normal form is found when the axiom is taken, or from what takes its place. -/
inductive EndsIn (v : Vocabulary) (form : NormalAxiom) : Axiom → Prop
  | here {a out new} (h : Turn v a out new) (hform : form ∈ new) : EndsIn v form a
  | later {a b out new} (h : Turn v a out new) (hb : b ∈ out) (hrest : EndsIn v form b) :
      EndsIn v form a

/-- A run that leaves the vocabulary as it is, turn by turn. -/
inductive Quiet (v : Vocabulary) : Worklist → OrderedSet NormalAxiom → OrderedSet NormalAxiom → Prop
  | done {l found} (h : l.pop? = none) : Quiet v l found found
  | turn {l l' found a out new forms} (hpop : l.pop? = some (a, l')) (h : Turn v a out new)
      (rest : Quiet v (l'.pushAll out) (found.insertMany new) forms) : Quiet v l found forms

variable {v : Vocabulary} {l l' : Worklist} {found forms : OrderedSet NormalAxiom} {a : Axiom}
  {out out' axioms : List Axiom} {new new' : List NormalAxiom} {form : NormalAxiom}

/-- An axiom has at most one turn. -/
theorem Turn.eq (h : Turn v a out new) (h' : Turn v a out' new') : out = out' ∧ new = new' := by
  cases h with
  | keep =>
      cases h' with
      | keep => exact ⟨rfl, rfl⟩
      | step hm => exact absurd hm (by simp [replacement?])
      | read _ hread => exact absurd hread (by simp [toNormal])
  | step hm hout =>
      cases h' with
      | keep => exact absurd hm (by simp [replacement?])
      | step hm' hout' =>
          obtain rfl := Option.some.inj (hm.symm.trans hm')
          rw [hout] at hout'
          exact ⟨(EStateM.Result.ok.inj hout').1, rfl⟩
      | read hleft => exact absurd (hm.symm.trans hleft) (Option.some_ne_none _)
  | read hleft hread =>
      cases h' with
      | keep => exact absurd hread (by simp [toNormal])
      | step hm => exact absurd (hm.symm.trans hleft) (Option.some_ne_none _)
      | read _ hread' =>
          rw [hread] at hread'
          rw [(EStateM.Result.ok.inj hread').1]
          exact ⟨rfl, rfl⟩

/-- What is taken up weighs less than what it replaces. -/
theorem Turn.descends (h : Turn v a out new) : totalWeight (out.map Axiom.weight) < a.weight := by
  cases h with
  | keep | read => exact Axiom.one_le_weight _
  | step hm hout => exact (step_of_replacement? hm hout).descends

/-- The loop goes on with what is taken up and with what is found. -/
theorem drain_turn {steps : Nat} (hpop : l.pop? = some (a, l')) (h : Turn v a out new) :
    drain (steps + 1) l found v = drain steps (l'.pushAll out) (found.insertMany new) v := by
  cases h with
  | keep hform =>
      simp only [drain, hpop, check_eq_ok.2 hform]
      rfl
  | step hm hout =>
      cases a
      case normal form => exact absurd hm (by simp [replacement?])
      all_goals
        simp only [drain, hpop, hm]
        rw [bind_apply_of_ok hout]
        rfl
  | read hleft hread =>
      cases a
      case normal form => exact absurd hread (by simp [toNormal])
      all_goals
        simp only [drain, hpop, hleft]
        rw [bind_apply_of_ok hread]
        rfl

theorem Turn.endsIn_iff (h : Turn v a out new) :
    EndsIn v form a ↔ form ∈ new ∨ ∃ b ∈ out, EndsIn v form b := by
  constructor
  · intro hends
    cases hends with
    | here h' hform => exact .inl ((h.eq h').2 ▸ hform)
    | later h' hb hrest => exact .inr ⟨_, (h.eq h').1 ▸ hb, hrest⟩
  · rintro (hform | ⟨b, hb, hrest⟩)
    · exact .here h hform
    · exact .later h hb hrest

/-- The axiom is settled and ends in these forms. -/
structure Settles (v : Vocabulary) (a : Axiom) (forms : List NormalAxiom) : Prop where
  settled : Settled v a
  endsIn_iff : ∀ form, EndsIn v form a ↔ form ∈ forms

/-- An axiom ends in the forms that are found when it is taken and in those that the axioms in its
place end in. -/
theorem Turn.settles {rest : List (List NormalAxiom)} (h : Turn v a out new)
    (hout : List.Forall₂ (Settles v) out rest) : Settles v a (new ++ rest.flatten) where
  settled := .intro h (forall_mem_of_forall₂ hout.flip fun _ _ hb => hb.settled)
  endsIn_iff form := by
    have hrest : (∃ b ∈ out, EndsIn v form b) ↔ form ∈ rest.flatten := by
      clear h
      induction hout with
      | nil => simp
      | cons hb _ ih =>
          rw [List.exists_mem_cons_iff, ih, hb.endsIn_iff, List.flatten_cons, List.mem_append]
    rw [h.endsIn_iff, hrest, List.mem_append]

/-! ## Runs -/

theorem mem_insertMany : form ∈ found.insertMany new ↔ form ∈ found ∨ form ∈ new := by
  rw [Std.ExtTreeSet.mem_insertMany_list, List.contains_iff_mem]

/-- A run on settled axioms succeeds. -/
theorem drain_of_settled (found : OrderedSet NormalAxiom) {steps : Nat}
    (hsteps : l.weight ≤ steps) (h : ∀ a ∈ l.pending, Settled v a) :
    ∃ forms, drain steps l found v = .ok forms v ∧ Quiet v l found forms := by
  induction steps generalizing l found with
  | zero =>
      have hpop := Worklist.pop?_of_weight (Nat.le_zero.1 hsteps)
      exact ⟨found, by rw [drain_none hpop]; rfl, .done hpop⟩
  | succ steps ih =>
      cases hpop : l.pop? with
      | none => exact ⟨found, by rw [drain_none hpop]; rfl, .done hpop⟩
      | some popped =>
          obtain ⟨a, l'⟩ := popped
          obtain ⟨ha, hl'⟩ := Worklist.pop?_eq_some hpop
          obtain @⟨_, out, new, hturn, hout⟩ := h a ha
          have hweight := Worklist.weight_pop? hpop
          have hdescends := hturn.descends
          have hpush := Worklist.weight_pushAll l' out
          have hrest : ∀ b ∈ (l'.pushAll out).pending, Settled v b := by
            intro b hb
            rcases Worklist.mem_pending_pushAll.1 hb with hb | ⟨hb, -⟩
            · rw [hl', OrderedSet.mem_erase_iff] at hb
              exact h b hb.2
            · exact hout b hb
          obtain ⟨forms, hdrain, hquiet⟩ := ih (found.insertMany new) (by omega) hrest
          exact ⟨forms, (drain_turn hpop hturn).trans hdrain, .turn hpop hturn hquiet⟩

namespace Quiet

theorem found_subset (h : Quiet v l found forms) : ∀ form ∈ found, form ∈ forms := by
  induction h with
  | done => exact fun _ hform => hform
  | turn _ _ _ ih => exact fun form hform => ih form (mem_insertMany.2 (.inl hform))

/-- What is found comes from what is pending. -/
theorem sound (h : Quiet v l found forms) (hform : form ∈ forms) :
    form ∈ found ∨ ∃ a ∈ l.pending, EndsIn v form a := by
  induction h with
  | done => exact .inl hform
  | turn hpop hturn _ ih =>
      obtain ⟨ha, rfl⟩ := Worklist.pop?_eq_some hpop
      rcases ih hform with hfound | ⟨b, hb, hends⟩
      · apply (mem_insertMany.1 hfound).imp_right
        intro hnew
        exact ⟨_, ha, .here hturn hnew⟩
      · rcases Worklist.mem_pending_pushAll.1 hb with hb | ⟨hb, -⟩
        · exact .inr ⟨b, (OrderedSet.mem_erase_iff.1 hb).2, hends⟩
        · exact .inr ⟨_, ha, .later hturn hb hends⟩

/-- What has been looked at is found, if it is justified that it is no longer pending. -/
theorem complete (h : Quiet v l found forms)
    (hjust : Justified (fun a => ∀ form, EndsIn v form a → form ∈ forms) l) :
    ∀ a ∈ l.seen, ∀ form, EndsIn v form a → form ∈ forms := by
  induction h with
  | done h => exact hjust.all (Worklist.pop?_eq_none.1 h)
  | @turn l l' found a out new forms hpop hturn rest ih =>
      have hlight : ∀ b ∈ out, b.weight < a.weight := fun b hb =>
        Nat.lt_of_le_of_lt (le_totalWeight (f := Axiom.weight) hb) hturn.descends
      -- what takes the place of the axiom may have been taken before, so it is not pending for
      -- certain; but it is lighter than the axiom
      have hjust := hjust.step hpop hlight fun hout form hends => by
        rcases hturn.endsIn_iff.1 hends with hnew | ⟨b, hb, hends⟩
        · exact rest.found_subset form (mem_insertMany.2 (.inr hnew))
        · exact hout b hb form hends
      obtain ⟨-, rfl⟩ := Worklist.pop?_eq_some hpop
      intro b hb
      exact ih hjust b (Worklist.mem_seen_pushAll.2 (.inr hb))

end Quiet

/-- Settled axioms are normalized independently of one another, and nothing is minted. -/
theorem normalize_settled (h : ∀ a ∈ axioms, Settled v a) :
    ∃ forms, normalize axioms v = .ok forms v ∧
      ∀ form, form ∈ forms ↔ ∃ a ∈ axioms, EndsIn v form a := by
  have hpending : ∀ a ∈ (Worklist.ofList axioms).pending, Settled v a := fun a ha =>
    h a (Worklist.mem_pending_ofList.1 ha)
  obtain ⟨forms, hrun, hquiet⟩ := drain_of_settled ∅ (Nat.le_refl _) hpending
  refine ⟨forms, hrun, fun form => ?_⟩
  constructor
  · intro hform
    rcases hquiet.sound hform with hnone | ⟨a, ha, hends⟩
    · exact absurd hnone Std.ExtTreeSet.not_mem_empty
    · exact ⟨a, Worklist.mem_pending_ofList.1 ha, hends⟩
  · rintro ⟨a, ha, hends⟩
    apply hquiet.complete _ a (Worklist.mem_seen_ofList.2 ha) form hends
    -- at first, all that has been looked at is pending
    intro b hb hwaits
    exact absurd (Worklist.mem_pending_ofList.2 (Worklist.mem_seen_ofList.1 hb)) hwaits

end OwlEl.Normalization
