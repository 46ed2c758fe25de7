import OwlEl.Proofs.Normalization.Regularity

/-!
# Every normalization ends

The weight of the axioms bounds the steps of a run, so that the loop has come to its end when the
steps are used up. A run on canonical axioms over the vocabulary gives well-formed forms, is
refused because of an ill-formed form among the axioms, or has no identifier left to mint, and this
only if there was not twice as much room as the axioms weigh: `normalize_total`.
-/

namespace OwlEl.Normalization

open Minting

variable {v w : Vocabulary} {l : Worklist} {found forms : OrderedSet NormalAxiom}
  {axioms : List Axiom} {form : NormalAxiom} {fault : Fault}

theorem isInvariant_isCanonical : IsInvariant fun _ a => a.IsCanonical where
  mono _ ha := ha
  replaced _ ha h b hb := by
    cases h with
    | step h => exact (h.isRegular ha b hb).isCanonical
    | read _ h => exact List.mem_singleton.1 hb ▸ trivial

/-! ## Successful runs -/

/-- What is found is well-formed. -/
theorem Drained.isWellFormed (h : Drained l found v forms w)
    (hfound : ∀ form ∈ found, form.IsWellFormed) : ∀ form ∈ forms, form.IsWellFormed := by
  have hinsert : ∀ {found : OrderedSet NormalAxiom} {form : NormalAxiom}, form.IsWellFormed →
      (∀ form ∈ found, form.IsWellFormed) →
      ∀ form' ∈ found.insert form, form'.IsWellFormed := fun hform hfound form' h =>
    (OrderedSet.mem_insert_iff.1 h).elim (fun heq => heq ▸ hform) (hfound form')
  induction h with
  | done _ => exact hfound
  | keep _ hcheck _ ih => exact ih (hinsert (check_eq_ok.1 hcheck) hfound)
  | step _ _ _ ih => exact ih hfound
  | read _ _ hread _ ih => exact ih (hinsert hread.isWellFormed hfound)

theorem normalize_isWellFormed (h : normalize axioms v = .ok forms w) :
    ∀ form ∈ forms, form.IsWellFormed :=
  (drained_of_normalize h).isWellFormed fun _ hform => absurd hform Std.ExtTreeSet.not_mem_empty

/-- A pending normal form is found. -/
theorem Drained.mem_of_pending (h : Drained l found v forms w)
    (hform : .normal form ∈ l.pending) : form ∈ forms := by
  have hstays : ∀ {l l' : Worklist} {a : Axiom}, l.pop? = some (a, l') → .normal form ∈ l.pending →
      a ≠ .normal form → .normal form ∈ l'.pending := fun hpop hform hne => by
    obtain ⟨-, rfl⟩ := Worklist.pop?_eq_some hpop
    exact OrderedSet.mem_erase_iff.2 ⟨hne.symm, hform⟩
  induction h with
  | done h => exact absurd hform (h _)
  | @keep l l' found v a forms w hpop _ rest ih =>
      by_cases ha : a = form
      · exact rest.found_subset (OrderedSet.mem_insert_iff.2 (.inl ha.symm))
      · exact ih (hstays hpop hform fun h => ha (Axiom.normal.inj h))
  | step hpop hstep _ ih =>
      refine ih (Worklist.mem_pending_pushAll.2 (.inl (hstays hpop hform ?_)))
      rintro rfl
      cases hstep
  | read hpop _ hread _ ih =>
      refine ih (hstays hpop hform ?_)
      rintro rfl
      cases hread

/-! ## Failing runs -/

/-- Why a run on the worklist fails: a pending form is ill-formed, or there is no room for what the
pending axioms demand. -/
inductive Worklist.Fails (l : Worklist) (v : Vocabulary) : Fault → Prop
  | malformed {form : NormalAxiom} (hform : .normal form ∈ l.pending)
      (hill : ¬form.IsWellFormed) : Fails l v (.malformed form)
  | idsExhausted (hroom : ¬v.HasRoom (l.total Axiom.demand)) : Fails l v .idsExhausted

namespace Worklist.Fails

/-- What makes the rest of a run fail makes the run fail, if the rest has no ill-formed form of its
own and room enough. -/
theorem of_rest {u : Vocabulary} {l' : Worklist} (h : l'.Fails u fault)
    (hforms : ∀ form, .normal form ∈ l'.pending → form.IsWellFormed ∨ .normal form ∈ l.pending)
    (hsize : ∀ k, (u.table k).size + l'.total Axiom.demand ≤
      (v.table k).size + l.total Axiom.demand) : l.Fails v fault := by
  cases h with
  | malformed hform hill => exact .malformed ((hforms _ hform).resolve_left hill) hill
  | idsExhausted hroom => exact .idsExhausted fun hv => hroom (hv.of_size_le hsize)

/-- A pending axiom demands no more than all that is pending. -/
theorem of_costs {α : Type} {left : α → Nat} {m : Minting α} {a : Axiom} {l' : Worklist}
    (hcosts : Costs a.demand left m v) (hpop : l.pop? = some (a, l'))
    (h : m v = .error fault w) : l.Fails v fault := by
  obtain ⟨rfl, hroom⟩ := hcosts.fails h
  refine .idsExhausted fun hv => hroom (hv.mono ?_)
  rw [total_pop? hpop]
  exact Nat.le_add_right _ _

end Worklist.Fails

theorem drain_eq_error {steps : Nat} (hv : v.WellFormed)
    (hall : l.All (fun a => a.IsOver (v.contains ·) ∧ a.IsCanonical) found)
    (h : drain steps l found v = .error fault w) : l.Fails v fault := by
  have hinvariant := isInvariant_isOver.and isInvariant_isCanonical
  induction steps generalizing l found v with
  | zero => exact absurd h pure_eq_error.1
  | succ steps ih =>
      cases hpop : l.pop? with
      | none =>
          rw [drain_none hpop] at h
          exact absurd h pure_eq_error.1
      | some popped =>
          obtain ⟨a, l'⟩ := popped
          obtain ⟨ha, hall⟩ := hall.pop? hpop
          have htotal := Worklist.total_pop? (f := Axiom.demand) hpop
          have hpending : ∀ b ∈ l'.pending, b ∈ l.pending := by
            obtain ⟨-, rfl⟩ := Worklist.pop?_eq_some hpop
            exact fun b hb => (OrderedSet.mem_erase_iff.1 hb).2
          rcases drain_some found hpop with
            ⟨form, rfl, hdrain⟩ | ⟨m, hm, hdrain⟩ | ⟨hm, hform, hdrain⟩
          · rw [hdrain] at h
            rcases bind_eq_error.1 h with h | ⟨⟨⟩, u, hcheck, h⟩
            · obtain ⟨rfl, hill⟩ := check_eq_error.1 (ofExcept_eq_error.1 h).1
              exact .malformed (Worklist.pop?_eq_some hpop).1 hill
            · obtain ⟨-, rfl⟩ := ofExcept_eq_ok.1 hcheck
              refine (ih hv (hall.insert ha) h).of_rest (fun _ hform => .inr (hpending _ hform)) ?_
              exact fun k => by omega
          · rw [hdrain] at h
            have hcosts := replacement_costs hv ha.1 hm
            rcases bind_eq_error.1 h with h | ⟨axioms, u, haxioms, h⟩
            · exact .of_costs hcosts hpop h
            · have hstep := step_of_replacement? hm haxioms
              obtain ⟨-, hu, hout, hall⟩ :=
                hinvariant.all_pushAll hv hall ha (.step hstep)
              refine (ih hu (hall.pushAll hout) h).of_rest (fun form hform => ?_) fun k => ?_
              · -- a step yields no ill-formed form, so this one was pending before
                rcases Worklist.mem_pending_pushAll.1 hform with hform | ⟨hform, -⟩
                · exact .inr (hpending _ hform)
                · exact .inl (hstep.isRegular ha.2 _ hform)
              · have hsize := hcosts.leaves haxioms k
                have hpush := Worklist.total_pushAll (f := Axiom.demand) l' axioms
                rw [totalDemand] at hsize
                omega
          · rw [hdrain] at h
            have hcosts := toNormal_costs (isReadable_of_replacement? hm hform) hv ha.1 ha.2
            rcases bind_eq_error.1 h with h | ⟨form, u, hread, h⟩
            · exact .of_costs hcosts hpop h
            · have hreading := reading_of_toNormal hread
              obtain ⟨-, hu, hout, hall⟩ :=
                hinvariant.all_pushAll hv hall ha (.read hm hreading)
              have hinsert := hall.insert (hout _ (List.mem_singleton.2 rfl))
              refine (ih hu hinsert h).of_rest (fun _ hform => .inr (hpending _ hform)) fun k => ?_
              have hsize := hcosts.leaves hread k
              omega

theorem normalize_eq_error (hv : v.WellFormed) (hover : ∀ a ∈ axioms, a.IsOver (v.contains ·))
    (hcanonical : ∀ a ∈ axioms, a.IsCanonical) (h : normalize axioms v = .error fault w) :
    (Worklist.ofList axioms).Fails v fault :=
  drain_eq_error hv (.ofList fun a ha => ⟨hover a ha, hcanonical a ha⟩) h

/-! ## Normalization -/

/-- The loop takes at most as many steps as the axioms weigh. With twice as much room, it goes on
until nothing is pending if and only if the normal forms among the axioms are well-formed, and then
so are all that it finds. -/
theorem normalize_total (hv : v.Reachable)
    (hover : ∀ a ∈ axioms, ∀ e ∈ a.entities, v.contains e = true)
    (hcanonical : ∀ a ∈ axioms, a.IsCanonical) :
    (∀ steps, (Worklist.ofList axioms).weight ≤ steps →
      drain steps (.ofList axioms) ∅ v = normalize axioms v) ∧
    ((∃ forms w, normalize axioms v = .ok forms w ∧ Drained (.ofList axioms) ∅ v forms w ∧
        (∀ form, .normal form ∈ axioms → form.IsWellFormed) ∧
        ∀ form ∈ forms, form.IsWellFormed) ∨
      (∃ form w, normalize axioms v = .error (.malformed form) w ∧
        .normal form ∈ axioms ∧ ¬form.IsWellFormed) ∨
      ∃ w, normalize axioms v = .error .idsExhausted w ∧
        ¬v.HasRoom (2 * (Worklist.ofList axioms).weight)) := by
  refine ⟨fun steps hsteps => drain_eq_drain hsteps (Nat.le_refl _), ?_⟩
  cases h : normalize axioms v with
  | ok forms w =>
      have hdrained := drained_of_normalize h
      have hwf := normalize_isWellFormed h
      refine .inl ⟨forms, w, rfl, hdrained, fun form hform => hwf form ?_, hwf⟩
      exact hdrained.mem_of_pending (Worklist.mem_pending_ofList.2 hform)
  | error fault w =>
      have hover : ∀ a ∈ axioms, a.IsOver (v.contains ·) := fun a ha =>
        Axiom.isOver_iff.2 (hover a ha)
      cases normalize_eq_error hv.wellFormed hover hcanonical h with
      | @malformed form hform hill =>
          exact .inr (.inl ⟨form, w, rfl, Worklist.mem_pending_ofList.1 hform, hill⟩)
      | idsExhausted hroom =>
          exact .inr (.inr ⟨w, rfl, fun hv => hroom (hv.mono (totalDemand_le _))⟩)

/-- Intersections of none and of one class and nominals inside both sides of an inclusion, beside a
conjunction that is in normal form already. -/
def nested : List Axiom :=
  [.subClassOf (.intersection [.named ⟨2⟩, .existential (.inverseOf ⟨2⟩)
      (.intersection [.oneOf ⟨0⟩])]) (.intersection [.named ⟨3⟩, .oneOf ⟨0⟩]),
    .subClassOf (.intersection [.intersection [], .oneOf ⟨0⟩])
      (.existential (.named ⟨2⟩) (.intersection [.intersection [.named ⟨4⟩]])),
    .normal (.conjunction [⟨2⟩, ⟨3⟩] .top)]

/-- These axioms over registered entities are brought into normal form. -/
theorem normalize_total_nested :
    ∃ forms w, normalize nested .sample = .ok forms w ∧ ∀ form ∈ forms, form.IsWellFormed := by
  have hover : ∀ a ∈ nested, ∀ e ∈ a.entities, Vocabulary.sample.contains e = true := by
    have hmentions : ∀ a ∈ nested, ∀ e ∈ Axiom.entities.mentions a,
        Vocabulary.sample.contains e = true := by decide
    exact fun a ha e he => hmentions a ha e (OrderedSet.mem_ofList_iff.1 he)
  have hcanonical : ∀ a ∈ nested, a.IsCanonical := by decide
  have hforms : ∀ form, .normal form ∈ nested → form.IsWellFormed := by
    intro form hform
    obtain rfl : form = .conjunction [⟨2⟩, ⟨3⟩] .top := by simpa [nested] using hform
    decide
  have hroom : Vocabulary.sample.HasRoom (2 * (Worklist.ofList nested).weight) := by
    have hweight : (Worklist.ofList nested).weight = 45 := by cbv
    rw [hweight]
    intro k
    cases k <;> decide
  obtain ⟨-, ⟨forms, w, h, -, -, hwf⟩ | ⟨form, w, -, hform, hill⟩ | ⟨w, -, hnot⟩⟩ :=
    normalize_total Vocabulary.reachable_sample hover hcanonical
  · exact ⟨forms, w, h, hwf⟩
  · exact absurd (hforms form hform) hill
  · exact absurd hroom hnot

end OwlEl.Normalization
