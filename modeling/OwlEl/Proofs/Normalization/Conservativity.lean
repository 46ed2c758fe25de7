import OwlEl.Proofs.Normalization.Preservation
import OwlEl.Proofs.Valuation.Interpretation

/-!
# Normalization is conservative

Forwards, a valuation of the entities that were there before extends to one that satisfies the
normal forms; backwards, the axioms follow from the normal forms. Forwards the valuation is extended
step by step, so it satisfies whatever is pending or found. Backwards, every axiom that has been
looked at and is no longer pending follows from the axioms of less weight that have been looked at:
an axiom that a step yields may have been looked at before and is then not taken up again, so the
axioms follow from the normal forms by induction on the weight. Interpretations are valuations.

Main statements: `forth_normalize`, `back_normalize` and `normalize_conservative`.
-/

namespace OwlEl.Normalization

universe u

variable {C P : Type u} [CompleteLattice C] {M : Meanings C P} {I J : Valuation M}
  {v w : Vocabulary} {l : Worklist} {found forms : OrderedSet NormalAxiom}
  {axioms : List Axiom}

/-- The axiom is over the vocabulary, and tame where individuals may be inactive. -/
def Admits (M : Meanings C P) (v : Vocabulary) (a : Axiom) : Prop :=
  a.IsOver (v.contains ·) ∧ (M.selective = true → a.IsTame v)

theorem isInvariant_admits (M : Meanings C P) : IsInvariant (Admits M) where
  mono hvw ha := ⟨ha.1.of_extends hvw, fun hM => (ha.2 hM).of_extends hvw⟩
  replaced hv ha h b hb := ⟨h.isOver hv ha.1 b hb, fun hM => h.isTame hv (ha.2 hM) b hb⟩

/-! ## Forwards -/

theorem Worklist.All.of_agreesOn (hv : v.WellFormed) (h : l.All I.Satisfies found)
    (hall : l.All (Admits M v) found) (hIJ : I.AgreesOn J (v.contains ·)) :
    l.All J.Satisfies found :=
  ⟨fun a ha => (hIJ.satisfies hv (hall.pending a ha).1).2 (h.pending a ha),
    fun a ha => (hIJ.satisfies hv (hall.found a ha).1).2 (h.found a ha)⟩

/-- A valuation that satisfies the worklist extends to one that satisfies what is found. -/
theorem Drained.extends (h : Drained l found v forms w) (hv : v.WellFormed)
    (hall : l.All (Admits M v) found) (hI : I.Reads v) (hholds : l.All I.Satisfies found) :
    ∃ J : Valuation M,
      I.AgreesOn J (v.contains ·) ∧ J.Reads w ∧ ∀ a ∈ forms, J.SatisfiesNormal a := by
  have hM := isInvariant_admits M
  induction h generalizing I with
  | done _ => exact ⟨I, .refl I _, hI, hholds.found⟩
  | keep hpop _ _ ih =>
      obtain ⟨ha, hall⟩ := hall.pop? hpop
      obtain ⟨hIa, hholds⟩ := hholds.pop? hpop
      exact ih hv (hall.insert ha) hI (hholds.insert hIa)
  | step hpop hstep _ ih =>
      obtain ⟨ha, hall⟩ := hall.pop? hpop
      obtain ⟨hIa, hholds⟩ := hholds.pop? hpop
      obtain ⟨hgrow, hu, hout, hall'⟩ := hM.all_pushAll hv hall ha (.step hstep)
      obtain ⟨J, hIJ, hJ, hJout⟩ := (hstep.preserves hv ha.1 ha.2).forth I hI hIa
      obtain ⟨K, hJK, hK, hforms⟩ := ih hu (hall'.pushAll hout) hJ
        ((hholds.of_agreesOn hv hall hIJ).pushAll hJout)
      exact ⟨K, hIJ.trans_extends hJK hgrow, hK, hforms⟩
  | read hpop hleft hread _ ih =>
      obtain ⟨ha, hall⟩ := hall.pop? hpop
      obtain ⟨hIa, hholds⟩ := hholds.pop? hpop
      obtain ⟨hgrow, hu, hout, hall'⟩ := hM.all_pushAll hv hall ha (.read hleft hread)
      obtain ⟨J, hIJ, hJ, hJout⟩ := (hread.preserves hleft hv ha.1).forth I hI hIa
      obtain ⟨K, hJK, hK, hforms⟩ := ih hu (hall'.insert (hout _ (List.mem_singleton.2 rfl))) hJ
        ((hholds.of_agreesOn hv hall hIJ).insert (hJout _ (List.mem_singleton.2 rfl)))
      exact ⟨K, hIJ.trans_extends hJK hgrow, hK, hforms⟩

/-! ## Backwards -/

/-- A valuation that satisfies what is found satisfies all that the run has looked at. -/
theorem Drained.reflects (h : Drained l found v forms w) (hv : v.WellFormed)
    (hall : l.All (Admits M v) found) (hJ : J.Reads w)
    (hforms : ∀ a ∈ forms, J.SatisfiesNormal a) (hjust : Justified J.Satisfies l) :
    ∀ a ∈ l.seen, J.Satisfies a := by
  have hM := isInvariant_admits M
  induction h with
  | done h => exact hjust.all h
  | keep hpop _ rest ih =>
      obtain ⟨ha, hall⟩ := hall.pop? hpop
      have hform := hforms _ (rest.found_subset (OrderedSet.mem_insert_iff.2 (.inl rfl)))
      have hseen := ih hv (hall.insert ha) hJ hforms (hjust.pop? hpop hform)
      obtain ⟨-, rfl⟩ := Worklist.pop?_eq_some hpop
      exact hseen
  | @step l l' found v a out u forms w hpop hstep rest ih =>
      obtain ⟨ha, hall⟩ := hall.pop? hpop
      obtain ⟨-, hu, hout, hall⟩ := hM.all_pushAll hv hall ha (.step hstep)
      have hall := hall.pushAll hout
      have hJu := hJ.of_extends (rest.grows hM hu hall).1
      have hlight : ∀ b ∈ out, b.weight < a.weight := fun b hb =>
        Nat.lt_of_le_of_lt (le_totalWeight (f := Axiom.weight) hb) hstep.descends
      have hseen := ih hu hall hJ hforms
        (hjust.step hpop hlight ((hstep.preserves hv ha.1 ha.2).back J hJu))
      obtain ⟨-, rfl⟩ := Worklist.pop?_eq_some hpop
      exact fun b hb => hseen b (Worklist.mem_seen_pushAll.2 (.inr hb))
  | read hpop hleft hread rest ih =>
      obtain ⟨ha, hall⟩ := hall.pop? hpop
      obtain ⟨-, hu, hout, hall⟩ := hM.all_pushAll hv hall ha (.read hleft hread)
      have hall := hall.insert (hout _ (List.mem_singleton.2 rfl))
      have hJu := hJ.of_extends (rest.grows hM hu hall).1
      have hform := hforms _ (rest.found_subset (OrderedSet.mem_insert_iff.2 (.inl rfl)))
      have hseen := ih hu hall hJ hforms (hjust.pop? hpop
        ((hread.preserves hleft hv ha.1).back J hJu (List.forall_mem_singleton.2 hform)))
      obtain ⟨-, rfl⟩ := Worklist.pop?_eq_some hpop
      exact hseen

/-! ## Normalization -/

section Normalize

variable (hv : v.WellFormed) (hall : ∀ a ∈ axioms, Admits M v a)
  (h : normalize axioms v = .ok forms w)

include hv hall h

theorem forth_normalize (hI : I.Reads v) (hIa : ∀ a ∈ axioms, I.Satisfies a) :
    ∃ J : Valuation M,
      I.AgreesOn J (v.contains ·) ∧ J.Reads w ∧ ∀ a ∈ forms, J.SatisfiesNormal a :=
  (drained_of_normalize h).extends hv (.ofList hall) hI (.ofList hIa)

theorem back_normalize (hJ : J.Reads w) (hforms : ∀ a ∈ forms, J.SatisfiesNormal a) :
    ∀ a ∈ axioms, J.Satisfies a := by
  have hjust : Justified J.Satisfies (.ofList axioms) := fun b hb hwaits _ =>
    absurd (Worklist.mem_pending_ofList.2 (Worklist.mem_seen_ofList.1 hb)) hwaits
  intro a ha
  exact (drained_of_normalize h).reflects hv (.ofList hall) hJ hforms hjust a
    (Worklist.mem_seen_ofList.2 ha)

end Normalize

/-! ## Interpretations -/

/-- The forms over the second vocabulary say the same about the entities of the first as the
axioms. -/
structure Represents (v : Vocabulary) (axioms : List Axiom) (forms : OrderedSet NormalAxiom)
    (w : Vocabulary) : Prop where
  grows : v.Extends w
  wellFormed : w.WellFormed
  isOver : ∀ a ∈ forms, a.IsOver (w.contains ·)
  forth : ∀ {Δ : Type u} (I : Interpretation Δ), I.Reads v → (∀ a ∈ axioms, I.Satisfies a) →
    ∃ J : Interpretation Δ,
      I.AgreesOn J (v.contains ·) ∧ J.Reads w ∧ ∀ a ∈ forms, J.SatisfiesNormal a
  back : ∀ {Δ : Type u} (J : Interpretation Δ), J.Reads w → (∀ a ∈ forms, J.SatisfiesNormal a) →
    ∀ a ∈ axioms, J.Satisfies a

theorem normalize_represents (hv : v.WellFormed) (hover : ∀ a ∈ axioms, a.IsOver (v.contains ·))
    (h : normalize axioms v = .ok forms w) : Represents.{u} v axioms forms w := by
  obtain ⟨hgrow, hw, hforms⟩ := isInvariant_isOver.normalize hv hover h
  have hall : ∀ Δ : Type u, ∀ a ∈ axioms, Admits (.sets Δ) v a := fun _ a ha => ⟨hover a ha, nofun⟩
  refine ⟨hgrow, hw, hforms, fun {Δ} I hI hIa => ?_, fun {Δ} J hJ hJforms a ha => ?_⟩
  · obtain ⟨K, hIK, hK, hKforms⟩ := forth_normalize hv (hall Δ) h
      (Interpretation.reads_valuation.2 hI)
      fun a ha => (Interpretation.satisfies_valuation hI.bounds).2 (hIa a ha)
    obtain ⟨J, rfl⟩ := Interpretation.exists_valuation_eq K
    exact ⟨J, Interpretation.agreesOn_valuation.1 hIK, Interpretation.reads_valuation.1 hK,
      fun a ha => Interpretation.satisfiesNormal_valuation.1 (hKforms a ha)⟩
  · refine (Interpretation.satisfies_valuation hJ.bounds).1 (back_normalize hv (hall Δ) h
      (Interpretation.reads_valuation.2 hJ) (fun b hb => ?_) a ha)
    exact Interpretation.satisfiesNormal_valuation.2 (hJforms b hb)

/-- Normalization is a conservative extension. A reading of the vocabulary before the call that
satisfies the axioms extends to a reading of the vocabulary after it that satisfies the forms,
and every reading of the vocabulary after the call that satisfies the forms satisfies the
axioms. -/
theorem normalize_conservative {axioms : List Axiom} {forms : OrderedSet NormalAxiom}
    (hv : v.Reachable) (hover : ∀ a ∈ axioms, ∀ e ∈ a.entities, v.contains e = true)
    (h : normalize axioms v = .ok forms w) :
    (∀ {Δ : Type u} (I : Interpretation Δ), I.Reads v → (∀ a ∈ axioms, I.Satisfies a) →
      ∃ J : Interpretation Δ,
        I.AgreesOn J (v.contains ·) ∧ J.Reads w ∧ ∀ a ∈ forms, J.SatisfiesNormal a) ∧
      ∀ {Δ : Type u} (J : Interpretation Δ), J.Reads w → (∀ a ∈ forms, J.SatisfiesNormal a) →
        ∀ a ∈ axioms, J.Satisfies a := by
  have hrep := normalize_represents hv.wellFormed
    (fun a ha => Axiom.isOver_iff.2 (hover a ha)) h
  exact ⟨hrep.forth, hrep.back⟩

/-- An assertion of a nested class, for which a class is minted for the individual and another
for the filler: it has a model that satisfies its normal forms. -/
theorem normalize_conservative_assertion :
    ∃ (v w : Vocabulary) (i : IndividualId) (forms : OrderedSet NormalAxiom)
      (J : Interpretation Unit),
      normalize [.classAssertion (.existential (.named .top)
        (.existential (.named .top) (.named .top))) i] v = .ok forms w ∧
      J.Reads w ∧ (∀ a ∈ forms, J.SatisfiesNormal a) ∧
      J.Satisfies (.classAssertion (.existential (.named .top)
        (.existential (.named .top) (.named .top))) i) := by
  let v := Vocabulary.initial.modifyTable fun t : NameTable .individual => t.register "a"
  let a : Axiom := .classAssertion (.existential (.named .top)
    (.existential (.named .top) (.named .top))) ⟨0⟩
  have hreg : Minting.register .individual "a" .initial = .ok ⟨0⟩ v := rfl
  have hv : v.Reachable := .register .initial hreg
  have hover : ∀ b ∈ [a], ∀ e ∈ b.entities, v.contains e = true := by
    refine List.forall_mem_singleton.2 (Axiom.isOver_iff.1 ?_)
    simp only [a, Axiom.IsOver, ClassExpr.isOver_existential, ClassExpr.isOver_named]
    decide
  have hok : Minting.succeeds (normalize [a]) v = true := by cbv
  obtain ⟨forms, w, h⟩ := Minting.exists_ok_of_succeeds hok
  let I : Interpretation Unit :=
    ⟨fun c => {_x | c ≠ .bottom}, fun _ _ _ => True, fun _ => ()⟩
  have hI : I.Reads v := by
    refine ⟨⟨?_, ?_⟩, fun hc => ?_, fun _ _ _ => Iff.rfl⟩
    · ext x
      simp [I, Id.top, Id.bottom]
    · ext x
      simp [I]
    · simp [v, Vocabulary.initial] at hc
  have hIa : ∀ b ∈ [a], I.Satisfies b := by
    refine List.forall_mem_singleton.2 ⟨(), trivial, (), trivial, ?_⟩
    change (Id.top : ClassId) ≠ .bottom
    decide
  obtain ⟨J, _, hJ, hforms⟩ := (normalize_conservative hv hover h).1 I hI hIa
  have hback := (normalize_conservative hv hover h).2 J hJ hforms
  exact ⟨v, w, ⟨0⟩, forms, J, h, hJ, hforms, hback a (by simp)⟩

end OwlEl.Normalization
