import OwlEl.Proofs.Faults
import OwlEl.Proofs.Role.Closure

/-!
# How the closure under converses fails

The closure asks for inverses without looking whether the properties are in the vocabulary. It
fails only where one is asked for and withheld, and that is always the inverse of a property
that one of the first axioms mentions, since what has been added is about properties that have
inverses: `refused_of_close`. By then other inverses may have been minted. Nothing is minted, and
the closure does not fail, exactly if all the inverses that it asks for are there to begin with:
`close_iff_hasInverses`.
-/

namespace OwlEl.Converse

variable {v w u : Vocabulary} {axioms out : OrderedSet NormalAxiom} {fault : Fault}

/-! ## Refusals -/

/-- After the minting of inverses that of a mentioned property has been asked for and withheld. -/
structure Refused (v : Vocabulary) (axioms : OrderedSet NormalAxiom) (fault : Fault)
    (w : Vocabulary) : Prop where
  mints : MintsInverses v w
  property : ∃ p : PropertyId, (∃ a ∈ axioms, a.Mentions p) ∧ w.inverse? p = none ∧
    w.Refuses .property p fault

theorem refused_of_inverseOf {p : PropertyId} {a : NormalAxiom} (ha : a ∈ axioms)
    (hp : a.Mentions p) (h : Minting.inverseOf p v = .error fault w) :
    Refused v axioms fault w := by
  obtain ⟨hnone, hrefuses, rfl⟩ := Minting.inverseOf_eq_error.1 h
  exact ⟨.refl, p, ⟨a, ha, hp⟩, hnone, hrefuses⟩

theorem Refused.of_mints (hmints : MintsInverses v u) (h : Refused u axioms fault w) :
    Refused v axioms fault w := ⟨hmints.trans h.mints, h.property⟩

theorem mentions_inclusion {r s : PropertyId} {e : Entity} :
    (NormalAxiom.inclusion r s).Mentions e ↔ e = r ∨ e = s := by
  simp only [NormalAxiom.Mentions, NormalAxiom.IsOver, eq_comm (a := e)]
  tauto

theorem mentions_composition {r s p : PropertyId} {e : Entity} :
    (NormalAxiom.composition r s p).Mentions e ↔ e = r ∨ e = s ∨ e = p := by
  simp only [NormalAxiom.Mentions, NormalAxiom.IsOver, eq_comm (a := e)]
  tauto

/-- A converse is about properties that have inverses. -/
theorem IsConverse.exists_inverse? {a b : NormalAxiom} {p : PropertyId} (h : IsConverse v a b)
    (hv : v.WellFormed) (hp : b.Mentions p) : ∃ q, v.inverse? p = some q := by
  cases h with
  | inclusion hr hs =>
      rw [mentions_inclusion, Entity.ofId_inj, Entity.ofId_inj] at hp
      rcases hp with rfl | rfl
      · exact ⟨_, hv.inverse?_symm hr⟩
      · exact ⟨_, hv.inverse?_symm hs⟩
  | composition hr hs ht =>
      rw [mentions_composition, Entity.ofId_inj, Entity.ofId_inj, Entity.ofId_inj] at hp
      rcases hp with rfl | rfl | rfl
      · exact ⟨_, hv.inverse?_symm hs⟩
      · exact ⟨_, hv.inverse?_symm hr⟩
      · exact ⟨_, hv.inverse?_symm ht⟩

/-- What is withheld after converses have been added is withheld because of one of the first
axioms. -/
theorem Refused.of_adds {kind : NormalAxiom → Prop} (hv : v.WellFormed)
    (hadds : AddsConverses kind v axioms u out) (h : Refused u out fault w) :
    Refused v axioms fault w := by
  obtain ⟨-, hu⟩ := hadds.mints.grows hv
  obtain ⟨p, ⟨a, ha, hp⟩, hnone, hrefuses⟩ := h.property
  refine ⟨hadds.mints.trans h.mints, p, ?_, hnone, hrefuses⟩
  rcases hadds.adds a ha with ha | ⟨-, b, -, hconverse⟩
  · exact ⟨a, ha, hp⟩
  · obtain ⟨q, hq⟩ := hconverse.exists_inverse? hu hp
    rw [(h.mints.grows hu).1.inverse? hq] at hnone
    exact absurd hnone (by simp)

/-! ## The stages -/

theorem refused_of_ofComposition {r s p : PropertyId} (ha : .composition r s p ∈ axioms)
    (h : ofComposition r s p v = .error fault w) : Refused v axioms fault w := by
  have hmentions : ∀ q : PropertyId, q = r ∨ q = s ∨ q = p →
      (NormalAxiom.composition r s p).Mentions q := fun q hq => by
    rwa [mentions_composition, Entity.ofId_inj, Entity.ofId_inj, Entity.ofId_inj]
  rcases Minting.bind_eq_error.1 h with h | ⟨s', u₁, hs, h⟩
  · exact refused_of_inverseOf ha (hmentions s (by simp)) h
  refine .of_mints (.single hs) ?_
  rcases Minting.bind_eq_error.1 h with h | ⟨r', u₂, hr, h⟩
  · exact refused_of_inverseOf ha (hmentions r (by simp)) h
  refine .of_mints (.single hr) ?_
  rcases Minting.bind_eq_error.1 h with h | ⟨p', u₃, hp, h⟩
  · exact refused_of_inverseOf ha (hmentions p (by simp)) h
  · exact absurd h Minting.pure_eq_error.1

theorem refused_of_addCompositions {sources : List NormalAxiom} (hv : v.WellFormed)
    (hsources : ∀ a ∈ sources, a ∈ axioms)
    (h : addCompositions axioms sources v = .error fault w) : Refused v axioms fault w := by
  induction sources generalizing v axioms with
  | nil => exact absurd h Minting.pure_eq_error.1
  | cons a sources ih =>
      have hrest : ∀ b ∈ sources, b ∈ axioms := fun b hb => hsources b (by simp [hb])
      cases a with
      | composition r s p =>
          rw [addCompositions] at h
          rcases Minting.bind_eq_error.1 h with h | ⟨b, u, hb, h⟩
          · exact refused_of_ofComposition (hsources _ (by simp)) h
          · obtain ⟨hmints, hkind, hconverse⟩ := isConverse_ofComposition hv hb
            have hadds := AddsConverses.insert hmints (hsources _ (by simp)) hkind hconverse
            exact .of_adds hv hadds
              (ih (hmints.grows hv).2 (fun c hc => hadds.keeps c (hrest c hc)) h)
      | _ => exact ih hv hrest h

theorem refused_of_addInclusions {sources : List (PropertyId × PropertyId)} (hv : v.WellFormed)
    (hsources : ∀ r s, (r, s) ∈ sources → .inclusion r s ∈ axioms)
    (h : addInclusions axioms sources v = .error fault w) : Refused v axioms fault w := by
  induction sources generalizing v axioms with
  | nil => exact absurd h Minting.pure_eq_error.1
  | cons source sources ih =>
      obtain ⟨r, s⟩ := source
      have ha := hsources r s (by simp)
      have hrest : ∀ p q, (p, q) ∈ sources → .inclusion p q ∈ axioms :=
        fun p q hpq => hsources p q (by simp [hpq])
      rw [addInclusions] at h
      rcases Minting.bind_eq_error.1 h with h | ⟨_, _, hget, h⟩
      · exact absurd h Minting.get_eq_error.1
      obtain ⟨rfl, rfl⟩ := Minting.get_eq_ok.1 hget
      split at h
      · exact ih hv hrest h
      rcases Minting.bind_eq_error.1 h with h | ⟨r', u₁, hr, h⟩
      · exact refused_of_inverseOf ha (mentions_inclusion.2 (.inl rfl)) h
      obtain ⟨-, hu₁, hr'⟩ := Minting.inverseOf_grows hv hr
      rcases Minting.bind_eq_error.1 h with h | ⟨s', u₂, hs, h⟩
      · exact .of_mints (.single hr) (refused_of_inverseOf ha (mentions_inclusion.2 (.inr rfl)) h)
      obtain ⟨hgrow, hu₂, hs'⟩ := Minting.inverseOf_grows hu₁ hs
      have hadds : AddsConverses IsInclusion v axioms u₂ (axioms.insert (.inclusion r' s')) :=
        .insert ((MintsInverses.single hr).trans (MintsInverses.single hs)) ha ⟨r', s', rfl⟩
          (.inclusion (hgrow.inverse? hr') hs')
      exact .of_adds hv hadds (ih hu₂ (fun p q hpq => hadds.keeps _ (hrest p q hpq)) h)

theorem refused_of_closeInclusions {passes : Nat} (hv : v.WellFormed)
    (h : closeInclusions passes axioms v = .error fault w) : Refused v axioms fault w := by
  induction passes generalizing v axioms with
  | zero => exact absurd h Minting.pure_eq_error.1
  | succ passes ih =>
      have hsources : ∀ r s, (r, s) ∈ inclusions axioms → .inclusion r s ∈ axioms :=
        fun r s => mem_inclusions.1
      rw [closeInclusions] at h
      rcases Minting.bind_eq_error.1 h with h | ⟨extended, u, hpass, h⟩
      · exact refused_of_addInclusions hv hsources h
      have hadds := addsConverses_addInclusions hv hsources hpass
      split at h
      · exact absurd h Minting.pure_eq_error.1
      · exact .of_adds hv hadds (ih (hadds.mints.grows hv).2 h)

theorem refused_of_close (hv : v.WellFormed) (h : close axioms v = .error fault w) :
    Refused v axioms fault w := by
  rcases Minting.bind_eq_error.1 h with h | ⟨extended, u, hcomp, h⟩
  · exact refused_of_addCompositions hv (fun a => Std.ExtTreeSet.mem_toList.1) h
  · obtain ⟨hadds, -⟩ :=
      addsConverses_addCompositions hv (fun a => Std.ExtTreeSet.mem_toList.1) hcomp
    exact .of_adds hv hadds (refused_of_closeInclusions (hadds.mints.grows hv).2 h)

/-- Over the vocabulary only the identifiers can run out. -/
theorem Refused.eq_idsExhausted (h : Refused v axioms fault w) (hv : v.WellFormed)
    (hover : ∀ a ∈ axioms, a.IsOver (v.contains ·)) :
    fault = .idsExhausted ∧ w.IsFull .property := by
  obtain ⟨p, ⟨a, ha, hp⟩, -, hrefuses⟩ := h.property
  have hcontains := NormalAxiom.isOver_iff_mentions.1 (hover a ha) p hp
  exact hrefuses.eq_idsExhausted ((h.mints.grows hv).1.contains hcontains)

/-! ## When nothing is minted -/

/-- All inverses that the closure asks for are there. -/
structure HasInverses (v : Vocabulary) (axioms : OrderedSet NormalAxiom) : Prop where
  compositions : ∀ r s p, .composition r s p ∈ axioms →
    (v.inverse? r).isSome ∧ (v.inverse? s).isSome ∧ (v.inverse? p).isSome
  inclusions : ∀ r s, .inclusion r s ∈ axioms → IsMirrored v r s →
    (v.inverse? r).isSome ∧ (v.inverse? s).isSome

theorem IsConverse.isSome_inclusion {r s : PropertyId} {b : NormalAxiom}
    (h : IsConverse v (.inclusion r s) b) : (v.inverse? r).isSome ∧ (v.inverse? s).isSome := by
  cases h with
  | inclusion hr hs => exact ⟨hr ▸ rfl, hs ▸ rfl⟩

theorem IsConverse.isSome_composition {r s p : PropertyId} {b : NormalAxiom}
    (h : IsConverse v (.composition r s p) b) :
    (v.inverse? r).isSome ∧ (v.inverse? s).isSome ∧ (v.inverse? p).isSome := by
  cases h with
  | composition hr hs hp => exact ⟨hr ▸ rfl, hs ▸ rfl, hp ▸ rfl⟩

theorem MintsInverses.eq_or_fresh (h : MintsInverses v w) (hv : v.WellFormed) :
    v = w ∨ ∃ e, v.contains e = false ∧ w.contains e = true := by
  induction h with
  | refl => exact .inl rfl
  | @tail u w hvu hstep ih =>
      obtain ⟨p, q, hq⟩ := hstep
      obtain ⟨hgrow, hu⟩ := MintsInverses.grows hvu hv
      obtain ⟨hgrow', hw, hinverse⟩ := Minting.inverseOf_grows hu hq
      rcases Minting.inverseOf_eq_ok hu hq with ⟨rfl, -⟩ | ⟨-, -, t, ht, -⟩
      · exact ih
      · refine .inr ⟨q, Bool.eq_false_iff.2 fun hold => ?_, (hw.inverse?_contains hinverse).2⟩
        exact absurd (hgrow.contains hold) (Bool.eq_false_iff.1 ht.fresh)

/-- Minting cannot be undone. -/
theorem MintsInverses.antisymm (h : MintsInverses v w) (h' : MintsInverses w v)
    (hv : v.WellFormed) : v = w := by
  rcases h.eq_or_fresh hv with heq | ⟨e, hold, hnew⟩
  · exact heq
  · have hback := (h'.grows (h.grows hv).2).1.contains hnew
    exact absurd hback (Bool.eq_false_iff.1 hold)

/-! ### What is there if nothing has been minted -/

theorem isSome_of_addInclusions {sources : List (PropertyId × PropertyId)} (hv : v.WellFormed)
    (hsources : ∀ r s, (r, s) ∈ sources → .inclusion r s ∈ axioms)
    (h : addInclusions axioms sources v = .ok out v) {r s : PropertyId} (hmem : (r, s) ∈ sources)
    (hmirrored : IsMirrored v r s) : (v.inverse? r).isSome ∧ (v.inverse? s).isSome := by
  induction sources generalizing axioms with
  | nil => exact absurd hmem List.not_mem_nil
  | cons source sources ih =>
      obtain ⟨r₀, s₀⟩ := source
      have hrest : ∀ p q, (p, q) ∈ sources → .inclusion p q ∈ axioms :=
        fun p q hpq => hsources p q (by simp [hpq])
      rcases addInclusions_cons h with ⟨hnot, h⟩ | ⟨-, r', t, s', u, hr, hs, h⟩
      · rcases List.mem_cons.1 hmem with heq | hmem
        · obtain ⟨rfl, rfl⟩ := Prod.mk.inj heq
          exact absurd hmirrored hnot
        · exact ih hrest h hmem
      · obtain ⟨hconverse, hmints, -⟩ := isConverse_inverses hv hr hs
        have hrest' : ∀ p q, (p, q) ∈ sources → .inclusion p q ∈ axioms.insert (.inclusion r' s') :=
          fun p q hpq => OrderedSet.mem_insert_iff.2 (.inr (hrest p q hpq))
        have hback := (addsConverses_addInclusions (hmints.grows hv).2 hrest' h).mints
        obtain rfl := hmints.antisymm hback hv
        rcases List.mem_cons.1 hmem with heq | hmem
        · obtain ⟨rfl, rfl⟩ := Prod.mk.inj heq
          exact hconverse.isSome_inclusion
        · exact ih hrest' h hmem

theorem hasInverses_of_close (hv : v.WellFormed) (h : close axioms v = .ok out v) :
    HasInverses v axioms := by
  obtain ⟨extended, u, hcomp, h⟩ := Minting.bind_eq_ok.1 h
  obtain ⟨hfirst, hcompositions⟩ :=
    addsConverses_addCompositions hv (fun a => Std.ExtTreeSet.mem_toList.1) hcomp
  have hu := (hfirst.mints.grows hv).2
  obtain rfl := hfirst.mints.antisymm (addsConverses_closeInclusions hu h).mints hv
  refine ⟨fun r s p hmem => ?_, fun r s hmem hmirrored => ?_⟩
  · obtain ⟨b, -, hconverse⟩ := hcompositions r s p (Std.ExtTreeSet.mem_toList.2 hmem)
    exact hconverse.isSome_composition
  · -- the first pass is over all inclusions
    rw [closeInclusions] at h
    obtain ⟨extended', u, hpass, h⟩ := Minting.bind_eq_ok.1 h
    have hsources : ∀ p q, (p, q) ∈ inclusions extended → .inclusion p q ∈ extended :=
      fun p q => mem_inclusions.1
    have hadds := addsConverses_addInclusions hv hsources hpass
    have hback : MintsInverses u v := by
      split at h
      · obtain ⟨-, rfl⟩ := Minting.pure_eq_ok.1 h
        exact .refl
      · exact (addsConverses_closeInclusions (hadds.mints.grows hv).2 h).mints
    obtain rfl := hadds.mints.antisymm hback hv
    exact isSome_of_addInclusions hv hsources hpass (mem_inclusions.2 (hfirst.keeps _ hmem))
      hmirrored

/-! ### Nothing is minted if all is there -/

theorem inverseOf_of_isSome {p : PropertyId} (hp : (v.inverse? p).isSome) :
    ∃ q, Minting.inverseOf p v = .ok q v := by
  obtain ⟨q, hq⟩ := Option.isSome_iff_exists.1 hp
  refine ⟨q, Minting.bind_eq_ok.2 ⟨v, v, rfl, ?_⟩⟩
  simp only [hq]
  rfl

theorem exists_addCompositions {sources : List NormalAxiom}
    (h : ∀ r s p, .composition r s p ∈ sources →
      (v.inverse? r).isSome ∧ (v.inverse? s).isSome ∧ (v.inverse? p).isSome) :
    ∃ out, addCompositions axioms sources v = .ok out v := by
  induction sources generalizing axioms with
  | nil => exact ⟨axioms, rfl⟩
  | cons a sources ih =>
      have hrest := fun r s p hmem => h r s p (List.mem_cons_of_mem a hmem)
      cases a with
      | composition r s p =>
          obtain ⟨hr, hs, hp⟩ := h r s p (by simp)
          obtain ⟨s', hs'⟩ := inverseOf_of_isSome hs
          obtain ⟨r', hr'⟩ := inverseOf_of_isSome hr
          obtain ⟨p', hp'⟩ := inverseOf_of_isSome hp
          obtain ⟨out, hout⟩ := @ih (axioms.insert (.composition s' r' p')) hrest
          have hconverse : ofComposition r s p v = .ok (.composition s' r' p') v :=
            Minting.bind_eq_ok.2 ⟨s', v, hs', Minting.bind_eq_ok.2 ⟨r', v, hr',
              Minting.bind_eq_ok.2 ⟨p', v, hp', rfl⟩⟩⟩
          exact ⟨out, Minting.bind_eq_ok.2 ⟨_, v, hconverse, hout⟩⟩
      | _ => exact ih hrest

theorem exists_addInclusions {sources : List (PropertyId × PropertyId)}
    (h : ∀ r s, (r, s) ∈ sources → IsMirrored v r s →
      (v.inverse? r).isSome ∧ (v.inverse? s).isSome) :
    ∃ out, addInclusions axioms sources v = .ok out v := by
  induction sources generalizing axioms with
  | nil => exact ⟨axioms, rfl⟩
  | cons source sources ih =>
      obtain ⟨r, s⟩ := source
      have hrest := fun p q hmem => h p q (List.mem_cons_of_mem (r, s) hmem)
      rw [addInclusions]
      by_cases hnone : (v.inverse? r).isNone ∧ (v.inverse? s).isNone
      · obtain ⟨out, hout⟩ := @ih axioms hrest
        refine ⟨out, Minting.bind_eq_ok.2 ⟨v, v, rfl, ?_⟩⟩
        rw [if_pos hnone]
        exact hout
      · have hmirrored : IsMirrored v r s := by
          rw [IsMirrored, ← Option.not_isNone, ← Option.not_isNone]
          grind
        obtain ⟨hr, hs⟩ := h r s (by simp) hmirrored
        obtain ⟨r', hr'⟩ := inverseOf_of_isSome hr
        obtain ⟨s', hs'⟩ := inverseOf_of_isSome hs
        obtain ⟨out, hout⟩ := @ih (axioms.insert (.inclusion r' s')) hrest
        refine ⟨out, Minting.bind_eq_ok.2 ⟨v, v, rfl, ?_⟩⟩
        rw [if_neg hnone]
        exact Minting.bind_eq_ok.2 ⟨r', v, hr', Minting.bind_eq_ok.2 ⟨s', v, hs', hout⟩⟩

/-- The inclusions that converses add have the inverses that they ask for. -/
theorem AddsConverses.inclusions_isSome {kind : NormalAxiom → Prop}
    (hadds : AddsConverses kind v axioms v out) (hv : v.WellFormed)
    (h : ∀ r s, .inclusion r s ∈ axioms → IsMirrored v r s →
      (v.inverse? r).isSome ∧ (v.inverse? s).isSome) {r s : PropertyId}
    (hmem : .inclusion r s ∈ out) (hmirrored : IsMirrored v r s) :
    (v.inverse? r).isSome ∧ (v.inverse? s).isSome := by
  rcases hadds.adds _ hmem with hmem | ⟨-, b, -, hconverse⟩
  · exact h r s hmem hmirrored
  · exact (hconverse.symm hv).isSome_inclusion

theorem exists_closeInclusions {passes : Nat} (hv : v.WellFormed)
    (h : ∀ r s, .inclusion r s ∈ axioms → IsMirrored v r s →
      (v.inverse? r).isSome ∧ (v.inverse? s).isSome) :
    ∃ out, closeInclusions passes axioms v = .ok out v := by
  induction passes generalizing axioms with
  | zero => exact ⟨axioms, rfl⟩
  | succ passes ih =>
      rw [closeInclusions]
      have hpass : ∃ extended, addInclusions axioms (inclusions axioms) v = .ok extended v :=
        exists_addInclusions fun r s hmem => h r s (mem_inclusions.1 hmem)
      obtain ⟨extended, hpass⟩ := hpass
      have hadds := addsConverses_addInclusions hv (fun r s => mem_inclusions.1) hpass
      by_cases hsize : extended.size = axioms.size
      · refine ⟨extended, Minting.bind_eq_ok.2 ⟨extended, v, hpass, ?_⟩⟩
        rw [if_pos hsize]
        rfl
      · obtain ⟨out, hout⟩ := ih fun r s => hadds.inclusions_isSome hv h
        refine ⟨out, Minting.bind_eq_ok.2 ⟨extended, v, hpass, ?_⟩⟩
        rw [if_neg hsize]
        exact hout

/-- The closure succeeds without minting exactly if the inverses that it asks for are there. -/
theorem close_iff_hasInverses (hv : v.WellFormed) :
    (∃ out, close axioms v = .ok out v) ↔ HasInverses v axioms := by
  refine ⟨fun ⟨out, h⟩ => hasInverses_of_close hv h, fun h => ?_⟩
  have hcomp : ∃ extended, addCompositions axioms axioms.toList v = .ok extended v :=
    exists_addCompositions fun r s p hmem =>
      h.compositions r s p (Std.ExtTreeSet.mem_toList.1 hmem)
  obtain ⟨extended, hcomp⟩ := hcomp
  obtain ⟨hadds, -⟩ :=
    addsConverses_addCompositions hv (fun a => Std.ExtTreeSet.mem_toList.1) hcomp
  have hout : ∃ out, closeInclusions ((inclusions axioms).length + 1) extended v = .ok out v :=
    exists_closeInclusions hv fun r s => hadds.inclusions_isSome hv h.inclusions
  obtain ⟨out, hout⟩ := hout
  exact ⟨out, Minting.bind_eq_ok.2 ⟨extended, v, hcomp, hout⟩⟩

end OwlEl.Converse
