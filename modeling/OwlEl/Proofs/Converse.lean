import OwlEl.Proofs.Valuation.Interpretation
import OwlEl.Role.Converse

/-!
# Converses say nothing new

The converse of an axiom on properties says the same of their inverses. Axioms to which nothing is
added but converses, over a vocabulary to which nothing is added but inverses, say no more than
before: the inverses make no difference to the readings of the vocabulary, and every reading that
satisfies the axioms satisfies the converses. Nothing is added that speaks of classes, and no two
old properties become inverses of each other.

Main statements: `AddsConverses.satisfies` and `AddsConverses.mirrors`.
-/

namespace OwlEl.Converse

universe u

variable {v w t : Vocabulary} {axioms out out' : OrderedSet NormalAxiom}

/-! ## New inverses -/

/-- The second vocabulary has no new nominal classes, and of two properties that have become
inverses at least one is new. -/
structure AddsInverses (v w : Vocabulary) : Prop where
  grows : v.Extends w
  memberOf : w.memberOf = v.memberOf
  inverses : ∀ {p q : PropertyId}, w.inverses[p]? = some q →
    v.inverses[p]? = some q ∨ v.contains p = false ∨ v.contains q = false

theorem AddsInverses.refl (v : Vocabulary) : AddsInverses v v := ⟨.refl v, rfl, .inl⟩

theorem AddsInverses.trans (h : AddsInverses v w) (h' : AddsInverses w t) : AddsInverses v t where
  grows := h.grows.trans h'.grows
  memberOf := h'.memberOf.trans h.memberOf
  inverses {p q} hpq := by
    have hold : ∀ {r : PropertyId}, w.contains r = false → v.contains r = false := fun hr =>
      Bool.eq_false_iff.2 fun hv => Bool.eq_false_iff.1 hr (h.grows.contains hv)
    rcases h'.inverses hpq with hpq | hp | hq
    · exact h.inverses hpq
    · exact .inr (.inl (hold hp))
    · exact .inr (.inr (hold hq))

theorem addsInverses_inverseOf {p q : PropertyId} (hv : v.WellFormed)
    (h : Minting.inverseOf p v = .ok q w) : AddsInverses v w := by
  refine ⟨(Minting.inverseOf_grows hv h).1, ?_, fun {r s} hrs => ?_⟩
  · rcases Minting.inverseOf_eq_ok hv h with ⟨rfl, -⟩ | ⟨-, -, u, hu, rfl⟩
    · rfl
    · exact hu.memberOf
  · rcases Minting.inverseOf_eq_ok hv h with ⟨rfl, -⟩ | ⟨-, -, u, hu, rfl⟩
    · exact .inl hrs
    · have hlookup : q = r ∨ q = s ∨ v.inverses[r]? = some s := by grind
      rcases hlookup with rfl | rfl | hrs
      · exact .inr (.inl hu.fresh)
      · exact .inr (.inr hu.fresh)
      · exact .inl hrs

/-- Nothing but inverses has been minted. -/
def MintsInverses : Vocabulary → Vocabulary → Prop :=
  Relation.ReflTransGen fun v w => ∃ p q, Minting.inverseOf p v = .ok q w

theorem MintsInverses.single {p q : PropertyId} (h : Minting.inverseOf p v = .ok q w) :
    MintsInverses v w := Relation.ReflTransGen.single ⟨p, q, h⟩

theorem MintsInverses.grows (h : MintsInverses v w) (hv : v.WellFormed) :
    v.Extends w ∧ w.WellFormed := by
  induction h with
  | refl => exact ⟨.refl v, hv⟩
  | tail _ hstep ih =>
      obtain ⟨p, q, hq⟩ := hstep
      obtain ⟨hgrow, hw, -⟩ := Minting.inverseOf_grows ih.2 hq
      exact ⟨ih.1.trans hgrow, hw⟩

theorem MintsInverses.addsInverses (h : MintsInverses v w) (hv : v.WellFormed) :
    AddsInverses v w := by
  induction h with
  | refl => exact .refl v
  | tail hsteps hstep ih =>
      obtain ⟨p, q, hq⟩ := hstep
      exact ih.trans (addsInverses_inverseOf (MintsInverses.grows hsteps hv).2 hq)

/-! ## Converses -/

/-- The second axiom is the first read backwards. -/
inductive IsConverse (v : Vocabulary) : NormalAxiom → NormalAxiom → Prop
  | inclusion {r s r' s'} (hr : v.inverse? r = some r') (hs : v.inverse? s = some s') :
      IsConverse v (.inclusion r s) (.inclusion r' s')
  | composition {r s p r' s' p'} (hr : v.inverse? r = some r') (hs : v.inverse? s = some s')
      (hp : v.inverse? p = some p') :
      IsConverse v (.composition r s p) (.composition s' r' p')

namespace IsConverse

variable {a b c : NormalAxiom}

theorem mono (h : IsConverse v a b) (hvw : v.Extends w) : IsConverse w a b := by
  cases h with
  | inclusion hr hs => exact .inclusion (hvw.inverse? hr) (hvw.inverse? hs)
  | composition hr hs hp =>
      exact .composition (hvw.inverse? hr) (hvw.inverse? hs) (hvw.inverse? hp)

theorem symm (h : IsConverse v a b) (hv : v.WellFormed) : IsConverse v b a := by
  cases h with
  | inclusion hr hs => exact .inclusion (hv.inverse?_symm hr) (hv.inverse?_symm hs)
  | composition hr hs hp =>
      exact .composition (hv.inverse?_symm hs) (hv.inverse?_symm hr) (hv.inverse?_symm hp)

theorem unique (h : IsConverse v a b) (h' : IsConverse v a c) : b = c := by
  cases h with
  | inclusion hr hs =>
      cases h' with
      | inclusion hr' hs' =>
          rw [hr] at hr'
          rw [hs] at hs'
          rw [Option.some.inj hr', Option.some.inj hs']
  | composition hr hs hp =>
      cases h' with
      | composition hr' hs' hp' =>
          rw [hr] at hr'
          rw [hs] at hs'
          rw [hp] at hp'
          rw [Option.some.inj hr', Option.some.inj hs', Option.some.inj hp']

theorem isOver (h : IsConverse v a b) (hv : v.WellFormed) :
    b.IsOver (v.contains ·) := by
  cases h with
  | inclusion hr hs =>
      exact ⟨(hv.inverse?_contains hr).2, (hv.inverse?_contains hs).2⟩
  | composition hr hs hp =>
      exact ⟨(hv.inverse?_contains hs).2, (hv.inverse?_contains hr).2,
        (hv.inverse?_contains hp).2⟩

theorem isWellFormed (h : IsConverse v a b) : b.IsWellFormed := by
  cases h <;> exact trivial

/-- A converse is not about classes. -/
theorem isClassAxiom (h : IsConverse v a b) : b.isClassAxiom = false := by
  cases h with
  | inclusion | composition => rfl

end IsConverse

/-! ## Added axioms -/

/-- The second set of axioms holds the first, and besides only converses of these, all of the
kind in question. -/
structure AddsConverses (kind : NormalAxiom → Prop) (v : Vocabulary)
    (axioms : OrderedSet NormalAxiom) (w : Vocabulary) (out : OrderedSet NormalAxiom) :
    Prop where
  mints : MintsInverses v w
  keeps : ∀ a ∈ axioms, a ∈ out
  adds : ∀ a ∈ out, a ∈ axioms ∨ kind a ∧ ∃ b ∈ axioms, IsConverse w b a

namespace AddsConverses

variable {kind kind' : NormalAxiom → Prop}

theorem refl (v : Vocabulary) (axioms : OrderedSet NormalAxiom) :
    AddsConverses kind v axioms v axioms := ⟨.refl, fun _ ha => ha, fun _ => .inl⟩

/-- The converse of a converse is there already. -/
theorem trans (hv : v.WellFormed) (h : AddsConverses kind v axioms w out)
    (h' : AddsConverses kind w out t out') : AddsConverses kind v axioms t out' where
  mints := h.mints.trans h'.mints
  keeps a ha := h'.keeps a (h.keeps a ha)
  adds a ha := by
    obtain ⟨-, hw⟩ := h.mints.grows hv
    obtain ⟨hgrow, ht⟩ := h'.mints.grows hw
    rcases h'.adds a ha with ha | ⟨hkind, b, hb, hba⟩
    · refine (h.adds a ha).imp_right fun ⟨hkind, b, hb, hba⟩ => ⟨hkind, b, hb, hba.mono hgrow⟩
    · rcases h.adds b hb with hb | ⟨-, c, hc, hcb⟩
      · exact .inr ⟨hkind, b, hb, hba⟩
      · rw [hba.unique ((hcb.mono hgrow).symm ht)]
        exact .inl hc

theorem imp (h : AddsConverses kind v axioms w out) (himp : ∀ a, kind a → kind' a) :
    AddsConverses kind' v axioms w out :=
  ⟨h.mints, h.keeps, fun a ha => (h.adds a ha).imp_right fun ⟨hk, hb⟩ => ⟨himp a hk, hb⟩⟩

theorem insert {a b : NormalAxiom} (hmints : MintsInverses v w) (ha : a ∈ axioms)
    (hkind : kind b) (hab : IsConverse w a b) :
    AddsConverses kind v axioms w (axioms.insert b) where
  mints := hmints
  keeps c hc := OrderedSet.mem_insert_iff.2 (.inr hc)
  adds c hc := by
    rcases OrderedSet.mem_insert_iff.1 hc with rfl | hc
    · exact .inr ⟨hkind, a, ha, hab⟩
    · exact .inl hc

theorem isOver (h : AddsConverses kind v axioms w out)
    (hv : v.WellFormed) (hover : ∀ a ∈ axioms, a.IsOver (v.contains ·)) :
    ∀ a ∈ out, a.IsOver (w.contains ·) := by
  obtain ⟨hgrow, hw⟩ := h.mints.grows hv
  intro a ha
  rcases h.adds a ha with ha | ⟨-, b, -, hba⟩
  · exact (hover a ha).of_extends hgrow
  · exact hba.isOver hw

theorem isWellFormed (h : AddsConverses kind v axioms w out)
    (hwf : ∀ a ∈ axioms, a.IsWellFormed) : ∀ a ∈ out, a.IsWellFormed := by
  intro a ha
  rcases h.adds a ha with ha | ⟨-, b, -, hba⟩
  · exact hwf a ha
  · exact hba.isWellFormed

end AddsConverses

/-! ## Meaning -/

section Meaning

variable {C P : Type u} [CompleteLattice C] {M : Meanings C P} {J : Valuation M}

theorem MintsInverses.conservative (h : MintsInverses v w) (hv : v.WellFormed) :
    Conservative M v w := by
  induction h with
  | refl => exact .refl M hv
  | tail _ hstep ih =>
      obtain ⟨p, q, hq⟩ := hstep
      exact ih.trans (Minting.inverseOf_conservative ih.wellFormed hq)

theorem IsConverse.satisfies {a b : NormalAxiom} (h : IsConverse v a b) (hJ : J.Reads v)
    (hmirrored : M.mirrored = true) (ha : J.SatisfiesNormal a) : J.SatisfiesNormal b := by
  cases h with
  | inclusion hr hs =>
      simp only [Valuation.SatisfiesNormal, hJ.inverse hr, hJ.inverse hs] at *
      exact M.within_swap hmirrored ha
  | composition hr hs hp =>
      simp only [Valuation.SatisfiesNormal, hJ.inverse hr, hJ.inverse hs, hJ.inverse hp] at *
      rw [← M.swap_comp]
      exact M.within_swap hmirrored ha

/-- What is said of the properties is said of their inverses too. -/
theorem AddsConverses.satisfies {kind : NormalAxiom → Prop}
    (h : AddsConverses kind v axioms w out) (hmirrored : M.mirrored = true) (hJ : J.Reads w)
    (hall : ∀ a ∈ axioms, J.SatisfiesNormal a) : ∀ a ∈ out, J.SatisfiesNormal a := by
  intro a ha
  rcases h.adds a ha with ha | ⟨-, b, hb, hba⟩
  · exact hall a ha
  · exact hba.satisfies hJ hmirrored (hall b hb)

end Meaning

/-- The second set of axioms holds the first and says no more in any interpretation, but for the
entities that have been minted for it. -/
structure Mirrors (v : Vocabulary) (axioms : OrderedSet NormalAxiom) (w : Vocabulary)
    (out : OrderedSet NormalAxiom) : Prop where
  grows : v.Extends w
  wellFormed : w.WellFormed
  inverses : AddsInverses v w
  keeps : ∀ a ∈ axioms, a ∈ out
  adds : ∀ a ∈ out, a ∈ axioms ∨ a.isClassAxiom = false
  reading : ∀ {Δ : Type u} (I : Interpretation Δ), I.Reads v →
    ∃ J : Interpretation Δ, I.AgreesOn J (v.contains ·) ∧ J.Reads w
  follows : ∀ {Δ : Type u} (J : Interpretation Δ), J.Reads w →
    (∀ a ∈ axioms, J.SatisfiesNormal a) → ∀ a ∈ out, J.SatisfiesNormal a

theorem AddsConverses.mirrors {kind : NormalAxiom → Prop} (h : AddsConverses kind v axioms w out)
    (hv : v.WellFormed) : Mirrors.{u} v axioms w out where
  grows := (h.mints.grows hv).1
  wellFormed := (h.mints.grows hv).2
  inverses := h.mints.addsInverses hv
  keeps := h.keeps
  adds a ha := (h.adds a ha).imp_right fun ⟨_, _, _, hba⟩ => hba.isClassAxiom
  reading {Δ} I hI := by
    obtain ⟨K, hIK, hK⟩ := (h.mints.conservative (M := .sets Δ) hv).reading I.valuation
      (Interpretation.reads_valuation.2 hI)
    obtain ⟨J, rfl⟩ := Interpretation.exists_valuation_eq K
    exact ⟨J, Interpretation.agreesOn_valuation.1 hIK, Interpretation.reads_valuation.1 hK⟩
  follows J hJ hall a ha := by
    refine Interpretation.satisfiesNormal_valuation.1
      (h.satisfies rfl (Interpretation.reads_valuation.2 hJ) (fun b hb => ?_) a ha)
    exact Interpretation.satisfiesNormal_valuation.2 (hall b hb)

end OwlEl.Converse
