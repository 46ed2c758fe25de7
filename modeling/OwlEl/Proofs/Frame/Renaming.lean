import OwlEl.Proofs.Frame.Meanings
import OwlEl.Proofs.Normalization.Preservation
import OwlEl.Proofs.Renaming

/-!
# Valuations along a renaming

A valuation of a vocabulary can be read back along a renaming of the known entities:
`Valuation.pullback` means by a known entity what the valuation means by its new name. By a class
of an individual it means what the individual is, and by an inverse the known property with its two
directions exchanged; everything else is empty. If the renamed axiom holds, so does the axiom
(`Valuation.Renames.satisfies`).
-/

namespace OwlEl

universe u

open Normalization Vocabulary

variable {v w : Vocabulary} {ρ σ : Renaming} {known : Entity → Prop}

namespace Valuation

section Renames

variable {C P : Type u} [CompleteLattice C] {M : Meanings C P} {I J : Valuation M}

/-! ## Meaning under another name -/

/-- The first valuation means by the known entities what the second means by their new names, and
the known individuals are active that are active under their new names. -/
structure Renames (ρ : Renaming) (known : Entity → Prop) (I J : Valuation M) : Prop where
  classes : ∀ c : ClassId, known c → I.classes c = J.classes (ρ c)
  properties : ∀ p : PropertyId, known p → I.properties p = J.properties (ρ p)
  individuals : ∀ i : IndividualId, known i → I.individuals i = J.individuals (ρ i)
  active : ∀ i : IndividualId, i ∈ I.active ↔ known i ∧ ρ i ∈ J.active

namespace Renames

variable (h : Renames ρ known I J)

include h

theorem role {r : PropertyExpr} (hr : known r.property) : I.role r = J.role (r.rename ρ) := by
  cases r with
  | named p => exact h.properties p hr
  | inverseOf p => exact congrArg M.swap (h.properties p hr)

theorem extension {e : ClassExpr} (he : e.IsOver known) :
    I.extension e = J.extension (e.rename ρ) := by
  induction e using ClassExpr.induction with
  | named c => exact h.classes c (ClassExpr.isOver_named.1 he)
  | intersection operands ih =>
      refine eq_of_forall_le_iff fun s => ?_
      simp only [ClassExpr.rename_intersection, le_extension_and, le_extension_intersection,
        List.forall_mem_map]
      refine forall₂_congr fun e hmem => ?_
      rw [ih e hmem (ClassExpr.isOver_intersection.1 he e hmem)]
  | existential r filler ih =>
      obtain ⟨hr, hfiller⟩ := ClassExpr.isOver_existential.1 he
      rw [ClassExpr.rename_existential, extension_existential, extension_existential, h.role hr,
        ih hfiller]
  | oneOf i => exact h.individuals i (ClassExpr.isOver_oneOf.1 he)

variable (hρ : σ.Reverses ρ known)

include hρ

theorem strict : Renames ρ known I.strict J.strict where
  classes c hc := by
    by_cases hbottom : c = .bottom
    · rw [hbottom, hρ.bottom.2, strict_classes_bottom, strict_classes_bottom]
    · have hne : ρ c ≠ .bottom := fun heq =>
        hbottom (hρ.eq_of_eq hc hρ.bottom.1 (heq.trans hρ.bottom.2.symm))
      rw [strict_classes_of_ne _ hbottom, strict_classes_of_ne _ hne, h.classes c hc]
  properties := h.properties
  individuals := h.individuals
  active := h.active

variable {c d : ClassExpr} (hc : c.IsOver known ∧ c.IsCanonical)
  (hd : d.IsOver known ∧ d.IsCanonical)

include hc hd

theorem active_of_activates (hactive : ∀ i, Activates i (c.rename ρ) (d.rename ρ) → i ∈ J.active)
    {i : IndividualId} (hi : Activates i c d) : i ∈ I.active :=
  (h.active i).2 ⟨hi.mem_mentions.elim (hc.1 _) (hd.1 _), hactive _ (hi.rename hρ hc hd)⟩

theorem included (hincluded : J.Included (c.rename ρ) (d.rename ρ)) : I.Included c d := by
  refine ⟨?_, fun i => h.active_of_activates hρ hc hd hincluded.2⟩
  rw [(h.strict hρ).extension hc.1, h.extension hd.1]
  exact hincluded.1

theorem disjoint (hincluded : J.Included (.and [c.rename ρ, d.rename ρ]) (.named .bottom)) :
    I.Included (.and [c, d]) (.named .bottom) := by
  have hrename : (ClassExpr.named .bottom).rename ρ = .named .bottom :=
    congrArg ClassExpr.named hρ.bottom.2
  refine h.included hρ ⟨ClassExpr.isOver_and.2 (forall_mem_pair.2 ⟨hc.1, hd.1⟩),
    ClassExpr.isCanonical_and (forall_mem_pair.2 ⟨hc.2, hd.2⟩)⟩
    ⟨ClassExpr.isOver_named.2 hρ.bottom.1, trivial⟩ ?_
  rwa [ClassExpr.rename_and, hrename]

end Renames

section Lists

variable (h : Renames ρ known I J) (hρ : σ.Reverses ρ known)

include h hρ

theorem Renames.equivalentClasses {cs : List ClassExpr}
    (hcs : ∀ c ∈ cs, c.IsOver known ∧ c.IsCanonical)
    (hJ : J.Satisfies ((Axiom.equivalentClasses cs).rename ρ)) :
    I.Satisfies (.equivalentClasses cs) := by
  have hrenamed := of_forall_ne_ascending_map
    (fun c hc d hd => ClassExpr.eq_of_rename_eq hρ (hcs c hc) (hcs d hd)) hJ
  exact fun c hc d hd hne => h.included hρ (hcs c hc) (hcs d hd) (hrenamed c hc d hd hne)

theorem Renames.disjointClasses {cs : List ClassExpr} (hascending : IsAscending cs)
    (hcs : ∀ c ∈ cs, c.IsOver known ∧ c.IsCanonical)
    (hJ : J.Satisfies ((Axiom.disjointClasses cs).rename ρ)) :
    I.Satisfies (.disjointClasses cs) := by
  have hrenamed := of_forall_ne_ascending_map
    (fun c hc d hd => ClassExpr.eq_of_rename_eq hρ (hcs c hc) (hcs d hd))
    fun _ hc _ hd hne => included_of_disjointClasses hJ hc hd hne
  refine hascending.nodup.imp_of_mem fun {c d} hc hd hne => ?_
  exact h.disjoint hρ (hcs c hc) (hcs d hd) (hrenamed c hc d hd hne)

theorem Renames.equivalentProperties {rs : List PropertyExpr} (hrs : ∀ r ∈ rs, known r.property)
    (hJ : J.Satisfies ((Axiom.equivalentProperties rs).rename ρ)) :
    I.Satisfies (.equivalentProperties rs) := by
  have hrenamed := of_forall_ne_ascending_map
    (fun r hr s hs => PropertyExpr.eq_of_rename_eq hρ (hrs r hr) (hrs s hs)) hJ
  intro r hr s hs hne
  rw [h.role (hrs r hr), h.role (hrs s hs)]
  exact hrenamed r hr s hs hne

theorem Renames.sameIndividual {is : List IndividualId} (his : ∀ i ∈ is, known i)
    (hJ : J.Satisfies ((Axiom.sameIndividual is).rename ρ)) : I.Satisfies (.sameIndividual is) := by
  have hrenamed := of_forall_ne_ascending_map
    (fun i hi j hj => hρ.eq_of_eq (his i hi) (his j hj)) hJ
  exact fun i hi j hj hne => h.included hρ ⟨ClassExpr.isOver_oneOf.2 (his i hi), trivial⟩
    ⟨ClassExpr.isOver_oneOf.2 (his j hj), trivial⟩ (hrenamed i hi j hj hne)

theorem Renames.differentIndividuals {is : List IndividualId} (his : ∀ i ∈ is, known i)
    (hJ : J.Satisfies ((Axiom.differentIndividuals is).rename ρ)) :
    I.Satisfies (.differentIndividuals is) := by
  have hrenamed := of_forall_ne_ascending_map
    (fun i hi j hj => hρ.eq_of_eq (his i hi) (his j hj)) hJ
  exact fun i hi j hj hne => h.disjoint hρ ⟨ClassExpr.isOver_oneOf.2 (his i hi), trivial⟩
    ⟨ClassExpr.isOver_oneOf.2 (his j hj), trivial⟩ (hrenamed i hi j hj hne)

end Lists

/-- An axiom over known entities holds if the renamed axiom does. -/
theorem Renames.satisfies {a : Axiom} (h : Renames ρ known I J) (hρ : σ.Reverses ρ known)
    (ha : a.IsOver known) (hcanonical : a.IsCanonical) (hnormal : ∀ form, a ≠ .normal form)
    (hJ : J.Satisfies (a.rename ρ)) : I.Satisfies a := by
  have hone : ∀ {i : IndividualId}, known i →
      (ClassExpr.oneOf i).IsOver known ∧ (ClassExpr.oneOf i).IsCanonical :=
    fun hi => ⟨ClassExpr.isOver_oneOf.2 hi, trivial⟩
  have htop : (ClassExpr.named .top).IsOver known ∧ (ClassExpr.named .top).IsCanonical :=
    ⟨ClassExpr.isOver_named.2 hρ.top.1, trivial⟩
  have hrename : (ClassExpr.named .top).rename ρ = .named .top := congrArg ClassExpr.named hρ.top.2
  have hedge : ∀ {r : PropertyExpr} {j : IndividualId}, known r.property → known j →
      (assertedEdge r j).IsOver known ∧ (assertedEdge r j).IsCanonical :=
    fun hr hj => ⟨isOver_assertedEdge.2 ⟨hr, hj⟩, trivial⟩
  cases a with
  | subClassOf c d => exact h.included hρ ⟨ha.1, hcanonical.1⟩ ⟨ha.2, hcanonical.2⟩ hJ
  | equivalentClasses cs =>
      exact h.equivalentClasses hρ (fun c hc => ⟨ha c hc, hcanonical.2 c hc⟩) hJ
  | disjointClasses cs =>
      exact h.disjointClasses hρ hcanonical.1 (fun c hc => ⟨ha c hc, hcanonical.2 c hc⟩) hJ
  | subPropertyOf r s =>
      simp only [Satisfies, h.role ha.1, h.role ha.2]
      exact hJ
  | subPropertyChainOf chain s =>
      have hchain : chain.reverse.map I.role =
          (chain.map (PropertyExpr.rename ρ)).reverse.map J.role := by
        rw [← List.map_reverse, List.map_map]
        exact List.map_congr_left fun r hr => h.role (ha.1 r (List.mem_reverse.1 hr))
      simp only [Satisfies, hchain, h.role ha.2]
      exact hJ
  | equivalentProperties rs => exact h.equivalentProperties hρ ha hJ
  | inverseProperties r s =>
      simp only [Satisfies, h.properties r ha.1, h.properties s ha.2]
      exact hJ
  | propertyDomain r c =>
      refine h.included hρ ⟨ClassExpr.isOver_existential.2 ⟨ha.1, htop.1⟩, trivial⟩
        ⟨ha.2, hcanonical⟩ ?_
      rw [ClassExpr.rename_existential, hrename]
      exact hJ
  | propertyRange r c =>
      obtain ⟨hrange, hactive⟩ := hJ
      rw [Satisfies, h.role ha.1, h.extension ha.2]
      refine ⟨hrange, fun i => h.active_of_activates hρ htop ⟨ha.2, hcanonical⟩ ?_⟩
      rw [hrename]
      exact hactive
  | functionalProperty r | reflexiveProperty r | transitiveProperty r =>
      have hr : I.role r = J.role (r.rename ρ) := h.role ha
      simp only [Satisfies, hr]
      exact hJ
  | classAssertion c i => exact h.included hρ (hone ha.2) ⟨ha.1, hcanonical⟩ hJ
  | propertyAssertion r i j => exact h.included hρ (hone ha.2.1) (hedge ha.1 ha.2.2) hJ
  | negativePropertyAssertion r i j => exact h.disjoint hρ (hone ha.2.1) (hedge ha.1 ha.2.2) hJ
  | sameIndividual is => exact h.sameIndividual hρ ha hJ
  | differentIndividuals is => exact h.differentIndividuals hρ ha hJ
  | normal form => exact absurd rfl (hnormal form)

end Renames

/-! ## Pulling a valuation back -/

section Pullback

variable {Δ : Type u} [Preorder Δ] {F : Frame Δ} {J : Valuation F.meanings} [DecidablePred known]

variable (J v ρ known) in
/-- The valuation of the known entities by their new names, extended to the vocabulary. -/
def pullback : Valuation F.meanings where
  classes c :=
    if known c then J.classes (ρ c)
    else match v.memberOf[c]? with
      | some i => if known i then J.individuals (ρ i) else ⊥
      | none => ⊥
  properties p :=
    if known p then J.properties (ρ p)
    else match v.inverses[p]? with
      | some q => if known q then Frame.TwoWay.swap (J.properties (ρ q)) else ⊥
      | none => ⊥
  individuals i := if known i then J.individuals (ρ i) else ⊥
  active := {i | known i ∧ ρ i ∈ J.active}
  sharp := by
    rintro i ⟨hi, hactive⟩
    rw [if_pos hi]
    exact J.sharp hactive
  all_active := nofun

theorem renames_pullback : Renames ρ known (J.pullback v ρ known) J where
  classes _ hc := if_pos hc
  properties _ hp := if_pos hp
  individuals _ hi := if_pos hi
  active _ := Iff.rfl

theorem pullback_properties_of_inverse {p q : PropertyId} (hp : ¬known p)
    (hpq : v.inverses[p]? = some q) :
    (J.pullback v ρ known).properties p =
      if known q then Frame.TwoWay.swap (J.properties (ρ q)) else ⊥ := by
  simp only [pullback, if_neg hp, hpq]

/-- The known entities are registered under a name, so none of them is the class of an individual,
and of two inverses only one may be known. -/
theorem reads_pullback (hv : v.WellFormed) (hρ : σ.Reverses ρ known)
    (hnamed : ∀ e, known e → v.IsNamed e) (hJ : J.Reads w) :
    (J.pullback v ρ known).Reads v := by
  have hrenames : Renames ρ known (J.pullback v ρ known) J := renames_pullback
  have hunknown : ∀ {e : Entity}, v.isAuxiliary e = .ok true → ¬known e := by
    intro e he hknown
    have hfalse := hnamed e hknown
    rw [Vocabulary.IsNamed, he] at hfalse
    exact absurd (Except.ok.inj hfalse) (by decide)
  constructor
  case top => rw [hrenames.classes _ hρ.top.1, hρ.top.2, hJ.top]
  case bottom => rw [hrenames.classes _ hρ.bottom.1, hρ.bottom.2, hJ.bottom]
  case nominal =>
    intro i c hc
    simp only [pullback, if_neg (hunknown (hv.nominal_auxiliary hc)), hv.member_iff.2 hc]
  case inverse =>
    intro p q hpq
    by_cases hreserved : p = .top ∨ p = .bottom
    · -- a reserved property is its own inverse
      obtain rfl : p = q := by
        simpa only [Vocabulary.inverse?, if_pos hreserved, Option.some.injEq] using hpq
      obtain ⟨hknown, hfixed⟩ := hρ.reserved (Entity.isReserved_property hreserved.symm)
      rw [hrenames.properties p hknown, hfixed]
      exact hJ.inverse (by rw [Vocabulary.inverse?, if_pos hreserved])
    · rw [Vocabulary.inverse?, if_neg hreserved] at hpq
      have hqp := hv.inverse_symm hpq
      by_cases hp : known p
      · have hq : ¬known q := by
          rcases hv.inverse_auxiliary hpq with haux | haux
          · exact absurd hp (hunknown haux)
          · exact hunknown haux
        rw [pullback_properties_of_inverse hq hqp, if_pos hp, hrenames.properties p hp]
        rfl
      · rw [pullback_properties_of_inverse hp hpq]
        by_cases hq : known q
        · rw [if_pos hq, hrenames.properties q hq]
          rfl
        · rw [if_neg hq, pullback_properties_of_inverse hq hqp, if_neg hp]
          rfl

end Pullback

end Valuation

end OwlEl
