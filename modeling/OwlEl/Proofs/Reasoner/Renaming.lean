import Mathlib.Logic.Equiv.Basic
import OwlEl.Proofs.Reasoner.Finding

/-!
# Answers do not depend on identifiers

Two runs that are given the same axioms up to the names of the entities affirm the same of them,
whatever else the two vocabularies hold, and a run that is given more axioms affirms no less:
`classify_rename`. The runs mint other entities in another order, so they are compared by
valuations. The facts that the second run derives have a canonical valuation, which satisfies the
axioms of the second run. Read back along the renaming it satisfies the axioms of the first run, so
it extends to a valuation of all that the first run has minted, and what the first run affirms is
true in it.
-/

namespace OwlEl.Reasoner

universe u

open Vocabulary

/-- Axioms as they are handed over by a user: over entities that are registered under a name, not
in normal form, and with the sets inside them in ascending order. -/
structure IsSource (v : Vocabulary) (axioms : List Axiom) : Prop where
  named : ∀ a ∈ axioms, a.IsOver v.IsNamed
  notNormal : ∀ a ∈ axioms, ∀ form, a ≠ .normal form
  canonical : ∀ a ∈ axioms, a.IsCanonical

variable {config : Config} {axioms : List Axiom} {forms closed : OrderedSet NormalAxiom}
  {u v w : Vocabulary} {k : Classification} {o : Ontology} {st : Completion.State o}

theorem IsSource.of_extends (h : IsSource v axioms) (hvw : v.Extends w) : IsSource w axioms :=
  ⟨fun a ha => (h.named a ha).imp fun _ => hvw.isAuxiliary, h.notNormal, h.canonical⟩

theorem IsSource.isTame (h : IsSource v axioms) (hover : ∀ a ∈ axioms, a.IsOver (v.contains ·)) :
    ∀ a ∈ axioms, a.IsOver (v.contains ·) ∧ a.IsTame v := fun a ha =>
  ⟨hover a ha, Axiom.isTame_of_named (h.named a ha) (h.notNormal a ha)⟩

theorem IsSource.admits {C P : Type u} [CompleteLattice C] {M : Meanings C P}
    (h : IsSource v axioms) (hover : ∀ a ∈ axioms, a.IsOver (v.contains ·)) :
    ∀ a ∈ axioms, Normalization.Admits M v a := fun a ha =>
  ⟨hover a ha, fun _ => (h.isTame hover a ha).2⟩

/-! ## Validity through the stages -/

section Stages

variable {Δ : Type u} [Preorder Δ] {F : Frame Δ} {I J : Valuation F.meanings}

/-- Where normalization is left out, there are no axioms that are not in normal form. -/
theorem Outcome.normalize_or_nil (h : Outcome config axioms v w k forms closed u o st)
    (hsource : IsSource v axioms) : Normalization.normalize axioms v = .ok forms u ∨
      (∀ a, a ∉ axioms) ∧ (∀ a, a ∉ forms) ∧ v = u := by
  have hnormalized := h.normalized
  split at hnormalized
  · exact .inl hnormalized
  · obtain ⟨hforms, rfl⟩ := hnormalized
    have hmem : ∀ {a : Axiom}, a ∈ axioms ↔ ∃ b ∈ forms, .normal b = a :=
      requireNormal_eq_ok hforms
    refine .inr ⟨fun a ha => ?_, fun b hb => ?_, rfl⟩
    · obtain ⟨b, -, rfl⟩ := hmem.mp ha
      exact hsource.notNormal _ ha b rfl
    · exact hsource.notNormal _ (hmem.mpr ⟨b, hb, rfl⟩) b rfl

theorem Outcome.forms_tame (h : Outcome config axioms v w k forms closed u o st)
    (hv : v.WellFormed) (hsource : IsSource v axioms) : v.Extends u ∧ u.WellFormed ∧
      ∀ a ∈ forms, a.IsOver (u.contains ·) ∧ (Axiom.normal a).IsTame u := by
  rcases h.normalize_or_nil hsource with hnormalize | ⟨-, hforms, rfl⟩
  · exact (Normalization.isInvariant_isOver.and isInvariant_isTame).normalize hv
      (hsource.isTame h.isOver) hnormalize
  · exact ⟨.refl v, hv, fun a ha => absurd ha (hforms a)⟩

theorem Outcome.nominalOf_eq_some (h : Outcome config axioms v w k forms closed u o st)
    (hv : v.WellFormed) (hsource : IsSource v axioms) {n : ClassId} {i : IndividualId}
    (hn : .nominal n i ∈ closed) : w.nominalOf[i]? = some n := by
  obtain ⟨-, hu, htame⟩ := h.forms_tame hv hsource
  have hmirrors := h.mirrors.{0} hu
  have hform : .nominal n i ∈ forms :=
    (hmirrors.adds _ hn).resolve_right (by simp [NormalAxiom.isClassAxiom])
  exact hmirrors.grows.nominal (htame _ hform).2

/-- A valuation that satisfies the normal forms extends to the converses. -/
theorem Completed.extends (h : Completed config forms u w k closed o st) (hu : u.WellFormed)
    (hover : ∀ a ∈ forms, a.IsOver (u.contains ·)) (hF : F.mirrored = config.saturateRoles)
    (hI : I.Reads u) (hall : ∀ a ∈ forms, I.SatisfiesNormal a) :
    ∃ J, I.AgreesOn J (u.contains ·) ∧ J.Reads w ∧ ∀ a ∈ closed, J.SatisfiesNormal a := by
  have hmirrored := h.mirrored
  split at hmirrored
  · next hsaturate =>
      have hadds := Converse.addsConverses_close hu hmirrored
      obtain ⟨J, hIJ, hJ⟩ := (hadds.mints.conservative (M := F.meanings) hu).reading I hI
      refine ⟨J, hIJ, hJ, hadds.satisfies (hF.trans hsaturate) hJ fun a ha => ?_⟩
      exact (hIJ.satisfiesNormal_iff (hover a ha)).mpr (hall a ha)
  · obtain ⟨rfl, rfl⟩ := hmirrored
    exact ⟨I, .refl I _, hI, hall⟩

/-- A valuation that satisfies the axioms extends to all that a run mints. -/
theorem Outcome.extends (h : Outcome config axioms v w k forms closed u o st) (hv : v.WellFormed)
    (hsource : IsSource v axioms) (hF : F.mirrored = config.saturateRoles) (hI : I.Reads v)
    (hall : ∀ a ∈ axioms, I.Satisfies a) :
    ∃ J, I.AgreesOn J (v.contains ·) ∧ J.Reads w ∧ ∀ a ∈ closed, J.SatisfiesNormal a := by
  obtain ⟨hgrow, hu, htame⟩ := h.forms_tame hv hsource
  obtain ⟨J, hIJ, hJ, hforms⟩ : ∃ J, I.AgreesOn J (v.contains ·) ∧ J.Reads u ∧
      ∀ a ∈ forms, J.SatisfiesNormal a := by
    rcases h.normalize_or_nil hsource with hnormalize | ⟨-, hforms, rfl⟩
    · exact Normalization.forth_normalize hv (hsource.admits h.isOver) hnormalize hI hall
    · exact ⟨I, .refl I _, hI, fun a ha => absurd ha (hforms a)⟩
  obtain ⟨K, hJK, hK, hclosed⟩ := h.toCompleted.extends hu (fun a ha => (htame a ha).1) hF hJ hforms
  exact ⟨K, hIJ.trans_extends hJK hgrow, hK, hclosed⟩

/-- The axioms hold where the normal forms do. -/
theorem Outcome.satisfies (h : Outcome config axioms v w k forms closed u o st)
    (hv : v.WellFormed) (hsource : IsSource v axioms) (hJ : J.Reads w)
    (hall : ∀ a ∈ closed, J.SatisfiesNormal a) : ∀ a ∈ axioms, J.Satisfies a := by
  obtain ⟨-, hu, -⟩ := h.forms_tame hv hsource
  have hmirrors := h.mirrors.{0} hu
  rcases h.normalize_or_nil hsource with hnormalize | ⟨haxioms, -, -⟩
  · have hforms : ∀ a ∈ forms, J.SatisfiesNormal a := fun a ha => hall a (hmirrors.keeps a ha)
    exact Normalization.back_normalize hv (hsource.admits h.isOver) hnormalize
      (hJ.of_extends hmirrors.grows) hforms
  · exact fun a ha => absurd ha (haxioms a)

/-- The derived facts satisfy the axioms that they are derived from. -/
theorem Outcome.canonical_satisfies (h : Outcome config axioms v w k forms closed u o st)
    (hv : v.WellFormed) (hsource : IsSource v axioms) (hu : u.WellFormed) :
    (h.canonical hu).Reads w ∧ ∀ a ∈ axioms, (h.canonical hu).Satisfies a := by
  have hderived := h.derived hu
  have hreads := hderived.reads_valuation config.saturateRoles
    (h.mirrors.{0} hu).wellFormed
  have hover : ∀ a ∈ forms, a.IsOver (u.contains ·) := fun a ha =>
    ((h.forms_tame hv hsource).2.2 a ha).1
  have hconverses : config.saturateRoles = true → Converse.HasConverses w closed := by
    intro hsaturate
    have hmirrored := h.mirrored
    rw [if_pos hsaturate] at hmirrored
    exact Converse.hasConverses_close hu hover hmirrored
  have hclosed := hderived.satisfies_valuation config.saturateRoles
    (h.nominalOf_eq_some hv hsource) hconverses
  exact ⟨hreads, h.satisfies hv hsource hreads hclosed⟩

end Stages

/-! ## Two runs -/

variable {axioms₁ axioms₂ : List Axiom} {forms₁ forms₂ closed₁ closed₂ : OrderedSet NormalAxiom}
  {u₁ u₂ v₁ v₂ w₁ w₂ : Vocabulary} {k₁ k₂ : Classification} {o₁ o₂ : Ontology}
  {st₁ : Completion.State o₁} {st₂ : Completion.State o₂} {ρ σ : Renaming}
  {known : Entity → Prop} {f : Finding}

/-- The first renaming takes named entities of the first vocabulary to such of the second and
axioms of the first list to axioms of the second, and can be undone by the second renaming. -/
structure Embeds (ρ σ : Renaming) (known : Entity → Prop) (v₁ v₂ : Vocabulary)
    (axioms₁ axioms₂ : List Axiom) : Prop where
  reverses : σ.Reverses ρ known
  source : ∀ e, known e → v₁.IsNamed e
  target : ∀ {k : Kind} {x : Id k}, known x → v₂.IsNamed (ρ x)
  isOver : ∀ a ∈ axioms₁, a.IsOver known
  maps : ∀ a ∈ axioms₁, a.rename ρ ∈ axioms₂

/-- What the first run affirms the second run affirms under its new name. -/
theorem Embeds.affirms (h : Embeds ρ σ known v₁ v₂ axioms₁ axioms₂)
    (hv₁ : v₁.WellFormed) (hv₂ : v₂.WellFormed)
    (hsource₁ : IsSource v₁ axioms₁) (hsource₂ : IsSource v₂ axioms₂)
    (h₁ : Outcome config axioms₁ v₁ w₁ k₁ forms₁ closed₁ u₁ o₁ st₁)
    (h₂ : Outcome config axioms₂ v₂ w₂ k₂ forms₂ closed₂ u₂ o₂ st₂)
    (hover : f.IsOver known) (hf : k₁.Affirms f) : k₂.Affirms (f.rename ρ) := by
  classical
  obtain ⟨hgrow₂, hu₂, -⟩ := h₂.forms_tame hv₂ hsource₂
  obtain ⟨hreads₂, haxioms₂⟩ := h₂.canonical_satisfies hv₂ hsource₂ hu₂
  -- the canonical valuation of the second run, read back along the renaming
  let I := (h₂.canonical hu₂).pullback v₁ ρ known
  have hrenames : Valuation.Renames ρ known I (h₂.canonical hu₂) := Valuation.renames_pullback
  have hI : I.Reads v₁ := Valuation.reads_pullback hv₁ h.reverses h.source hreads₂
  have haxioms₁ : ∀ a ∈ axioms₁, I.Satisfies a := fun a ha =>
    hrenames.satisfies h.reverses (h.isOver a ha) (hsource₁.canonical a ha)
      (hsource₁.notNormal a ha) (haxioms₂ _ (h.maps a ha))
  obtain ⟨J, hIJ, hJ, hclosed⟩ := h₁.extends hv₁ hsource₁ rfl hI haxioms₁
  have hknown : f.IsOver (v₁.contains ·) :=
    hover.imp fun e he => contains_of_isAuxiliary (h.source e he)
  have hactive : ∀ i ∈ I.active, v₁.contains i = true := fun i hi =>
    contains_of_isAuxiliary (h.source _ ((hrenames.active i).mp hi).1)
  have hvalid : I.Validates f :=
    (hIJ.validates_iff (hv₁.contains_top (by decide)) hactive hknown).mp
      (h₁.validates hJ hclosed hf)
  have hgrow : v₂.Extends w₂ := hgrow₂.trans (h₂.mirrors.{0} hu₂).grows
  apply h₂.affirms hu₂ (h₂.nominalOf_eq_some hv₂ hsource₂)
  · exact Finding.isOver_rename (fun hx => hgrow.isAuxiliary (h.target hx)) hover
  · exact hrenames.validates h.reverses hover hvalid

/-! ## The same axioms under other names -/

/-- The entity is reserved, or an axiom mentions it. -/
def Mentioned (axioms : List Axiom) (e : Entity) : Prop :=
  e.IsReserved ∨ ∃ a ∈ axioms, e ∈ a.entities

theorem forall_mentioned_iff {P : Entity → Prop} : (∀ e, Mentioned axioms e → P e) ↔
    (∀ e : Entity, e.IsReserved → P e) ∧ ∀ a ∈ axioms, a.IsOver P := by
  simp only [Mentioned, or_imp, forall_and, Axiom.isOver_iff]
  apply and_congr_right
  intro _
  exact ⟨fun h a ha e he => h e ⟨a, ha, he⟩, fun h e ⟨a, ha, he⟩ => h a ha e he⟩

theorem isNamed_of_isReserved (hv : v.WellFormed) {e : Entity} (he : e.IsReserved) :
    v.IsNamed e := by
  obtain ⟨hkind, hid | hid⟩ := he
  · have hbottom := hv.bottom e.kind hkind
    rwa [← hid] at hbottom
  · have htop := hv.top e.kind hkind
    rwa [← hid] at htop

/-- The renaming keeps the mentioned entities of the first axioms apart and the reserved ones as
they are. It takes the mentioned entities to named ones and the first axioms to second ones. -/
structure MapsInto (ρ : Renaming) (v : Vocabulary) (axioms₁ axioms₂ : List Axiom) : Prop where
  injective : ∀ {k : Kind} {x y : Id k}, Mentioned axioms₁ x → Mentioned axioms₁ y →
    ρ x = ρ y → x = y
  reserved : ∀ {k : Kind} {x : Id k}, Entity.IsReserved x → ρ x = x
  named : ∀ {k : Kind} {x : Id k}, Mentioned axioms₁ x → v.IsNamed (ρ x)
  maps : ∀ a ∈ axioms₁, a.rename ρ ∈ axioms₂

/-- A renaming that keeps the known entities apart can be undone on them. -/
theorem exists_fixes (hinjective : ∀ {k : Kind} {x y : Id k}, known x → known y →
    ρ x = ρ y → x = y) : ∃ σ : Renaming, (σ.comp ρ).Fixes known := by
  classical
  refine ⟨⟨fun y => if h : ∃ x, known (.ofId x) ∧ ρ x = y then h.choose else y⟩, ?_⟩
  intro k x hx
  have hexists : ∃ x', known (.ofId x') ∧ ρ x' = ρ x := ⟨x, hx, rfl⟩
  calc
    _ = hexists.choose := dif_pos hexists
    _ = x := hinjective hexists.choose_spec.1 hx hexists.choose_spec.2

theorem MapsInto.exists_embeds (h : MapsInto ρ v₂ axioms₁ axioms₂) (hv₁ : v₁.WellFormed)
    (hsource₁ : IsSource v₁ axioms₁) :
    ∃ σ, Embeds ρ σ (Mentioned axioms₁) v₁ v₂ axioms₁ axioms₂ := by
  obtain ⟨σ, hσ⟩ := exists_fixes h.injective
  refine ⟨σ, ⟨hσ, fun hx => ⟨.inl hx, h.reserved hx⟩⟩, ?_, h.named, ?_, h.maps⟩
  · exact forall_mentioned_iff.mpr ⟨fun e => isNamed_of_isReserved hv₁, hsource₁.named⟩
  · exact (forall_mentioned_iff.mp fun e he => he).2

/-- The entity is the new name of a known one. -/
def IsImage (ρ : Renaming) (known : Entity → Prop) (e : Entity) : Prop :=
  ∃ x : Id e.kind, known x ∧ ρ x = e.id

theorem isImage_ofId {k : Kind} {y : Id k} :
    IsImage ρ known y ↔ ∃ x : Id k, known x ∧ ρ x = y := Iff.rfl

/-- If the second axioms are nothing but the first ones under new names, the second renaming takes
them back. -/
theorem Embeds.symm (h : Embeds ρ σ known v₁ v₂ axioms₁ axioms₂) (hsource₁ : IsSource v₁ axioms₁)
    (honto : ∀ b ∈ axioms₂, ∃ a ∈ axioms₁, a.rename ρ = b) :
    Embeds σ ρ (IsImage ρ known) v₂ v₁ axioms₂ axioms₁ where
  reverses := by
    refine ⟨fun {k y} hy => ?_, fun {k x} hx => ?_⟩
    · obtain ⟨x, hx, rfl⟩ := isImage_ofId.mp hy
      exact congrArg ρ.map (h.reverses.fixes hx)
    · obtain ⟨hknown, hfixed⟩ := h.reverses.reserved hx
      refine ⟨⟨x, hknown, hfixed⟩, ?_⟩
      calc
        σ x = σ (ρ x) := by rw [hfixed]
        _ = x := h.reverses.fixes hknown
  source := by
    rintro e ⟨x, hx, he⟩
    have htarget := h.target hx
    rwa [he] at htarget
  target := by
    intro k y hy
    obtain ⟨x, hx, rfl⟩ := isImage_ofId.mp hy
    have hfixed : σ (ρ x) = x := h.reverses.fixes hx
    rw [hfixed]
    exact h.source _ hx
  isOver := by
    intro b hb
    obtain ⟨a, ha, rfl⟩ := honto b hb
    exact Axiom.isOver_rename (fun {k x} hx => ⟨x, hx, rfl⟩) (h.isOver a ha)
  maps := by
    intro b hb
    obtain ⟨a, ha, rfl⟩ := honto b hb
    rw [Axiom.rename_rename a (hsource₁.notNormal a ha), Axiom.rename_eq_self h.reverses.fixes
      (h.isOver a ha) (hsource₁.canonical a ha) (hsource₁.notNormal a ha)]
    exact ha

/-- A renaming onto the second axioms keeps all answers. -/
theorem Embeds.affirms_iff (h : Embeds ρ σ known v₁ v₂ axioms₁ axioms₂)
    (honto : ∀ b ∈ axioms₂, ∃ a ∈ axioms₁, a.rename ρ = b)
    (hv₁ : v₁.WellFormed) (hv₂ : v₂.WellFormed)
    (hsource₁ : IsSource v₁ axioms₁) (hsource₂ : IsSource v₂ axioms₂)
    (h₁ : Outcome config axioms₁ v₁ w₁ k₁ forms₁ closed₁ u₁ o₁ st₁)
    (h₂ : Outcome config axioms₂ v₂ w₂ k₂ forms₂ closed₂ u₂ o₂ st₂)
    (hover : f.IsOver known) : k₁.Affirms f ↔ k₂.Affirms (f.rename ρ) := by
  constructor
  · exact h.affirms hv₁ hv₂ hsource₁ hsource₂ h₁ h₂ hover
  · intro hf
    have hback := (h.symm hsource₁ honto).affirms hv₂ hv₁ hsource₂ hsource₁ h₂ h₁
      (Finding.isOver_rename (fun {k x} hx => ⟨x, hx, rfl⟩) hover) hf
    rwa [Finding.rename_rename, Finding.rename_eq_self h.reverses.fixes hover] at hback

/-- The entities keep their names when the same axioms are classified a second time. -/
theorem embeds_id (hvw : v.Extends w) (hv : v.WellFormed) (hsource : IsSource v axioms) :
    Embeds ⟨id⟩ ⟨id⟩ (Mentioned axioms) v w axioms axioms := by
  have hnamed : ∀ e, Mentioned axioms e → v.IsNamed e :=
    forall_mentioned_iff.mpr ⟨fun e => isNamed_of_isReserved hv, hsource.named⟩
  have hover : ∀ a ∈ axioms, a.IsOver (Mentioned axioms) :=
    (forall_mentioned_iff.mp fun e he => he).2
  refine ⟨⟨fun _ => rfl, fun hx => ⟨.inl hx, rfl⟩⟩, hnamed,
    fun hx => hvw.isAuxiliary (hnamed _ hx), hover, fun a ha => ?_⟩
  have hself : a.rename ⟨id⟩ = a := Axiom.rename_eq_self (fun _ => rfl) (hover a ha)
    (hsource.canonical a ha) (hsource.notNormal a ha)
  rwa [hself]

/-- Under an injective renaming of the mentioned entities that takes the axioms of a first run to
axioms of a second, whatever the first run affirms of these entities the second run affirms under
their new names. If there are no other axioms in the second run, the answers are the same, and so
they are when the same axioms are classified a second time. -/
theorem classify_rename {cancelled₁ cancelled₂ : Bool} (hv₁ : v₁.Reachable) (hv₂ : v₂.Reachable)
    (hsource₁ : IsSource v₁ axioms₁) (hsource₂ : IsSource v₂ axioms₂)
    (hρ : MapsInto ρ v₂ axioms₁ axioms₂)
    (h₁ : classify config cancelled₁ axioms₁ v₁ = .ok k₁ w₁)
    (h₂ : classify config cancelled₂ axioms₂ v₂ = .ok k₂ w₂) :
    (∀ f, f.IsOver (Mentioned axioms₁) → k₁.Affirms f → k₂.Affirms (f.rename ρ)) ∧
    ((∀ b ∈ axioms₂, ∃ a ∈ axioms₁, a.rename ρ = b) →
      ∀ f, f.IsOver (Mentioned axioms₁) → (k₁.Affirms f ↔ k₂.Affirms (f.rename ρ))) ∧
    ∀ cancelled k w, classify config cancelled axioms₁ w₁ = .ok k w →
      ∀ f, f.IsOver (Mentioned axioms₁) → (k₁.Affirms f ↔ k.Affirms f) := by
  obtain ⟨forms₁, closed₁, u₁, o₁, st₁, hout₁⟩ := exists_outcome h₁
  obtain ⟨forms₂, closed₂, u₂, o₂, st₂, hout₂⟩ := exists_outcome h₂
  obtain ⟨σ, hembeds⟩ := hρ.exists_embeds hv₁.wellFormed hsource₁
  refine ⟨fun f => ?_, fun honto f => ?_, fun cancelled k w h f hover => ?_⟩
  · exact hembeds.affirms hv₁.wellFormed hv₂.wellFormed hsource₁ hsource₂ hout₁ hout₂
  · exact hembeds.affirms_iff honto hv₁.wellFormed hv₂.wellFormed hsource₁ hsource₂ hout₁ hout₂
  · obtain ⟨forms, closed, u, o, st, hout⟩ := exists_outcome h
    obtain ⟨hgrow, hu₁, -⟩ := hout₁.forms_tame hv₁.wellFormed hsource₁
    have hmirrors := hout₁.mirrors.{0} hu₁
    have hvw : v₁.Extends w₁ := hgrow.trans hmirrors.grows
    have hid := embeds_id hvw hv₁.wellFormed hsource₁
    have honto : ∀ b ∈ axioms₁, ∃ a ∈ axioms₁, a.rename ⟨id⟩ = b := fun b hb =>
      ⟨b, hb, Axiom.rename_eq_self (fun _ => rfl) (hid.isOver b hb) (hsource₁.canonical b hb)
        (hsource₁.notNormal b hb)⟩
    have hiff := hid.affirms_iff honto hv₁.wellFormed hmirrors.wellFormed hsource₁
      (hsource₁.of_extends hvw) hout₁ hout hover
    rwa [Finding.rename_eq_self (fun _ => rfl) hover] at hiff

/-- Two classes change their names. -/
def swapClasses (a b : ClassId) : Renaming where
  map {k} x :=
    match k with
    | .cls => Equiv.swap a b x
    | .property | .individual => x

theorem swapClasses_swapClasses (a b : ClassId) {k : Kind} (x : Id k) :
    swapClasses a b (swapClasses a b x) = x := by
  cases k with
  | cls => exact Equiv.swap_apply_self a b x
  | property | individual => rfl

theorem swapClasses_of_isReserved {a b : ClassId} (ha : ¬Entity.IsReserved a)
    (hb : ¬Entity.IsReserved b) {k : Kind} {x : Id k} (hx : Entity.IsReserved x) :
    swapClasses a b x = x := by
  cases k with
  | cls =>
      apply Equiv.swap_apply_of_ne_of_ne
      · rintro rfl
        exact ha hx
      · rintro rfl
        exact hb hx
  | property | individual => rfl

/-- Two classes change places, the nominal class is left from before and an axiom is added: the
individual is still an instance of the class above its own. -/
theorem classify_rename_swap :
    ∃ (ρ : Renaming) (i : IndividualId) (a b c n : ClassId) (v w₁ w₂ : Vocabulary)
      (k₁ k₂ : Classification),
      ρ a = c ∧ ρ b = b ∧ ρ c = a ∧ Minting.nominalOf i .sample = .ok n v ∧
      classify .default false
        [.classAssertion (.named a) i, .subClassOf (.named a) (.named b)] .sample = .ok k₁ w₁ ∧
      classify .default false
        [.subClassOf (.named b) (.named a), .subClassOf (.named c) (.named b),
          .classAssertion (.named c) i] v = .ok k₂ w₂ ∧
      b ∈ k₁.typesOf i ∧ b ∈ k₂.typesOf i := by
  let ρ : Renaming := swapClasses ⟨2⟩ ⟨4⟩
  let axioms₁ : List Axiom :=
    [.classAssertion (.named ⟨2⟩) ⟨0⟩, .subClassOf (.named ⟨2⟩) (.named ⟨3⟩)]
  let axioms₂ : List Axiom :=
    [.subClassOf (.named ⟨3⟩) (.named ⟨2⟩), .subClassOf (.named ⟨4⟩) (.named ⟨3⟩),
      .classAssertion (.named ⟨4⟩) ⟨0⟩]
  have hyields₁ : Minting.yields (classify .default false axioms₁)
      (fun k => (k.typesOf ⟨0⟩).contains ⟨3⟩) .sample = true := by cbv
  have hyields₂ : Minting.yields
      (do let _ ← Minting.nominalOf ⟨0⟩; classify .default false axioms₂)
      (fun _ => true) .sample = true := by cbv
  obtain ⟨k₁, w₁, h₁, htype⟩ := Minting.exists_ok_of_yields hyields₁
  obtain ⟨k₂, w₂, h₂, -⟩ := Minting.exists_ok_of_yields hyields₂
  obtain ⟨n, v, hn, h₂⟩ := Minting.bind_eq_ok.1 h₂
  have hwf := reachable_sample.wellFormed
  obtain ⟨hgrow, hv, -⟩ := Minting.nominalOf_grows hwf hn
  have hnamed : ∀ {c : ClassId}, Vocabulary.sample.IsNamed c →
      (ClassExpr.named c).IsOver Vocabulary.sample.IsNamed := ClassExpr.isOver_named.2
  have hsource₁ : IsSource .sample axioms₁ := by
    constructor
    · exact Normalization.forall_mem_pair.2 ⟨⟨hnamed rfl, rfl⟩, hnamed rfl, hnamed rfl⟩
    · simp [axioms₁]
    · decide
  have hsource₂ : IsSource .sample axioms₂ := by
    constructor
    · exact List.forall_mem_cons.2 ⟨⟨hnamed rfl, hnamed rfl⟩,
        Normalization.forall_mem_pair.2 ⟨⟨hnamed rfl, hnamed rfl⟩, hnamed rfl, rfl⟩⟩
    · simp [axioms₂]
    · decide
  have hreserved : ∀ {k : Kind} {x : Id k}, Entity.IsReserved x → ρ x = x :=
    swapClasses_of_isReserved (by decide) (by decide)
  have hρ : MapsInto ρ v axioms₁ axioms₂ := by
    have htarget : ∀ e, Mentioned axioms₁ e → Vocabulary.sample.IsNamed (.ofId (ρ e.id)) := by
      apply (forall_mentioned_iff (P := fun e => Vocabulary.sample.IsNamed (.ofId (ρ e.id)))).mpr
      constructor
      · intro e he
        rw [hreserved (x := e.id) he]
        exact isNamed_of_isReserved hwf he
      · exact Normalization.forall_mem_pair.2 ⟨⟨ClassExpr.isOver_named.2 rfl, rfl⟩,
          ClassExpr.isOver_named.2 rfl, ClassExpr.isOver_named.2 rfl⟩
    constructor
    · intro k x y _ _ hxy
      rw [← swapClasses_swapClasses ⟨2⟩ ⟨4⟩ x, hxy, swapClasses_swapClasses]
    · exact hreserved
    · exact fun {k x} hx => hgrow.isAuxiliary (htarget _ hx)
    · decide
  have htype : k₁.Affirms (.type ⟨0⟩ ⟨3⟩) := Std.ExtTreeSet.contains_iff_mem.1 htype
  have hmentioned : (Finding.type ⟨0⟩ ⟨3⟩).IsOver (Mentioned axioms₁) := by
    obtain ⟨hassertion, hinclusion⟩ := Normalization.forall_mem_pair.1
      (forall_mentioned_iff.mp fun e (he : Mentioned axioms₁ e) => he).2
    exact ⟨hassertion.2, ClassExpr.isOver_named.1 hinclusion.2⟩
  obtain ⟨haffirms, -, -⟩ := classify_rename reachable_sample (.nominalOf reachable_sample hn)
    hsource₁ (hsource₂.of_extends hgrow) hρ h₁ h₂
  exact ⟨ρ, ⟨0⟩, ⟨2⟩, ⟨3⟩, ⟨4⟩, n, v, w₁, w₂, k₁, k₂, rfl, rfl, rfl, hn, h₁, h₂, htype,
    haffirms _ hmentioned htype⟩

end OwlEl.Reasoner
