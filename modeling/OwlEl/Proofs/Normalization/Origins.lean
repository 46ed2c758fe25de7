import OwlEl.Proofs.Minted
import OwlEl.Proofs.Normalization.Runs

/-!
# Where the entities of the normal forms come from

Normalization only mints (`normalize_onlyMints`), so what was there before stays as it is. An
entity of the normal forms is mentioned by an axiom, or is one of the two reserved classes, the
class of an individual or the inverse of a property that is mentioned, or minted. The properties
and individuals of what is still to be replaced are mentioned by an axiom, and this is what the
run keeps: `isInvariant_comesFrom`.

Main statement: `normalize_closed`.
-/

namespace OwlEl.Normalization

open Minting

variable {v w : Vocabulary} {a : Axiom} {l : Worklist} {found forms : OrderedSet NormalAxiom}

/-! ## Nothing is registered -/

theorem Drained.onlyMints (h : Drained l found v forms w) : v.OnlyMints w := by
  induction h with
  | done _ => exact .refl _
  | keep _ _ _ ih => exact ih
  | step _ hstep _ ih => exact hstep.onlyMints.trans ih
  | read _ _ hread _ ih => exact hread.onlyMints.trans ih

theorem normalize_onlyMints {axioms : List Axiom} (h : normalize axioms v = .ok forms w) :
    v.OnlyMints w :=
  (drained_of_normalize h).onlyMints

/-! ## Origins -/

/-- The entity is mentioned by one of the axioms. -/
def IsGiven (axioms : List Axiom) (e : Entity) : Prop := ∃ a ∈ axioms, e ∈ a.entities

theorem forall_entities_iff {axioms : List Axiom} {known : Entity → Prop} :
    (∀ a ∈ axioms, ∀ e ∈ a.entities, known e) ↔
      ∀ e ∈ axioms.flatMap Axiom.entities.mentions, known e := by
  simp only [Axiom.entities, OrderedSet.mem_ofList_iff, List.mem_flatMap]
  constructor
  · rintro h e ⟨a, ha, he⟩
    exact h a ha e he
  · intro h a ha e he
    exact h e ⟨a, ha, he⟩

theorem isGiven_iff {axioms : List Axiom} {b : Entity} :
    IsGiven axioms b ↔ b ∈ axioms.flatMap Axiom.entities.mentions := by
  simp only [IsGiven, Axiom.entities, OrderedSet.mem_ofList_iff, List.mem_flatMap]

/-- What an entity of the normal forms of axioms can be, when the vocabulary has grown from the
first to the second. -/
inductive Origin (axioms : List Axiom) (v w : Vocabulary) : Entity → Prop
  | given {b : Entity} (hb : IsGiven axioms b) : Origin axioms v w b
  | top : Origin axioms v w (.ofId (.top : ClassId))
  | bottom : Origin axioms v w (.ofId (.bottom : ClassId))
  | nominal {i : IndividualId} {c : ClassId} (hi : IsGiven axioms i)
      (hc : w.nominalOf[i]? = some c) : Origin axioms v w c
  | inverse {p q : PropertyId} (hp : IsGiven axioms p) (hq : w.inverse? p = some q) :
      Origin axioms v w q
  | minted {b : Entity} (hb : v.contains b = false) : Origin axioms v w b

/-- What an entity of what is still to be replaced can be: any other than a class is mentioned by
one of the first axioms. -/
def IsSource (axioms : List Axiom) (v w : Vocabulary) (e : Entity) : Prop :=
  IsGiven axioms e ∨ e.kind = .cls ∧ Origin axioms v w e

section Origins

variable {axioms : List Axiom} {v₀ : Vocabulary} {b : Entity}

theorem Origin.mono (h : Origin axioms v₀ v b) (hvw : v.Extends w) : Origin axioms v₀ w b := by
  cases h with
  | given hb => exact .given hb
  | top => exact .top
  | bottom => exact .bottom
  | nominal hi hc => exact .nominal hi (hvw.nominal hc)
  | inverse hp hq => exact .inverse hp (hvw.inverse? hq)
  | minted hb => exact .minted hb

theorem IsSource.isGiven (h : IsSource axioms v₀ v b) (hb : b.kind ≠ .cls) : IsGiven axioms b :=
  h.resolve_right fun hcls => hb hcls.1

/-- What is mentioned, what may take its place and what is minted is all that there is. -/
theorem provenance_origin (axioms : List Axiom) (v₀ : Vocabulary) :
    Provenance v₀ (IsSource axioms v₀) (Origin axioms v₀) where
  source_mono hvw hb := hb.imp_right fun ⟨hkind, horigin⟩ => ⟨hkind, horigin.mono hvw⟩
  origin_mono hvw hb := hb.mono hvw
  origin_of_source hb := hb.elim .given And.right
  source_of_class hc := .inr ⟨rfl, hc⟩
  top _ := .top
  bottom _ := .bottom
  nominal _ hi hn := .nominal (hi.isGiven (by simp [Entity.ofId])) hn
  inverse _ hp hq := .inverse (hp.isGiven (by simp [Entity.ofId])) hq
  minted hext h := by
    apply Origin.minted
    rw [← Bool.not_eq_true]
    intro hold
    exact absurd (hext.contains hold) (Bool.eq_false_iff.1 h.fresh)

theorem comesFrom_of_mem (ha : a ∈ axioms) :
    a.ComesFrom (IsSource axioms v₀ v) (Origin axioms v₀ v) := by
  have hgiven : ∀ e ∈ a.entities, IsGiven axioms e := fun e he => ⟨a, ha, he⟩
  cases a with
  | normal form =>
      exact Axiom.isOver_iff (a := .normal form).2 fun e he => .given (hgiven e he)
  | _ =>
      simp only [Axiom.ComesFrom]
      exact Axiom.isOver_iff.2 fun e he => .inl (hgiven e he)

theorem isInvariant_comesFrom (axioms : List Axiom) (v₀ : Vocabulary) : IsInvariant fun v a =>
    v₀.Extends v ∧ a.ComesFrom (IsSource axioms v₀ v) (Origin axioms v₀ v) where
  mono hvw ha :=
    ⟨ha.1.trans hvw, (provenance_origin axioms v₀).comesFrom_mono hvw ha.2⟩
  replaced hv ha h b hb := by
    refine ⟨ha.1.trans (h.onlyMints.grows hv).1, ?_⟩
    cases h with
    | step h => exact h.comesFrom (provenance_origin axioms v₀) hv ha.1 ha.2 b hb
    | read _ h =>
        exact List.mem_singleton.1 hb ▸ h.comesFrom (provenance_origin axioms v₀) hv ha.2

end Origins

/-! ## Normalization -/

/-- The entities of the normal forms are those of the axioms, the reserved classes, the classes of
individuals and inverses of properties that the axioms mention, and what is minted. All are there
afterwards; what is new is auxiliary, and what was there before is as it was. -/
theorem normalize_closed {axioms : List Axiom} (hv : v.Reachable)
    (hover : ∀ a ∈ axioms, ∀ e ∈ a.entities, v.contains e = true)
    (h : normalize axioms v = .ok forms w) :
    (∀ form ∈ forms, ∀ e ∈ form.signature.entities,
      w.contains e = true ∧ Origin axioms v w e) ∧
    (∀ e, w.contains e = true → v.contains e = true ∨ w.isAuxiliary e = .ok true) ∧
    v.Extends w ∧ ∀ k name, w.idOf? k name = v.idOf? k name := by
  have honly := normalize_onlyMints h
  obtain ⟨hgrow, -, hforms⟩ := (isInvariant_isOver.and (isInvariant_comesFrom axioms v)).normalize
    hv.wellFormed (fun a ha => ⟨Axiom.isOver_iff.2 (hover a ha), .refl v, comesFrom_of_mem ha⟩) h
  refine ⟨fun form hform e he => ?_, fun e => honly.isAuxiliary hv.wellFormed, hgrow,
    honly.idOf?_eq hv⟩
  obtain ⟨hcontains, -, hstems⟩ := hforms form hform
  have hcontains : form.IsOver (w.contains ·) := hcontains
  exact ⟨NormalAxiom.isOver_iff.1 hcontains e he, NormalAxiom.isOver_iff.1 hstems e he⟩

/-- An individual and an inverse to the left are replaced by a class and a property of their own. -/
theorem normalize_closed_nominal_filler :
    ∃ (axioms : List Axiom) (forms : OrderedSet NormalAxiom) (w : Vocabulary) (q : PropertyId)
      (c : ClassId), normalize axioms .sample = .ok forms w ∧ .existsSub q c ⟨3⟩ ∈ forms ∧
      ¬IsGiven axioms q ∧ ¬IsGiven axioms c ∧ Origin axioms .sample w q ∧
      Origin axioms .sample w c := by
  let axioms : List Axiom :=
    [.subClassOf (.existential (.inverseOf ⟨2⟩) (.oneOf ⟨0⟩)) (.named ⟨3⟩)]
  have hover : ∀ a ∈ axioms, ∀ e ∈ a.entities, Vocabulary.sample.contains e = true := by
    rw [forall_entities_iff]
    decide
  have hyields : yields (normalize axioms)
      (fun forms => forms.contains (.existsSub ⟨3⟩ ⟨5⟩ ⟨3⟩)) .sample = true := by cbv
  obtain ⟨forms, w, h, hform⟩ := exists_ok_of_yields hyields
  have hform := Std.ExtTreeSet.contains_iff_mem.1 hform
  obtain ⟨horigins, -⟩ := normalize_closed Vocabulary.reachable_sample hover h
  have hover' := NormalAxiom.isOver_iff.2 fun e he => (horigins _ hform e he).2
  refine ⟨axioms, forms, w, ⟨3⟩, ⟨5⟩, h, hform, ?_, ?_, hover'.1, hover'.2.1⟩
  · rw [isGiven_iff]
    decide
  · rw [isGiven_iff]
    decide

/-- Axioms that do not mention the reserved classes can have normal forms that do. These classes
were there before, and they are not the classes of individuals. -/
theorem normalize_mentions_reserved :
    ∃ (axioms : List Axiom) (forms : OrderedSet NormalAxiom) (w : Vocabulary),
      (∀ a ∈ axioms, a.IsCanonical ∧ ∀ e ∈ a.entities, Vocabulary.sample.contains e = true) ∧
      normalize axioms .sample = .ok forms w ∧ ∀ c ∈ [(.bottom : ClassId), .top],
        (∃ form ∈ forms, .ofId c ∈ form.signature.entities) ∧ ¬IsGiven axioms c ∧
        (∀ i : IndividualId, IsGiven axioms i → w.nominalOf[i]? ≠ some c) ∧
        Vocabulary.sample.contains c = true := by
  let axioms : List Axiom :=
    [.disjointClasses [.named ⟨2⟩, .named ⟨3⟩], .propertyDomain (.named ⟨2⟩) (.named ⟨4⟩)]
  have hyields : yields (normalize axioms) (fun forms =>
      forms.contains (.conjunction [⟨2⟩, ⟨3⟩] .bottom) &&
        forms.contains (.existsSub ⟨2⟩ .top ⟨4⟩)) .sample = true := by cbv
  obtain ⟨forms, w, h, hforms⟩ := exists_ok_of_yields hyields
  rw [Bool.and_eq_true, Std.ExtTreeSet.contains_iff_mem, Std.ExtTreeSet.contains_iff_mem] at hforms
  have hcanonical : ∀ a ∈ axioms, a.IsCanonical := by decide
  have hover : ∀ a ∈ axioms, ∀ e ∈ a.entities, Vocabulary.sample.contains e = true := by
    rw [forall_entities_iff]
    decide
  have hkind : ∀ e, IsGiven axioms e → e.kind ≠ .individual := by
    intro e he
    rw [isGiven_iff] at he
    revert e
    decide
  have hindividual : ∀ (i : IndividualId) (c : ClassId), IsGiven axioms i →
      w.nominalOf[i]? ≠ some c := fun i _ hi => absurd rfl (hkind i hi)
  refine ⟨axioms, forms, w, fun a ha => ⟨hcanonical a ha, hover a ha⟩, h, forall_mem_pair.2 ?_⟩
  simp only [isGiven_iff]
  refine ⟨⟨⟨_, hforms.1, ?_⟩, by decide, fun i hi => ?_, by decide⟩,
    ⟨_, hforms.2, ?_⟩, by decide, fun i hi => ?_, by decide⟩
  · exact NormalAxiom.mentions_iff.1 fun h => h.2 rfl
  · exact hindividual i _ (isGiven_iff.2 hi)
  · exact NormalAxiom.mentions_iff.1 fun h => h.2.1 rfl
  · exact hindividual i _ (isGiven_iff.2 hi)

end OwlEl.Normalization
