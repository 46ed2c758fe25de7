import OwlEl.Proofs.Frame.Canonical
import OwlEl.Proofs.Frame.Derivation
import OwlEl.Proofs.Frame.Renaming
import OwlEl.Proofs.Reasoner.Outcome

/-!
# Findings

A finding is what a classification may affirm of the entities that it was asked about. Every
valuation that satisfies the normal forms validates what is affirmed (`Completed.validates`), and
what the canonical valuation validates of named entities is affirmed (`Completed.affirms`). So what
is affirmed can be compared by comparing valuations: those that agree on the entities of a finding
validate it both or neither, and along a renaming it is validated under its new name.
-/

namespace OwlEl

universe u

open Completion Vocabulary

/-- A positive answer. -/
inductive Finding where
  | subsumption (a b : ClassId)
  | unsatisfiability (a : ClassId)
  | inconsistency
  | type (i : IndividualId) (c : ClassId)
  | instance (c : ClassId) (i : IndividualId)
  | superProperty (r s : PropertyId)
  | equivalentProperty (r s : PropertyId)

namespace Finding

/-- All entities of the finding are known. -/
def IsOver (known : Entity → Prop) : Finding → Prop
  | .subsumption a b => known a ∧ known b
  | .unsatisfiability a => known a
  | .inconsistency => True
  | .type i c => known i ∧ known c
  | .instance c i => known c ∧ known i
  | .superProperty r s | .equivalentProperty r s => known r ∧ known s

/-- The finding under a renaming. -/
def rename (ρ : Renaming) : Finding → Finding
  | .subsumption a b => .subsumption (ρ a) (ρ b)
  | .unsatisfiability a => .unsatisfiability (ρ a)
  | .inconsistency => .inconsistency
  | .type i c => .type (ρ i) (ρ c)
  | .instance c i => .instance (ρ c) (ρ i)
  | .superProperty r s => .superProperty (ρ r) (ρ s)
  | .equivalentProperty r s => .equivalentProperty (ρ r) (ρ s)

variable {ρ σ : Renaming} {known known' : Entity → Prop} {f : Finding}

theorem IsOver.imp (hf : f.IsOver known) (h : ∀ e, known e → known' e) : f.IsOver known' := by
  cases f with
  | inconsistency => trivial
  | unsatisfiability a => exact h _ hf
  | subsumption | type | «instance» | superProperty | equivalentProperty =>
      exact ⟨h _ hf.1, h _ hf.2⟩

theorem isOver_rename (h : ∀ {k : Kind} {x : Id k}, known x → known' (ρ x))
    (hf : f.IsOver known) : (f.rename ρ).IsOver known' := by
  cases f with
  | inconsistency => trivial
  | unsatisfiability a => exact h (x := a) hf
  | subsumption | type | «instance» | superProperty | equivalentProperty =>
      exact ⟨h hf.1, h hf.2⟩

theorem rename_rename (f : Finding) : (f.rename ρ).rename σ = f.rename (σ.comp ρ) := by
  cases f <;> rfl

theorem rename_eq_self (h : ρ.Fixes known) (hf : f.IsOver known) : f.rename ρ = f := by
  cases f with
  | inconsistency => rfl
  | unsatisfiability a => exact congrArg unsatisfiability (h hf)
  | subsumption | type | «instance» | superProperty | equivalentProperty =>
      simp only [rename, h hf.1, h hf.2]

end Finding

/-- The classification gives the positive answer. -/
def Classification.Affirms (k : Classification) : Finding → Prop
  | .subsumption a b => k.isSubsumedBy a b = true
  | .unsatisfiability a => k.isSatisfiable a = false
  | .inconsistency => k.isConsistent = false
  | .type i c => c ∈ k.typesOf i
  | .instance c i => i ∈ k.instancesOf c
  | .superProperty r s => s ∈ k.superProperties r
  | .equivalentProperty r s => s ∈ k.equivalentProperties r

/-! ## Validity -/

section Validity

variable {Δ : Type u} [Preorder Δ] {F : Frame Δ} {I J : Valuation F.meanings}
  {ρ σ : Renaming} {known : Entity → Prop} {f : Finding}

/-- The second set holds the first, unless that has only absurd elements. -/
def Frame.Covers (F : Frame Δ) (s t : LowerSet Δ) : Prop := s ≤ F.absurd ∨ s ≤ t

/-- The finding is true. Types and instances are found of active individuals. -/
def Valuation.Validates (I : Valuation F.meanings) : Finding → Prop
  | .subsumption a b => F.Covers (I.classes a) (I.classes b)
  | .unsatisfiability a => I.classes a ≤ F.absurd
  | .inconsistency => I.classes .top ≤ F.absurd ∨ ∃ i ∈ I.active, I.individuals i ≤ F.absurd
  | .type i c => c = .top ∨ i ∈ I.active ∧ F.Covers (I.individuals i) (I.classes c)
  | .instance c i => i ∈ I.active ∧ F.Covers (I.individuals i) (I.classes c)
  | .superProperty r s => (I.properties r).forth ≤ (I.properties s).forth
  | .equivalentProperty r s => (I.properties r).forth ≤ (I.properties s).forth ∧
      (I.properties s).forth ≤ (I.properties r).forth

/-- Whether a finding is true depends on its entities, on the active individuals and on the
universal class. -/
theorem Valuation.AgreesOn.validates_iff (h : I.AgreesOn J known) (htop : known (.top : ClassId))
    (hactive : ∀ i ∈ I.active, known i) (hf : f.IsOver known) : J.Validates f ↔ I.Validates f := by
  cases f with
  | subsumption a b => simp only [Validates, h.classes a hf.1, h.classes b hf.2]
  | unsatisfiability a =>
      have ha : J.classes a = I.classes a := h.classes a hf
      simp only [Validates, ha]
  | inconsistency =>
      rw [Validates, Validates, h.classes _ htop, h.active]
      refine or_congr_right (exists_congr fun i => and_congr_right fun hi => ?_)
      rw [h.individuals i (hactive i hi)]
  | type i c => simp only [Validates, h.classes c hf.2, h.individuals i hf.1, h.active]
  | «instance» c i => simp only [Validates, h.classes c hf.1, h.individuals i hf.2, h.active]
  | superProperty r s | equivalentProperty r s =>
      simp only [Validates, h.properties r hf.1, h.properties s hf.2]

/-- Under its new name a finding is as true as before. -/
theorem Valuation.Renames.validates (h : Renames ρ known I J) (hρ : σ.Reverses ρ known)
    (hf : f.IsOver known) (hI : I.Validates f) : J.Validates (f.rename ρ) := by
  cases f with
  | subsumption a b =>
      rw [Validates, h.classes a hf.1, h.classes b hf.2] at hI
      exact hI
  | unsatisfiability a =>
      rw [Validates, h.classes a hf] at hI
      exact hI
  | inconsistency =>
      rcases hI with htop | ⟨i, hi, habsurd⟩
      · rw [h.classes _ hρ.top.1, hρ.top.2] at htop
        exact .inl htop
      · obtain ⟨hknown, hactive⟩ := (h.active i).mp hi
        rw [h.individuals i hknown] at habsurd
        exact .inr ⟨ρ i, hactive, habsurd⟩
  | type i c =>
      rcases hI with rfl | ⟨hi, hcovers⟩
      · exact .inl hρ.top.2
      · rw [h.individuals i hf.1, h.classes c hf.2] at hcovers
        exact .inr ⟨((h.active i).mp hi).2, hcovers⟩
  | «instance» c i =>
      obtain ⟨hi, hcovers⟩ := hI
      rw [h.individuals i hf.2, h.classes c hf.1] at hcovers
      exact ⟨((h.active i).mp hi).2, hcovers⟩
  | superProperty r s | equivalentProperty r s =>
      simp only [Validates, h.properties r hf.1, h.properties s hf.2] at hI
      exact hI

end Validity

/-! ## What is affirmed is valid -/

namespace Reasoner

variable {config : Config} {forms closed : OrderedSet NormalAxiom} {u w : Vocabulary}
  {k : Classification} {o : Ontology} {st : State o} {f : Finding}

theorem mem_equivalentProperties {r s : PropertyId} : s ∈ k.equivalentProperties r ↔
    s ∈ k.superProperties r ∧ r ∈ k.propertiesAbove.getD s [] := by
  rw [Classification.equivalentProperties, OrderedSet.mem_filter_iff, List.contains_iff_mem]

section Completed

variable (h : Completed config forms u w k closed o st)

include h

section Validates

variable {Δ : Type u} [Preorder Δ] {F : Frame Δ} {J : Valuation F.meanings}
  (hJ : J.Reads w) (hall : ∀ a ∈ closed, J.SatisfiesNormal a)

include hJ hall

theorem Completed.le_of_contains {a b : ClassId} (hab : k.subsumption.contains a b = true) :
    J.classes a ≤ J.classes b :=
  h.of_closed (Valuation.closed_holds hJ hall) (h.answers.subsumption.mp hab)

theorem Completed.le_absurd {a : ClassId} (ha : k.isSatisfiable a = false) :
    J.classes a ≤ F.absurd :=
  calc
    J.classes a ≤ J.classes .bottom :=
      h.le_of_contains hJ hall (Classification.isSatisfiable_eq_false.mp ha)
    _ = F.absurd := hJ.bottom

theorem Completed.covers {a b : ClassId} (hab : k.isSubsumedBy a b = true) :
    F.Covers (J.classes a) (J.classes b) := by
  rcases Classification.isSubsumedBy_eq_true.mp hab with ha | hab
  · exact .inl (h.le_absurd hJ hall (Classification.isSatisfiable_eq_false.mpr ha))
  · exact .inr (h.le_of_contains hJ hall hab)

/-- Whatever is affirmed holds wherever the normal forms do. -/
theorem Completed.validates (hf : k.Affirms f) : J.Validates f := by
  have hnominal : ∀ {i n}, k.nominals[i]? = some n →
      J.classes n = J.individuals i ∧ i ∈ J.active := fun hn => hall _ (h.nominal_of_lookup hn)
  have habove : ∀ {r s}, s ∈ k.propertiesAbove.getD r [] →
      (J.properties r).forth ≤ (J.properties s).forth := fun hs =>
    Valuation.forth_le_of_above hall (h.mem_propertiesAbove.mp hs).2
  cases f with
  | subsumption a b => exact h.covers hJ hall hf
  | unsatisfiability a => exact h.le_absurd hJ hall hf
  | inconsistency =>
      by_contra hnot
      apply Bool.eq_false_iff.mp hf
      rw [Classification.isConsistent_eq_true]
      constructor
      · by_contra htop
        exact hnot (.inl (h.le_absurd hJ hall (Bool.eq_false_iff.mpr htop)))
      · intro i n hn
        by_contra hempty
        obtain ⟨hclass, hactive⟩ := hnominal hn
        apply hnot
        refine .inr ⟨i, hactive, ?_⟩
        rw [← hclass]
        exact h.le_absurd hJ hall (Bool.eq_false_iff.mpr hempty)
  | type i c =>
      rcases Classification.mem_typesOf.mp hf with ⟨n, hn, hc⟩ | ⟨-, hc⟩
      · obtain ⟨hclass, hactive⟩ := hnominal hn
        refine .inr ⟨hactive, ?_⟩
        rw [← hclass]
        exact h.covers hJ hall (Classification.mem_subsumers.mp hc).2
      · exact .inl hc
  | «instance» c i =>
      obtain ⟨n, hn, hc⟩ := Classification.mem_instancesOf.mp hf
      obtain ⟨hclass, hactive⟩ := hnominal hn
      refine ⟨hactive, ?_⟩
      rw [← hclass]
      exact h.covers hJ hall hc
  | superProperty r s => exact habove (Classification.mem_superProperties.mp hf).1
  | equivalentProperty r s =>
      obtain ⟨hs, hr⟩ := mem_equivalentProperties.mp hf
      exact ⟨habove (Classification.mem_superProperties.mp hs).1, habove hr⟩

end Validates

/-! ## What is valid of the derived facts is affirmed -/

variable (hu : u.WellFormed)
  (hnominal : ∀ {n i}, .nominal n i ∈ closed → w.nominalOf[i]? = some n)

/-- The derived facts as a valuation. -/
abbrev Completed.canonical (hu : u.WellFormed) :
    Valuation ((h.derived hu).frame config.saturateRoles).meanings :=
  (h.derived hu).valuation config.saturateRoles

theorem Completed.isSubsumedBy_of_covers {a b : ClassId} (ha : w.contains a = true)
    (hab : ((h.derived hu).frame config.saturateRoles).Covers ((h.derived hu).below a)
      ((h.derived hu).below b)) : k.isSubsumedBy a b = true := by
  rw [h.isSubsumedBy_eq_true_iff]
  exact hab.imp ((h.derived hu).below_le_iff ha).mp ((h.derived hu).below_le_iff ha).mp

include hnominal in
/-- The nominal class of an active individual is looked up. -/
theorem Completed.lookup_of_active {i : IndividualId} (hi : i ∈ (h.canonical hu).active) :
    ∃ n, k.nominals[i]? = some n ∧ w.contains n = true ∧
      (h.canonical hu).individuals i = (h.derived hu).below n := by
  obtain ⟨n, hn, hlookup⟩ := hi
  have hcontains := ((Ontology.indexes_of_build h.built).isOver _ hn).1
  refine ⟨n, ?_, hcontains, (h.derived hu).valuation_individuals _ hlookup⟩
  apply h.lookup_of_nominal hn
  intro m hm
  exact Option.some.inj ((hnominal hm).symm.trans hlookup)

include hnominal in
/-- Only what is affirmed of named entities is true in the canonical valuation. -/
theorem Completed.affirms (hover : f.IsOver w.IsNamed) (hf : (h.canonical hu).Validates f) :
    k.Affirms f := by
  have hderived := h.derived hu
  have habove : ∀ {r s : PropertyId}, w.IsNamed r →
      ((h.canonical hu).properties r).forth ≤ ((h.canonical hu).properties s).forth →
      s ∈ k.propertiesAbove.getD r [] := fun {r s} hr hrs =>
    h.mem_propertiesAbove.mpr ⟨contains_of_isAuxiliary hr, hrs.2 (.refl : Above closed r r)⟩
  cases f with
  | subsumption a b =>
      exact h.isSubsumedBy_of_covers hu (contains_of_isAuxiliary hover.1) hf
  | unsatisfiability a =>
      apply h.isSatisfiable_eq_false_iff.mpr
      exact (hderived.below_le_iff (contains_of_isAuxiliary hover)).mp hf
  | inconsistency =>
      rw [Classification.Affirms, Bool.eq_false_iff, ne_eq, Classification.isConsistent_eq_true]
      rintro ⟨htop, hconsistent⟩
      rcases hf with hf | ⟨i, hi, hf⟩
      · have hbottom := (hderived.below_le_iff hderived.top).mp hf
        rw [h.isSatisfiable_eq_false_iff.mpr hbottom] at htop
        exact absurd htop Bool.false_ne_true
      · obtain ⟨n, hn, hcontains, hindividual⟩ := h.lookup_of_active hu hnominal hi
        rw [hindividual] at hf
        have hbottom := (hderived.below_le_iff hcontains).mp hf
        have hsatisfiable := hconsistent i n hn
        rw [h.isSatisfiable_eq_false_iff.mpr hbottom] at hsatisfiable
        exact absurd hsatisfiable Bool.false_ne_true
  | type i c =>
      apply Classification.mem_typesOf.mpr
      cases hlookup : k.nominals[i]? with
      | none =>
          rcases hf with rfl | ⟨hi, -⟩
          · exact .inr ⟨rfl, rfl⟩
          · obtain ⟨n, hn, -⟩ := h.lookup_of_active hu hnominal hi
            exact absurd (hlookup.symm.trans hn) (by simp)
      | some n =>
          refine .inl ⟨n, rfl, Classification.mem_subsumers.mpr
            ⟨h.mem_namedClasses hover.2, ?_⟩⟩
          rcases hf with rfl | ⟨hi, hcovers⟩
          · apply h.isSubsumedBy_eq_true_iff.mpr
            have hn := (Ontology.indexes_of_build h.built).isOver _ (h.nominal_of_lookup hlookup)
            exact .inr (hderived.closed.top hn.1)
          · obtain ⟨m, hm, hcontains, hindividual⟩ := h.lookup_of_active hu hnominal hi
            obtain rfl := Option.some.inj (hlookup.symm.trans hm)
            rw [hindividual] at hcovers
            exact h.isSubsumedBy_of_covers hu hcontains hcovers
  | «instance» c i =>
      obtain ⟨hi, hcovers⟩ := hf
      obtain ⟨n, hn, hcontains, hindividual⟩ := h.lookup_of_active hu hnominal hi
      rw [hindividual] at hcovers
      exact Classification.mem_instancesOf.mpr
        ⟨n, hn, h.isSubsumedBy_of_covers hu hcontains hcovers⟩
  | superProperty r s =>
      exact Classification.mem_superProperties.mpr
        ⟨habove hover.1 hf, h.mem_namedProperties hover.2⟩
  | equivalentProperty r s =>
      refine mem_equivalentProperties.mpr ⟨Classification.mem_superProperties.mpr
        ⟨habove hover.1 hf.1, h.mem_namedProperties hover.2⟩, habove hover.2 hf.2⟩

end Completed

end Reasoner

end OwlEl
