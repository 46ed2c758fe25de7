import Mathlib.Data.Set.Lattice
import OwlEl.Proofs.Valuation.Reading

/-!
# Interpretations as valuations

Sets and relations are meanings, and an interpretation is a valuation of them in which an individual
is the set of its element. Axioms, normal forms and vocabularies say the same of an interpretation
and of its valuation, and every valuation is that of an interpretation. So what is shown of
valuations holds of interpretations.

Main statements: `Interpretation.satisfies_valuation` and `Interpretation.exists_valuation_eq`.
-/

namespace OwlEl

universe u

open Normalization

variable {Δ : Type u}

/-- Classes are sets and properties are relations. -/
def Meanings.sets (Δ : Type u) : Meanings (Set Δ) (Δ → Δ → Prop) where
  absurd := ∅
  IsSharp s := ∃ x, s = {x}
  selective := false
  mirrored := true
  swap r x y := r y x
  comp r s x z := ∃ y, r x y ∧ s y z
  Within r s := ∀ x y, r x y → s x y
  IsReflexive r := ∀ x, r x x
  IsFunctional r := ∀ x y z, r x y → r x z → y = z
  HasRange r s := ∀ x y, r x y → y ∈ s
  preimage r s := {x | ∃ y, r x y ∧ y ∈ s}
  swap_swap _ := rfl
  swap_comp r s := by
    ext x z
    exact exists_congr fun y => and_comm
  within_refl _ _ _ := id
  within_trans h h' x y hxy := h' x y (h x y hxy)
  within_comp _ h x _ := fun ⟨y, hxy, hyz⟩ => ⟨y, h x y hxy, hyz⟩
  within_swap _ h x y := h y x
  preimage_mono _ _ _ hst := fun _ ⟨y, hxy, hy⟩ => ⟨y, hxy, hst hy⟩
  preimage_bot _ := Set.eq_empty_of_forall_notMem fun _ ⟨_, _, hy⟩ => hy
  hasRange_mono hst h x y hxy := hst (h x y hxy)

namespace Interpretation

/-- The interpretation as a valuation. -/
def valuation (I : Interpretation Δ) : Valuation (Meanings.sets Δ) where
  classes := I.classes
  properties := I.properties
  individuals i := {I.individuals i}
  active := Set.univ
  sharp _ := ⟨_, rfl⟩
  all_active _ _ := trivial

/-- There are no valuations besides. -/
theorem exists_valuation_eq (J : Valuation (Meanings.sets Δ)) :
    ∃ I : Interpretation Δ, I.valuation = J := by
  have hactive : ∀ i, i ∈ J.active := J.all_active rfl
  choose individuals hindividuals using fun i => J.sharp (hactive i)
  refine ⟨⟨J.classes, J.properties, individuals⟩, ?_⟩
  obtain ⟨classes, properties, individuals', active, sharp, all_active⟩ := J
  obtain rfl : active = Set.univ := Set.eq_univ_of_forall hactive
  obtain rfl : individuals' = fun i => {individuals i} := funext hindividuals
  rfl

variable {I J : Interpretation Δ} {v : Vocabulary} {known : Entity → Prop}

theorem agreesOn_valuation : I.valuation.AgreesOn J.valuation known ↔ I.AgreesOn J known :=
  ⟨fun h => ⟨h.classes, h.properties, fun i hi => Set.singleton_injective (h.individuals i hi)⟩,
    fun h => ⟨h.classes, h.properties, fun i hi => congrArg singleton (h.individuals i hi), rfl⟩⟩

theorem reads_valuation : I.valuation.Reads v ↔ I.Reads v :=
  ⟨fun h => ⟨⟨h.top, h.bottom⟩, h.nominal, fun hp x y => iff_of_eq (congrFun₂ (h.inverse hp) x y)⟩,
    fun h => ⟨h.bounds.top, h.bounds.bottom, h.nominal,
      fun hp => funext₂ fun x y => propext (h.inverse hp x y)⟩⟩

theorem Reads.of_extends {w : Vocabulary} (h : v.Extends w) (hI : I.Reads w) : I.Reads v :=
  reads_valuation.1 ((reads_valuation.2 hI).of_extends h)

/-! ## What holds -/

theorem role_valuation (r : PropertyExpr) : I.valuation.role r = I.role r := by
  cases r with
  | named p | inverseOf p => rfl

theorem extension_valuation (e : ClassExpr) : I.valuation.extension e = I.extension e := by
  induction e using ClassExpr.induction with
  | named c | oneOf i => rfl
  | intersection operands ih =>
      ext x
      rw [mem_extension_intersection, ← Set.singleton_subset_iff,
        Valuation.le_extension_intersection]
      refine forall₂_congr fun e he => ?_
      rw [ih e he]
      exact Set.singleton_subset_iff
  | existential r filler ih =>
      rw [Valuation.extension_existential, ih, role_valuation]
      rfl

theorem comp_within_iff {r s t : Δ → Δ → Prop} :
    (Meanings.sets Δ).Within ((Meanings.sets Δ).comp r s) t ↔
      ∀ x y z, r x y → s y z → t x z :=
  ⟨fun h x y z hxy hyz => h x z ⟨y, hxy, hyz⟩, fun h x z ⟨y, hxy, hyz⟩ => h x y z hxy hyz⟩

theorem preimage_subset_iff {r : Δ → Δ → Prop} {s t : Set Δ} :
    (Meanings.sets Δ).preimage r s ⊆ t ↔ ∀ x y, r x y → y ∈ s → x ∈ t :=
  ⟨fun h _ y hxy hy => h ⟨y, hxy, hy⟩, fun h _ ⟨y, hxy, hy⟩ => h _ y hxy hy⟩

theorem satisfiesNormal_valuation {a : NormalAxiom} :
    I.valuation.SatisfiesNormal a ↔ I.SatisfiesNormal a := by
  cases a with
  | conjunction operands b =>
      exact ⟨fun h x hx => h {x} (fun a ha => Set.singleton_subset_iff.2 (hx a ha)) rfl,
        fun h s hs x hx => h x fun a ha => hs a ha hx⟩
  | existsSub r a b => exact preimage_subset_iff
  | composition r s t => exact comp_within_iff
  | nominal a i => exact and_iff_left trivial
  | subsumption | existsSuper | reflexive | inclusion | range | functional => exact Iff.rfl

/-- What a normal form says depends only on the entities that it mentions. -/
theorem AgreesOn.satisfiesNormal_iff {a : NormalAxiom} (h : I.AgreesOn J known)
    (ha : a.IsOver known) : J.SatisfiesNormal a ↔ I.SatisfiesNormal a := by
  rw [← satisfiesNormal_valuation, ← satisfiesNormal_valuation]
  exact (agreesOn_valuation.2 h).satisfiesNormal_iff ha

/-! ### Chains -/

theorem compose_concat {rs : List (Δ → Δ → Prop)} {s : Δ → Δ → Prop} {x z : Δ} :
    compose (rs ++ [s]) x z ↔ ∃ y, compose rs x y ∧ s y z := by
  induction rs generalizing x with
  | nil => simp [compose]
  | cons r rs ih =>
      simp only [List.cons_append, compose, ih]
      constructor
      · rintro ⟨y, hr, y', hrs, hs⟩
        exact ⟨y', ⟨y, hr, hrs⟩, hs⟩
      · rintro ⟨y', ⟨y, hr, hrs⟩, hs⟩
        exact ⟨y, hr, y', hrs, hs⟩

theorem composite_iff {last : Δ → Δ → Prop} {rest : List (Δ → Δ → Prop)} {x z : Δ} :
    (Meanings.sets Δ).composite last rest x z ↔ compose (last :: rest).reverse x z := by
  induction rest generalizing last z with
  | nil => simp [Meanings.composite, compose]
  | cons r rest ih =>
      rw [List.reverse_cons, compose_concat]
      exact exists_congr fun y => and_congr_left fun _ => ih

theorem chainWithin_iff {chain : List (Δ → Δ → Prop)} {s : Δ → Δ → Prop} :
    (Meanings.sets Δ).ChainWithin chain s ↔ ∀ x y, compose chain.reverse x y → s x y := by
  cases chain with
  | nil => exact ⟨fun h x y hxy => hxy ▸ h x, fun h x => h x x rfl⟩
  | cons last rest => exact forall₂_congr fun x y => imp_congr_left composite_iff

/-! ### Axioms -/

/-- What is below each other is the same. -/
theorem forall_ne_le_iff {α β : Type*} [PartialOrder β] {xs : List α} {f : α → β} :
    (∀ a ∈ xs, ∀ b ∈ xs, a ≠ b → f a ≤ f b) ↔ ∀ a ∈ xs, ∀ b ∈ xs, f a = f b := by
  constructor
  · intro h a ha b hb
    by_cases hab : a = b
    · rw [hab]
    · exact le_antisymm (h a ha b hb hab) (h b hb a ha (Ne.symm hab))
  · exact fun h a ha b hb _ => (h a ha b hb).le

section Bounds

variable (hI : I.HasBounds)

include hI

/-- There is nothing in the empty class, and all individuals are active. -/
theorem included_valuation {c d : ClassExpr} :
    I.valuation.Included c d ↔ I.extension c ⊆ I.extension d := by
  have hstrict : I.valuation.strict = I.valuation := by
    have hclasses : Function.update I.classes .bottom ∅ = I.classes :=
      Function.update_eq_self_iff.2 hI.bottom.symm
    simp only [Valuation.strict, valuation]
    exact congrArg valuation (congrArg (Interpretation.mk · I.properties I.individuals) hclasses)
  rw [Valuation.Included, hstrict, extension_valuation, extension_valuation]
  exact and_iff_left fun _ _ => trivial

theorem included_disjoint {c d : ClassExpr} :
    I.valuation.Included (.and [c, d]) (.named .bottom) ↔
      ∀ x, x ∈ I.extension c → x ∈ I.extension d → False := by
  simp [included_valuation hI, ClassExpr.and, mem_ascending, Set.subset_def, hI.bottom]

/-- An axiom says the same of an interpretation and of its valuation. -/
theorem satisfies_valuation {a : Axiom} : I.valuation.Satisfies a ↔ I.Satisfies a := by
  cases a with
  | subClassOf c d => exact included_valuation hI
  | equivalentClasses cs =>
      simp only [Valuation.Satisfies, included_valuation hI]
      exact forall_ne_le_iff
  | disjointClasses cs => simp only [Valuation.Satisfies, Satisfies, included_disjoint hI]
  | subPropertyOf r s =>
      simp only [Valuation.Satisfies, role_valuation]
      exact Iff.rfl
  | subPropertyChainOf chain s =>
      have hroles : I.valuation.role = I.role := funext role_valuation
      simp only [Valuation.Satisfies, chainWithin_iff, hroles, List.map_reverse,
        List.reverse_reverse]
      exact Iff.rfl
  | equivalentProperties rs =>
      simp only [Valuation.Satisfies, role_valuation]
      exact forall_ne_le_iff (f := I.role)
  | inverseProperties r s =>
      constructor
      · rintro ⟨-, -, hrs, hsr⟩ x y
        exact ⟨hrs x y, hsr x y⟩
      · intro h
        exact ⟨fun x y => (h y x).2, fun x y => (h y x).1, fun x y => (h x y).1,
          fun x y => (h x y).2⟩
  | propertyDomain r c =>
      simp only [Valuation.Satisfies, Satisfies, included_valuation hI, Set.subset_def,
        mem_extension_existential, extension_named, hI.top, Set.mem_univ, and_true,
        forall_exists_index]
  | propertyRange r c =>
      simp only [Valuation.Satisfies, role_valuation, extension_valuation]
      exact and_iff_left fun _ _ => trivial
  | functionalProperty r | reflexiveProperty r =>
      simp only [Valuation.Satisfies, role_valuation]
      exact Iff.rfl
  | transitiveProperty r =>
      simp only [Valuation.Satisfies, role_valuation]
      exact comp_within_iff
  | classAssertion c i =>
      simp [Valuation.Satisfies, Satisfies, included_valuation hI]
  | propertyAssertion r i j =>
      simp [Valuation.Satisfies, Satisfies, included_valuation hI, assertedEdge]
  | negativePropertyAssertion r i j =>
      simp [Valuation.Satisfies, Satisfies, included_disjoint hI, assertedEdge]
  | sameIndividual is =>
      simp only [Valuation.Satisfies, included_valuation hI]
      refine forall_ne_le_iff.trans (forall₂_congr fun i _ => forall₂_congr fun j _ => ?_)
      exact Set.singleton_eq_singleton_iff
  | differentIndividuals is =>
      simp only [Valuation.Satisfies, Satisfies, included_disjoint hI, extension_oneOf,
        Set.mem_singleton_iff, forall_eq, ne_eq]
  | normal a => exact satisfiesNormal_valuation

end Bounds

end Interpretation

end OwlEl
