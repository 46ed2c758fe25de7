import OwlEl.Proofs.Frame.Meanings
import OwlEl.Proofs.Normalization.Conservativity

/-!
# Individuals with a nominal class

Normalization declares a nominal class for an individual only when an inclusion that mentions it
is not dropped. `Axiom.Activates` says of an axiom which individuals these are, without a run.
That it agrees with the run (`declaresNominal_iff`) follows from what normalization keeps in a
frame, for a frame in which everything holds but activation.
-/

namespace OwlEl

open Vocabulary Normalization

variable {v w : Vocabulary} {i : IndividualId} {S : Set IndividualId}
  {forms : OrderedSet NormalAxiom}

/-- Some nominal class is declared for the individual. -/
def DeclaresNominal (forms : OrderedSet NormalAxiom) (i : IndividualId) : Prop :=
  ∃ n, .nominal n i ∈ forms

/-- The axiom makes normalization declare a nominal class for the individual. -/
def Axiom.Activates (i : IndividualId) : Axiom → Prop
  | .subClassOf c d => OwlEl.Activates i c d
  | .equivalentClasses cs => ∃ c ∈ cs, ∃ d ∈ cs, c ≠ d ∧ OwlEl.Activates i c d
  | .disjointClasses cs =>
      ∃ c d, [c, d].Sublist cs ∧ OwlEl.Activates i (.and [c, d]) (.named .bottom)
  | .propertyDomain r c => OwlEl.Activates i (.existential r (.named .top)) c
  | .propertyRange _ c => OwlEl.Activates i (.named .top) c
  | .classAssertion c j => OwlEl.Activates i (.oneOf j) c
  | .propertyAssertion r j l => OwlEl.Activates i (.oneOf j) (assertedEdge r l)
  | .negativePropertyAssertion r j l =>
      OwlEl.Activates i (.and [.oneOf j, assertedEdge r l]) (.named .bottom)
  | .sameIndividual is => ∃ j ∈ is, ∃ l ∈ is, j ≠ l ∧ OwlEl.Activates i (.oneOf j) (.oneOf l)
  | .differentIndividuals is => ∃ j ∈ is, ∃ l ∈ is, j ≠ l ∧
      OwlEl.Activates i (.and [.oneOf j, .oneOf l]) (.named .bottom)
  | .normal form => ∃ n, form = .nominal n i
  | _ => False

/-! ## A frame in which everything holds -/

namespace Frame

/-- A single element, which every class contains and every property relates to itself. -/
def full : Frame Unit where
  mirrored := true
  leads _ _ := True
  anchored := Set.univ
  absurd := ⊤
  leads_trans _ _ := trivial
  anchored_of_leads _ _ := trivial
  absurd_of_leads _ _ := trivial

/-- The property that relates everything and that every property is below. -/
def fullRole : full.TwoWay :=
  let role : full.Role :=
    { rel := fun _ _ => True
      below := Set.univ
      leads := fun _ => trivial
      lift := fun _ _ => ⟨_, le_refl _, trivial⟩ }
  ⟨role, role⟩

theorem within_fullRole (P : full.TwoWay) : P.Within fullRole :=
  ⟨⟨fun _ _ _ => trivial, Set.subset_univ _⟩, fun _ => ⟨fun _ _ _ => trivial, Set.subset_univ _⟩⟩

end Frame

open OwlEl.Frame

namespace Valuation

/-- Everything holds, and the individuals of `S` are active. -/
def full (S : Set IndividualId) : Valuation Frame.full.meanings where
  classes _ := ⊤
  properties _ := fullRole
  individuals _ := ⊤
  active := S
  sharp _ := ⟨⟨(), trivial, trivial⟩, fun _ _ _ => le_refl _⟩
  all_active := nofun

theorem role_full (r : PropertyExpr) : (full S).role r = fullRole := by
  cases r with
  | named p => rfl
  | inverseOf p => rfl

theorem role_within_full (r s : PropertyExpr) : ((full S).role r).Within ((full S).role s) := by
  rw [role_full s]
  exact within_fullRole _

theorem extension_full (e : ClassExpr) : (full S).extension e = ⊤ := by
  induction e using ClassExpr.induction with
  | named c => rfl
  | intersection operands ih =>
      exact top_le_iff.1 ((le_extension_intersection _).2 fun e he => (ih e he).ge)
  | existential r filler ih =>
      apply top_le_iff.1
      intro x _
      rw [extension_existential, ih, role_full]
      exact ⟨x, LowerSet.mem_top, trivial⟩
  | oneOf j => rfl

theorem reads_full (v : Vocabulary) : (full S).Reads v := ⟨rfl, rfl, fun _ => rfl, fun _ => rfl⟩

theorem included_full {c d : ClassExpr} :
    (full S).Included c d ↔ ∀ i, Activates i c d → i ∈ S := by
  apply and_iff_right
  rw [extension_full]
  exact le_top

theorem satisfiesNormal_full {form : NormalAxiom} :
    (full S).SatisfiesNormal form ↔ ∀ i, (Axiom.normal form).Activates i → i ∈ S := by
  cases form with
  | nominal n j =>
      simp only [SatisfiesNormal, Axiom.Activates, NormalAxiom.nominal.injEq, forall_exists_index]
      constructor
      · rintro ⟨-, hj⟩ i n' ⟨-, rfl⟩
        exact hj
      · exact fun h => ⟨rfl, h j n ⟨rfl, rfl⟩⟩
  | inclusion r s => exact iff_of_true (within_fullRole _) (by simp [Axiom.Activates])
  | composition r s t => exact iff_of_true (within_fullRole _) (by simp [Axiom.Activates])
  | subsumption a b => exact iff_of_true le_top (by simp [Axiom.Activates])
  | conjunction operands b =>
      exact iff_of_true (fun _ _ => le_top) (by simp [Axiom.Activates])
  | existsSuper a r b =>
      exact iff_of_true (fun x _ => ⟨x, LowerSet.mem_top, trivial⟩) (by simp [Axiom.Activates])
  | existsSub r a b => exact iff_of_true le_top (by simp [Axiom.Activates])
  | reflexive r => exact iff_of_true (fun _ => trivial) (by simp [Axiom.Activates])
  | range r a => exact iff_of_true trivial (by simp [Axiom.Activates])
  | functional r => exact iff_of_true trivial (by simp [Axiom.Activates])

theorem chainWithin_full (chain : List Frame.full.TwoWay) :
    Frame.full.meanings.ChainWithin chain fullRole := by
  cases chain with
  | nil => exact fun _ => trivial
  | cons last rest => exact within_fullRole _

/-- All that an axiom asks is that what it activates is active. -/
theorem satisfies_full {a : Axiom} :
    (full S).Satisfies a ↔ ∀ i, a.Activates i → i ∈ S := by
  cases a with
  | subClassOf c d => exact included_full
  | equivalentClasses cs =>
      simp only [Satisfies, Axiom.Activates, included_full]
      grind
  | disjointClasses cs =>
      simp only [Satisfies, Axiom.Activates, included_full, List.pairwise_iff_forall_sublist]
      grind
  | subPropertyOf r s =>
      exact iff_of_true (role_within_full r s) fun i hi => hi.elim
  | subPropertyChainOf chain s =>
      refine iff_of_true ?_ fun i hi => hi.elim
      rw [Satisfies, role_full]
      exact chainWithin_full _
  | equivalentProperties rs =>
      exact iff_of_true (fun r _ s _ _ => role_within_full r s) fun i hi => hi.elim
  | inverseProperties r s =>
      refine iff_of_true ⟨?_, ?_, ?_, ?_⟩ fun i hi => hi.elim <;> exact within_fullRole _
  | propertyDomain r c => exact included_full
  | propertyRange r c => exact and_iff_right trivial
  | functionalProperty r => exact iff_of_true trivial fun i hi => hi.elim
  | reflexiveProperty r =>
      refine iff_of_true (fun d => ?_) fun i hi => hi.elim
      rw [role_full]
      trivial
  | transitiveProperty r =>
      refine iff_of_true ?_ fun i hi => hi.elim
      rw [Satisfies, role_full]
      exact within_fullRole _
  | classAssertion c j => exact included_full
  | propertyAssertion r j l => exact included_full
  | negativePropertyAssertion r j l => exact included_full
  | sameIndividual is =>
      simp only [Satisfies, Axiom.Activates, included_full]
      grind
  | differentIndividuals is =>
      simp only [Satisfies, Axiom.Activates, included_full]
      grind
  | normal form => exact satisfiesNormal_full

end Valuation

/-! ## Agreement with the run -/

/-- Normalization declares a nominal class for just the individuals that one of the axioms
activates. -/
theorem Normalization.declaresNominal_iff {axioms : List Axiom} (hv : v.WellFormed)
    (hover : ∀ a ∈ axioms, a.IsOver (v.contains ·)) (htame : ∀ a ∈ axioms, a.IsTame v)
    (h : normalize axioms v = .ok forms w) :
    DeclaresNominal forms i ↔ ∃ a ∈ axioms, a.Activates i := by
  have hall : ∀ a ∈ axioms, Admits Frame.full.meanings v a :=
    fun a ha => ⟨hover a ha, fun _ => htame a ha⟩
  constructor
  · rintro ⟨n, hn⟩
    -- the activated individuals make the axioms hold, and so the normal forms
    let active : Set IndividualId := {j | ∃ a ∈ axioms, a.Activates j}
    have haxioms : ∀ a ∈ axioms, (Valuation.full active).Satisfies a :=
      fun a ha => Valuation.satisfies_full.2 fun j hj => ⟨a, ha, hj⟩
    obtain ⟨J, hagrees, -, hforms⟩ :=
      forth_normalize hv hall h (Valuation.reads_full v) haxioms
    have hi : i ∈ J.active := (hforms _ hn).2
    rw [hagrees.active] at hi
    exact hi
  · rintro ⟨a, ha, hi⟩
    -- the individuals with a nominal class make the normal forms hold, and so the axioms
    let active : Set IndividualId := {j | DeclaresNominal forms j}
    have hforms : ∀ form ∈ forms, (Valuation.full active).SatisfiesNormal form := by
      intro form hform
      apply Valuation.satisfiesNormal_full.2
      rintro j ⟨n, rfl⟩
      exact ⟨n, hform⟩
    have haxioms := back_normalize hv hall h (Valuation.reads_full w) hforms a ha
    exact Valuation.satisfies_full.1 haxioms i hi

end OwlEl
