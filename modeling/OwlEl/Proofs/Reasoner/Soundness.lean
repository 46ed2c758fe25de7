import OwlEl.Proofs.Reasoner.Outcome

/-!
# Answers are sound

What a classification answers is true in every reading of the vocabulary that satisfies
the axioms: `classify_sound`. The reading extends to all that the call mints, so that it
satisfies the axioms of the ontology. The facts that it makes true are then closed under
the completion rules, hence hold all that has been derived. CR-8 is sound because what a
class with members reaches has members, and a nominal class has only one.
-/

namespace OwlEl

universe u

open Completion

variable {Δ : Type u} {J : Interpretation Δ} {v w : Vocabulary} {k : Classification}

/-! ## Derived facts -/

/-- What a fact says is true. -/
def Interpretation.Entails (J : Interpretation Δ) : Fact → Prop
  | .subsumer x a => J.classes x ⊆ J.classes a
  | .edge r x y => ∀ d ∈ J.classes x, ∃ e, J.properties r d e ∧ e ∈ J.classes y

/-- What edges lead to from a class with members has members. -/
theorem Interpretation.nonempty_of_reflTransGen {x y : ClassId}
    (hxy : Relation.ReflTransGen (Leads J.Entails) x y) (hx : (J.classes x).Nonempty) :
    (J.classes y).Nonempty := by
  induction hxy with
  | refl => exact hx
  | tail _ hbc ih =>
      obtain ⟨r, hr⟩ := hbc
      obtain ⟨d, hd⟩ := ih
      obtain ⟨e, -, he⟩ := hr d hd
      exact ⟨e, he⟩

section Closed

variable {axioms : OrderedSet NormalAxiom} (hall : ∀ a ∈ axioms, J.SatisfiesNormal a)

include hall

theorem Interpretation.classes_of_isNominal {n : ClassId} (hn : IsNominal axioms n) :
    ∃ e, J.classes n = {e} := by
  obtain ⟨i, hi⟩ := hn
  exact ⟨J.individuals i, hall _ hi⟩

/-- Of two classes below a nominal class the one is within the other if that has members. -/
theorem Interpretation.subset_of_isNominal {n x y : ClassId} (hn : IsNominal axioms n)
    (hx : J.classes x ⊆ J.classes n) (hy : J.classes y ⊆ J.classes n)
    (hmember : (J.classes y).Nonempty) : J.classes x ⊆ J.classes y := by
  intro d hd
  obtain ⟨e, he⟩ := hmember
  obtain ⟨m, hm⟩ := classes_of_isNominal hall hn
  have hdm := hx hd
  have hem := hy he
  rw [hm, Set.mem_singleton_iff] at hdm hem
  rwa [hdm, ← hem]

theorem Interpretation.nonempty_of_reaches {x y : ClassId} (hxy : Reaches axioms J.Entails x y)
    (hx : (J.classes x).Nonempty) : (J.classes y).Nonempty := by
  have hnominal : ∀ {n}, IsNominal axioms n → (J.classes n).Nonempty := by
    intro n hn
    obtain ⟨e, he⟩ := classes_of_isNominal hall hn
    rw [he]
    exact Set.singleton_nonempty e
  rcases hxy with rfl | hy | hxy | ⟨n, hn, hny⟩
  · exact hx
  · exact hnominal hy
  · exact nonempty_of_reflTransGen hxy.to_reflTransGen hx
  · exact nonempty_of_reflTransGen hny.to_reflTransGen (hnominal hn)

theorem Interpretation.properties_of_above {r s : PropertyId} (hrs : Above axioms r s) {d e : Δ}
    (hde : J.properties r d e) : J.properties s d e := by
  induction hrs with
  | refl => exact hde
  | tail _ hst ih => exact hall _ hst d e ih

/-- The facts that a model makes true are closed under the rules. -/
theorem Interpretation.closed_entails (hbounds : J.HasBounds) : Closed v axioms J.Entails where
  self _ := Set.Subset.refl _
  top {x} _ := by
    show J.classes x ⊆ J.classes .top
    rw [hbounds.top]
    exact Set.subset_univ _
  reflexive hr _ := fun d hd => ⟨d, hall _ hr d, hd⟩
  inclusion hx hab := hx.trans (hall _ hab)
  conjunction hx hb := fun d hd => hall _ hb d fun a ha => hx a ha hd
  existsSuper hx hab := fun d hd => hall _ hab d (hx hd)
  existsSub hxy hy hrs hab := fun d hd => by
    obtain ⟨e, hde, he⟩ := hxy d hd
    exact hall _ hab d e (properties_of_above hall hrs hde) (hy he)
  hierarchy hxy hrs := fun d hd => by
    obtain ⟨e, hde, he⟩ := hxy d hd
    exact ⟨e, properties_of_above hall hrs hde, he⟩
  composition hxy hyz ht := fun d hd => by
    obtain ⟨e, hde, he⟩ := hxy d hd
    obtain ⟨e', hee', he'⟩ := hyz e he
    exact ⟨e', hall _ ht d e e' hde hee', he'⟩
  bottom hxy hy := fun d hd => by
    obtain ⟨e, -, he⟩ := hxy d hd
    have hnone : e ∈ J.classes .bottom := hy he
    rw [hbounds.bottom] at hnone
    exact absurd hnone (Set.notMem_empty e)
  nominal hn hx hy hxy ha := fun d hd =>
    ha (subset_of_isNominal hall hn hx hy (nonempty_of_reaches hall hxy ⟨d, hd⟩) hd)

end Closed

/-! ## Answers -/

namespace Reasoner

variable {config : Config} {cancelled : Bool} {axioms : List Axiom} {I : Interpretation Δ}
  {forms closed : OrderedSet NormalAxiom} {t : Vocabulary} {o : Ontology} {st : State o}

/-- A model of the axioms extends to one of the axioms of the ontology. -/
theorem Outcome.exists_model (hv : v.WellFormed)
    (h : Outcome config axioms v w k forms closed t o st) (hI : I.Reads v)
    (hall : ∀ a ∈ axioms, I.Satisfies a) :
    ∃ J : Interpretation Δ,
      I.AgreesOn J (v.contains ·) ∧ J.Reads w ∧ ∀ a ∈ closed, J.SatisfiesNormal a := by
  have hrep := h.represents.{u} hv
  have hmirrors := h.mirrors.{u} hrep.wellFormed
  obtain ⟨J, hIJ, hJ, hforms⟩ := hrep.forth I hI hall
  obtain ⟨K, hJK, hK⟩ := hmirrors.reading J hJ
  refine ⟨K, hIJ.trans_extends hJK hrep.grows, hK, hmirrors.follows K hK fun a ha => ?_⟩
  exact (hJK.satisfiesNormal_iff (hrep.isOver a ha)).2 (hforms a ha)

/-- A model of the axioms of the ontology makes all derived facts true. -/
theorem Outcome.entails (h : Outcome config axioms v w k forms closed t o st)
    (hJ : J.Reads w) (hall : ∀ a ∈ closed, J.SatisfiesNormal a) {f : Fact}
    (hf : st.holds f = true) : J.Entails f :=
  h.of_closed (Interpretation.closed_entails hall hJ.bounds) hf

section Model

variable (h : Outcome config axioms v w k forms closed t o st) (hJ : J.Reads w)
  (hmodel : ∀ a ∈ closed, J.SatisfiesNormal a)

include h hJ hmodel

theorem Outcome.classes_eq_empty {a : ClassId} (ha : k.isSatisfiable a = false) :
    J.classes a = ∅ := by
  have hbottom := h.answers.subsumption.1 (Classification.isSatisfiable_eq_false.1 ha)
  have hsub : J.classes a ⊆ J.classes .bottom := h.entails hJ hmodel hbottom
  rwa [hJ.bounds.bottom, Set.subset_empty_iff] at hsub

theorem Outcome.classes_subset {a b : ClassId} (hab : k.isSubsumedBy a b = true) :
    J.classes a ⊆ J.classes b := by
  rcases Classification.isSubsumedBy_eq_true.1 hab with hbottom | hab
  · rw [h.classes_eq_empty hJ hmodel (Classification.isSatisfiable_eq_false.2 hbottom)]
    exact Set.empty_subset _
  · exact h.entails hJ hmodel (h.answers.subsumption.1 hab)

omit hJ in
theorem Outcome.classes_nominal {i : IndividualId} {n : ClassId}
    (hn : k.nominals[i]? = some n) : J.classes n = {J.individuals i} := by
  rw [h.answers.nominals] at hn
  exact hmodel _ ((Ontology.indexes_of_build h.built).nominals.1 (mem_of_getElem?_ofList hn))

theorem Outcome.mem_classes_of_nominal {i : IndividualId} {n c : ClassId}
    (hn : k.nominals[i]? = some n) (hsub : k.isSubsumedBy n c = true) :
    J.individuals i ∈ J.classes c := by
  refine h.classes_subset hJ hmodel hsub ?_
  rw [h.classes_nominal hmodel hn]
  exact Set.mem_singleton _

theorem Outcome.mem_classes {i : IndividualId} {c : ClassId}
    (hic : c ∈ k.typesOf i ∨ i ∈ k.instancesOf c) : J.individuals i ∈ J.classes c := by
  rw [Classification.mem_typesOf, Classification.mem_instancesOf] at hic
  rcases hic with (⟨n, hn, hc⟩ | ⟨-, rfl⟩) | ⟨n, hn, hsub⟩
  · exact h.mem_classes_of_nominal hJ hmodel hn (Classification.mem_subsumers.1 hc).2
  · rw [hJ.bounds.top]
    exact Set.mem_univ _
  · exact h.mem_classes_of_nominal hJ hmodel hn hsub

omit hJ in
theorem Outcome.properties_of_superProperties {r s : PropertyId} (hrs : s ∈ k.superProperties r)
    {x y : Δ} (hxy : J.properties r x y) : J.properties s x y := by
  have habove := (Classification.mem_superProperties.1 hrs).1
  rw [h.answers.propertiesAbove] at habove
  have habove := ((Ontology.indexes_of_build h.built).propertiesAbove.1 habove).2
  exact Interpretation.properties_of_above hmodel habove hxy

/-- The domain of a model is not empty, nor are the classes that hold an individual. -/
theorem Outcome.isConsistent : k.isConsistent = true := by
  have hsatisfiable : ∀ {c : ClassId} {x : Δ}, x ∈ J.classes c → k.isSatisfiable c = true := by
    intro c x hx
    by_contra hc
    rw [h.classes_eq_empty hJ hmodel (Bool.eq_false_iff.2 hc)] at hx
    exact Set.notMem_empty x hx
  refine Classification.isConsistent_eq_true.2 ⟨?_, fun i n hn => ?_⟩
  · refine hsatisfiable (x := J.individuals .bottom) ?_
    rw [hJ.bounds.top]
    exact Set.mem_univ _
  · refine hsatisfiable (x := J.individuals i) ?_
    rw [h.classes_nominal hmodel hn]
    exact Set.mem_singleton _

end Model

/-- What a classification answers is true in every model of the axioms, and it finds the axioms
consistent if there is one. The universal and the empty property need no more of their meaning
here than to be their own converses. -/
theorem classify_sound (hv : v.Reachable) (h : classify config cancelled axioms v = .ok k w)
    (I : Interpretation Δ) (hI : I.Reads v) (hall : ∀ a ∈ axioms, I.Satisfies a) :
    (∀ a b : ClassId, v.contains a = true → v.contains b = true → k.isSubsumedBy a b = true →
      I.classes a ⊆ I.classes b) ∧
    (∀ a : ClassId, v.contains a = true → k.isSatisfiable a = false → I.classes a = ∅) ∧
    (∀ (r : PropertyId) (a y : ClassId), v.contains r = true → v.contains a = true →
      v.contains y = true → y ∈ k.successors r a →
      I.classes a ⊆ I.extension (.existential (.named r) (.named y))) ∧
    (∀ (i : IndividualId) (c : ClassId), v.contains i = true → v.contains c = true →
      c ∈ k.typesOf i ∨ i ∈ k.instancesOf c → I.individuals i ∈ I.classes c) ∧
    (∀ r s : PropertyId, v.contains r = true → v.contains s = true → s ∈ k.superProperties r →
      ∀ x y, I.properties r x y → I.properties s x y) ∧
    k.isConsistent = true := by
  obtain ⟨forms, closed, t, o, st, hout⟩ := exists_outcome h
  obtain ⟨J, hIJ, hJ, hmodel⟩ := hout.exists_model hv.wellFormed hI hall
  refine ⟨fun a b ha hb hab => ?_, fun a ha hsat => ?_, fun r a y hr ha hy hedge => ?_,
    fun i c hi hc hic => ?_, fun r s hr hs hrs x y hxy => ?_, hout.isConsistent hJ hmodel⟩
  · rw [← hIJ.classes a ha, ← hIJ.classes b hb]
    exact hout.classes_subset hJ hmodel hab
  · rw [← hIJ.classes a ha]
    exact hout.classes_eq_empty hJ hmodel hsat
  · intro d hd
    rw [← hIJ.classes a ha] at hd
    obtain ⟨e, hde, he⟩ := hout.entails hJ hmodel (hout.answers.successors.1 hedge) d hd
    rw [hIJ.properties r hr] at hde
    rw [hIJ.classes y hy] at he
    exact ⟨e, hde, he⟩
  · rw [← hIJ.classes c hc, ← hIJ.individuals i hi]
    exact hout.mem_classes hJ hmodel hic
  · rw [← hIJ.properties r hr] at hxy
    rw [← hIJ.properties s hs]
    exact hout.properties_of_superProperties hmodel hrs hxy

/-- The assertion `A(i)` has a model in which `B` is empty, so a classification of it finds the
assertion consistent and does not include `A` in `B`. -/
theorem classify_sound_assertion :
    ∃ (v w : Vocabulary) (i : IndividualId) (a b : ClassId) (k : Classification),
      classify .default false [.classAssertion (.named a) i] v = .ok k w ∧
      k.isConsistent = true ∧ k.isSubsumedBy a b = false := by
  let v₁ := Vocabulary.initial.modifyTable fun t : NameTable .cls => t.register "A"
  let v₂ := v₁.modifyTable fun t : NameTable .cls => t.register "B"
  let v₃ := v₂.modifyTable fun t : NameTable .individual => t.register "i"
  have hv₁ : v₁.Reachable :=
    .register .initial (show Minting.register .cls "A" .initial = .ok ⟨2⟩ v₁ from rfl)
  have hv₂ : v₂.Reachable :=
    .register hv₁ (show Minting.register .cls "B" v₁ = .ok ⟨3⟩ v₂ from rfl)
  have hv₃ : v₃.Reachable :=
    .register hv₂ (show Minting.register .individual "i" v₂ = .ok ⟨0⟩ v₃ from rfl)
  have hok : Minting.succeeds
      (classify .default false [.classAssertion (.named ⟨2⟩) ⟨0⟩]) v₃ = true := by cbv
  obtain ⟨k, w, h⟩ := Minting.exists_ok_of_succeeds hok
  let I : Interpretation Unit :=
    ⟨fun c => {_x | c ≠ .bottom ∧ c ≠ ⟨3⟩}, fun _ _ _ => True, fun _ => ()⟩
  have hI : I.Reads v₃ := by
    refine ⟨⟨?_, ?_⟩, fun hc => ?_, fun _ _ _ => Iff.rfl⟩
    · ext x
      simp [I, Id.top, Id.bottom]
    · ext x
      simp [I]
    · simp [v₃, v₂, v₁, Vocabulary.initial] at hc
  have hall : ∀ a ∈ [Axiom.classAssertion (.named ⟨2⟩) ⟨0⟩], I.Satisfies a := by
    refine List.forall_mem_singleton.2 ?_
    show (⟨2⟩ : ClassId) ≠ .bottom ∧ (⟨2⟩ : ClassId) ≠ ⟨3⟩
    decide
  obtain ⟨hsub, -, -, -, -, hconsistent⟩ := classify_sound hv₃ h I hI hall
  refine ⟨v₃, w, ⟨0⟩, ⟨2⟩, ⟨3⟩, k, h, hconsistent, ?_⟩
  rw [← Bool.not_eq_true]
  intro hab
  have hmem : () ∈ I.classes ⟨2⟩ := by
    show (⟨2⟩ : ClassId) ≠ .bottom ∧ (⟨2⟩ : ClassId) ≠ ⟨3⟩
    decide
  exact (hsub ⟨2⟩ ⟨3⟩ rfl rfl hab hmem).2 rfl

end Reasoner

end OwlEl
