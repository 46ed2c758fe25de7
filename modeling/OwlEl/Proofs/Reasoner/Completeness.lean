import OwlEl.Proofs.Completion.CanonicalModel
import OwlEl.Proofs.Normalization.Safety
import OwlEl.Proofs.Reasoner.Soundness

/-!
# Answers to nominal-safe axioms are complete

Nominal-safe axioms that are found consistent have a model, and what is true in every
model of them is answered: `classify_complete`. The canonical model of the derived facts
satisfies the normal forms, so it satisfies the axioms. A class is an element of it and
belongs to just the classes above it, and so does the nominal class of an individual,
which the individual stands for.
-/

namespace OwlEl.Reasoner

open Completion

variable {v w t : Vocabulary} {k : Classification} {axioms : List Axiom}
  {forms closed : OrderedSet NormalAxiom} {o : Ontology} {st : State o}

/-- The normal forms and their converses are those of nominal-safe axioms. -/
theorem Outcome.fromSafe (hv : v.WellFormed)
    (h : Outcome .default axioms v w k forms closed t o st)
    (hsafe : ∀ a ∈ axioms, a.IsSafe (.named v)) : FromSafe t forms w closed := by
  obtain ⟨hkeeps, hforms⟩ := Normalization.normalize_isSafe hv hsafe h.normalized
  exact ⟨hkeeps.wellFormed, h.mirrors hkeeps.wellFormed, hforms⟩

section

variable {config : Config} (h : Outcome config axioms v w k forms closed t o st)
  (hfrom : FromSafe t forms w closed)

include h

theorem Outcome.isSatisfiable_iff {c : ClassId} :
    k.isSatisfiable c = true ↔ ¬st.holds (.subsumer c .bottom) = true := by
  rw [← h.isSatisfiable_eq_false_iff, Bool.not_eq_false]

include hfrom

/-- The nominal class of an individual is looked up. -/
theorem Outcome.nominals_eq_some {n : ClassId} {i : IndividualId} (hn : .nominal n i ∈ forms) :
    k.nominals[i]? = some n := by
  have hlookup : ∀ {m}, .nominal m i ∈ closed → w.nominalOf[i]? = some m := fun hm =>
    hfrom.mirrors.wellFormed.member_iff.1 (hfrom.memberOf_of_nominal hm)
  have hclosed := hfrom.mirrors.keeps _ hn
  refine h.lookup_of_nominal hclosed fun m hm => ?_
  exact Option.some.inj ((hlookup hm).symm.trans (hlookup hclosed))

/-- When the axioms are found consistent, the derived facts have a canonical model. -/
theorem Outcome.exists_saturated (hconsistent : k.isConsistent = true) :
    ∃ individuals, Saturated t forms w closed (st.holds · = true) individuals := by
  obtain ⟨htop, hnominal⟩ := Classification.isConsistent_eq_true.1 hconsistent
  have ho := Ontology.indexes_of_build h.built
  have hw := hfrom.mirrors.wellFormed
  have hindividual : ∀ i : IndividualId, ∃ x : Element w (st.holds · = true),
      ∀ n, .nominal n i ∈ forms → x.1 = n := by
    intro i
    by_cases hi : ∃ n, .nominal n i ∈ forms
    · obtain ⟨n, hn⟩ := hi
      have hlookup := h.nominals_eq_some hfrom hn
      have hcontains : w.contains n = true := (ho.isOver _ (hfrom.mirrors.keeps _ hn)).1
      refine ⟨⟨n, hcontains, h.isSatisfiable_iff.1 (hnominal i n hlookup)⟩, fun m hm => ?_⟩
      rw [h.nominals_eq_some hfrom hm] at hlookup
      exact (Option.some.inj hlookup).symm
    · exact ⟨⟨.top, hw.contains_top (by decide), h.isSatisfiable_iff.1 htop⟩,
        fun n hn => absurd ⟨n, hn⟩ hi⟩
  choose individuals hindividuals using hindividual
  have huniverse : Closed w closed (InUniverse w) := closed_inUniverse ho.wellFormed ho.isOver
  exact ⟨individuals, hfrom, h.closed_holds, h.of_closed huniverse,
    h.of_closed hfrom.closed_apart, hindividuals _ _⟩

end

section Model

variable {config : Config} {individuals : IndividualId → Element w (st.holds · = true)}
  (h : Outcome config axioms v w k forms closed t o st)
  (hsaturated : Saturated t forms w closed (st.holds · = true) individuals)

include h hsaturated

/-- The canonical model is a model of the axioms. -/
theorem Outcome.isModel (hv : v.WellFormed) :
    (canonicalModel (.ofForms t forms) individuals).IsModel v axioms := by
  have hrep := h.represents.{0} hv
  have hreads := hsaturated.reads.of_extends hsaturated.mirrors.grows
  refine ⟨hreads.of_extends hrep.grows, hsaturated.hasPropertyBounds, ?_⟩
  exact hrep.back _ hreads fun a ha => hsaturated.satisfies ha

/-- What the canonical model makes true of a class is answered. -/
theorem Outcome.isSubsumedBy_of_subset {a b : ClassId}
    (ha : (Fragment.ofForms t forms).classes a) (hb : (Fragment.ofForms t forms).classes b)
    (hab : (canonicalModel (.ofForms t forms) individuals).classes a ⊆
      (canonicalModel (.ofForms t forms) individuals).classes b) :
    k.isSubsumedBy a b = true := by
  have hcontains := hsaturated.mirrors.grows.contains ha.1
  rw [Classification.isSubsumedBy_eq_true, h.answers.subsumption, h.answers.subsumption]
  by_cases hbottom : st.holds (.subsumer a .bottom) = true
  · exact .inl hbottom
  · let x : Element w (st.holds · = true) := ⟨a, hcontains, hbottom⟩
    have hx := (hsaturated.mem_classes ha (x := x)).2 (hsaturated.closed.self hcontains)
    exact .inr ((hsaturated.mem_classes hb (x := x)).1 (hab hx))

/-- What the canonical model makes true of an individual with a nominal class is answered. -/
theorem Outcome.mem_typesOf_of_mem {i : IndividualId} {n c : ClassId}
    (hn : .nominal n i ∈ forms) (hc : (Fragment.ofForms t forms).classes c)
    (hnamed : t.isAuxiliary c = .ok false)
    (hic : individuals i ∈ (canonicalModel (.ofForms t forms) individuals).classes c) :
    c ∈ k.typesOf i := by
  have hfrom := hsaturated.toFromSafe
  have hgrow := hfrom.mirrors.grows
  have hsub : k.isSubsumedBy n c = true := by
    refine h.isSubsumedBy_of_subset hsaturated (hfrom.classes_of_nominal hn) hc fun x hx => ?_
    have hx : x = individuals i := by
      have hsingle := hsaturated.satisfies hn
      simp only [Interpretation.SatisfiesNormal] at hsingle
      rwa [hsingle] at hx
    exact hx ▸ hic
  have hclass : c ∈ k.namedClasses := by
    refine h.answers.namedClasses.2 ⟨?_, hgrow.isAuxiliary hnamed⟩
    exact (Ontology.indexes_of_build h.built).classes.2 (hgrow.contains hc.1)
  apply Classification.mem_typesOf.2
  exact .inl ⟨n, h.nominals_eq_some hfrom hn, Classification.mem_subsumers.2 ⟨hclass, hsub⟩⟩

end Model

/-- The answers to nominal-safe axioms over named entities are complete, once the axioms have
been found consistent: the axioms have a model, and the classification has every inclusion of
named classes that is true in all models, and every named class that an individual with a nominal
class is in in all models. It is enough that this is so in the models of the least universe. -/
theorem classify_complete (hv : v.Reachable) (hsafe : ∀ a ∈ axioms, a.IsSafe (.named v))
    (h : classify .default false axioms v = .ok k w) (hconsistent : k.isConsistent = true) :
    (∃ (Δ : Type) (I : Interpretation Δ), I.IsModel v axioms) ∧
    (∀ a b : ClassId, v.isAuxiliary a = .ok false → v.isAuxiliary b = .ok false →
      (∀ (Δ : Type) (I : Interpretation Δ), I.IsModel v axioms → I.classes a ⊆ I.classes b) →
      k.isSubsumedBy a b = true) ∧
    ∃ forms t, Normalization.normalize axioms v = .ok forms t ∧
      ∀ (i : IndividualId) (n c : ClassId), .nominal n i ∈ forms →
        v.isAuxiliary c = .ok false →
        (∀ (Δ : Type) (I : Interpretation Δ), I.IsModel v axioms →
          I.individuals i ∈ I.classes c) →
        c ∈ k.typesOf i := by
  obtain ⟨forms, closed, t, o, st, hout⟩ := exists_outcome h
  have hfrom := hout.fromSafe hv.wellFormed hsafe
  obtain ⟨individuals, hsaturated⟩ := hout.exists_saturated hfrom hconsistent
  have hmodel := hout.isModel hsaturated hv.wellFormed
  have hvt := (hout.represents.{0} hv.wellFormed).grows
  have hclass : ∀ {c : ClassId}, v.isAuxiliary c = .ok false →
      (Fragment.ofForms t forms).classes c := by
    intro c hc
    exact (Fragment.named_le_within hfrom.wellFormed).classes (hvt.isAuxiliary hc)
  refine ⟨⟨_, _, hmodel⟩, fun a b ha hb hab => ?_, forms, t, hout.normalized,
    fun i n c hn hc hic => ?_⟩
  · exact hout.isSubsumedBy_of_subset hsaturated (hclass ha) (hclass hb) (hab _ _ hmodel)
  · exact hout.mem_typesOf_of_mem hsaturated hn (hclass hc) (hvt.isAuxiliary hc)
      (hic _ _ hmodel)

/-- A class below `∃r.{i}`, which is below another class, is found to be below that class. -/
theorem classify_complete_nominal_filler :
    ∃ (v w : Vocabulary) (r : PropertyId) (i : IndividualId) (a b : ClassId) (k : Classification),
      classify .default false [.subClassOf a (.existential (.named r) (.oneOf i)),
        .subClassOf (.existential (.named r) (.oneOf i)) b] v = .ok k w ∧
      k.isConsistent = true ∧ a ≠ b ∧ k.isSubsumedBy a b = true := by
  let v₁ := Vocabulary.initial.modifyTable fun t : NameTable .cls => t.register "A"
  let v₂ := v₁.modifyTable fun t : NameTable .cls => t.register "B"
  let v₃ := v₂.modifyTable fun t : NameTable .property => t.register "r"
  let v₄ := v₃.modifyTable fun t : NameTable .individual => t.register "i"
  have hv₁ : v₁.Reachable :=
    .register .initial (show Minting.register .cls "A" .initial = .ok ⟨2⟩ v₁ from rfl)
  have hv₂ : v₂.Reachable :=
    .register hv₁ (show Minting.register .cls "B" v₁ = .ok ⟨3⟩ v₂ from rfl)
  have hv₃ : v₃.Reachable :=
    .register hv₂ (show Minting.register .property "r" v₂ = .ok ⟨2⟩ v₃ from rfl)
  have hv₄ : v₄.Reachable :=
    .register hv₃ (show Minting.register .individual "i" v₃ = .ok ⟨0⟩ v₄ from rfl)
  let e : ClassExpr := .existential (.named ⟨2⟩) (.oneOf ⟨0⟩)
  let axioms : List Axiom := [.subClassOf (.named ⟨2⟩) e, .subClassOf e (.named ⟨3⟩)]
  have hr : (PropertyExpr.named ⟨2⟩).IsPlain (.named v₄) := ⟨rfl, by decide, by decide⟩
  have hsafe : ∀ a ∈ axioms, a.IsSafe (.named v₄) := by
    refine List.forall_mem_cons.2 ⟨⟨.named rfl, .existentialOneOf hr⟩, ?_⟩
    exact List.forall_mem_singleton.2 ⟨.existential hr .oneOf, .named rfl⟩
  have hrun : ∃ k w, classify .default false axioms v₄ = .ok k w ∧ k.isConsistent = true := by
    have hok : (match classify .default false axioms v₄ with
        | .ok k _ => k.isConsistent
        | .error _ _ => false) = true := by cbv
    split at hok
    · next k w h => exact ⟨k, w, h, hok⟩
    · exact absurd hok Bool.false_ne_true
  obtain ⟨k, w, h, hconsistent⟩ := hrun
  obtain ⟨-, hsub, -⟩ := classify_complete hv₄ hsafe h hconsistent
  refine ⟨v₄, w, ⟨2⟩, ⟨0⟩, ⟨2⟩, ⟨3⟩, k, h, hconsistent, by decide, ?_⟩
  refine hsub ⟨2⟩ ⟨3⟩ rfl rfl fun Δ I hI => ?_
  have hleft : I.classes ⟨2⟩ ⊆ I.extension e :=
    hI.satisfies (.subClassOf (.named ⟨2⟩) e) (by simp [axioms])
  have hright : I.extension e ⊆ I.classes ⟨3⟩ :=
    hI.satisfies (.subClassOf e (.named ⟨3⟩)) (by simp [axioms])
  exact hleft.trans hright

end OwlEl.Reasoner
