import OwlEl.Proofs.Frame.Activation
import OwlEl.Proofs.Reasoner.Taxonomy

/-!
# Types and instances

The types of an individual are the subsumers of its nominal class, and the instances of a class are
found by going through the nominal classes. So the two agree for an individual for which a nominal
class is declared, and such an individual has the types that everything has. An individual without
a nominal class has the universal class as its only type, and is an instance of no class. So
answers about an individual are coherent (`Realizes`) just for those that the axioms activate:
`classify_realizes_iff`.
-/

namespace OwlEl

/-- The individual is an instance of just its types, and has the types that everything has. -/
def Classification.Realizes (k : Classification) (i : IndividualId) : Prop :=
  (∀ c ∈ k.namedClasses, c ∈ k.typesOf i ↔ i ∈ k.instancesOf c) ∧
    ∀ c ∈ k.subsumers .top, c ∈ k.typesOf i

namespace Reasoner

open Completion

variable {v w : Vocabulary} {config : Config} {cancelled : Bool} {k : Classification}
  {axioms : List Axiom} {i : IndividualId} {c : ClassId}

section Completed

variable {forms closed : OrderedSet NormalAxiom} {u : Vocabulary} {o : Ontology} {st : State o}
  (h : Completed config forms u w k closed o st)

include h

/-- The individuals with a nominal class are those for which one is declared. -/
theorem Completed.exists_lookup_iff (hu : u.WellFormed) :
    (∃ n, k.nominals[i]? = some n) ↔ DeclaresNominal forms i := by
  constructor
  · rintro ⟨n, hn⟩
    exact ⟨n, (h.nominal_iff hu).1 (h.nominal_of_lookup hn)⟩
  · rintro ⟨n, hn⟩
    have hindexed := (Ontology.indexes_of_build h.built).nominals.2 ((h.nominal_iff hu).2 hn)
    rw [h.answers.nominals]
    exact exists_getElem?_ofList hindexed

/-- With a nominal class, an individual is an instance of just its types. -/
theorem Completed.mem_typesOf_iff (hu : u.WellFormed) (hi : DeclaresNominal forms i)
    (hc : c ∈ k.namedClasses) : c ∈ k.typesOf i ↔ i ∈ k.instancesOf c := by
  obtain ⟨n, hn⟩ := (h.exists_lookup_iff hu).2 hi
  rw [Classification.mem_typesOf, Classification.mem_instancesOf]
  constructor
  · rintro (⟨m, hm, hsub⟩ | ⟨hnone, -⟩)
    · exact ⟨m, hm, (Classification.mem_subsumers.1 hsub).2⟩
    · exact absurd (hn.symm.trans hnone) (by simp)
  · rintro ⟨m, hm, hsub⟩
    exact .inl ⟨m, hm, Classification.mem_subsumers.2 ⟨hc, hsub⟩⟩

/-- With a nominal class, an individual has the types that everything has. -/
theorem Completed.mem_typesOf_of_top (hu : u.WellFormed) (hi : DeclaresNominal forms i)
    (hc : c ∈ k.subsumers .top) : c ∈ k.typesOf i := by
  obtain ⟨n, hn⟩ := (h.exists_lookup_iff hu).2 hi
  have hordered := h.ordered hu
  have hcontains : w.contains n = true := by
    have hover := (Ontology.indexes_of_build h.built).isOver _ (h.nominal_of_lookup hn)
    exact hover.1
  obtain ⟨hnamed, htop⟩ := Classification.mem_subsumers.1 hc
  apply Classification.mem_typesOf.2
  exact .inl ⟨n, hn, Classification.mem_subsumers.2
    ⟨hnamed, hordered.trans (hordered.top hcontains) htop⟩⟩

/-- Without a nominal class, an individual has one type and is an instance of nothing. -/
theorem Completed.unrealized (hu : u.WellFormed) (hi : ¬DeclaresNominal forms i) :
    (∀ c, c ∈ k.typesOf i ↔ c = .top) ∧ ∀ c, i ∉ k.instancesOf c := by
  have hnone : k.nominals[i]? = none := by
    rw [Option.eq_none_iff_forall_ne_some]
    exact fun n hn => hi ((h.exists_lookup_iff hu).1 ⟨n, hn⟩)
  constructor
  · intro c
    rw [Classification.mem_typesOf, hnone]
    simp
  · intro c hc
    obtain ⟨n, hn, -⟩ := Classification.mem_instancesOf.1 hc
    rw [hnone] at hn
    exact absurd hn (by simp)

/-- Being named, the universal class is a type of every individual, but has only those with a
nominal class for instances. -/
theorem Completed.realizes_iff (hu : u.WellFormed) : k.Realizes i ↔ DeclaresNominal forms i := by
  constructor
  · rintro ⟨hagree, -⟩
    by_contra hi
    obtain ⟨htypes, hinstances⟩ := h.unrealized hu hi
    have hw := (h.mirrors.{0} hu).wellFormed
    have htop := h.mem_namedClasses (hw.top .cls (by decide))
    exact hinstances .top ((hagree .top htop).1 ((htypes .top).2 rfl))
  · intro hi
    exact ⟨fun c hc => h.mem_typesOf_iff hu hi hc, fun c hc => h.mem_typesOf_of_top hu hi hc⟩

end Completed

/-- The individuals with a nominal class, read off the axioms of the call. -/
theorem Outcome.declaresNominal_iff {forms closed : OrderedSet NormalAxiom} {u : Vocabulary}
    {o : Ontology} {st : State o} (h : Outcome config axioms v w k forms closed u o st)
    (hv : v.WellFormed) (htame : ∀ a ∈ axioms, a.IsTame v) :
    DeclaresNominal forms i ↔ ∃ a ∈ axioms, a.Activates i := by
  have hnormalized := h.normalized
  split at hnormalized
  · exact Normalization.declaresNominal_iff hv h.isOver htame hnormalized
  · have hmem : ∀ {a : Axiom}, a ∈ axioms ↔ ∃ b ∈ forms, .normal b = a :=
      requireNormal_eq_ok hnormalized.1
    constructor
    · rintro ⟨n, hn⟩
      exact ⟨.normal (.nominal n i), hmem.2 ⟨_, hn, rfl⟩, n, rfl⟩
    · rintro ⟨a, ha, hi⟩
      obtain ⟨form, hform, rfl⟩ := hmem.1 ha
      obtain ⟨n, rfl⟩ := hi
      exact ⟨n, hform⟩

/-- The answers about an individual are coherent if and only if a nominal class is declared for
it, and this is read off tame axioms. Otherwise the universal class is the only type of the
individual, which is an instance of no class. -/
theorem classify_realizes_iff (hv : v.Reachable)
    (h : classify config cancelled axioms v = .ok k w) :
    ∃ (forms : OrderedSet NormalAxiom) (u : Vocabulary),
      (if config.normalize then Normalization.normalize axioms v = .ok forms u
        else requireNormal axioms = .ok forms ∧ v = u) ∧
      classifyNormal config cancelled forms u = .ok k w ∧
      (∀ i, k.Realizes i ↔ DeclaresNominal forms i) ∧
      (∀ i, ¬DeclaresNominal forms i →
        (∀ c, c ∈ k.typesOf i ↔ c = .top) ∧ ∀ c, i ∉ k.instancesOf c) ∧
      ((∀ a ∈ axioms, a.IsTame v) →
        ∀ i, DeclaresNominal forms i ↔ ∃ a ∈ axioms, a.Activates i) := by
  obtain ⟨hover, forms, u, hnormalized, hcall⟩ := classify_eq_ok.1 h
  obtain ⟨closed, o, st, hcompleted⟩ := exists_completed hcall
  have hout : Outcome config axioms v w k forms closed u o st := ⟨hcompleted, hover, hnormalized⟩
  have hu := (hout.represents.{0} hv.wellFormed).wellFormed
  refine ⟨forms, u, hnormalized, hcall, ?_, ?_, ?_⟩
  · exact fun i => hcompleted.realizes_iff hu
  · exact fun i hi => hcompleted.unrealized hu hi
  · exact fun htame i => hout.declaresNominal_iff hv.wellFormed htame

/-- The assertion that the individual is in `B` declares a nominal class for it, so that it is also
in `A`, which everything is in. -/
theorem classify_realizes_iff_asserted :
    ∃ (k : Classification) (w : Vocabulary),
      classify .default false [.subClassOf (.named .top) (.named ⟨2⟩),
        .classAssertion (.named ⟨3⟩) ⟨0⟩] .sample = .ok k w ∧
      k.Realizes ⟨0⟩ ∧ (⟨2⟩ : ClassId) ∈ k.typesOf ⟨0⟩ := by
  let axioms : List Axiom :=
    [.subClassOf (.named .top) (.named ⟨2⟩), .classAssertion (.named ⟨3⟩) ⟨0⟩]
  have hyields : Minting.yields (classify .default false axioms)
      (fun k => (k.subsumers .top).contains ⟨2⟩) .sample = true := by cbv
  obtain ⟨k, w, h, htop⟩ := Minting.exists_ok_of_yields hyields
  obtain ⟨forms, u, -, -, hrealizes, -, hdeclares⟩ :=
    classify_realizes_iff Vocabulary.reachable_sample h
  have htame : ∀ a ∈ axioms, a.IsTame .sample := by
    intro a ha
    rcases List.mem_pair.1 ha with rfl | rfl
    · exact fun hnominal => absurd hnominal (by decide)
    · exact ⟨ClassExpr.isOver_named.2 (by rfl), by rfl⟩
  have hactivates : ∃ a ∈ axioms, a.Activates ⟨0⟩ :=
    ⟨_, List.mem_cons_of_mem _ (List.mem_singleton_self _),
      .mention ⟨rfl, rfl⟩ rfl (.inl (by decide))⟩
  have hrealized := (hrealizes ⟨0⟩).2 ((hdeclares htame ⟨0⟩).2 hactivates)
  exact ⟨k, w, h, hrealized, hrealized.2 _ (Std.ExtTreeSet.contains_iff_mem.1 htop)⟩

/-- The assertion that the individual is in the universal class is dropped, and no nominal class is
declared. So the individual is not among the instances of the universal class, which is its type,
and `A`, which everything is in, is not its type. -/
theorem classify_leaves_unrealized :
    ∃ (k : Classification) (w : Vocabulary),
      classify .default false [.subClassOf (.named .top) (.named ⟨2⟩),
        .classAssertion (.named .top) ⟨0⟩] .sample = .ok k w ∧
      Vocabulary.sample.Reachable ∧ Vocabulary.sample.contains (⟨0⟩ : IndividualId) = true ∧
      .top ∈ k.namedClasses ∧ .top ∈ k.typesOf ⟨0⟩ ∧ ⟨0⟩ ∉ k.instancesOf .top ∧
      ⟨2⟩ ∈ k.subsumers .top ∧ ⟨2⟩ ∉ k.typesOf ⟨0⟩ := by
  have hyields : Minting.yields
      (classify .default false [.subClassOf (.named .top) (.named ⟨2⟩),
        .classAssertion (.named .top) ⟨0⟩])
      (fun k => k.namedClasses.contains .top && (k.typesOf ⟨0⟩).contains .top &&
        !(k.instancesOf .top).contains ⟨0⟩ && (k.subsumers .top).contains ⟨2⟩ &&
        !(k.typesOf ⟨0⟩).contains ⟨2⟩) .sample = true := by cbv
  obtain ⟨k, w, h, hanswers⟩ := Minting.exists_ok_of_yields hyields
  simp only [Bool.and_eq_true, Bool.not_eq_true', ← Bool.not_eq_true,
    Std.ExtTreeSet.contains_iff_mem, List.contains_iff_mem] at hanswers
  obtain ⟨⟨⟨⟨hnamed, htype⟩, hinstance⟩, hsubsumer⟩, hmissed⟩ := hanswers
  exact ⟨k, w, h, Vocabulary.reachable_sample, by rfl, hnamed, htype, hinstance, hsubsumer, hmissed⟩

end Reasoner

end OwlEl
