import OwlEl.Proofs.Reasoner.Outcome

/-!
# Answered subsumption is a preorder

Whatever the axioms and the configuration, the answers to `isSubsumedBy` are a preorder on
the classes of the final vocabulary, with the empty class below and the universal class above
all: `classify_preorder`. The derived facts are such a preorder, and the answers differ from
them only in that a class without members is below everything.
-/

namespace OwlEl

open Completion

variable {v w : Vocabulary} {k : Classification}

namespace Classification

/-- Subsumption is a preorder on the classes of the vocabulary, between the empty and the
universal class. -/
structure Ordered (k : Classification) (v : Vocabulary) : Prop where
  refl : ∀ {a : ClassId}, v.contains a = true → k.isSubsumedBy a a = true
  trans : ∀ {a b c : ClassId}, k.isSubsumedBy a b = true → k.isSubsumedBy b c = true →
    k.isSubsumedBy a c = true
  bottom : ∀ {a : ClassId}, k.isSubsumedBy .bottom a = true
  top : ∀ {a : ClassId}, v.contains a = true → k.isSubsumedBy a .top = true
  contains : ∀ {c : ClassId}, c ∈ k.namedClasses → v.contains c = true

/-- A class has no members if and only if it is below the empty class. -/
theorem isSatisfiable_eq_false_iff {a : ClassId} :
    k.isSatisfiable a = false ↔ k.isSubsumedBy a .bottom = true := by
  rw [isSatisfiable_eq_false, isSubsumedBy_eq_true, or_self]

theorem mem_equivalents {c d : ClassId} : d ∈ k.equivalents c ↔
    d ∈ k.namedClasses ∧ k.isSubsumedBy c d = true ∧ k.isSubsumedBy d c = true := by
  rw [equivalents, OrderedSet.mem_filter_iff, mem_subsumers, and_assoc]

namespace Ordered

variable (h : k.Ordered v)

include h

/-- What is below a class without members has none. -/
theorem unsatisfiable_of_below {a b : ClassId} (hab : k.isSubsumedBy a b = true)
    (hb : k.isSatisfiable b = false) : k.isSatisfiable a = false :=
  isSatisfiable_eq_false_iff.2 (h.trans hab (isSatisfiable_eq_false_iff.1 hb))

/-- Equivalence of named classes. -/
theorem equivalence :
    Equivalence fun c d : {c : ClassId // c ∈ k.namedClasses} => d.1 ∈ k.equivalents c.1 where
  refl c := mem_equivalents.2 ⟨c.2, h.refl (h.contains c.2), h.refl (h.contains c.2)⟩
  symm {c d} hcd := by
    obtain ⟨-, hcd, hdc⟩ := mem_equivalents.1 hcd
    exact mem_equivalents.2 ⟨c.2, hdc, hcd⟩
  trans {c d e} hcd hde := by
    obtain ⟨-, hcd, hdc⟩ := mem_equivalents.1 hcd
    obtain ⟨-, hde, hed⟩ := mem_equivalents.1 hde
    exact mem_equivalents.2 ⟨e.2, h.trans hcd hde, h.trans hed hdc⟩

end Ordered

end Classification

namespace Reasoner

variable {config : Config} {cancelled : Bool} {axioms : List Axiom}

/-- The answers are a preorder because the derived facts are. -/
theorem Completed.ordered {forms closed : OrderedSet NormalAxiom} {u : Vocabulary} {o : Ontology}
    {st : State o} (h : Completed config forms u w k closed o st) (hu : u.WellFormed) :
    k.Ordered w := by
  have hderived := h.derived hu
  have hsub : ∀ {a b}, k.isSubsumedBy a b = true ↔
      st.holds (.subsumer a .bottom) = true ∨ st.holds (.subsumer a b) = true :=
    h.isSubsumedBy_eq_true_iff
  refine ⟨fun ha => ?_, fun {a b c} hab hbc => ?_, ?_, fun ha => ?_, fun hc => ?_⟩
  · exact hsub.2 (.inr (hderived.closed.self ha))
  · rcases hsub.1 hab with ha | hab
    · exact hsub.2 (.inl ha)
    · exact hsub.2 ((hsub.1 hbc).imp (hderived.trans hab) (hderived.trans hab))
  · exact hsub.2 (.inl (hderived.closed.self hderived.bottom))
  · exact hsub.2 (.inr (hderived.closed.top ha))
  · exact (Ontology.indexes_of_build h.built).classes.1 (h.answers.namedClasses.1 hc).1

/-- On the classes of the final vocabulary subsumption is reflexive and transitive, with the
empty class below and the universal class above all. So nothing below a class without members
has members, no class has any if the universal class has none, and equivalence of named classes
is an equivalence relation. -/
theorem classify_preorder (hv : v.Reachable) (h : classify config cancelled axioms v = .ok k w) :
    (∀ a : ClassId, w.contains a = true → k.isSubsumedBy a a = true) ∧
    (∀ a b c : ClassId, k.isSubsumedBy a b = true → k.isSubsumedBy b c = true →
      k.isSubsumedBy a c = true) ∧
    (∀ a : ClassId, w.contains a = true →
      k.isSubsumedBy .bottom a = true ∧ k.isSubsumedBy a .top = true) ∧
    (∀ a b : ClassId, k.isSubsumedBy a b = true → k.isSatisfiable b = false →
      k.isSatisfiable a = false) ∧
    (k.isSatisfiable .top = false → ∀ a : ClassId, w.contains a = true →
      k.isSatisfiable a = false) ∧
    Equivalence fun c d : {c : ClassId // c ∈ k.namedClasses} => d.1 ∈ k.equivalents c.1 := by
  obtain ⟨forms, closed, u, o, st, hout⟩ := exists_outcome h
  have hordered := hout.ordered (hout.represents.{0} hv.wellFormed).wellFormed
  refine ⟨fun a ha => hordered.refl ha, fun a b c => hordered.trans, fun a ha => ?_,
    fun a b => hordered.unsatisfiable_of_below, fun htop a ha => ?_, hordered.equivalence⟩
  · exact ⟨hordered.bottom, hordered.top ha⟩
  · exact hordered.unsatisfiable_of_below (hordered.top ha) htop

/-- A class below a nominal class, which is below another class because a reflexive property
loops, is below that class. -/
theorem classify_preorder_loop :
    ∃ (w : Vocabulary) (r : PropertyId) (i : IndividualId) (a b n : ClassId) (k : Classification),
      classify .default false [.subClassOf a (.oneOf i), .reflexiveProperty r,
        .subClassOf (.existential r (.oneOf i)) b] .sample = .ok k w ∧
      k.isSubsumedBy a n = true ∧ k.isSubsumedBy n b = true ∧ k.isSubsumedBy b a = false ∧
      k.isSubsumedBy a b = true := by
  let axioms : List Axiom :=
    [.subClassOf (.named ⟨2⟩) (.oneOf ⟨0⟩), .reflexiveProperty (.named ⟨2⟩),
      .subClassOf (.existential (.named ⟨2⟩) (.oneOf ⟨0⟩)) (.named ⟨3⟩)]
  have hyields : Minting.yields (classify .default false axioms)
      (fun k => k.isSubsumedBy ⟨2⟩ ⟨5⟩ && k.isSubsumedBy ⟨5⟩ ⟨3⟩ && !k.isSubsumedBy ⟨3⟩ ⟨2⟩)
      .sample = true := by cbv
  obtain ⟨k, w, h, hanswers⟩ := Minting.exists_ok_of_yields hyields
  simp only [Bool.and_eq_true, Bool.not_eq_true'] at hanswers
  obtain ⟨⟨han, hnb⟩, hba⟩ := hanswers
  obtain ⟨-, htrans, -⟩ := classify_preorder Vocabulary.reachable_sample h
  exact ⟨w, ⟨2⟩, ⟨0⟩, ⟨2⟩, ⟨3⟩, ⟨5⟩, k, h, han, hnb, hba, htrans _ _ _ han hnb⟩

end Reasoner

end OwlEl
