import OwlEl.Proofs.Reasoner.Admission

/-!
# Building an ontology

An ontology is built from the axioms that are all well-formed and over the vocabulary; otherwise
the first axiom that is not is reported, and of what it mentions the first unknown entity. What is
built is a copy of the axioms (`Ontology.Copies`): the tables hold at every key just the axioms
that they are for, the signatures stand beside the axioms, and the classes and properties are those
of the vocabulary.
-/

namespace OwlEl

/-! ## Signatures -/

namespace Signature

variable {s t : Signature} {e : Entity}

theorem mem_entities : e ∈ s.entities ↔ (∃ c ∈ s.classes, .ofId c = e) ∨
    (∃ r ∈ s.properties, .ofId r = e) ∨ ∃ i ∈ s.individuals, .ofId i = e := by
  simp only [entities, List.mem_append, List.mem_map, Std.ExtTreeSet.mem_toList, or_assoc]

theorem mem_entities_union :
    e ∈ (s.union t).entities ↔ e ∈ s.entities ∨ e ∈ t.entities := by
  simp only [mem_entities, union, Std.ExtTreeSet.mem_union_iff, or_and_right, exists_or]
  grind

/-- The entities of all signatures together. -/
theorem mem_entities_foldl {signatures : List Signature} :
    e ∈ (signatures.foldl .union s).entities ↔
      e ∈ s.entities ∨ ∃ t ∈ signatures, e ∈ t.entities := by
  induction signatures generalizing s with
  | nil => simp
  | cons t signatures ih =>
      rw [List.foldl_cons, ih, mem_entities_union]
      simp only [List.mem_cons, exists_eq_or_imp, or_assoc]

end Signature

/-! ## Copies -/

namespace Ontology

variable {v : Vocabulary} {axioms : OrderedSet NormalAxiom} {o : Ontology} {fault : Fault}

/-- The ontology holds the axioms, what they mention and what the vocabulary contains, and its
tables hold the axioms. -/
structure Copies (o : Ontology) (v : Vocabulary) (axioms : OrderedSet NormalAxiom) : Prop
    extends o.Tabulates axioms where
  axioms_eq : o.axioms = axioms.toList
  signatures_eq : o.signatures = o.axioms.map NormalAxiom.signature
  signature : ∀ e, e ∈ o.signature.entities ↔ ∃ s ∈ o.signatures, e ∈ s.entities
  classes : ∀ c : ClassId, c ∈ o.classes ↔ v.contains c = true
  classes_ascending : IsAscending o.classes
  properties : ∀ r : PropertyId, r ∈ o.properties ↔ v.contains r = true
  properties_ascending : IsAscending o.properties

theorem copies_of_build (h : build v axioms = .ok o) : o.Copies v axioms := by
  obtain ⟨haccept, rfl⟩ := build_eq_ok.1 h
  have hover : ∀ a ∈ axioms, a.IsOver (v.contains ·) := fun a ha => (haccept a ha).2
  exact {
    toTabulates := tabulates_ofAxioms fun a ha => (haccept a ha).1
    axioms_eq := rfl
    signatures_eq := rfl
    signature := fun e => Signature.mem_entities_foldl.trans (or_iff_right List.not_mem_nil)
    classes := fun c => mem_classes hover
    classes_ascending := isAscending_toList _
    properties := fun r => mem_properties hover
    properties_ascending := isAscending_toList _ }

/-- An ontology is built if and only if all axioms are well-formed and mention only what the
vocabulary contains. Otherwise the first axiom in their order that is not so is reported: as
malformed if it is, and else with the first of the entities that it mentions and the vocabulary
does not contain. What is built is a copy of the axioms. -/
theorem build_faithful (v : Vocabulary) (axioms : OrderedSet NormalAxiom) :
    ((∃ o, build v axioms = .ok o) ↔
      ∀ a ∈ axioms, a.IsWellFormed ∧ ∀ e, a.Mentions e → v.contains e = true) ∧
    (∀ fault, build v axioms = .error fault ↔
      ∃ before a after, axioms.toList = before ++ a :: after ∧
        (∀ b ∈ before, b.IsWellFormed ∧ ∀ e, b.Mentions e → v.contains e = true) ∧
        Rejects v a fault) ∧
    ∀ o, build v axioms = .ok o → o.Copies v axioms := by
  simp only [← NormalAxiom.isOver_iff_mentions]
  refine ⟨?_, fun fault => build_eq_error, fun o => copies_of_build⟩
  simp only [build_eq_ok, exists_and_left, exists_eq', and_true]

/-- The conjunction of `A` and `B`, which are in the vocabulary, stands once at `B`. -/
theorem build_faithful_conjunction :
    ∃ o, build .sample (.ofList [.conjunction [⟨2⟩, ⟨3⟩] ⟨4⟩] compare) = .ok o ∧
      o.conjunctions.get ⟨3⟩ = [⟨[⟨2⟩, ⟨3⟩], ⟨4⟩⟩] := by
  let form : NormalAxiom := .conjunction [⟨2⟩, ⟨3⟩] ⟨4⟩
  have hmem : ∀ a, a ∈ (.ofList [form] compare : OrderedSet NormalAxiom) ↔ a = form :=
    fun a => OrderedSet.mem_ofList_iff.trans List.mem_singleton
  have hover : form.IsOver (Vocabulary.sample.contains ·) := by
    simp only [form, NormalAxiom.IsOver]
    decide
  obtain ⟨hbuilds, -, hcopies⟩ := build_faithful .sample (.ofList [form] compare)
  obtain ⟨o, ho⟩ := hbuilds.2 fun a ha =>
    (hmem a).1 ha ▸ ⟨by decide, NormalAxiom.isOver_iff_mentions.1 hover⟩
  have hlists := (hcopies o ho).conjunctions ⟨3⟩
  have hmap : (o.conjunctions.get ⟨3⟩).map (fun c => .conjunction c.operands c.sup) = [form] := by
    refine hlists.ascending.ext (List.pairwise_singleton ..) fun a => ?_
    rw [hlists.mem_map, hmem, List.mem_singleton, and_iff_left_iff_imp]
    rintro rfl
    exact ⟨_, _, rfl, by decide⟩
  obtain ⟨⟨operands, sup⟩, hget, hform⟩ := List.map_eq_singleton_iff.1 hmap
  obtain ⟨rfl, rfl⟩ := NormalAxiom.conjunction.inj hform
  exact ⟨o, ho, hget⟩

end Ontology

end OwlEl
