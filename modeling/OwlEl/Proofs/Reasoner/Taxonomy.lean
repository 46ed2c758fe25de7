import OwlEl.Proofs.Reasoner.Preorder
import OwlEl.Proofs.Taxonomy

/-!
# The taxonomy agrees with the queries

The taxonomy of a classification is read off its links, the queries are read off the derived
facts; `taxonomy_agrees` says that they give the same answers, for axioms and for normal forms
that were classified. As answered subsumption is a preorder between the empty and the
universal class, the nodes of these two classes are the only ones without links downwards and
upwards, even if they are the same node.
-/

namespace OwlEl

open Completion

variable {v w : Vocabulary} {k : Classification} {c d : ClassId}

namespace Classification

theorem mem_unsatisfiable : c ∈ k.unsatisfiable ↔
    c ∈ k.namedClasses ∧ c ≠ .bottom ∧ k.isSatisfiable c = false := by
  rw [unsatisfiable, OrderedSet.mem_filter_iff, Bool.and_eq_true, decide_eq_true_eq,
    Bool.not_eq_true']

namespace Ordered

variable (h : k.Ordered v)

include h

/-- What the taxonomy is built from. -/
theorem mem_above : d ∈ Taxonomy.above
    (Taxonomy.subsumersWithin k.namedClasses fun c => (k.subsumers c).toList) c ↔
      c ∈ k.namedClasses ∧ d ∈ k.namedClasses ∧ k.isSubsumedBy c d = true := by
  rw [Taxonomy.mem_above, Std.ExtTreeSet.mem_toList, mem_subsumers]
  refine and_congr_right fun hc => ⟨?_, fun ⟨hd, hcd⟩ => .inr ⟨⟨hd, hcd⟩, hd⟩⟩
  rintro (rfl | ⟨hcd, -⟩)
  · exact ⟨hc, h.refl (h.contains hc)⟩
  · exact hcd

theorem isPreorder : Taxonomy.IsPreorder
    (Taxonomy.subsumersWithin k.namedClasses fun c => (k.subsumers c).toList) k.namedClasses := by
  refine Taxonomy.isPreorder_subsumersWithin fun c _ d _ e _ hcd hde => ?_
  rw [Std.ExtTreeSet.mem_toList, mem_subsumers] at hcd hde ⊢
  exact ⟨hde.1, h.trans hcd.2 hde.2⟩

theorem mem_equivalents_taxonomy (hc : c ∈ k.namedClasses) :
    d ∈ k.taxonomy.equivalents c ↔ d ∈ k.equivalents c := by
  rw [taxonomy, Taxonomy.mem_equivalents_build h.isPreorder hc, h.mem_above, h.mem_above,
    mem_equivalents]
  constructor
  · exact fun ⟨⟨_, hd, hcd⟩, _, _, hdc⟩ => ⟨hd, hcd, hdc⟩
  · exact fun ⟨hd, hcd, hdc⟩ => ⟨⟨hc, hd, hcd⟩, hd, hc, hdc⟩

theorem mem_supers_taxonomy (hc : c ∈ k.namedClasses) :
    d ∈ k.taxonomy.supers c ↔ d ∈ k.subsumers c ∧ d ∉ k.equivalents c := by
  rw [taxonomy, Taxonomy.mem_supers_build h.isPreorder hc, h.mem_above, h.mem_above,
    mem_subsumers, mem_equivalents]
  constructor
  · exact fun ⟨⟨_, hd, hcd⟩, hnot⟩ => ⟨⟨hd, hcd⟩, fun ⟨_, _, hdc⟩ => hnot ⟨hd, hc, hdc⟩⟩
  · exact fun ⟨⟨hd, hcd⟩, hnot⟩ => ⟨⟨hc, hd, hcd⟩, fun ⟨_, _, hdc⟩ => hnot ⟨hd, hcd, hdc⟩⟩

theorem mem_subs_taxonomy (hc : c ∈ k.namedClasses) :
    d ∈ k.taxonomy.subs c ↔ d ∈ k.namedClasses ∧ c ∈ k.subsumers d ∧ d ∉ k.equivalents c := by
  rw [taxonomy, Taxonomy.mem_subs_build h.isPreorder hc, h.mem_above, h.mem_above,
    mem_subsumers, mem_equivalents]
  constructor
  · exact fun ⟨⟨hd, _, hdc⟩, hnot⟩ => ⟨hd, ⟨hc, hdc⟩, fun ⟨_, hcd, _⟩ => hnot ⟨hc, hd, hcd⟩⟩
  · exact fun ⟨hd, ⟨_, hdc⟩, hnot⟩ => ⟨⟨hd, hc, hdc⟩, fun ⟨_, _, hcd⟩ => hnot ⟨hd, hcd, hdc⟩⟩

theorem exists_node (hc : c ∈ k.namedClasses) :
    ∃ i n, k.taxonomy.positions[c]? = some i ∧ k.taxonomy.nodes[i]? = some n :=
  Taxonomy.exists_node_build h.isPreorder hc

/-- The equivalents of the empty class are the classes without members. -/
theorem mem_equivalents_bottom (hbottom : .bottom ∈ k.namedClasses) :
    d ∈ k.equivalents .bottom ↔ d = .bottom ∨ d ∈ k.unsatisfiable := by
  rw [mem_equivalents, mem_unsatisfiable, isSatisfiable_eq_false_iff]
  constructor
  · rintro ⟨hd, -, hsub⟩
    by_cases heq : d = .bottom
    · exact .inl heq
    · exact .inr ⟨hd, heq, hsub⟩
  · rintro (rfl | ⟨hd, -, hsub⟩)
    · exact ⟨hbottom, h.bottom, h.bottom⟩
    · exact ⟨hd, h.bottom, hsub⟩

theorem parents_eq_nil_iff (htop : .top ∈ k.namedClasses) {i : Nat} {n : TaxonomyNode}
    (hn : k.taxonomy.nodes[i]? = some n) :
    n.parents = [] ↔ k.taxonomy.positions[(.top : ClassId)]? = some i := by
  refine Taxonomy.parents_eq_nil_iff h.isPreorder (fun c hc => ?_) hn
  exact h.mem_above.2 ⟨hc, htop, h.top (h.contains hc)⟩

theorem children_eq_nil_iff (hbottom : .bottom ∈ k.namedClasses) {i : Nat} {n : TaxonomyNode}
    (hn : k.taxonomy.nodes[i]? = some n) :
    n.children = [] ↔ k.taxonomy.positions[(.bottom : ClassId)]? = some i :=
  Taxonomy.children_eq_nil_iff h.isPreorder
    (fun _ hc => h.mem_above.2 ⟨hbottom, hc, h.bottom⟩) hn

end Ordered

end Classification

namespace Reasoner

variable {config : Config} {cancelled : Bool}

/-- The last stages of a call, whether it was given axioms or normal forms. -/
theorem exists_completed_of_call (hv : v.Reachable)
    (h : (∃ axioms, classify config cancelled axioms v = .ok k w) ∨
      ∃ forms, classifyNormal config cancelled forms v = .ok k w) :
    ∃ forms closed u o st, Completed config forms u w k closed o st ∧ u.WellFormed := by
  rcases h with ⟨axioms, h⟩ | ⟨forms, h⟩
  · obtain ⟨forms, closed, u, o, st, hout⟩ := exists_outcome h
    exact ⟨forms, closed, u, o, st, hout.toCompleted,
      (hout.represents.{0} hv.wellFormed).wellFormed⟩
  · obtain ⟨closed, o, st, hcompleted⟩ := exists_completed h
    exact ⟨forms, closed, v, o, st, hcompleted, hv.wellFormed⟩

/-- What the taxonomy says of the named classes is what the queries answer: the equivalents of
a class, the classes above it, which are its other subsumers, and the classes below it, which
are the others that it subsumes. The node of the empty class holds it and the classes without
members, and is the only node without children, as the node of the universal class is the only
one without parents. -/
theorem taxonomy_agrees (hv : v.Reachable)
    (h : (∃ axioms, classify config cancelled axioms v = .ok k w) ∨
      ∃ forms, classifyNormal config cancelled forms v = .ok k w) :
    (∀ c ∈ k.namedClasses,
      (∀ d, d ∈ k.taxonomy.equivalents c ↔ d ∈ k.equivalents c) ∧
      (∀ d, d ∈ k.taxonomy.supers c ↔ d ∈ k.subsumers c ∧ d ∉ k.equivalents c) ∧
      ∀ d, d ∈ k.taxonomy.subs c ↔
        d ∈ k.namedClasses ∧ c ∈ k.subsumers d ∧ d ∉ k.equivalents c) ∧
    (∃ n, k.taxonomy.node? .bottom = some n ∧
      ∀ d, d ∈ n.members ↔ d = .bottom ∨ d ∈ k.unsatisfiable) ∧
    (∃ i n, k.taxonomy.positions[(.top : ClassId)]? = some i ∧
      k.taxonomy.nodes[i]? = some n ∧ n.parents = [] ∧
      ∀ j m, k.taxonomy.nodes[j]? = some m → m.parents = [] → j = i) ∧
    ∃ i n, k.taxonomy.positions[(.bottom : ClassId)]? = some i ∧
      k.taxonomy.nodes[i]? = some n ∧ n.children = [] ∧
      ∀ j m, k.taxonomy.nodes[j]? = some m → m.children = [] → j = i := by
  obtain ⟨forms, closed, u, o, st, hcompleted, hu⟩ := exists_completed_of_call hv h
  have hw := (hcompleted.mirrors.{0} hu).wellFormed
  have hordered := hcompleted.ordered hu
  have htop := hcompleted.mem_namedClasses (hw.top .cls (by decide))
  have hbottom := hcompleted.mem_namedClasses (hw.bottom .cls (by decide))
  obtain ⟨i, n, hi, hn⟩ := hordered.exists_node htop
  obtain ⟨j, m, hj, hm⟩ := hordered.exists_node hbottom
  refine ⟨fun c hc => ⟨fun d => hordered.mem_equivalents_taxonomy hc,
    fun d => hordered.mem_supers_taxonomy hc, fun d => hordered.mem_subs_taxonomy hc⟩,
    ⟨m, ?_, fun d => ?_⟩, ⟨i, n, hi, hn, (hordered.parents_eq_nil_iff htop hn).2 hi, ?_⟩,
    ⟨j, m, hj, hm, (hordered.children_eq_nil_iff hbottom hm).2 hj, ?_⟩⟩
  · rw [Taxonomy.node?, hj, Option.bind_some, hm]
  · have hmem : d ∈ k.taxonomy.equivalents .bottom ↔ d ∈ m.members := by
      rw [Taxonomy.equivalents, Taxonomy.node?, hj, Option.bind_some, hm]
    rw [← hmem, hordered.mem_equivalents_taxonomy hbottom, hordered.mem_equivalents_bottom hbottom]
  · intro l q hq hparents
    rw [hordered.parents_eq_nil_iff htop hq, hi] at hparents
    exact (Option.some.inj hparents).symm
  · intro l q hq hchildren
    rw [hordered.children_eq_nil_iff hbottom hq, hj] at hchildren
    exact (Option.some.inj hchildren).symm

/-- Of the one inclusion of a class in another the taxonomy says what the queries say. -/
theorem taxonomy_agrees_inclusion :
    ∃ (w : Vocabulary) (a b : ClassId) (k : Classification),
      classifyNormal .default false (.ofList [.subsumption a b] compare) .sample = .ok k w ∧
      b ∈ k.taxonomy.supers a ∧ a ∈ k.taxonomy.subs b ∧ b ∉ k.taxonomy.equivalents a := by
  let forms : OrderedSet NormalAxiom := .ofList [.subsumption ⟨2⟩ ⟨3⟩] compare
  have hyields : Minting.yields (classifyNormal .default false forms)
      (fun k => (k.subsumers ⟨2⟩).contains ⟨3⟩ && k.namedClasses.contains ⟨2⟩ &&
        !k.isSubsumedBy ⟨3⟩ ⟨2⟩) .sample = true := by cbv
  obtain ⟨k, w, h, hanswers⟩ := Minting.exists_ok_of_yields hyields
  simp only [Bool.and_eq_true, Bool.not_eq_true', Std.ExtTreeSet.contains_iff_mem] at hanswers
  obtain ⟨⟨hsub, ha⟩, hnot⟩ := hanswers
  have hequivalent : ∀ {c d}, d ∈ k.equivalents c → k.isSubsumedBy d c = true :=
    fun hd => (Classification.mem_equivalents.1 hd).2.2
  have hb := (Classification.mem_subsumers.1 hsub).1
  obtain ⟨hagrees, -⟩ := taxonomy_agrees Vocabulary.reachable_sample (.inr ⟨forms, h⟩)
  obtain ⟨hequivalents, hsupers, -⟩ := hagrees ⟨2⟩ ha
  obtain ⟨-, -, hsubs⟩ := hagrees ⟨3⟩ hb
  have hdistinct : (⟨3⟩ : ClassId) ∉ k.equivalents ⟨2⟩ := fun hmem => by
    rw [hequivalent hmem] at hnot
    exact absurd hnot (by decide)
  have hdistinct' : (⟨2⟩ : ClassId) ∉ k.equivalents ⟨3⟩ := fun hmem => by
    rw [(Classification.mem_equivalents.1 hmem).2.1] at hnot
    exact absurd hnot (by decide)
  refine ⟨w, ⟨2⟩, ⟨3⟩, k, h, (hsupers _).2 ⟨hsub, hdistinct⟩,
    (hsubs _).2 ⟨ha, hsub, hdistinct'⟩, fun hmem => ?_⟩
  exact hdistinct ((hequivalents _).1 hmem)

end Reasoner

end OwlEl
