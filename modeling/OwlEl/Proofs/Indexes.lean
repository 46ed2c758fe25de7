import OwlEl.Proofs.Interpretation
import OwlEl.Proofs.Growth
import OwlEl.Proofs.Layers
import OwlEl.Proofs.Tables

/-!
# What the tables of an ontology hold

`Ontology.Indexes` says of each table by which the completion rules look something up
which axioms it stands for, and `Ontology.indexes_of_build` that the tables of every
ontology that is built are so. The properties above a property are the ones that the
inclusions lead to in any number of steps.
-/

namespace OwlEl

/-- The inclusions lead from the first property to the second in any number of steps. -/
def Above (axioms : OrderedSet NormalAxiom) : PropertyId → PropertyId → Prop :=
  Relation.ReflTransGen fun r s => .inclusion r s ∈ axioms

/-- The class holds just one individual. -/
def IsNominal (axioms : OrderedSet NormalAxiom) (c : ClassId) : Prop :=
  ∃ i, .nominal c i ∈ axioms

namespace Ontology

/-- The tables hold what the axioms, which are over the vocabulary, say. -/
structure Indexes (o : Ontology) (v : Vocabulary) (axioms : OrderedSet NormalAxiom) : Prop where
  toList : o.axioms = axioms.toList
  wellFormed : ∀ a ∈ axioms, a.IsWellFormed
  isOver : ∀ a ∈ axioms, a.IsOver (v.contains ·)
  classes : ∀ {c : ClassId}, c ∈ o.classes ↔ v.contains c = true
  properties : ∀ {r : PropertyId}, r ∈ o.properties ↔ v.contains r = true
  supers : ∀ {a b}, b ∈ o.supers.get a ↔ .subsumption a b ∈ axioms
  conjunctions : ∀ {a c}, c ∈ o.conjunctions.get a ↔
    a ∈ c.operands ∧ .conjunction c.operands c.sup ∈ axioms
  existsSupers : ∀ {a r b}, (r, b) ∈ o.existsSupers.get a ↔ .existsSuper a r b ∈ axioms
  existsSubsByProperty : ∀ {r a b}, .existsSub r a b ∈ axioms →
    o.existsSubsByProperty.hasKey r = true
  existsSubsByFiller : ∀ {r a b}, (r, b) ∈ o.existsSubsByFiller.get a ↔
    .existsSub r a b ∈ axioms
  existsSubs : ∀ {r a b}, b ∈ o.existsSubs.get (r, a) ↔ .existsSub r a b ∈ axioms
  compositionsByLeft : ∀ {r c}, c ∈ o.compositionsByLeft.get r ↔
    c.left = r ∧ .composition c.left c.right c.sup ∈ axioms
  compositionsByRight : ∀ {s c}, c ∈ o.compositionsByRight.get s ↔
    c.right = s ∧ .composition c.left c.right c.sup ∈ axioms
  propertiesAbove : ∀ {r s}, s ∈ o.propertiesAbove r ↔ v.contains r = true ∧ Above axioms r s
  nominals : ∀ {i c}, (i, c) ∈ o.nominals ↔ .nominal c i ∈ axioms
  isNominalClass : ∀ {c}, o.isNominalClass c = true ↔ IsNominal axioms c
  reflexive : ∀ {r}, r ∈ o.reflexive ↔ .reflexive r ∈ axioms

theorem Indexes.hasNominals {o : Ontology} {v : Vocabulary} {axioms : OrderedSet NormalAxiom}
    (h : o.Indexes v axioms) {c : ClassId} (hc : IsNominal axioms c) : o.hasNominals = true := by
  have hmem : c ∈ o.nominalClasses := Std.TreeSet.contains_iff_mem.1 (h.isNominalClass.2 hc)
  rw [Ontology.hasNominals, Bool.not_eq_true', ← Bool.not_eq_true,
    Std.TreeSet.isEmpty_iff_forall_not_mem]
  exact fun hnone => hnone c hmem

/-! ## Acceptance -/

section Build

variable {v : Vocabulary} {axioms : OrderedSet NormalAxiom} {o : Ontology}

theorem forM_eq_ok {α : Type} {f : α → Except Fault Unit} {xs : List α} :
    xs.forM f = .ok () ↔ ∀ x ∈ xs, f x = .ok () := by
  induction xs with
  | nil => simp [pure, Except.pure]
  | cons x xs ih =>
      rw [List.forM, List.forall_mem_cons, ← ih]
      cases hx : f x with
      | ok u => simp [bind, Except.bind]
      | error fault => simp [bind, Except.bind]

theorem accept_eq_ok {a : NormalAxiom} :
    accept v a = .ok () ↔ a.IsWellFormed ∧ a.IsOver (v.contains ·) := by
  rw [NormalAxiom.isOver_iff]
  unfold accept NormalAxiom.check
  by_cases hwf : a.IsWellFormed
  · rw [if_pos hwf, and_iff_right hwf]
    cases hfind : a.signature.entities.find? (¬v.contains ·) with
    | some e =>
        have hmem := List.mem_of_find?_eq_some hfind
        have hnot := List.find?_some hfind
        simp only [Bool.not_eq_true, decide_eq_true_eq] at hnot
        refine iff_of_false (fun h => ?_) fun h => ?_
        · exact absurd h (by simp [bind, Except.bind, pure, Except.pure, throw, throwThe,
            MonadExceptOf.throw])
        · rw [h e hmem] at hnot
          exact absurd hnot (by decide)
    | none =>
        have hall := List.find?_eq_none.1 hfind
        refine iff_of_true rfl fun e he => ?_
        simpa using hall e he
  · rw [if_neg hwf]
    exact iff_of_false (by simp [bind, Except.bind, throw, throwThe, MonadExceptOf.throw])
      fun h => hwf h.1

theorem build_eq_ok : build v axioms = .ok o ↔
    (∀ a ∈ axioms, a.IsWellFormed ∧ a.IsOver (v.contains ·)) ∧
      ofAxioms v axioms.toList = o := by
  have hforM : axioms.toList.forM (accept v) = .ok () ↔
      ∀ a ∈ axioms.toList, accept v a = .ok () := forM_eq_ok
  simp only [accept_eq_ok, Std.ExtTreeSet.mem_toList] at hforM
  rw [← hforM]
  unfold build
  cases axioms.toList.forM (accept v) with
  | ok u => simp [bind, Except.bind, pure, Except.pure]
  | error fault => simp [bind, Except.bind]

/-- The ontology of listed axioms that are all accepted. -/
theorem build_ofList {forms : List NormalAxiom}
    (h : ∀ a ∈ forms, a.IsWellFormed ∧ a.IsOver (v.contains ·)) :
    build v (.ofList forms compare) =
      .ok (ofAxioms v (Std.ExtTreeSet.ofList forms compare).toList) :=
  build_eq_ok.2 ⟨fun a ha => h a (OrderedSet.mem_ofList_iff.1 ha), rfl⟩

/-! ## Tables -/

/-- What is mentioned by one of the signatures. -/
theorem mem_foldl_union {α : Type} [Ord α] [Std.TransOrd α] (proj : Signature → OrderedSet α)
    (hproj : ∀ s t : Signature, proj (s.union t) = proj s ∪ proj t) {signatures : List Signature}
    {s : Signature} {a : α} :
    a ∈ proj (signatures.foldl .union s) ↔ a ∈ proj s ∨ ∃ t ∈ signatures, a ∈ proj t := by
  induction signatures generalizing s with
  | nil => simp
  | cons t signatures ih =>
      rw [List.foldl_cons, ih, hproj, Std.ExtTreeSet.mem_union_iff]
      simp only [List.mem_cons, exists_eq_or_imp, or_assoc]

/-- The ids of one kind that are in the vocabulary or mentioned by one of the axioms. -/
theorem mem_known_iff {k : Kind} (proj : Signature → OrderedSet (Id k))
    (hproj : ∀ s t : Signature, proj (s.union t) = proj s ∪ proj t) (hempty : proj ∅ = ∅)
    (hentities : ∀ s : Signature, ∀ id ∈ proj s, .ofId id ∈ s.entities)
    (h : ∀ a ∈ axioms, a.IsOver (v.contains ·)) {id : Id k} :
    id ∈ (Std.ExtTreeSet.ofList (v.table k).toList compare ∪
      proj (ofAxioms v axioms.toList).signature).toList ↔ v.contains id = true := by
  have hsignature : id ∈ proj (ofAxioms v axioms.toList).signature → v.contains id = true := by
    intro hid
    rcases (mem_foldl_union proj hproj).1 hid with hid | ⟨t, ht, hid⟩
    · rw [hempty] at hid
      exact absurd hid Std.ExtTreeSet.not_mem_empty
    · obtain ⟨a, ha, rfl⟩ := List.mem_map.1 ht
      have hover := h a (Std.ExtTreeSet.mem_toList.1 ha)
      exact NormalAxiom.isOver_iff.1 hover id (hentities _ id hid)
  rw [Std.ExtTreeSet.mem_toList, Std.ExtTreeSet.mem_union_iff, OrderedSet.mem_ofList_iff,
    NameTable.mem_toList, ← Vocabulary.contains_ofId]
  exact or_iff_left_of_imp hsignature

theorem mem_classes (h : ∀ a ∈ axioms, a.IsOver (v.contains ·)) {c : ClassId} :
    c ∈ (ofAxioms v axioms.toList).classes ↔ v.contains c = true := by
  refine mem_known_iff Signature.classes (fun _ _ => rfl) rfl (fun s c hc => ?_) h
  simp only [Signature.entities, List.mem_append, List.mem_map, Std.ExtTreeSet.mem_toList]
  exact .inl (.inl ⟨c, hc, rfl⟩)

theorem mem_properties (h : ∀ a ∈ axioms, a.IsOver (v.contains ·)) {r : PropertyId} :
    r ∈ (ofAxioms v axioms.toList).properties ↔ v.contains r = true := by
  refine mem_known_iff Signature.properties (fun _ _ => rfl) rfl (fun s r hr => ?_) h
  simp only [Signature.entities, List.mem_append, List.mem_map, Std.ExtTreeSet.mem_toList]
  exact .inl (.inr ⟨r, hr, rfl⟩)

/-- The successors along the table of direct inclusions. -/
theorem leads_directSupers {r s : PropertyId} :
    Layers.Leads (ofAxioms v axioms.toList).directSupers.get r s ↔ .inclusion r s ∈ axioms :=
  lists_directSupers.mem_iff_of_matches (fun _ _ h => (NormalAxiom.inclusion.inj h).2) ⟨s, rfl⟩

/-- The successors along the same table taken backwards. -/
theorem leads_directSubs {r s : PropertyId} :
    Layers.Leads (ofAxioms v axioms.toList).directSubs.get r s ↔ .inclusion s r ∈ axioms :=
  lists_directSubs.mem_iff_of_matches (fun _ _ h => (NormalAxiom.inclusion.inj h).1) ⟨s, rfl⟩

/-- At a property that is listed stands what the search from there finds. -/
theorem closure_of_mem {edges : Grouping PropertyId PropertyId} {properties : List PropertyId}
    (hnodup : properties.Nodup) {r : PropertyId} (hr : r ∈ properties) :
    (closure edges properties).getD r [] =
      Layers.reachable edges.get properties.length r := by
  have hdistinct : (properties.map fun r =>
      (r, Layers.reachable edges.get properties.length r)).Pairwise
        fun a b => ¬compare a.1 b.1 = .eq := by
    refine List.pairwise_map.2 (hnodup.imp fun hne heq => hne ?_)
    exact Std.LawfulEqCmp.compare_eq_iff_eq.1 heq
  exact Std.TreeMap.getD_ofList_of_mem Std.ReflCmp.compare_self hdistinct
    (List.mem_map_of_mem hr)

/-- What the edges lead to, for the properties that are listed. -/
theorem mem_closure {edges : Grouping PropertyId PropertyId} {properties : List PropertyId}
    (hnodup : properties.Nodup)
    (hedges : ∀ r ∈ properties, ∀ s ∈ edges.get r, s ∈ properties) {r s : PropertyId} :
    s ∈ (closure edges properties).getD r [] ↔
      r ∈ properties ∧ Relation.ReflTransGen (Layers.Leads edges.get) r s := by
  by_cases hr : r ∈ properties
  · rw [closure_of_mem hnodup hr, and_iff_right hr]
    exact Layers.mem_reachable hr hedges
  · have hget : (closure edges properties).getD r [] = [] := by
      refine Std.TreeMap.getD_ofList_of_contains_eq_false ?_
      rw [List.map_map, ← Bool.not_eq_true, List.contains_iff_mem]
      intro hmem
      obtain ⟨r', hr', rfl⟩ := List.mem_map.1 hmem
      exact hr hr'
    rw [hget]
    exact iff_of_false List.not_mem_nil fun hs => hr hs.1

theorem leads_directSupers_eq : Layers.Leads (ofAxioms v axioms.toList).directSupers.get =
    fun r s => .inclusion r s ∈ axioms := by
  ext r s
  exact leads_directSupers

theorem leads_directSubs_eq : Layers.Leads (ofAxioms v axioms.toList).directSubs.get =
    Function.swap fun r s => .inclusion r s ∈ axioms := by
  ext r s
  exact leads_directSubs

section Closed

variable (h : ∀ a ∈ axioms, a.IsOver (v.contains ·))

include h

theorem mem_properties_of_directSupers : ∀ r ∈ (ofAxioms v axioms.toList).properties,
    ∀ s ∈ (ofAxioms v axioms.toList).directSupers.get r,
      s ∈ (ofAxioms v axioms.toList).properties :=
  fun _ _ _ hs => (mem_properties h).2 (h _ (leads_directSupers.1 hs)).2

theorem mem_properties_of_directSubs : ∀ r ∈ (ofAxioms v axioms.toList).properties,
    ∀ s ∈ (ofAxioms v axioms.toList).directSubs.get r,
      s ∈ (ofAxioms v axioms.toList).properties :=
  fun _ _ _ hs => (mem_properties h).2 (h _ (leads_directSubs.1 hs)).1

theorem mem_propertiesAbove {r s : PropertyId} :
    s ∈ (ofAxioms v axioms.toList).propertiesAbove r ↔
      v.contains r = true ∧ Above axioms r s := by
  rw [Above, ← mem_properties h, ← leads_directSupers_eq]
  exact mem_closure OrderedSet.nodup_toList (mem_properties_of_directSupers h)

theorem mem_propertiesBelow {r s : PropertyId} :
    s ∈ (ofAxioms v axioms.toList).propertiesBelow r ↔
      v.contains r = true ∧ Above axioms s r := by
  rw [Above, ← Relation.reflTransGen_swap, ← mem_properties h, ← leads_directSubs_eq]
  exact mem_closure OrderedSet.nodup_toList (mem_properties_of_directSubs h)

end Closed

/-- The tables of an ontology that is built hold what the axioms say. -/
theorem indexes_of_build (h : build v axioms = .ok o) : o.Indexes v axioms := by
  obtain ⟨haccept, rfl⟩ := build_eq_ok.1 h
  have hover : ∀ a ∈ axioms, a.IsOver (v.contains ·) := fun a ha => (haccept a ha).2
  have htables := tabulates_ofAxioms (v := v) fun a ha => (haccept a ha).1
  have hcomposition : Function.Injective fun c : Composition =>
      NormalAxiom.composition c.left c.right c.sup := by
    rintro ⟨_, _, _⟩ ⟨_, _, _⟩ h
    simpa using h
  have hnominals : ∀ {i c}, (i, c) ∈ (ofAxioms v axioms.toList).nominals ↔
      .nominal c i ∈ axioms := by
    intro i c
    refine htables.nominals.mem_iff_of_matches ?_ ⟨c, i, rfl⟩
    rintro ⟨_, _⟩ ⟨_, _⟩ h
    simpa [and_comm] using h
  constructor
  case toList => rfl
  case wellFormed => exact fun a ha => (haccept a ha).1
  case isOver => exact hover
  case classes => exact mem_classes hover
  case properties => exact mem_properties hover
  case propertiesAbove => exact mem_propertiesAbove hover
  case nominals => exact hnominals
  case supers =>
    intro a b
    refine (htables.supers a).mem_iff_of_matches ?_ ⟨b, rfl⟩
    exact fun _ _ h => (NormalAxiom.subsumption.inj h).2
  case conjunctions =>
    intro a c
    rw [(htables.conjunctions a).mem_iff, and_comm]
    · apply and_congr_left'
      constructor
      · rintro ⟨_, _, heq, ha⟩
        exact (NormalAxiom.conjunction.inj heq).1 ▸ ha
      · exact fun ha => ⟨_, _, rfl, ha⟩
    · rintro ⟨_, _⟩ ⟨_, _⟩ h
      simpa using h
  case existsSupers =>
    intro a r b
    refine (htables.existsSupers a).mem_iff_of_matches ?_ ⟨r, b, rfl⟩
    rintro ⟨_, _⟩ ⟨_, _⟩ h
    simpa using h
  case existsSubsByProperty =>
    intro r a b h
    refine (htables.hasExistsSub r).2 (List.ne_nil_of_mem (a := (a, b)) ?_)
    refine ((htables.existsSubsByProperty r).mem_iff_of_matches ?_ ⟨a, b, rfl⟩).2 h
    rintro ⟨_, _⟩ ⟨_, _⟩ h
    simpa using h
  case existsSubsByFiller =>
    intro r a b
    refine (htables.existsSubsByFiller a).mem_iff_of_matches ?_ ⟨r, b, rfl⟩
    rintro ⟨_, _⟩ ⟨_, _⟩ h
    simpa using h
  case existsSubs =>
    intro r a b
    refine (htables.existsSubs r a).mem_iff_of_matches ?_ ⟨b, rfl⟩
    exact fun _ _ h => (NormalAxiom.existsSub.inj h).2.2
  case compositionsByLeft =>
    intro r c
    rw [(htables.compositionsByLeft r).mem_iff hcomposition, and_comm]
    refine and_congr_left' ⟨?_, fun hr => ⟨c.right, c.sup, hr ▸ rfl⟩⟩
    rintro ⟨_, _, heq⟩
    exact (NormalAxiom.composition.inj heq).1
  case compositionsByRight =>
    intro s c
    rw [(htables.compositionsByRight s).mem_iff hcomposition, and_comm]
    refine and_congr_left' ⟨?_, fun hs => ⟨c.left, c.sup, hs ▸ rfl⟩⟩
    rintro ⟨_, _, heq⟩
    exact (NormalAxiom.composition.inj heq).2.1
  case isNominalClass =>
    intro c
    refine Std.TreeSet.contains_iff_mem.trans (Std.TreeSet.mem_ofList.trans ?_)
    rw [List.contains_iff_mem, List.mem_map]
    constructor
    · rintro ⟨⟨i, _⟩, hmem, rfl⟩
      exact ⟨i, hnominals.1 hmem⟩
    · rintro ⟨i, hi⟩
      exact ⟨(i, c), hnominals.2 hi, rfl⟩
  case reflexive =>
    intro r
    refine htables.reflexive.mem_iff_of_matches ?_ ⟨r, rfl⟩
    exact fun _ _ h => NormalAxiom.reflexive.inj h

end Build

end Ontology

end OwlEl
