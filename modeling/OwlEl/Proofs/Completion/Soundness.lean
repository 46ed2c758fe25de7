import OwlEl.Proofs.Completion.Reaching

/-!
# Rules derive only what follows

Let `T` be a set of facts that is closed under the rules. A state is valid for `T` when
its facts are in `T` and its index holds nothing that is not reachable by `T`. The main
statement is `RuleTable.Applies.advances`: whatever the rules of a table and the orders
that they go by, applying them to a fact of `T` keeps a state valid.

Since `T` is arbitrary, one and the same statement says that only consequences are
derived, that no fact leaves the universe, and that nothing is added to facts that are
closed already.
-/

namespace OwlEl.Completion

variable {o : Ontology} {v : Vocabulary} {axioms : OrderedSet NormalAxiom} {T : Fact → Prop}

namespace State

variable {s t u : State o} {f g : Fact}

/-- The facts of a coherent state and what its index holds are within `T`. -/
structure Valid (axioms : OrderedSet NormalAxiom) (T : Fact → Prop) (st : State o) : Prop where
  coherent : st.Coherent
  facts : ∀ {f}, st.holds f = true → T f
  index : IndexWithin axioms T st.reachability
  mirrored : IsMirrored st.reachability

theorem Valid.leads (h : s.Valid axioms T) {a b : ClassId} (hab : b ∈ s.allSuccessors a) :
    Leads T a b :=
  (h.coherent.mem_allSuccessors.1 hab).mono fun _ => h.facts

theorem Grows.valid (h : Grows T s t) (hs : s.Valid axioms T) : t.Valid axioms T where
  coherent := h.coherent hs.coherent
  facts hf := (h.adds hf).elim hs.facts id
  index := h.reachability ▸ hs.index
  mirrored := h.reachability ▸ hs.mirrored

/-- Facts have been added that wait on the agenda, and a valid state is valid still. -/
structure Advances (axioms : OrderedSet NormalAxiom) (T : Fact → Prop) (s t : State o) : Prop where
  keeps : ∀ {f}, s.holds f = true → t.holds f = true
  settled : ∀ {f}, t.IsSettled f ↔ s.IsSettled f
  counts : t.factCount + s.agenda.toList.length = s.factCount + t.agenda.toList.length
  valid : s.Valid axioms T → t.Valid axioms T

theorem Grows.advances (h : Grows T s t) : Advances axioms T s t where
  keeps := h.keeps
  settled := h.settled
  counts := h.counts
  valid := h.valid

theorem Advances.refl (s : State o) : Advances axioms T s s := ⟨id, Iff.rfl, rfl, id⟩

theorem Advances.trans (h : Advances axioms T s t) (h' : Advances axioms T t u) :
    Advances axioms T s u where
  keeps hf := h'.keeps (h.keeps hf)
  settled := h'.settled.trans h.settled
  counts := by
    have hfirst := h.counts
    have hsecond := h'.counts
    omega
  valid hs := h'.valid (h.valid hs)

/-! ## Adding -/

theorem AddsAll.holds_iff {facts : List Fact} (h : AddsAll facts s t) :
    t.holds g = true ↔ g ∈ facts ∨ s.holds g = true := by
  obtain ⟨order, horder, rfl⟩ := h
  rw [holds_addAll, horder.mem_iff]

theorem AddsAll.grows {facts : List Fact} (h : AddsAll facts s t) (hfacts : ∀ f ∈ facts, T f) :
    Grows T s t := by
  obtain ⟨order, horder, rfl⟩ := h
  exact grows_addAll fun f hf => hfacts f (horder.mem_iff.1 hf)

theorem loop_grows {α : Type} {body : α → State o → State o → Prop} {items : List α}
    (h : Loop body items s u)
    (hbody : ∀ a ∈ items, ∀ {s' t'}, Grows T s s' → body a s' t' → Grows T s' t') :
    Grows T s u ∧ ∀ a ∈ items, ∃ s' t', Grows T s s' ∧ body a s' t' ∧ Grows T t' u :=
  h.visits .refl .trans hbody

/-! ## CR-8 -/

section Nominal

variable {x y n a : ClassId}

theorem Copies.grows (hT : Closed v axioms T) (hs : s.Valid axioms T) (hn : IsNominal axioms n)
    (hx : T (.subsumer x n)) (hy : T (.subsumer y n)) (hxy : Reaches axioms T x y)
    (h : Copies y x s t) : Grows T s t := by
  refine AddsAll.grows h fun f hf => ?_
  obtain ⟨b, hb, rfl⟩ := List.mem_map.1 hf
  exact hT.nominal hn hx hy hxy (hs.facts (mem_subsumers.1 hb))

theorem SharesNominal.grows (hT : Closed v axioms T) (hs : s.Valid axioms T)
    (ha : IsNominal axioms a) (hy : T (.subsumer y a)) (h : SharesNominal y a s t) :
    Grows T s t := by
  refine (loop_grows h fun w hw {s' u'} hs' hbody => ?_).1
  have hwa : T (.subsumer w a) := by
    have hmember := (List.mem_filter.1 hw).1
    exact hs.facts (hs.coherent.mem_nominalMembers.1 hmember).2
  obtain ⟨t', hfirst, hsecond⟩ := hbody
  have hst : Grows T s' t' := by
    by_cases hyw : s'.reachability.reaches y w = true
    · rw [if_pos hyw] at hfirst
      have hs' := hs'.valid hs
      exact hfirst.grows hT hs' ha hy hwa (hs'.index.reaches hyw)
    · rw [if_neg hyw] at hfirst
      exact hfirst ▸ .refl s'
  have htu : Grows T t' u' := by
    by_cases hwy : t'.reachability.reaches w y = true
    · rw [if_pos hwy] at hsecond
      have ht' := (hs'.trans hst).valid hs
      exact hsecond.grows hT ht' ha hwa hy (ht'.index.reaches hwy)
    · rw [if_neg hwy] at hsecond
      exact hsecond ▸ .refl t'
  exact hst.trans htu

theorem PassesOn.grows (hT : Closed v axioms T) (ho : o.Indexes v axioms)
    (hs : s.Valid axioms T) (hy : T (.subsumer y a)) (h : PassesOn y a s t) : Grows T s t := by
  refine (loop_grows h fun n hn {s' t'} hs' hbody => ?_).1
  obtain ⟨hyn, hn⟩ := mem_nominalsOf.1 hn
  have hs' := hs'.valid hs
  refine hbody.grows fun f hf => ?_
  obtain ⟨x, hx, rfl⟩ := List.mem_map.1 hf
  obtain ⟨hx, hxy⟩ := List.mem_filter.1 hx
  have hxn : T (.subsumer x n) := hs'.facts (hs'.coherent.mem_nominalMembers.1 hx).2
  have hxy : Reaches axioms T x y := hs'.index.reaches (of_decide_eq_true hxy).2
  exact hT.nominal (ho.isNominalClass.1 hn) hxn (hs.facts hyn) hxy hy

theorem CopiesAlong.grows {news : NewlyReachable} (hT : Closed v axioms T)
    (ho : o.Indexes v axioms) (hs : s.Valid axioms T)
    (hpairs : ∀ {x y}, (x, y) ∈ news.pairs → Reaches axioms T x y)
    (hnominals : ∀ {x y}, y ∈ news.fromNominals → Reaches axioms T x y)
    (h : CopiesAlong news s u) : Grows T s u := by
  obtain ⟨t, hfirst, hsecond⟩ := h
  have hst : Grows T s t := by
    refine (loop_grows hfirst fun pair hpair {s' t'} hs' hbody => ?_).1
    split at hbody
    · next hshare =>
        obtain ⟨n, hn, hx, hy⟩ := shareNominal_iff.1 hshare.2
        have hs' := hs'.valid hs
        exact hbody.grows hT hs' (ho.isNominalClass.1 hn) (hs'.facts hx) (hs'.facts hy)
          (hpairs hpair)
    · exact hbody ▸ .refl s'
  have ht := hst.valid hs
  have htu : Grows T t u := by
    refine (loop_grows hsecond fun target htarget {s₁ t₁} hs₁ h₁ => ?_).1
    have hs₁ := hs₁.valid ht
    refine (loop_grows h₁ fun n hn {s₂ t₂} hs₂ h₂ => ?_).1
    obtain ⟨hy, hn⟩ := mem_nominalsOf.1 hn
    have hs₂ := hs₂.valid hs₁
    refine (loop_grows h₂ fun source hsource {s₃ t₃} hs₃ h₃ => ?_).1
    have hx := (hs₂.coherent.mem_nominalMembers.1 (List.mem_filter.1 hsource).1).2
    exact h₃.grows hT (hs₃.valid hs₂) (ho.isNominalClass.1 hn) (hs₂.facts hx) (hs₁.facts hy)
      (hnominals htarget)
  exact hst.trans htu

/-- Taking note of an edge changes the index only. -/
theorem NotesEdge.advances {news : NewlyReachable} (hs : s.Valid axioms T) (hxy : Leads T x y)
    (h : NotesEdge x y s t news) : Advances axioms T s t := by
  obtain ⟨r, hr, rfl⟩ := h
  refine ⟨id, Iff.rfl, rfl, fun _ => ?_⟩
  have hnotes := hr.notes
  refine ⟨?_, hs.facts, hnotes.within hs.leads hxy hs.mirrored hs.index,
    hnotes.mirrored hs.mirrored⟩
  exact ⟨hs.coherent.nominalMembers, hs.coherent.predecessors, hs.coherent.propertiesFrom,
    hs.coherent.propertiesInto, hs.coherent.waiting, hs.coherent.once, hs.coherent.counted⟩

theorem NotesEdge.reaches {news : NewlyReachable} (ht : t.Valid axioms T)
    (h : NotesEdge x y s t news) :
    (∀ {a b}, (a, b) ∈ news.pairs → Reaches axioms T a b) ∧
      ∀ {a b}, b ∈ news.fromNominals → Reaches axioms T a b := by
  obtain ⟨r, hr, rfl⟩ := h
  have hnotes := hr.notes
  refine ⟨fun {a b} hab => ?_, fun {a b} hb => ?_⟩
  · have hab := (hnotes.targets.holds hab).resolve_left List.not_mem_nil
    exact ht.index.reaches (reaches_eq_true.2 (.inr (.inr hab)))
  · have hb := hnotes.fromNominals.2 (.inl hb)
    exact ht.index.reaches (reaches_eq_true.2 (.inr (.inl hb)))

end Nominal

end State

open State

/-! ## The rules -/

section Rules

variable {s t : State o} {x y a : ClassId} {r : PropertyId}

/-- A rule that is applied to `a ∈ S(x)` adds only what follows. -/
theorem SubsumerRule.Applies.grows {rule : SubsumerRule} (hT : Closed v axioms T)
    (ho : o.Indexes v axioms) (hs : s.Valid axioms T) (hf : T (.subsumer x a))
    (h : rule.Applies x a s t) : Grows T s t := by
  cases rule with
  | inclusion =>
      refine AddsAll.grows h fun f hf' => ?_
      obtain ⟨b, hb, rfl⟩ := List.mem_map.1 hf'
      exact hT.inclusion hf (ho.supers.1 hb)
  | conjunction =>
      refine (loop_grows h fun c hc {s' t'} hs' hbody => ?_).1
      subst hbody
      split
      · next hall =>
          refine grows_add (hT.conjunction (fun b hb => ?_) (ho.conjunctions.1 hc).2)
          rcases Bool.or_eq_true_iff.1 (List.all_eq_true.1 hall b hb) with hba | hb
          · exact of_decide_eq_true hba ▸ hf
          · exact (hs'.valid hs).facts hb
      · exact .refl s'
  | existsSuper =>
      refine AddsAll.grows h fun f hf' => ?_
      obtain ⟨⟨r, b⟩, hb, rfl⟩ := List.mem_map.1 hf'
      exact hT.existsSuper hf (ho.existsSupers.1 hb)
  | existsSub =>
      simp only [SubsumerRule.Applies] at h
      split at h
      · exact h ▸ .refl s
      · refine AddsAll.grows h fun f hf' => ?_
        obtain ⟨r, -, hf'⟩ := List.mem_flatMap.1 hf'
        obtain ⟨z, hz, hf'⟩ := List.mem_flatMap.1 hf'
        obtain ⟨b, hb, rfl⟩ := List.mem_map.1 hf'
        obtain ⟨p, hp, hb⟩ := List.mem_flatMap.1 hb
        have hedge : T (.edge r z x) := hs.facts (hs.coherent.mem_predecessors.1 hz)
        exact hT.existsSub hedge hf (ho.propertiesAbove.1 hp).2 (ho.existsSubs.1 hb)
  | bottom =>
      simp only [SubsumerRule.Applies] at h
      split at h
      · next ha =>
          subst ha
          refine AddsAll.grows h fun f hf' => ?_
          obtain ⟨r, -, hf'⟩ := List.mem_flatMap.1 hf'
          obtain ⟨z, hz, rfl⟩ := List.mem_map.1 hf'
          exact hT.bottom (hs.facts (hs.coherent.mem_predecessors.1 hz)) hf
      · exact h ▸ .refl s
  | nominal =>
      simp only [SubsumerRule.Applies] at h
      split at h
      · obtain ⟨u, hsu, hut⟩ := h
        have hsu : Grows T s u := by
          split at hsu
          · next ha => exact hsu.grows hT hs (ho.isNominalClass.1 ha) hf
          · exact hsu ▸ .refl s
        exact hsu.trans (hut.grows hT ho (hsu.valid hs) hf)
      · exact h ▸ .refl s

/-- A rule that is applied to `(x, y) ∈ R(r)`, but for CR-8, adds only what follows. -/
theorem EdgeRule.Applies.grows {rule : EdgeRule} (hrule : rule ≠ .nominal)
    (hT : Closed v axioms T) (ho : o.Indexes v axioms) (hs : s.Valid axioms T)
    (hf : T (.edge r x y)) (h : rule.Applies r x y s t) : Grows T s t := by
  cases rule with
  | existsSub =>
      refine AddsAll.grows h fun f hf' => ?_
      obtain ⟨p, hp, hf'⟩ := List.mem_flatMap.1 hf'
      obtain ⟨a, ha, hf'⟩ := List.mem_flatMap.1 hf'
      obtain ⟨b, hb, rfl⟩ := List.mem_map.1 hf'
      have hrp := (ho.propertiesAbove.1 (List.mem_filter.1 hp).1).2
      exact hT.existsSub hf (hs.facts (mem_subsumers.1 ha)) hrp (ho.existsSubs.1 hb)
  | hierarchy =>
      refine AddsAll.grows h fun f hf' => ?_
      obtain ⟨p, hp, rfl⟩ := List.mem_map.1 hf'
      exact hT.hierarchy hf (ho.propertiesAbove.1 (List.mem_filter.1 hp).1).2
  | compositionOnLeft =>
      refine (loop_grows h fun c hc {s' t'} hs' hbody => ?_).1
      obtain ⟨rfl, haxiom⟩ := ho.compositionsByLeft.1 hc
      refine hbody.grows fun f hf' => ?_
      obtain ⟨z, hz, rfl⟩ := List.mem_map.1 hf'
      exact hT.composition hf ((hs'.valid hs).facts (mem_successors.1 hz)) haxiom
  | compositionOnRight =>
      refine (loop_grows h fun c hc {s' t'} hs' hbody => ?_).1
      obtain ⟨rfl, haxiom⟩ := ho.compositionsByRight.1 hc
      have hs' := hs'.valid hs
      refine hbody.grows fun f hf' => ?_
      obtain ⟨z, hz, rfl⟩ := List.mem_map.1 hf'
      exact hT.composition (hs'.facts (hs'.coherent.mem_predecessors.1 hz)) hf haxiom
  | bottom =>
      simp only [EdgeRule.Applies] at h
      subst h
      split
      · next hy => exact grows_add (hT.bottom hf (hs.facts hy))
      · exact .refl s
  | nominal => exact absurd rfl hrule

theorem EdgeRule.Applies.advances {rule : EdgeRule} (hT : Closed v axioms T)
    (ho : o.Indexes v axioms) (hs : s.Valid axioms T) (hf : T (.edge r x y))
    (h : rule.Applies r x y s t) : Advances axioms T s t := by
  by_cases hrule : rule = .nominal
  · subst hrule
    simp only [EdgeRule.Applies] at h
    split at h
    · obtain ⟨u, news, hnotes, hcopies⟩ := h
      have hsu := hnotes.advances hs ⟨r, hf⟩
      have hu := hsu.valid hs
      obtain ⟨hpairs, hnominals⟩ := hnotes.reaches hu
      exact hsu.trans (hcopies.grows hT ho hu hpairs hnominals).advances
    · exact h ▸ .refl s
  · exact (h.grows hrule hT ho hs hf).advances

end Rules

/-! ## Tables of rules -/

theorem InOrder.loop {α σ : Type} {body : α → σ → σ → Prop} {items : List α} {s u : σ}
    (h : InOrder body items s u) : Loop body items s u := by
  induction items generalizing s with
  | nil => exact h ▸ .done
  | cons a items ih =>
      obtain ⟨t, hst, htu⟩ := h
      exact .next (.refl _) hst (ih htu)

/-- Applying the rules of a table to a fact adds only what follows. -/
theorem RuleTable.Applies.advances {rules : RuleTable} {s t : State o} {f : Fact}
    (hT : Closed v axioms T) (ho : o.Indexes v axioms) (hs : s.Valid axioms T) (hf : T f)
    (h : rules.Applies s t f) : Advances axioms T s t := by
  cases f with
  | subsumer x a =>
      refine (h.loop.visits .refl .trans fun rule _ {s' t'} hs' hbody => ?_).1
      exact (hbody.grows hT ho (hs'.valid hs) hf).advances
  | edge r x y =>
      refine (h.loop.visits .refl .trans fun rule _ {s' t'} hs' hbody => ?_).1
      exact hbody.advances hT ho (hs'.valid hs) hf

end OwlEl.Completion
