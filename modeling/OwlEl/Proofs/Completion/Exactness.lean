import OwlEl.Proofs.Completion.Saturation

/-!
# The least closed set of facts

A run of the completion rules ends, and when it ends its facts are the least set that is
closed under the rules: `runs_exact`. As every turn settles a fact, and all facts can be
formed from the vocabulary, no run goes on forever. The run that is executed is one of the
runs in any order, and is given as many steps as any of them can take.
-/

namespace OwlEl.Completion

variable {o : Ontology} {v : Vocabulary} {axioms : OrderedSet NormalAxiom} {T : Fact → Prop}
  {rules : RuleTable}

namespace State

variable {s : State o} {f : Fact} {n : Nat}

/-! ## The end of a run -/

/-- All facts on the given classes and properties. -/
def factsOver (classes : List ClassId) (properties : List PropertyId) : List Fact :=
  (classes.flatMap fun x => classes.map (.subsumer x)) ++
    properties.flatMap fun r => classes.flatMap fun x => classes.map (.edge r x)

/-- All facts on classes and properties of the vocabulary and on the reserved classes. -/
def formable (o : Ontology) : List Fact :=
  let known := .top :: .bottom :: o.classes
  (known.flatMap fun x => known.map (.subsumer x)) ++
    o.properties.flatMap fun r => known.flatMap fun x => known.map (.edge r x)

theorem formable_eq_factsOver (o : Ontology) :
    formable o = factsOver (.top :: .bottom :: o.classes) o.properties := rfl

theorem mem_factsOver {classes : List ClassId} (ho : o.Indexes v axioms)
    (hknown : ∀ c, IsKnown v c → c ∈ classes) (h : InUniverse v f) :
    f ∈ factsOver classes o.properties := by
  cases f with
  | subsumer x a =>
      refine List.mem_append_left _ (List.mem_flatMap.2 ⟨x, hknown x h.1, ?_⟩)
      exact List.mem_map_of_mem (hknown a h.2)
  | edge r x y =>
      refine List.mem_append_right _ (List.mem_flatMap.2 ⟨r, ho.properties.2 h.1, ?_⟩)
      exact List.mem_flatMap.2 ⟨x, hknown x h.2.1, List.mem_map_of_mem (hknown y h.2.2)⟩

theorem length_factsOver (classes : List ClassId) (properties : List PropertyId) :
    (factsOver classes properties).length = classes.length * classes.length +
      properties.length * (classes.length * classes.length) := by
  simp only [factsOver, List.length_append, List.length_flatMap, List.length_map, List.map_const',
    List.sum_replicate_nat]

theorem mem_formable (ho : o.Indexes v axioms) (h : InUniverse v f) : f ∈ formable o := by
  refine mem_factsOver ho (fun c hc => ?_) h
  rcases hc with hc | rfl | rfl
  · exact List.mem_cons_of_mem _ (List.mem_cons_of_mem _ (ho.classes.2 hc))
  · exact List.mem_cons_self ..
  · exact List.mem_cons_of_mem _ (List.mem_cons_self ..)

theorem length_formable_le (s : State o) : (formable o).length ≤ s.capacity := by
  have hknown : o.classes.length + 1 + 1 ≤ 2 + o.classes.length + 2 * s.factCount := by omega
  have hsubsumers := Nat.mul_le_mul hknown hknown
  have hedges := Nat.mul_le_mul (Nat.le_add_right o.properties.length s.edgeCount) hsubsumers
  simp only [formable_eq_factsOver, length_factsOver, capacity, List.length_cons, Nat.mul_assoc]
  omega

/-- There are no more derived facts than in a list of all facts that can be formed. -/
theorem Valid.factCount_le_length {facts : List Fact} (hs : s.Valid axioms (InUniverse v))
    (hall : ∀ f, InUniverse v f → f ∈ facts) : s.factCount ≤ facts.length := by
  obtain ⟨derived, hnodup, hmem, hlength, -⟩ := hs.coherent.counted
  have hsub : derived ⊆ facts := fun f hf => hall f (hs.facts ((hmem f).1 hf))
  calc s.factCount = derived.length := hlength.symm
    _ ≤ facts.length := (List.subperm_of_subset hnodup hsub).length_le

theorem Valid.factCount_le (ho : o.Indexes v axioms) (hs : s.Valid axioms (InUniverse v))
    (t : State o) : s.factCount ≤ t.capacity := by
  have hle := hs.factCount_le_length fun f hf => mem_formable ho hf
  exact hle.trans (length_formable_le t)

/-- A run has no more turns than there are facts. -/
theorem le_capacity_of_runs (ho : o.Indexes v axioms) (h : Runs o rules n s) (t : State o) :
    n + s.agenda.toList.length ≤ t.capacity := by
  obtain ⟨hvalid, hcount⟩ := valid_of_runs (closed_inUniverse ho.wellFormed ho.isOver) ho h
  exact hcount ▸ hvalid.factCount_le ho t

end State

open State

/-! ## The executed run -/

section Execution

variable {s t u : State o} {f : Fact} {n m steps : Nat} {limits : Limits}

theorem inOrder_foldl {α σ : Type} {body : α → σ → σ → Prop} {g : σ → α → σ} {P : σ → Prop}
    {items : List α} {s : σ} (h : ∀ a ∈ items, ∀ s, P s → body a s (g s a) ∧ P (g s a))
    (hs : P s) : InOrder body items s (items.foldl g s) := by
  induction items generalizing s with
  | nil => exact rfl
  | cons a items ih =>
      obtain ⟨hbody, hnext⟩ := h a (by simp) s hs
      exact ⟨g s a, hbody, ih (fun b hb => h b (by simp [hb])) hnext⟩

theorem RuleTable.applies_apply (hT : Closed v axioms T) (ho : o.Indexes v axioms)
    (hs : s.Valid axioms T) (hf : T f) : rules.Applies s (rules.apply s f) f := by
  cases f with
  | subsumer x a =>
      refine inOrder_foldl (P := (·.Valid axioms T)) (fun rule _ t ht => ?_) hs
      have hrule := applies_subsumerRule rule x a t
      exact ⟨hrule, (hrule.grows hT ho ht hf).valid ht⟩
  | edge r x y =>
      refine inOrder_foldl (P := (·.Valid axioms T)) (fun rule _ t ht => ?_) hs
      have hrule := applies_edgeRule ht.coherent rule r x y
      exact ⟨hrule, (hrule.advances hT ho ht hf).valid ht⟩

/-- The rules that are executed take one turn of the loop. -/
theorem next_of_pop? (hT : Closed v axioms T) (ho : o.Indexes v axioms) (hs : s.Valid axioms T)
    (h : s.pop? = some (f, t)) : Next rules s (rules.apply t f) := by
  have ht := hs.pop h
  obtain ⟨-, -, hf, -⟩ := hs.coherent.pop h
  exact ⟨f, t, h, RuleTable.applies_apply hT ho ht (hs.facts hf)⟩

theorem turns_of_runFor (ho : o.Indexes v axioms) (hs : s.Valid axioms (InUniverse v))
    (hst : Turns rules n s t) (h : rules.runFor limits steps n t = (.ok m, u)) :
    Turns rules m s u ∧ (u.agenda.toList = [] ∨ m = n + steps) := by
  have hU := closed_inUniverse ho.wellFormed ho.isOver
  induction steps generalizing n t with
  | zero =>
      obtain ⟨hm, rfl⟩ := Prod.mk.inj h
      obtain rfl := Except.ok.inj hm
      exact ⟨hst, .inr rfl⟩
  | succ steps ih =>
      rw [RuleTable.runFor] at h
      cases hpop : t.pop? with
      | none =>
          simp only [hpop, Prod.mk.injEq, Except.ok.injEq] at h
          obtain ⟨rfl, rfl⟩ := h
          exact ⟨hst, .inl (pop?_eq_none_iff.1 hpop)⟩
      | some popped =>
          obtain ⟨f, t'⟩ := popped
          cases hstop : limits.stop? with
          | some fault => simp [hpop, hstop] at h
          | none =>
              simp only [hpop, hstop] at h
              have hvalid := (hs.turns hU ho hst).1
              obtain ⟨hturns, hend⟩ := ih (.next hst (next_of_pop? hU ho hvalid hpop)) h
              exact ⟨hturns, hend.imp_right fun hm => by omega⟩

/-- A run that is not called off takes turns until the agenda is empty. -/
theorem turns_of_run (ho : o.Indexes v axioms) (hs : s.Valid axioms (InUniverse v))
    (h : rules.run limits s = (.ok n, u)) : Turns rules n s u ∧ u.agenda.toList = [] := by
  obtain ⟨hturns, hend⟩ := turns_of_runFor ho hs .refl h
  refine ⟨hturns, hend.elim id fun hn => List.eq_nil_of_length_eq_zero ?_⟩
  -- as many steps as facts wait and are allowed, so none of them is left to wait
  obtain ⟨hvalid, hcounts⟩ := hs.turns (closed_inUniverse ho.wellFormed ho.isOver) ho hturns
  have hle := hvalid.factCount_le ho s
  rw [Queue.size_eq_length] at hn
  omega

/-- A run that is not called off ends with an empty agenda. -/
theorem runs_of_run (ho : o.Indexes v axioms)
    (h : rules.run limits (.initial o) = (.ok n, s)) :
    Runs o rules n s ∧ s.agenda.toList = [] := by
  have hinitial := valid_initial (closed_inUniverse ho.wellFormed ho.isOver) ho
  exact (turns_of_run ho hinitial h).imp_left runs_iff_turns.2

theorem exists_runFor_of_stop? (rules : RuleTable) (hstop : limits.stop? = none) (steps n : Nat)
    (s : State o) : ∃ m u, rules.runFor limits steps n s = (.ok m, u) := by
  induction steps generalizing n s with
  | zero => exact ⟨n, s, rfl⟩
  | succ steps ih =>
      rw [RuleTable.runFor]
      cases s.pop? with
      | none => exact ⟨n, s, rfl⟩
      | some popped =>
          simp only [hstop]
          exact ih (n + 1) _

/-- A run that is not called off returns. -/
theorem exists_run_of_stop? (rules : RuleTable) (hstop : limits.stop? = none) (s : State o) :
    ∃ n u, rules.run limits s = (.ok n, u) := exists_runFor_of_stop? rules hstop _ 0 s

theorem exists_run_unlimited (rules : RuleTable) (s : State o) :
    ∃ n u, rules.run .unlimited s = (.ok n, u) := exists_run_of_stop? rules rfl s

end Execution

/-! ## Exactness -/

section Exactness

variable {s t : State o} {f : Fact} {n : Nat}

theorem mem_facts : f ∈ s.facts ↔ s.holds f = true := by
  rw [State.facts, List.mem_append, List.mem_map, List.mem_map]
  cases f with
  | subsumer x a =>
      constructor
      · rintro (⟨⟨x', a'⟩, hmem, heq⟩ | ⟨⟨⟨r, x'⟩, y⟩, -, heq⟩)
        · obtain ⟨rfl, rfl⟩ := Fact.subsumer.inj heq
          exact Multimap.mem_toList.1 hmem
        · exact absurd heq (by simp)
      · exact fun h => .inl ⟨(x, a), Multimap.mem_toList.2 h, rfl⟩
  | edge r x y =>
      constructor
      · rintro (⟨⟨x', a'⟩, -, heq⟩ | ⟨⟨⟨r', x'⟩, y'⟩, hmem, heq⟩)
        · exact absurd heq (by simp)
        · obtain ⟨rfl, rfl, rfl⟩ := Fact.edge.inj heq
          exact Multimap.mem_toList.1 hmem
      · exact fun h => .inr ⟨((r, x), y), Multimap.mem_toList.2 h, rfl⟩

/-- The rules add nothing to facts that are closed under them. -/
theorem holds_of_applies_closed (ho : o.Indexes v axioms)
    (hclosed : Closed v axioms (s.holds · = true)) (hs : s.Valid axioms (s.holds · = true))
    (hf : s.holds f = true) (h : rules.Applies s t f) : t.holds = s.holds := by
  have hst := h.advances hclosed ho hs hf
  exact funext fun g => Bool.eq_iff_iff.2 ⟨(hst.valid hs).facts, hst.keeps⟩

theorem holds_applyToAll_closed (ho : o.Indexes v axioms)
    (hclosed : Closed v axioms (s.holds · = true)) (hs : s.Valid axioms (s.holds · = true)) :
    (rules.applyToAll s).holds = s.holds := by
  have hfoldl : ∀ {facts : List Fact} {t : State o}, (∀ f ∈ facts, s.holds f = true) →
      t.Valid axioms (s.holds · = true) →
      Advances axioms (s.holds · = true) t (facts.foldl rules.apply t) := by
    intro facts
    induction facts with
    | nil => exact fun _ _ => .refl _
    | cons f facts ih =>
        intro t hfacts ht
        have hf := hfacts f (by simp)
        have happlies : rules.Applies t (rules.apply t f) f :=
          RuleTable.applies_apply hclosed ho ht hf
        have hstep := happlies.advances hclosed ho ht hf
        exact hstep.trans (ih (fun g hg => hfacts g (by simp [hg])) (hstep.valid ht))
  have hall := hfoldl (fun f hf => mem_facts.1 hf) hs
  exact funext fun g => Bool.eq_iff_iff.2 ⟨(hall.valid hs).facts, hall.keeps⟩

/-- The runs of all completion rules from the initial state of an ontology end, whatever the
orders that they go by, and end with the least set of facts that is closed under the rules, to
which no rule adds anything. The run that is executed is one of them. -/
theorem runs_exact (h : Ontology.build v axioms = .ok o) :
    (∀ n s, Runs o .full n s → n ≤ (State.initial o).capacity ∧
      (s.agenda.toList ≠ [] → ∃ t, Next .full s t)) ∧
    (∀ n s, Runs o .full n s → s.agenda.toList = [] →
      Closed v axioms (s.holds · = true) ∧
      (∀ T, Closed v axioms T → ∀ f, s.holds f = true → T f) ∧
      (∀ f, s.holds f = true → ∀ t, RuleTable.full.Applies s t f → t.holds = s.holds) ∧
      (RuleTable.full.applyToAll s).holds = s.holds) ∧
    ∃ n s, RuleTable.full.run .unlimited (.initial o) = (.ok n, s) ∧ Runs o .full n s ∧
      s.agenda.toList = [] := by
  have ho := Ontology.indexes_of_build h
  have hU := closed_inUniverse ho.wellFormed ho.isOver
  refine ⟨fun n s hs => ⟨?_, fun hagenda => ?_⟩, fun n s hs hempty => ?_, ?_⟩
  · have hle := le_capacity_of_runs ho hs (.initial o)
    omega
  · cases hpop : s.pop? with
    | none => exact absurd (pop?_eq_none_iff.1 hpop) hagenda
    | some popped => exact ⟨_, next_of_pop? hU ho (valid_of_runs hU ho hs).1 hpop⟩
  · have hclosed := (saturates_of_runs ho hs).closed ho hempty
    have hvalid := (valid_of_runs hclosed ho hs).1
    refine ⟨hclosed, fun T hT f => (valid_of_runs hT ho hs).1.facts, fun f hf t happly => ?_, ?_⟩
    · exact holds_of_applies_closed ho hclosed hvalid hf happly
    · exact holds_applyToAll_closed ho hclosed hvalid
  · obtain ⟨n, s, hrun⟩ := exists_run_unlimited .full (State.initial o)
    exact ⟨n, s, hrun, runs_of_run ho hrun⟩

/-- From `A ⊑ ∃r.{i}` and `∃r.{i} ⊑ B`, the run derives that `B` subsumes `A`. -/
theorem runs_exact_nominal_filler :
    ∃ (v : Vocabulary) (axioms : OrderedSet NormalAxiom) (o : Ontology) (a b : ClassId) (n : Nat)
      (s : State o), Ontology.build v axioms = .ok o ∧ (∃ c, IsNominal axioms c) ∧ a ≠ b ∧
      RuleTable.full.run .unlimited (.initial o) = (.ok n, s) ∧
      s.holds (.subsumer a b) = true := by
  let v := ((Vocabulary.initial.modifyTable fun t : NameTable .cls =>
    ((t.register "A").register "B").register "C").modifyTable fun t : NameTable .property =>
      t.register "r").modifyTable fun t : NameTable .individual => t.register "i"
  let forms : List NormalAxiom :=
    [.existsSuper ⟨2⟩ ⟨2⟩ ⟨4⟩, .nominal ⟨4⟩ ⟨0⟩, .existsSub ⟨2⟩ ⟨4⟩ ⟨3⟩]
  let axioms : OrderedSet NormalAxiom := .ofList forms compare
  have hmem : ∀ a ∈ forms, a ∈ axioms := fun a ha => OrderedSet.mem_ofList_iff.2 ha
  have haccept : ∀ a ∈ axioms, a.IsWellFormed ∧ a.IsOver (v.contains ·) := by
    intro a ha
    have ha : a ∈ forms := OrderedSet.mem_ofList_iff.1 ha
    simp only [forms, List.mem_cons, List.not_mem_nil, or_false] at ha
    rcases ha with rfl | rfl | rfl
    · exact ⟨trivial, rfl, rfl, rfl⟩
    · exact ⟨trivial, rfl, rfl⟩
    · exact ⟨trivial, rfl, rfl, rfl⟩
  have hbuild := Ontology.build_eq_ok.2 ⟨haccept, rfl⟩
  obtain ⟨-, hexact, n, s, hrun, hruns, hempty⟩ := runs_exact hbuild
  have hclosed := (hexact n s hruns hempty).1
  have hself : s.holds (.subsumer ⟨2⟩ ⟨2⟩) = true := hclosed.self rfl
  have hnominal : s.holds (.subsumer ⟨4⟩ ⟨4⟩) = true := hclosed.self rfl
  have hedge : s.holds (.edge ⟨2⟩ ⟨2⟩ ⟨4⟩) = true :=
    hclosed.existsSuper hself (hmem _ (by simp [forms]))
  have hsub : s.holds (.subsumer ⟨2⟩ ⟨3⟩) = true :=
    hclosed.existsSub hedge hnominal .refl (hmem _ (by simp [forms]))
  exact ⟨v, axioms, _, ⟨2⟩, ⟨3⟩, n, s, hbuild, ⟨⟨4⟩, ⟨0⟩, hmem _ (by simp [forms])⟩, by decide,
    hrun, hsub⟩

end Exactness

end OwlEl.Completion
