import OwlEl.Proofs.Completion.Accounting
import OwlEl.Proofs.Reasoner.Outcome

/-!
# What a classification has counted

The facts that have been taken from the agenda and those that wait are all derived facts, each
once (`takes_each_fact_once`). So a run that is not called off has as many turns as there are
facts, and the counts of a classification say so.
-/

namespace OwlEl.Reasoner

open Completion

variable {v w : Vocabulary} {axioms : OrderedSet NormalAxiom} {o : Ontology} {config : Config}
  {cancelled : Bool} {k : Classification}

theorem statistics_of_ofState {st : State o} {n : Nat}
    (h : Classification.ofState v st n = .ok k) :
    k.subsumption = st.subsumers ∧ k.edges = st.successors ∧
      k.statistics.subsumerFacts = st.subsumerCount ∧ k.statistics.edgeFacts = st.edgeCount ∧
      k.statistics.processedFacts = n := by
  obtain ⟨classes, -, h⟩ := except_bind_eq_ok.1 h
  obtain ⟨properties, -, h⟩ := except_bind_eq_ok.1 h
  obtain rfl := Except.ok.inj h
  exact ⟨rfl, rfl, rfl, rfl, rfl⟩

/-- The counts of a classification are those of its facts, and so many have been processed. -/
structure Counts (k : Classification) : Prop where
  subsumerFacts : k.statistics.subsumerFacts = k.subsumption.size
  edgeFacts : k.statistics.edgeFacts = k.edges.size
  processedFacts :
    k.statistics.processedFacts = k.statistics.subsumerFacts + k.statistics.edgeFacts

theorem counts_of_classifyNormal {forms : OrderedSet NormalAxiom}
    (h : classifyNormal config cancelled forms v = .ok k w) : Counts k := by
  obtain ⟨closed, o, n, st, -, hbuild, hrun, hanswers⟩ := classifyNormal_eq_ok.1 h
  have ho := Ontology.indexes_of_build hbuild
  obtain ⟨hruns, hagenda⟩ := runs_of_run ho hrun
  obtain ⟨hvalid, hcount⟩ :=
    State.valid_of_runs (closed_inUniverse ho.wellFormed ho.isOver) ho hruns
  obtain ⟨hsubsumption, hedges, hsubsumers, hedgeCount, hprocessed⟩ :=
    statistics_of_ofState hanswers
  obtain ⟨hsubsumerSize, hedgeSize⟩ := hvalid.coherent.counts
  refine ⟨?_, ?_, ?_⟩
  · rw [hsubsumers, hsubsumption, hsubsumerSize]
  · rw [hedgeCount, hedges, hedgeSize, Multimap.length_toList]
  · rw [hprocessed, hsubsumers, hedgeCount]
    rw [hagenda, List.length_nil, Nat.add_zero] at hcount
    exact hcount.symm

/-- Whatever is done to a state from the initial one on, the facts that have been taken from the
agenda and those that wait are together all derived facts, each once. So a run, in whatever order
it goes through sets, takes a fact in each of its turns, and a run that is not called off ends,
with an empty agenda, after as many turns as there are facts. There are no more of them than pairs
of classes, and triples of a property and two classes. The counts of a classification are these. -/
theorem takes_each_fact_once (hv : v.Reachable) (h : Ontology.build v axioms = .ok o) :
    (∀ ops taken (st : State o), Operation.Serves ops taken (.initial o) st →
      (taken ++ st.agenda.toList).Perm st.facts ∧ st.facts.Nodup ∧
        ∀ f, f ∈ st.facts ↔ st.holds f) ∧
    (∀ ops, Operation.Serves ops (Operation.performAll ops (.initial o)).1 (.initial o)
      (Operation.performAll ops (.initial o)).2) ∧
    (∀ rules n (st : State o), Runs o rules n st →
      (∃ ops taken, Operation.Serves ops taken (.initial o) st ∧ taken.length = n) ∧
      n + st.agenda.toList.length = st.subsumerCount + st.edgeCount ∧
      n ≤ o.classes.length * o.classes.length +
        o.properties.length * (o.classes.length * o.classes.length)) ∧
    (∀ (rules : RuleTable) (limits : Limits), limits.stop? = none →
      ∃ n st, rules.run limits (.initial o) = (.ok n, st)) ∧
    (∀ (rules : RuleTable) (limits : Limits) n (st : State o),
      rules.run limits (.initial o) = (.ok n, st) → Runs o rules n st ∧
      st.agenda.toList = [] ∧ n = st.subsumerCount + st.edgeCount) ∧
    ∀ config cancelled k w,
      ((∃ forms, classifyNormal config cancelled forms v = .ok k w) ∨
        ∃ axioms, classify config cancelled axioms v = .ok k w) → Counts k := by
  have ho := Ontology.indexes_of_build h
  refine ⟨fun ops taken st hserves => ⟨hserves.perm, st.nodup_facts, fun f => mem_facts⟩,
    fun ops => Operation.serves_performAll Operation.coherent_initial ops,
    fun rules n st hruns => ⟨exists_serves_of_runs hruns, turns_of_runs ho hv.wellFormed hruns⟩,
    fun rules limits hstop => exists_run_of_stop? rules hstop _,
    fun rules limits n st hrun => ?_, fun config cancelled k w hcall => ?_⟩
  · obtain ⟨hruns, hagenda⟩ := runs_of_run ho hrun
    have hturns := (turns_of_runs ho hv.wellFormed hruns).1
    rw [hagenda, List.length_nil, Nat.add_zero] at hturns
    exact ⟨hruns, hagenda, hturns⟩
  · rcases hcall with ⟨forms, hcall⟩ | ⟨axioms, hcall⟩
    · exact counts_of_classifyNormal hcall
    · obtain ⟨-, forms, u, -, hcall⟩ := classify_eq_ok.1 hcall
      exact counts_of_classifyNormal hcall

/-- With `A ⊑ ∃r.B` and `B ⊑ C`, a run takes all ten facts on `S` and the one on `R`. -/
theorem takes_each_fact_once_edge :
    ∃ (o : Ontology) (n : Nat) (st : State o) (taken : List Fact) (k : Classification)
      (w : Vocabulary), Vocabulary.sample.Reachable ∧
      Ontology.build .sample
        (.ofList [.existsSuper ⟨2⟩ ⟨2⟩ ⟨3⟩, .subsumption ⟨3⟩ ⟨4⟩] compare) = .ok o ∧
      RuleTable.full.run .unlimited (.initial o) = (.ok n, st) ∧
      .edge ⟨2⟩ ⟨2⟩ ⟨3⟩ ∈ taken ∧ .subsumer ⟨3⟩ ⟨4⟩ ∈ taken ∧ taken.Perm st.facts ∧
      taken.length = n ∧ n = 11 ∧
      classifyNormal .default false
        (.ofList [.existsSuper ⟨2⟩ ⟨2⟩ ⟨3⟩, .subsumption ⟨3⟩ ⟨4⟩] compare) .sample = .ok k w ∧
      k.statistics.processedFacts = 11 ∧ Counts k := by
  let forms : OrderedSet NormalAxiom :=
    .ofList [.existsSuper ⟨2⟩ ⟨2⟩ ⟨3⟩, .subsumption ⟨3⟩ ⟨4⟩] compare
  let o := Ontology.ofAxioms .sample forms.toList
  have hbuild : Ontology.build .sample forms = .ok o := by
    apply Ontology.build_ofList
    simp only [List.forall_mem_cons]
    exact ⟨⟨trivial, rfl, rfl, rfl⟩, ⟨trivial, rfl, rfl⟩, nofun⟩
  have hyields : Minting.yields (classifyNormal .default false forms)
      (fun k => k.statistics.processedFacts = 11) .sample = true := by cbv
  obtain ⟨k, w, hcall, hprocessed⟩ := Minting.exists_ok_of_yields hyields
  obtain ⟨hserves, -, hruns, hreturns, hends, hcounts⟩ :=
    takes_each_fact_once Vocabulary.reachable_sample hbuild
  obtain ⟨n, st, hrun⟩ := hreturns .full .unlimited rfl
  obtain ⟨hrunsTo, hagenda, hn⟩ := hends .full .unlimited n st hrun
  obtain ⟨⟨ops, taken, hops, hlength⟩, -⟩ := hruns .full n st hrunsTo
  obtain ⟨hperm, -, hfacts⟩ := hserves ops taken st hops
  rw [hagenda, List.append_nil] at hperm
  have hresult : (RuleTable.full.run .unlimited (State.initial o)).2 = st := by rw [hrun]
  have hedge : st.holds (.edge ⟨2⟩ ⟨2⟩ ⟨3⟩) = true := by
    rw [← hresult]
    decide +kernel
  have hsub : st.holds (.subsumer ⟨3⟩ ⟨4⟩) = true := by
    rw [← hresult]
    decide +kernel
  have hcount : st.subsumerCount + st.edgeCount = 11 := by
    rw [← hresult]
    decide +kernel
  exact ⟨o, n, st, taken, k, w, Vocabulary.reachable_sample, hbuild, hrun,
    hperm.mem_iff.2 ((hfacts _).2 hedge), hperm.mem_iff.2 ((hfacts _).2 hsub), hperm, hlength,
    hn.trans hcount, hcall, of_decide_eq_true hprocessed,
    hcounts .default false k w (.inl ⟨forms, hcall⟩)⟩

end OwlEl.Reasoner
