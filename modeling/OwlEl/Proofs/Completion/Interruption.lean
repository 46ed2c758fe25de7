import OwlEl.Proofs.Completion.Exactness

/-!
# Runs that are called off

A run tests whether it has been called off only after it has taken a fact from the
agenda, so that this fact is lost: it is no longer pending, and no rule has been applied
to it. What a run that is resumed arrives at is as much as an undisturbed run derives if
and only if no rule has anything to add for the lost facts (`resumed_run_agrees_iff`).

An inference from lost facts may be drawn all the same, from other premises or by
another trigger. The index of what is reachable is the hard part, as it is not closed
under lost edges: a path that it misses contains a lost edge by which it would find the
whole path (`IndexClosed.reaches_or_reveals`).
-/

namespace OwlEl.Completion

variable {axioms : OrderedSet NormalAxiom} {T D : Fact → Prop}

/-! ## Edges that the index has not taken note of -/

section Reveals

variable {r : Reachability} {x y : ClassId}

/-- Some edge of `T` but not of `D` brings `P` about when the index takes note of it, whatever else
the search finds. -/
def Reveals (T D : Fact → Prop) (r : Reachability) (P : Reachability → Prop) : Prop :=
  ∃ p a b, T (.edge p a b) ∧ ¬D (.edge p a b) ∧ ∀ successors r' news,
    (∀ {c d}, Leads T c d → d ∈ successors c) → Notes successors a b r r' news → P r'

/-- What brings `P` about brings about what follows from `P` by a search along derived edges. -/
theorem Reveals.imp {P Q : Reachability → Prop} (h : Reveals T D r P)
    (himp : ∀ successors a b r' news, (∀ {c d}, Leads T c d → d ∈ successors c) →
      Notes successors a b r r' news → P r' → Q r') : Reveals T D r Q := by
  obtain ⟨p, a, b, hT, hD, hP⟩ := h
  refine ⟨p, a, b, hT, hD, fun successors r' news hsuccessors hnotes => ?_⟩
  exact himp successors a b r' news hsuccessors hnotes (hP successors r' news hsuccessors hnotes)

variable (hr : IndexClosed axioms D r)

include hr

/-- A path is in the index, or is found by taking note of the edge at which the index ends. -/
theorem IndexClosed.contains_or_reveals_of_path (hmirrored : IsMirrored r) (hxy : Path T x y) :
    r.targets.contains x y = true ∨ Reveals T D r (·.targets.contains x y = true) := by
  -- an edge of the path whose source is reached
  have hedge : ∀ {b c : ClassId}, (b = x ∨ r.targets.contains x b = true) → Leads T b c →
      r.targets.contains x c = true ∨ Reveals T D r (·.targets.contains x c = true) := by
    intro b c hb ⟨p, hbc⟩
    by_cases hD : D (.edge p b c)
    · left
      rcases hb with rfl | hb
      · exact hr.edge ⟨p, hD⟩
      · exact hr.targets hb ⟨p, hD⟩
    · right
      refine ⟨p, b, c, hbc, hD, fun _ r' news _ hnotes => hnotes.targets_edge x ?_⟩
      apply List.mem_append.2
      rcases hb with rfl | hb
      · exact .inr (List.mem_singleton_self _)
      · exact .inl (Multimap.mem_values.2 (hmirrored.2 hb))
  induction hxy with
  | single hxy => exact hedge (.inl rfl) hxy
  | @tail b c _ hbc ih =>
      by_cases hb : r.targets.contains x b = true
      · exact hedge (.inr hb) hbc
      · right
        refine (ih.resolve_left hb).imp fun _ _ _ r' news hsuccessors hnotes hb' => ?_
        exact (hnotes.targets.closed hb').resolve_left hb c (hsuccessors hbc)

theorem IndexClosed.contains_or_reveals_of_fromNominal (hy : FromNominal axioms T y) :
    r.fromNominals.contains y = true ∨ Reveals T D r (·.fromNominals.contains y = true) := by
  obtain ⟨n, hn, hny⟩ := hy
  induction hny with
  | refl => exact .inl (hr.nominal hn)
  | @tail b c _ hbc ih =>
      by_cases hb : r.fromNominals.contains b = true
      · obtain ⟨p, hpbc⟩ := hbc
        by_cases hD : D (.edge p b c)
        · exact .inl (hr.fromNominals hb ⟨p, hD⟩)
        · exact .inr ⟨p, b, c, hpbc, hD, fun _ _ _ _ hnotes => hnotes.fromNominals_edge hb⟩
      · right
        refine (ih.resolve_left hb).imp fun _ _ _ r' news hsuccessors hnotes hb' => ?_
        have hnew := (hnotes.fromNominals.1 hb').resolve_right hb
        exact hnotes.fromNominals_closed b hnew c (hsuccessors hbc)

/-- What edges make reachable the index says, or it comes to say so by taking note of an edge that
it has not taken note of. -/
theorem IndexClosed.reaches_or_reveals (hmirrored : IsMirrored r) (hxy : Reaches axioms T x y) :
    r.reaches x y = true ∨ Reveals T D r (·.reaches x y = true) := by
  simp only [reaches_eq_true]
  rcases reaches_iff.1 hxy with rfl | hy | hxy
  · exact .inl (.inl rfl)
  · refine (hr.contains_or_reveals_of_fromNominal hy).imp (fun hy => .inr (.inl hy)) fun h => ?_
    exact h.imp fun _ _ _ _ _ _ _ hy => .inr (.inl hy)
  · refine (hr.contains_or_reveals_of_path hmirrored hxy).imp (fun hxy => .inr (.inr hxy))
      fun h => ?_
    exact h.imp fun _ _ _ _ _ _ _ hxy => .inr (.inr hxy)

end Reveals

/-! ## Facts that add nothing -/

variable {o : Ontology} {v : Vocabulary}

namespace State

variable {s t u : State o} {f : Fact} {premises : List Fact} {conclusion : Fact}

/-- No rule adds anything when it is applied to the fact. -/
def IsIdle (s : State o) (f : Fact) : Prop :=
  ∀ t, RuleTable.full.Applies s t f → t.holds = s.holds

section Idle

variable (ho : o.Indexes v axioms) (hs : s.Draws v axioms D)
  (hidle : ∀ f, s.holds f = true → D f ∨ s.IsIdle f)

include ho hs hidle

/-- What is inferred by the index holds if all premises have been processed, and otherwise because
there is an idle one. -/
theorem Draws.holds_of_inference
    (hinfer : Inference axioms (s.reachability.reaches · · = true) premises conclusion)
    (hall : ∀ p ∈ premises, s.holds p = true) : s.holds conclusion = true := by
  by_cases hD : ∀ p ∈ premises, D p
  · exact hs.infers hinfer hD
  · simp only [not_forall] at hD
    obtain ⟨f, hmem, hf⟩ := hD
    have hholds := hall f hmem
    have happly : RuleTable.full.Applies s (RuleTable.full.apply s f) f :=
      RuleTable.applies_apply (closed_inUniverse ho.wellFormed ho.isOver) ho hs.valid
        (hs.valid.facts hholds)
    rw [← (hidle f hholds).resolve_left hf _ happly]
    exact holds_of_applies ho hs.valid hholds happly hinfer hmem hall

/-- When all facts that have not been processed are idle, the facts are closed under the rules. -/
theorem Draws.closed_of_idle : Closed v axioms (s.holds · = true) := by
  refine closed_of_axiomatic ho hs.axiomatic fun {premises conclusion} hinfer hall => ?_
  have hreaches : Inference axioms (fun x y => s.reachability.reaches x y = true ∨
      o.hasNominals = true ∧ Reveals (s.holds · = true) D s.reachability (·.reaches x y = true))
      premises conclusion := by
    refine hinfer.imp fun {n x y} hn hxy => ?_
    have hnominals := ho.hasNominals hn
    exact ((hs.index hnominals).reaches_or_reveals hs.valid.mirrored hxy).imp_right
      fun h => ⟨hnominals, h⟩
  rcases hreaches.or with hinfer | ⟨n, x, y, a, hn, ⟨hnominals, hreveals⟩, rfl, rfl⟩
  · exact hs.holds_of_inference ho hidle hinfer hall
  -- the edge that the index lacks is idle, and by it the rule on nominals is applied
  obtain ⟨p, c, d, hedge, hD, hreached⟩ := hreveals
  have happly : RuleTable.full.Applies s (RuleTable.full.apply s (.edge p c d)) (.edge p c d) :=
    RuleTable.applies_apply (closed_inUniverse ho.wellFormed ho.isOver) ho hs.valid
      (hs.valid.facts hedge)
  obtain ⟨successors, news, hsuccessors, hnotes⟩ :=
    notes_of_applies_edge ho hs.valid hedge happly hnominals
  have hxy := hreached successors _ news hsuccessors hnotes
  rcases holds_of_applies_edge ho hs.valid hedge happly (.nominal hn hxy) hall with
    hconclusion | ⟨-, hinfer⟩
  · rwa [(hidle _ hedge).resolve_left hD _ happly] at hconclusion
  · exact hs.holds_of_inference ho hidle hinfer hall

end Idle

end State

open State

/-! ## Interruptions -/

/-- The state is reached from the initial one by turns of the loop and by runs that are called off,
and these have lost the given facts. -/
inductive Interrupted (o : Ontology) : List Fact → State o → Prop
  | start : Interrupted o [] (.initial o)
  | next {lost s t} (hs : Interrupted o lost s) (hst : Next .full s t) : Interrupted o lost t
  | stop {lost s t f rest limits fault} (hs : Interrupted o lost s)
      (hagenda : s.agenda.toList = f :: rest)
      (hrun : RuleTable.full.run limits s = (.error fault, t)) : Interrupted o (f :: lost) t

section Interruptions

variable {rules : RuleTable} {limits : Limits} {fault : Fault} {lost : List Fact} {n : Nat}
  {s t u w : State o} {f : Fact} {rest : List Fact}

theorem run_of_empty (h : s.agenda.toList = []) :
    rules.run limits s = (.ok 0, s) := by
  rw [RuleTable.run]
  cases s.agenda.size + s.capacity with
  | zero => rfl
  | succ steps => rw [RuleTable.runFor, pop?_eq_none_iff.2 h]

/-- A run that is called off has taken the oldest fact from the agenda and done nothing else. -/
theorem run_of_stop? (hstop : limits.stop? = some fault) (hpop : s.pop? = some (f, t)) :
    rules.run limits s = (.error fault, t) := by
  obtain ⟨agenda, hagenda, -⟩ := pop?_eq_some hpop
  have hsize : s.agenda.size + s.capacity = agenda.toList.length + s.capacity + 1 := by
    rw [Queue.size_eq_length, hagenda, List.length_cons]
    omega
  rw [RuleTable.run, hsize, RuleTable.runFor, hpop]
  simp only [hstop]

theorem exists_pop? (h : s.agenda.toList = f :: rest) :
    ∃ agenda, agenda.toList = rest ∧ s.pop? = some (f, { s with agenda }) := by
  cases hpop : s.pop? with
  | none =>
      rw [pop?_eq_none_iff.1 hpop] at h
      exact absurd h (by simp)
  | some popped =>
      obtain ⟨agenda, hagenda, heq⟩ := pop?_eq_some hpop
      rw [h] at hagenda
      obtain ⟨hf, hrest⟩ := List.cons.inj hagenda
      exact ⟨agenda, hrest.symm, congrArg some (Prod.ext hf.symm heq.symm)⟩

/-- A run fails only when it is called off. -/
theorem pop?_of_run_eq_error (h : rules.run limits s = (.error fault, t))
    (hagenda : s.agenda.toList = f :: rest) : s.pop? = some (f, t) := by
  obtain ⟨agenda, -, hpop⟩ := exists_pop? hagenda
  cases hstop : limits.stop? with
  | none =>
      obtain ⟨n, u, hrun⟩ := exists_run_of_stop? rules hstop s
      rw [hrun] at h
      exact absurd (Prod.mk.inj h).1 (by simp)
  | some fault' =>
      rw [run_of_stop? hstop hpop] at h
      rw [hpop, (Prod.mk.inj h).2]

theorem Interrupted.turns (hs : Interrupted o lost s) (h : Turns .full n s u) :
    Interrupted o lost u := by
  induction h with
  | refl => exact hs
  | next _ htu ih => exact .next (ih hs) htu

theorem Interrupted.valid (ho : o.Indexes v axioms) (hT : Closed v axioms T)
    (h : Interrupted o lost s) : s.Valid axioms T := by
  induction h with
  | start => exact valid_initial hT ho
  | next _ hst ih => exact (ih.next hT ho hst).1
  | stop _ hagenda hrun ih => exact ih.pop (pop?_of_run_eq_error hrun hagenda)

/-- Of the facts that no longer wait, all but the lost ones have been processed. -/
theorem Interrupted.draws (ho : o.Indexes v axioms) (h : Interrupted o lost s) :
    ∃ D : Fact → Prop, s.Draws v axioms D ∧ ∀ f, s.IsSettled f → D f ∨ f ∈ lost := by
  have hU := closed_inUniverse ho.wellFormed ho.isOver
  induction h with
  | start =>
      refine ⟨fun _ => False, draws_initial ho, fun f hf => ?_⟩
      exact absurd ((grows_initial hU ho).settled.1 hf).1 holds_empty
  | next hs hst ih =>
      obtain ⟨D, hdraws, hsettled⟩ := ih
      obtain ⟨f, t, hpop, happly⟩ := hst
      obtain ⟨-, hholds, hf, hpops, -⟩ := hdraws.valid.coherent.pop hpop
      have ht := hdraws.pop hpop
      have htu := happly.advances hU ho ht.valid (ht.valid.facts (hholds.2 hf))
      refine ⟨_, ht.process ho (hholds.2 hf) happly, fun g hg => ?_⟩
      rcases hpops.1 (htu.settled.1 hg) with hg | rfl
      · exact (hsettled g hg).imp_left .inl
      · exact .inl (.inr rfl)
  | stop hs hagenda hrun ih =>
      obtain ⟨D, hdraws, hsettled⟩ := ih
      have hpop := pop?_of_run_eq_error hrun hagenda
      obtain ⟨-, -, -, hpops, -⟩ := hdraws.valid.coherent.pop hpop
      refine ⟨D, hdraws.pop hpop, fun g hg => ?_⟩
      rcases hpops.1 hg with hg | rfl
      · exact (hsettled g hg).imp_right (List.mem_cons_of_mem _)
      · exact .inr (List.mem_cons_self ..)

/-- A run that goes on after interruptions comes to its end. -/
theorem Interrupted.exists_run (ho : o.Indexes v axioms) (hs : Interrupted o lost s)
    (hstop : limits.stop? = none) : ∃ n u, RuleTable.full.run limits s = (.ok n, u) ∧
      Interrupted o lost u ∧ u.agenda.toList = [] := by
  obtain ⟨n, u, hrun⟩ := exists_run_of_stop? .full hstop s
  have hvalid := hs.valid ho (closed_inUniverse ho.wellFormed ho.isOver)
  obtain ⟨hturns, hagenda⟩ := turns_of_run ho hvalid hrun
  exact ⟨n, u, hrun, hs.turns hturns, hagenda⟩

theorem Interrupted.holds_of_mem (ho : o.Indexes v axioms) (h : Interrupted o lost s) :
    ∀ f ∈ lost, s.holds f = true := by
  have hU := closed_inUniverse ho.wellFormed ho.isOver
  induction h with
  | start => exact fun f hf => absurd hf List.not_mem_nil
  | next hs hst ih =>
      intro f hf
      obtain ⟨g, t, hpop, happly⟩ := hst
      have hvalid := hs.valid ho hU
      obtain ⟨-, hholds, hg, -⟩ := hvalid.coherent.pop hpop
      have ht := hvalid.pop hpop
      exact (happly.advances hU ho ht (ht.facts (hholds.2 hg))).keeps (hholds.2 (ih f hf))
  | stop hs hagenda hrun ih =>
      have hpop := pop?_of_run_eq_error hrun hagenda
      obtain ⟨-, hholds, hf, -⟩ := (hs.valid ho hU).coherent.pop hpop
      exact List.forall_mem_cons.2 ⟨hholds.2 hf, fun g hg => hholds.2 (ih g hg)⟩

/-- At its end an interrupted run has derived as much as any run if and only if the lost facts are
idle. -/
theorem Interrupted.holds_eq_iff (ho : o.Indexes v axioms) (hu : Interrupted o lost u)
    (huagenda : u.agenda.toList = []) (hw : Runs o .full n w) (hwagenda : w.agenda.toList = []) :
    u.holds = w.holds ↔ ∀ f ∈ lost, u.IsIdle f := by
  have hwclosed := (saturates_of_runs ho hw).closed ho hwagenda
  constructor
  · intro heq f hf t happly
    have hclosed : Closed v axioms (u.holds · = true) := heq ▸ hwclosed
    exact holds_of_applies_closed ho hclosed (hu.valid ho hclosed) (hu.holds_of_mem ho f hf) happly
  · intro hidle
    obtain ⟨D, hdraws, hsettled⟩ := hu.draws ho
    have hclosed := hdraws.closed_of_idle ho fun f hf =>
      (hsettled f ((isSettled_of_agenda huagenda).2 hf)).imp_right (hidle f)
    funext f
    apply Bool.eq_iff_iff.2
    exact ⟨(hu.valid ho hwclosed).facts, (valid_of_runs hclosed ho hw).1.facts⟩

/-- A run that is called off loses the oldest fact of the agenda and leaves the derived facts as
they are. However often this happens and whatever turns are taken in between, a run that goes on
afterwards ends with an empty agenda, and derives nothing that an undisturbed run does not derive;
it derives as much if and only if no rule has anything to add when it is applied to the lost
facts. -/
theorem resumed_run_agrees_iff (h : Ontology.build v axioms = .ok o) :
    (∀ (rules : RuleTable) limits fault, limits.stop? = some fault → ∀ s : State o,
      (s.agenda.toList = [] → rules.run limits s = (.ok 0, s)) ∧
      ∀ f rest, s.agenda.toList = f :: rest → ∃ agenda, agenda.toList = rest ∧
        rules.run limits s = (.error fault, { s with agenda })) ∧
    (∀ lost (s : State o), Interrupted o lost s → ∀ limits, limits.stop? = none →
      ∃ n u, RuleTable.full.run limits s = (.ok n, u) ∧ Interrupted o lost u ∧
        u.agenda.toList = []) ∧
    ∀ lost (u : State o), Interrupted o lost u → u.agenda.toList = [] →
      ∀ n w, Runs o .full n w → w.agenda.toList = [] →
        (∀ f, u.holds f = true → w.holds f = true) ∧
        (u.holds = w.holds ↔ ∀ f ∈ lost, u.IsIdle f) := by
  have ho := Ontology.indexes_of_build h
  refine ⟨fun rules limits fault hstop s => ⟨run_of_empty, fun f rest hagenda => ?_⟩,
    fun lost s hs limits hstop => hs.exists_run ho hstop, ?_⟩
  · obtain ⟨agenda, hrest, hpop⟩ := exists_pop? hagenda
    exact ⟨agenda, hrest, run_of_stop? hstop hpop⟩
  · intro lost u hu huagenda n w hw hwagenda
    have hclosed := (saturates_of_runs ho hw).closed ho hwagenda
    exact ⟨fun f => (hu.valid ho hclosed).facts, hu.holds_eq_iff ho huagenda hw hwagenda⟩

/-- A run of a limited number of turns that leaves facts waiting has taken all of its turns. -/
theorem runs_of_waiting (ho : o.Indexes v axioms) {steps : Nat}
    (hs : (rules.runFor .unlimited steps 0 (.initial o)).2 = s)
    (hagenda : s.agenda.toList = f :: rest) : Runs o rules steps s := by
  have hstop : Limits.unlimited.stop? = none := rfl
  obtain ⟨m, u, hrun⟩ := exists_runFor_of_stop? rules hstop steps 0 (.initial o)
  rw [hrun] at hs
  obtain rfl : u = s := hs
  have hinitial := valid_initial (closed_inUniverse ho.wellFormed ho.isOver) ho
  obtain ⟨hturns, hend⟩ := turns_of_runFor ho hinitial .refl hrun
  obtain rfl : m = steps := by
    rcases hend with hempty | hm
    · rw [hempty] at hagenda
      exact absurd hagenda (by simp)
    · omega
  exact runs_iff_turns.2 hturns

theorem Interrupted.of_runs (h : Runs o .full n s) : Interrupted o [] s := by
  induction h with
  | start => exact .start
  | next _ hst ih => exact ih.next hst

/-- A run that is called off before its next turn loses the fact that would be processed in it. -/
theorem exists_interrupted (ho : o.Indexes v axioms) {steps : Nat}
    (hhead : (RuleTable.full.runFor .unlimited steps 0 (.initial o)).2.agenda.toList.head? =
      some f) :
    ∃ s t rest, (RuleTable.full.runFor .unlimited steps 0 (.initial o)).2 = s ∧
      Runs o .full steps s ∧ RuleTable.full.run ⟨true, none⟩ s = (.error .cancelled, t) ∧
      s.agenda.toList = f :: rest ∧ t.agenda.toList = rest ∧ Interrupted o [f] t := by
  obtain ⟨s, hs⟩ : ∃ s, (RuleTable.full.runFor .unlimited steps 0 (.initial o)).2 = s := ⟨_, rfl⟩
  rw [hs] at hhead
  obtain ⟨rest, hagenda⟩ : ∃ rest, s.agenda.toList = f :: rest :=
    ⟨_, (List.cons_head?_tail hhead).symm⟩
  have hruns := runs_of_waiting ho hs hagenda
  obtain ⟨agenda, hrest, hpop⟩ := exists_pop? hagenda
  have hrun : RuleTable.full.run ⟨true, none⟩ s = (.error .cancelled, { s with agenda }) :=
    run_of_stop? rfl hpop
  exact ⟨s, _, rest, hs, hruns, hrun, hagenda, hrest, .stop (.of_runs hruns) hagenda hrun⟩

end Interruptions

/-! ## What an interruption may lose -/

/-- With `A ⊑ B`, a run that is called off after three turns loses that `A` is included in itself,
and a run that goes on then misses that `A` is included in `B`. -/
theorem resumed_run_misses_inclusion :
    ∃ (axioms : OrderedSet NormalAxiom) (o : Ontology) (s t u w : State o) (f : Fact) (m n : Nat),
      Ontology.build .sample axioms = .ok o ∧ Runs o .full 3 s ∧
      RuleTable.full.run ⟨true, none⟩ s = (.error .cancelled, t) ∧
      f ∈ s.agenda.toList ∧ f ∉ t.agenda.toList ∧
      RuleTable.full.run .unlimited t = (.ok m, u) ∧
      RuleTable.full.run .unlimited (.initial o) = (.ok n, w) ∧
      w.holds (.subsumer ⟨2⟩ ⟨3⟩) = true ∧ ¬u.holds (.subsumer ⟨2⟩ ⟨3⟩) = true := by
  let axioms : OrderedSet NormalAxiom := .ofList [.subsumption ⟨2⟩ ⟨3⟩] compare
  let o := Ontology.ofAxioms .sample axioms.toList
  have hbuild : Ontology.build .sample axioms = .ok o := by
    apply Ontology.build_ofList
    simp only [List.forall_mem_cons]
    exact ⟨⟨trivial, rfl, rfl⟩, nofun⟩
  have hhead : (RuleTable.full.runFor .unlimited 3 0 (.initial o)).2.agenda.toList.head? =
      some (.subsumer ⟨2⟩ ⟨2⟩) := by decide +kernel
  obtain ⟨s, t, rest, hs, hruns, ht, hagenda, hrest, -⟩ :=
    exists_interrupted (Ontology.indexes_of_build hbuild) hhead
  obtain ⟨m, u, hu⟩ := exists_run_unlimited .full t
  obtain ⟨n, w, hw⟩ := exists_run_unlimited .full (State.initial o)
  have ht' : (RuleTable.full.run ⟨true, none⟩ s).2 = t := by rw [ht]
  have hu' : (RuleTable.full.run .unlimited t).2 = u := by rw [hu]
  have hw' : (RuleTable.full.run .unlimited (.initial o)).2 = w := by rw [hw]
  refine ⟨axioms, o, s, t, u, w, .subsumer ⟨2⟩ ⟨2⟩, m, n, hbuild, hruns, ht, ?_, ?_, hu, hw, ?_, ?_⟩
  · rw [hagenda]
    exact List.mem_cons_self ..
  · rw [← ht', ← hs]
    decide +kernel
  · rw [← hw']
    decide +kernel
  · rw [← hu', ← ht', ← hs]
    decide +kernel

/-- With `A ⊑ ∃r.B`, `B ⊑ C` and `∃r.C ⊑ B`, a run that is called off after nine turns loses the
edge from `A` to `B`, and a run that goes on misses nothing, since that `B` is included in `C` is
processed later. -/
theorem resumed_run_agrees_iff_edge :
    ∃ (axioms : OrderedSet NormalAxiom) (o : Ontology) (u w : State o) (n : Nat),
      Ontology.build .sample axioms = .ok o ∧ Interrupted o [.edge ⟨2⟩ ⟨2⟩ ⟨3⟩] u ∧
      u.agenda.toList = [] ∧ Runs o .full n w ∧ w.agenda.toList = [] ∧
      w.holds (.subsumer ⟨2⟩ ⟨3⟩) = true ∧ u.holds = w.holds ∧
      u.IsIdle (.edge ⟨2⟩ ⟨2⟩ ⟨3⟩) := by
  let axioms : OrderedSet NormalAxiom :=
    .ofList [.existsSuper ⟨2⟩ ⟨2⟩ ⟨3⟩, .subsumption ⟨3⟩ ⟨4⟩, .existsSub ⟨2⟩ ⟨4⟩ ⟨3⟩] compare
  let o := Ontology.ofAxioms .sample axioms.toList
  have hbuild : Ontology.build .sample axioms = .ok o := by
    apply Ontology.build_ofList
    simp only [List.forall_mem_cons]
    exact ⟨⟨trivial, rfl, rfl, rfl⟩, ⟨trivial, rfl, rfl⟩, ⟨trivial, rfl, rfl, rfl⟩, nofun⟩
  have ho := Ontology.indexes_of_build hbuild
  have hhead : (RuleTable.full.runFor .unlimited 9 0 (.initial o)).2.agenda.toList.head? =
      some (.edge ⟨2⟩ ⟨2⟩ ⟨3⟩) := by decide +kernel
  obtain ⟨s, t, rest, hs, -, ht, -, -, hinterrupted⟩ := exists_interrupted ho hhead
  obtain ⟨-, hresumes, hends⟩ := resumed_run_agrees_iff hbuild
  obtain ⟨m, u, hresumed, hu, huagenda⟩ := hresumes _ t hinterrupted .unlimited rfl
  obtain ⟨n, w, hrun⟩ := exists_run_unlimited .full (State.initial o)
  obtain ⟨hruns, hwagenda⟩ := runs_of_run ho hrun
  have ht' : (RuleTable.full.run ⟨true, none⟩ s).2 = t := by rw [ht]
  have hu' : (RuleTable.full.run .unlimited t).2 = u := by rw [hresumed]
  have hw' : (RuleTable.full.run .unlimited (.initial o)).2 = w := by rw [hrun]
  have hfacts : u.facts = w.facts := by
    rw [← hu', ← hw', ← ht', ← hs]
    decide +kernel
  have hholds : u.holds = w.holds := by
    funext f
    apply Bool.eq_iff_iff.2
    rw [← mem_facts, ← mem_facts, hfacts]
  have hw : w.holds (.subsumer ⟨2⟩ ⟨3⟩) = true := by
    rw [← hw']
    decide +kernel
  obtain ⟨-, hagrees⟩ := hends _ u hu huagenda n w hruns hwagenda
  exact ⟨axioms, o, u, w, n, hbuild, hu, huagenda, hruns, hwagenda, hw, hholds,
    hagrees.1 hholds _ (List.mem_cons_self ..)⟩

end OwlEl.Completion
