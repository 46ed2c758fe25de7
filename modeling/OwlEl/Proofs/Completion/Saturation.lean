import OwlEl.Proofs.Completion.Completeness

/-!
# Invariants of a run

Two invariants hold of the states of a run. They are valid for every closed set of facts
(`valid_of_runs`), whatever the table of rules; and with all rules the conclusion of every
inference from settled facts is derived (`saturates_of_runs`), so that nothing is missing
once no fact waits.
-/

namespace OwlEl.Completion

variable {o : Ontology} {v : Vocabulary} {axioms : OrderedSet NormalAxiom} {T : Fact → Prop}
  {rules : RuleTable}

namespace State

variable {s t u : State o} {f g : Fact} {n : Nat}

/-! ## The initial state -/

theorem contains_empty_iff {κ ν : Type} [Ord κ] [Ord ν] [Std.TransOrd κ] {k : κ} {c : ν} {p : Prop}
    (hp : ¬p) : (∅ : Multimap κ ν).contains k c = true ↔ p := by
  rw [Multimap.contains_empty]
  exact iff_of_false Bool.false_ne_true hp

theorem holds_empty : ¬(State.empty o).holds f = true := by
  have hnone : (State.empty o).holds f = false := by
    cases f with
    | subsumer x a => exact Multimap.contains_empty (k := x) (v := a)
    | edge r x y => exact Multimap.contains_empty (k := (r, x)) (v := y)
  exact Bool.eq_false_iff.1 hnone

theorem coherent_empty : (State.empty o).Coherent where
  nominalMembers := contains_empty_iff fun h => holds_empty h.2
  predecessors := contains_empty_iff holds_empty
  propertiesFrom := contains_empty_iff fun ⟨_, h⟩ => holds_empty h
  propertiesInto := contains_empty_iff fun ⟨_, h⟩ => holds_empty h
  waiting := by simp [State.empty]
  once := by simp [State.empty]
  counted := ⟨[], List.nodup_nil, fun f => iff_of_false List.not_mem_nil holds_empty, rfl, rfl⟩

theorem valid_empty (ho : o.Indexes v axioms) : (State.empty o).Valid axioms T where
  coherent := coherent_empty
  facts h := absurd h holds_empty
  index :=
    { fromNominals := fun hc => ⟨_, ho.isNominalClass.1 hc, .refl⟩
      targets := fun h => absurd ((contains_empty_iff not_false).1 h) not_false }
  mirrored := contains_empty_iff fun h => (contains_empty_iff not_false).1 h

theorem mem_axiomatic : f ∈ axiomatic o ↔
    (∃ x ∈ o.classes, f = .subsumer x x ∨ f = .subsumer x .top) ∨
      ∃ r ∈ o.reflexive, ∃ x ∈ o.classes, f = .edge r x x := by
  simp [axiomatic, eq_comm]

theorem grows_initial (hT : Closed v axioms T) (ho : o.Indexes v axioms) :
    Grows T (State.empty o) (.initial o) := by
  refine grows_addAll fun f hf => ?_
  rcases mem_axiomatic.1 hf with ⟨x, hx, rfl | rfl⟩ | ⟨r, hr, x, hx, rfl⟩
  · exact hT.self (ho.classes.1 hx)
  · exact hT.top (ho.classes.1 hx)
  · exact hT.reflexive (ho.reflexive.1 hr) (ho.classes.1 hx)

/-! ## Taking a fact from the agenda -/

theorem pop?_eq_some (h : s.pop? = some (f, t)) :
    ∃ agenda, s.agenda.toList = f :: agenda.toList ∧ { s with agenda } = t := by
  obtain ⟨⟨f', agenda⟩, hpop, heq⟩ := Option.map_eq_some_iff.1 h
  obtain ⟨rfl, rfl⟩ := Prod.mk.inj heq
  exact ⟨agenda, Queue.pop?_eq_some hpop, rfl⟩

theorem pop?_eq_none_iff : s.pop? = none ↔ s.agenda.toList = [] := by
  rw [pop?, Option.map_eq_none_iff, Queue.pop?_eq_none_iff]

/-- Taking a fact from the agenda settles it and changes nothing else. -/
theorem Coherent.pop (hs : s.Coherent) (h : s.pop? = some (f, t)) :
    t.Coherent ∧ (∀ {g}, t.holds g = true ↔ s.holds g = true) ∧ s.holds f = true ∧
      (∀ {g}, t.IsSettled g ↔ s.IsSettled g ∨ g = f) ∧ t.reachability = s.reachability ∧
        t.factCount = s.factCount ∧ s.agenda.toList.length = t.agenda.toList.length + 1 := by
  obtain ⟨agenda, hagenda, rfl⟩ := pop?_eq_some h
  have hnodup := hs.once
  rw [hagenda] at hnodup
  have hf : s.holds f = true := hs.waiting f (hagenda ▸ List.mem_cons_self ..)
  refine ⟨⟨hs.nominalMembers, hs.predecessors, hs.propertiesFrom, hs.propertiesInto, ?_, ?_,
    hs.counted⟩, Iff.rfl, hf, fun {g} => ?_, rfl, rfl, by rw [hagenda, List.length_cons]⟩
  · exact fun g hg => hs.waiting g (hagenda ▸ List.mem_cons_of_mem f hg)
  · exact hnodup.of_cons
  · show (s.holds g = true ∧ g ∉ agenda.toList) ↔ (s.holds g = true ∧ g ∉ s.agenda.toList) ∨ g = f
    rw [hagenda, List.mem_cons, not_or]
    constructor
    · intro ⟨hg, hwaits⟩
      by_cases hgf : g = f
      · exact .inr hgf
      · exact .inl ⟨hg, hgf, hwaits⟩
    · rintro (⟨hg, -, hwaits⟩ | rfl)
      · exact ⟨hg, hwaits⟩
      · exact ⟨hf, (List.nodup_cons.1 hnodup).1⟩

theorem Valid.pop (hs : s.Valid axioms T) (h : s.pop? = some (f, t)) : t.Valid axioms T := by
  obtain ⟨ht, hholds, -, -, hindex, -⟩ := hs.coherent.pop h
  exact ⟨ht, fun hf => hs.facts (hholds.1 hf), hindex ▸ hs.index, hindex ▸ hs.mirrored⟩

/-! ## Every run -/

theorem Valid.next (hT : Closed v axioms T) (ho : o.Indexes v axioms) (hs : s.Valid axioms T)
    (h : Next rules s u) : u.Valid axioms T ∧
      u.factCount + s.agenda.toList.length = s.factCount + u.agenda.toList.length + 1 := by
  obtain ⟨f, t, hpop, happly⟩ := h
  obtain ⟨-, -, hf, -, -, hcount, hlength⟩ := hs.coherent.pop hpop
  have htu := happly.advances hT ho (hs.pop hpop) (hs.facts hf)
  refine ⟨htu.valid (hs.pop hpop), ?_⟩
  have hcounts := htu.counts
  omega

/-- With every turn one more of the derived facts has been taken from the agenda. -/
theorem Valid.turns (hT : Closed v axioms T) (ho : o.Indexes v axioms) (hs : s.Valid axioms T)
    (h : Turns rules n s u) : u.Valid axioms T ∧
      u.factCount + s.agenda.toList.length = s.factCount + u.agenda.toList.length + n := by
  induction h with
  | refl => exact ⟨hs, rfl⟩
  | next _ hnext ih =>
      obtain ⟨hvalid, hcounts⟩ := ih hs
      obtain ⟨hvalid', hcounts'⟩ := hvalid.next hT ho hnext
      exact ⟨hvalid', by omega⟩

theorem valid_initial (hT : Closed v axioms T) (ho : o.Indexes v axioms) :
    (State.initial o).Valid axioms T := (grows_initial hT ho).valid (valid_empty ho)

/-- The states of a run are valid for every closed set of facts, and all derived facts but those
that wait have been processed. -/
theorem valid_of_runs (hT : Closed v axioms T) (ho : o.Indexes v axioms) (h : Runs o rules n s) :
    s.Valid axioms T ∧ s.factCount = n + s.agenda.toList.length := by
  obtain ⟨hvalid, hcounts⟩ := (valid_initial hT ho).turns hT ho (runs_iff_turns.1 h)
  have hinitial : (State.initial o).factCount + 0 =
      0 + (State.initial o).agenda.toList.length := (grows_initial hT ho).counts
  exact ⟨hvalid, by omega⟩

/-! ## Saturation -/

/-- All that is inferred from facts of `D`, which are derived, is derived too. -/
structure Draws (v : Vocabulary) (axioms : OrderedSet NormalAxiom) (D : Fact → Prop)
    (s : State o) : Prop where
  valid : s.Valid axioms (InUniverse v)
  axiomatic : ∀ f ∈ axiomatic o, s.holds f = true
  derived : ∀ {f}, D f → s.holds f = true
  infers : ∀ {premises conclusion},
    Inference axioms (s.reachability.reaches · · = true) premises conclusion →
      (∀ p ∈ premises, D p) → s.holds conclusion = true
  index : o.hasNominals = true → IndexClosed axioms D s.reachability

/-- All that is inferred from settled facts is derived. -/
structure Saturates (v : Vocabulary) (axioms : OrderedSet NormalAxiom) (s : State o) : Prop where
  valid : s.Valid axioms (InUniverse v)
  axiomatic : ∀ f ∈ axiomatic o, s.holds f = true
  infers : ∀ {premises conclusion},
    Inference axioms (s.reachability.reaches · · = true) premises conclusion →
      (∀ p ∈ premises, s.IsSettled p) → s.holds conclusion = true
  index : o.hasNominals = true → IndexClosed axioms s.IsSettled s.reachability

theorem saturates_iff_draws : s.Saturates v axioms ↔ s.Draws v axioms s.IsSettled :=
  ⟨fun h => ⟨h.valid, h.axiomatic, And.left, h.infers, h.index⟩,
    fun h => ⟨h.valid, h.axiomatic, h.infers, h.index⟩⟩

theorem exists_premise (ho : o.Indexes v axioms) {reaches : ClassId → ClassId → Prop}
    {premises : List Fact} (h : Inference axioms reaches premises f) : ∃ p, p ∈ premises := by
  cases h with
  | conjunction h =>
      -- a conjunction has operands
      have hlength := (ho.wellFormed _ h).1
      obtain ⟨a, ha⟩ := List.exists_mem_of_length_pos (Nat.lt_of_lt_of_le Nat.two_pos hlength)
      exact ⟨_, List.mem_map_of_mem ha⟩
  | _ => exact ⟨_, List.mem_cons_self ..⟩

/-- From no facts nothing is inferred. -/
theorem draws_initial (ho : o.Indexes v axioms) :
    (State.initial o).Draws v axioms fun _ => False := by
  have hU := closed_inUniverse ho.wellFormed ho.isOver
  refine ⟨valid_initial hU ho, fun f hf => holds_addAll.2 (.inl hf), False.elim, ?_, fun _ => ?_⟩
  · intro premises conclusion hinfer hall
    obtain ⟨p, hp⟩ := exists_premise ho hinfer
    exact absurd (hall p hp) not_false
  · rw [(grows_initial hU ho).reachability]
    exact ⟨fun hn => ho.isNominalClass.2 hn, fun _ ⟨_, h⟩ => h.elim,
      fun ⟨_, h⟩ => h.elim, fun _ ⟨_, h⟩ => h.elim⟩

/-- When the rules have been applied to a fact, whatever it infers with the facts of `D` has been
derived. -/
theorem Draws.process {D : Fact → Prop} (ho : o.Indexes v axioms) (hs : s.Draws v axioms D)
    (hf : s.holds f = true) (happly : RuleTable.full.Applies s u f) :
    u.Draws v axioms fun g => D g ∨ g = f := by
  have hU := closed_inUniverse ho.wellFormed ho.isOver
  have hsu := happly.advances hU ho hs.valid (hs.valid.facts hf)
  have hpremises : ∀ {p}, D p ∨ p = f → s.holds p = true :=
    fun hp => hp.elim hs.derived fun heq => heq ▸ hf
  have hbefore : ∀ {premises conclusion}, f ∉ premises →
      Inference axioms (s.reachability.reaches · · = true) premises conclusion →
      (∀ p ∈ premises, D p ∨ p = f) → u.holds conclusion = true := by
    intro premises conclusion hmem hinfer hall
    refine hsu.keeps (hs.infers hinfer fun p hp => ?_)
    exact (hall p hp).resolve_right fun heq => hmem (heq ▸ hp)
  refine ⟨hsu.valid hs.valid, fun g hg => hsu.keeps (hs.axiomatic g hg),
    fun hg => hsu.keeps (hpremises hg), ?_, ?_⟩
  · intro premises conclusion hinfer hall
    cases f with
    | subsumer x a =>
        rw [reachability_of_applies_subsumer ho hs.valid hf happly] at hinfer
        by_cases hmem : .subsumer x a ∈ premises
        · exact holds_of_applies_subsumer ho hs.valid hf happly hinfer hmem
            fun p hp => hpremises (hall p hp)
        · exact hbefore hmem hinfer hall
    | edge r x y =>
        rcases holds_of_applies_edge ho hs.valid hf happly hinfer
            fun p hp => hpremises (hall p hp) with hconclusion | ⟨hmem, hinfer⟩
        · exact hconclusion
        · exact hbefore hmem hinfer hall
  · intro hnominals
    have hclosed := hs.index hnominals
    cases f with
    | subsumer x a =>
        rw [reachability_of_applies_subsumer ho hs.valid hf happly]
        have hleads : ∀ {a' b}, Leads (fun g => D g ∨ g = .subsumer x a) a' b → Leads D a' b :=
          fun hab => hab.imp fun r hr => hr.resolve_right (by simp)
        exact ⟨hclosed.nominal, fun ha hab => hclosed.fromNominals ha (hleads hab),
          fun hab => hclosed.edge (hleads hab), fun hab hbc => hclosed.targets hab (hleads hbc)⟩
    | edge r x y =>
        exact indexClosed_of_applies_edge ho hs.valid hf happly hnominals hpremises id hclosed

/-- Taking a fact from the agenda changes nothing that is inferred. -/
theorem Draws.pop {D : Fact → Prop} (hs : s.Draws v axioms D) (h : s.pop? = some (f, t)) :
    t.Draws v axioms D := by
  have ht := hs.valid.pop h
  obtain ⟨agenda, -, rfl⟩ := pop?_eq_some h
  exact ⟨ht, hs.axiomatic, hs.derived, hs.infers, hs.index⟩

theorem saturates_initial (ho : o.Indexes v axioms) : (State.initial o).Saturates v axioms := by
  have hgrows := grows_initial (closed_inUniverse ho.wellFormed ho.isOver) ho
  have hnone : (State.initial o).IsSettled = fun _ => False :=
    funext fun f => eq_false fun hf => holds_empty (hgrows.settled.1 hf).1
  rw [saturates_iff_draws, hnone]
  exact draws_initial ho

/-- One turn keeps the state saturated: the processed fact joins those that are settled. -/
theorem Saturates.next (ho : o.Indexes v axioms) (hs : s.Saturates v axioms)
    (h : Next .full s u) : u.Saturates v axioms := by
  have hU := closed_inUniverse ho.wellFormed ho.isOver
  obtain ⟨f, t, hpop, happly⟩ := h
  obtain ⟨-, hholds, hf, hsettled, -⟩ := hs.valid.coherent.pop hpop
  have ht := (saturates_iff_draws.1 hs).pop hpop
  have htf : t.holds f = true := hholds.2 hf
  have htu := happly.advances hU ho ht.valid (ht.valid.facts htf)
  have hsettles : u.IsSettled = fun g => s.IsSettled g ∨ g = f :=
    funext fun g => propext (htu.settled.trans hsettled)
  rw [saturates_iff_draws, hsettles]
  exact ht.process ho htf happly

theorem saturates_of_runs (ho : o.Indexes v axioms) (h : Runs o .full n s) :
    s.Saturates v axioms := by
  induction h with
  | start => exact saturates_initial ho
  | next _ hnext ih => exact ih.next ho hnext

theorem isSettled_of_agenda (h : s.agenda.toList = []) : s.IsSettled f ↔ s.holds f = true := by
  rw [IsSettled, h, and_iff_left List.not_mem_nil]

/-- Facts among which are the axiomatic ones are closed under the rules if they hold the
conclusions of all inferences from them. -/
theorem closed_of_axiomatic (ho : o.Indexes v axioms)
    (haxiomatic : ∀ f ∈ axiomatic o, s.holds f = true)
    (h : ∀ {premises conclusion},
      Inference axioms (Reaches axioms (s.holds · = true)) premises conclusion →
        (∀ p ∈ premises, s.holds p = true) → s.holds conclusion = true) :
    Closed v axioms (s.holds · = true) := by
  refine closed_of_inferences (fun {x} hx => ?_) (fun {x} hx => ?_) (fun {r x} hr hx => ?_) h
  · exact haxiomatic _ (mem_axiomatic.2 (.inl ⟨x, ho.classes.2 hx, .inl rfl⟩))
  · exact haxiomatic _ (mem_axiomatic.2 (.inl ⟨x, ho.classes.2 hx, .inr rfl⟩))
  · exact haxiomatic _
      (mem_axiomatic.2 (.inr ⟨r, ho.reflexive.2 hr, x, ho.classes.2 hx, rfl⟩))

/-- When no fact waits, the facts are closed under the rules. -/
theorem Saturates.closed (ho : o.Indexes v axioms) (hs : s.Saturates v axioms)
    (h : s.agenda.toList = []) : Closed v axioms (s.holds · = true) := by
  have hsettled : s.IsSettled = (s.holds · = true) :=
    funext fun f => propext (isSettled_of_agenda h)
  refine closed_of_axiomatic ho hs.axiomatic fun {premises conclusion} hinfer hall => ?_
  refine hs.infers (hinfer.imp fun {n x y} hn hxy => ?_) fun p hp => ?_
  · exact (hs.index (ho.hasNominals hn)).reaches (hsettled ▸ hxy)
  · exact (isSettled_of_agenda h).2 (hall p hp)

end State

end OwlEl.Completion
