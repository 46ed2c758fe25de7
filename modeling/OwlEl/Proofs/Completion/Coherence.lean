import Mathlib.Tactic.Basic
import Mathlib.Data.List.Nodup
import OwlEl.Completion.Rules
import OwlEl.Proofs.Completion.Calculus

/-!
# Coherent states

A state keeps the derived facts together with tables over them, an agenda and two
counts. `State.Coherent` says that these agree, and is kept by adding facts. All
that a rule does to a state, but for the index of what is reachable, is to add
facts; `State.Grows` says what that means for the rest of the run, given what is
known of the added facts.
-/

namespace OwlEl.Completion

/-- Whether the fact is one on the relations `R(r)`. -/
def Fact.isEdge : Fact → Bool
  | .subsumer .. => false
  | .edge .. => true

namespace State

variable {o : Ontology} {st st' st'' : State o} {f g : Fact} {T : Fact → Prop}

/-- The tables, the agenda and the counts agree with the derived facts. -/
structure Coherent (st : State o) : Prop where
  nominalMembers : ∀ {n x}, st.nominalMembers.contains n x = true ↔
    o.isNominalClass n = true ∧ st.holds (.subsumer x n) = true
  predecessors : ∀ {r x y},
    st.predecessors.contains (r, y) x = true ↔ st.holds (.edge r x y) = true
  propertiesFrom : ∀ {r x},
    st.propertiesFrom.contains x r = true ↔ ∃ y, st.holds (.edge r x y) = true
  propertiesInto : ∀ {r y},
    st.propertiesInto.contains y r = true ↔ ∃ x, st.holds (.edge r x y) = true
  waiting : ∀ f ∈ st.agenda.toList, st.holds f = true
  once : st.agenda.toList.Nodup
  counted : ∃ facts : List Fact, facts.Nodup ∧ (∀ f, f ∈ facts ↔ st.holds f = true) ∧
    facts.length = st.factCount ∧ (facts.filter Fact.isEdge).length = st.edgeCount

/-! ## Adding a fact -/

theorem add_of_holds (h : st.holds f = true) : st.add f = st := if_pos h

theorem add_subsumer {x a : ClassId} (h : ¬st.holds (.subsumer x a) = true) :
    st.add (.subsumer x a) =
      { st with
        subsumers := st.subsumers.insert x a
        nominalMembers :=
          if o.isNominalClass a then st.nominalMembers.insert a x else st.nominalMembers
        subsumerCount := st.subsumerCount + 1
        agenda := st.agenda.push (.subsumer x a) } := if_neg h

theorem add_edge {r : PropertyId} {x y : ClassId} (h : ¬st.holds (.edge r x y) = true) :
    st.add (.edge r x y) =
      { st with
        successors := st.successors.insert (r, x) y
        predecessors := st.predecessors.insert (r, y) x
        propertiesFrom := st.propertiesFrom.insert x r
        propertiesInto := st.propertiesInto.insert y r
        edgeCount := st.edgeCount + 1
        agenda := st.agenda.push (.edge r x y) } := if_neg h

theorem holds_add : (st.add f).holds g = true ↔ g = f ∨ st.holds g = true := by
  by_cases h : st.holds f = true
  · rw [add_of_holds h]
    exact ⟨.inr, fun hg => hg.elim (fun hgf => hgf ▸ h) id⟩
  · cases f with
    | subsumer x a =>
        rw [add_subsumer h]
        cases g with
        | subsumer y b =>
            rw [Fact.subsumer.injEq, @eq_comm _ y, @eq_comm _ b]
            exact Multimap.contains_insert
        | edge s y z => exact (or_iff_right (by simp)).symm
    | edge r x y =>
        rw [add_edge h]
        cases g with
        | subsumer z b => exact (or_iff_right (by simp)).symm
        | edge s z z' =>
            rw [Fact.edge.injEq, @eq_comm _ s, @eq_comm _ z, @eq_comm _ z', ← and_assoc,
              ← Prod.mk.injEq]
            exact Multimap.contains_insert

theorem agenda_add (h : ¬st.holds f = true) :
    (st.add f).agenda.toList = st.agenda.toList ++ [f] := by
  cases f with
  | subsumer x a =>
      rw [add_subsumer h]
      exact Queue.toList_push _ _
  | edge r x y =>
      rw [add_edge h]
      exact Queue.toList_push _ _

theorem factCount_add (h : ¬st.holds f = true) : (st.add f).factCount = st.factCount + 1 := by
  cases f with
  | subsumer x a =>
      rw [add_subsumer h]
      simp only [factCount]
      omega
  | edge r x y =>
      rw [add_edge h]
      simp only [factCount]
      omega

theorem edgeCount_add (h : ¬st.holds f = true) :
    (st.add f).edgeCount = st.edgeCount + if f.isEdge then 1 else 0 := by
  cases f with
  | subsumer x a =>
      rw [add_subsumer h]
      rfl
  | edge r x y =>
      rw [add_edge h]
      rfl

@[simp] theorem reachability_add : (st.add f).reachability = st.reachability := by
  by_cases h : st.holds f = true
  · rw [add_of_holds h]
  · cases f with
    | subsumer x a => rw [add_subsumer h]
    | edge r x y => rw [add_edge h]

theorem Coherent.nominalMembers_add (h : st.Coherent) (hf : ¬st.holds f = true) {n x : ClassId} :
    (st.add f).nominalMembers.contains n x = true ↔
      o.isNominalClass n = true ∧ (st.add f).holds (.subsumer x n) = true := by
  rw [holds_add]
  have hst := h.nominalMembers (n := n) (x := x)
  cases f with
  | edge r y z =>
      rw [add_edge hf]
      simpa using hst
  | subsumer y a =>
      rw [add_subsumer hf]
      by_cases ha : o.isNominalClass a = true
      · simp only [if_pos ha, Multimap.contains_insert, hst, Fact.subsumer.injEq]
        constructor
        · rintro (⟨rfl, rfl⟩ | ⟨hn, hx⟩)
          · exact ⟨ha, .inl ⟨rfl, rfl⟩⟩
          · exact ⟨hn, .inr hx⟩
        · rintro ⟨hn, ⟨rfl, rfl⟩ | hx⟩
          · exact .inl ⟨rfl, rfl⟩
          · exact .inr ⟨hn, hx⟩
      · simp only [if_neg ha, hst, Fact.subsumer.injEq]
        constructor
        · exact fun ⟨hn, hx⟩ => ⟨hn, .inr hx⟩
        · rintro ⟨hn, ⟨rfl, rfl⟩ | hx⟩
          · exact absurd hn ha
          · exact ⟨hn, hx⟩

theorem Coherent.counted_add (h : st.Coherent) (hf : ¬st.holds f = true) :
    ∃ facts : List Fact, facts.Nodup ∧ (∀ g, g ∈ facts ↔ (st.add f).holds g = true) ∧
      facts.length = (st.add f).factCount ∧
      (facts.filter Fact.isEdge).length = (st.add f).edgeCount := by
  obtain ⟨facts, hnodup, hmem, hlength, hedges⟩ := h.counted
  have hnew : f ∉ facts := fun hmemf => hf ((hmem f).1 hmemf)
  refine ⟨f :: facts, List.nodup_cons.2 ⟨hnew, hnodup⟩, ?_, ?_, ?_⟩
  · intro g
    rw [List.mem_cons, hmem, holds_add]
  · rw [List.length_cons, hlength, factCount_add hf]
  · rw [edgeCount_add hf, List.filter_cons, ← hedges]
    split <;> simp

theorem Coherent.add (h : st.Coherent) (f : Fact) : (st.add f).Coherent := by
  by_cases hf : st.holds f = true
  · rwa [add_of_holds hf]
  constructor
  case nominalMembers => exact h.nominalMembers_add hf
  case predecessors =>
    intro r x y
    rw [holds_add, ← h.predecessors]
    cases f with
    | subsumer z a => simp [add_subsumer hf]
    | edge s z z' =>
        rw [add_edge hf]
        simp only [Multimap.contains_insert, Fact.edge.injEq, Prod.mk.injEq]
        tauto
  case propertiesFrom =>
    intro r x
    simp only [holds_add, exists_or, ← h.propertiesFrom]
    cases f with
    | subsumer z a => simp [add_subsumer hf]
    | edge s z z' =>
        rw [add_edge hf]
        simp only [Multimap.contains_insert, Fact.edge.injEq, exists_and_left]
        tauto
  case propertiesInto =>
    intro r y
    simp only [holds_add, exists_or, ← h.propertiesInto]
    cases f with
    | subsumer z a => simp [add_subsumer hf]
    | edge s z z' =>
        rw [add_edge hf]
        simp only [Multimap.contains_insert, Fact.edge.injEq]
        constructor
        · rintro (⟨rfl, rfl⟩ | hr)
          · exact .inl ⟨z, rfl, rfl, rfl⟩
          · exact .inr hr
        · rintro (⟨_, rfl, rfl, rfl⟩ | hr)
          · exact .inl ⟨rfl, rfl⟩
          · exact .inr hr
  case waiting =>
    intro g hg
    rw [agenda_add hf, List.mem_append, List.mem_singleton] at hg
    exact holds_add.2 (hg.elim (fun hg => .inr (h.waiting g hg)) .inl)
  case once =>
    rw [agenda_add hf]
    refine List.nodup_append.2 ⟨h.once, List.nodup_singleton f, ?_⟩
    rintro g hg _ hgf rfl
    rw [List.mem_singleton] at hgf
    exact hf (hgf ▸ h.waiting _ hg)
  case counted => exact h.counted_add hf

/-! ## Growth -/

/-- The fact has been derived and no longer waits. -/
def IsSettled (st : State o) (f : Fact) : Prop := st.holds f = true ∧ f ∉ st.agenda.toList

/-- Only facts of `T` have been added, and they wait on the agenda. -/
structure Grows (T : Fact → Prop) (st st' : State o) : Prop where
  keeps : ∀ {f}, st.holds f = true → st'.holds f = true
  adds : ∀ {f}, st'.holds f = true → st.holds f = true ∨ T f
  coherent : st.Coherent → st'.Coherent
  settled : ∀ {f}, st'.IsSettled f ↔ st.IsSettled f
  counts : st'.factCount + st.agenda.toList.length = st.factCount + st'.agenda.toList.length
  reachability : st'.reachability = st.reachability

theorem Grows.refl (st : State o) : Grows T st st := ⟨id, .inl, id, Iff.rfl, rfl, rfl⟩

theorem Grows.trans (h : Grows T st st') (h' : Grows T st' st'') : Grows T st st'' where
  keeps hf := h'.keeps (h.keeps hf)
  adds hf := (h'.adds hf).elim h.adds .inr
  coherent hst := h'.coherent (h.coherent hst)
  settled := h'.settled.trans h.settled
  counts := by
    have hfirst := h.counts
    have hsecond := h'.counts
    omega
  reachability := h'.reachability.trans h.reachability

theorem grows_add (hf : T f) : Grows T st (st.add f) := by
  by_cases h : st.holds f = true
  · rw [add_of_holds h]
    exact .refl st
  · refine ⟨fun hg => holds_add.2 (.inr hg), fun hg => ?_, fun hst => hst.add f, fun {g} => ?_, ?_,
      reachability_add⟩
    · rcases holds_add.1 hg with rfl | hg
      · exact .inr hf
      · exact .inl hg
    · rw [IsSettled, IsSettled, holds_add, agenda_add h, List.mem_append, List.mem_singleton]
      constructor
      · exact fun ⟨hg, hwaits⟩ => ⟨hg.resolve_left fun hgf => hwaits (.inr hgf),
          fun hmem => hwaits (.inl hmem)⟩
      · exact fun ⟨hg, hwaits⟩ => ⟨.inr hg, fun hmem => hmem.elim hwaits fun hgf => h (hgf ▸ hg)⟩
    · rw [agenda_add h, factCount_add h, List.length_append, List.length_singleton]
      omega

theorem grows_addAll {facts : List Fact} (h : ∀ f ∈ facts, T f) : Grows T st (st.addAll facts) := by
  induction facts generalizing st with
  | nil => exact .refl st
  | cons f facts ih =>
      have hstep : Grows T st (st.add f) := grows_add (h f (by simp))
      exact hstep.trans (ih fun g hg => h g (by simp [hg]))

theorem holds_addAll {facts : List Fact} :
    (st.addAll facts).holds g = true ↔ g ∈ facts ∨ st.holds g = true := by
  induction facts generalizing st with
  | nil => simp [addAll]
  | cons f facts ih =>
      have hrest : ((st.add f).addAll facts).holds g = true ↔
          g ∈ facts ∨ (st.add f).holds g = true := ih
      rw [holds_add] at hrest
      rw [List.mem_cons]
      exact hrest.trans (by tauto)

/-! ## Looking things up -/

theorem mem_subsumers {x a : ClassId} :
    a ∈ st.subsumers.values x ↔ st.holds (.subsumer x a) = true := Multimap.mem_values

theorem mem_successors {r : PropertyId} {x y : ClassId} :
    y ∈ st.successors.values (r, x) ↔ st.holds (.edge r x y) = true := Multimap.mem_values

theorem Coherent.mem_predecessors (h : st.Coherent) {r : PropertyId} {x y : ClassId} :
    x ∈ st.predecessors.values (r, y) ↔ st.holds (.edge r x y) = true :=
  Multimap.mem_values.trans h.predecessors

theorem Coherent.mem_propertiesInto (h : st.Coherent) {r : PropertyId} {y : ClassId} :
    r ∈ st.propertiesInto.values y ↔ ∃ x, st.holds (.edge r x y) = true :=
  Multimap.mem_values.trans h.propertiesInto

theorem Coherent.mem_nominalMembers (h : st.Coherent) {n x : ClassId} :
    x ∈ st.nominalMembers.values n ↔
      o.isNominalClass n = true ∧ st.holds (.subsumer x n) = true :=
  Multimap.mem_values.trans h.nominalMembers

theorem mem_nominalsOf {x n : ClassId} :
    n ∈ st.nominalsOf x ↔ st.holds (.subsumer x n) = true ∧ o.isNominalClass n = true :=
  List.mem_filter.trans (and_congr_left' mem_subsumers)

theorem shareNominal_iff {x y : ClassId} : st.shareNominal x y = true ↔
    ∃ n, o.isNominalClass n = true ∧ st.holds (.subsumer x n) = true ∧
      st.holds (.subsumer y n) = true := by
  simp only [shareNominal, List.any_eq_true, mem_nominalsOf]
  exact ⟨fun ⟨n, ⟨hx, hn⟩, hy⟩ => ⟨n, hn, hx, hy⟩, fun ⟨n, hn, hx, hy⟩ => ⟨n, ⟨hx, hn⟩, hy⟩⟩

theorem Coherent.mem_allSuccessors (h : st.Coherent) {x y : ClassId} :
    y ∈ st.allSuccessors x ↔ Leads (st.holds · = true) x y := by
  simp only [allSuccessors, List.mem_flatMap, mem_successors]
  constructor
  · exact fun ⟨r, _, hy⟩ => ⟨r, hy⟩
  · exact fun ⟨r, hy⟩ => ⟨r, Multimap.mem_values.2 (h.propertiesFrom.2 ⟨y, hy⟩), hy⟩

/-- All edges together bound how many edges lead out of several classes. -/
theorem Coherent.length_allSuccessors_le (h : st.Coherent) {classes : List ClassId}
    (hclasses : classes.Nodup) :
    (classes.flatMap st.allSuccessors).length ≤ st.edgeCount := by
  obtain ⟨facts, -, hmem, -, hedges⟩ := h.counted
  let edges : List Fact := classes.flatMap fun x => (st.propertiesFrom.values x).flatMap fun r =>
    (st.successors.values (r, x)).map (.edge r x)
  have hlength : (classes.flatMap st.allSuccessors).length = edges.length := by
    simp only [edges, allSuccessors, List.length_flatMap, List.length_map]
  have hnodup : edges.Nodup := by
    refine List.nodup_flatMap.2 ⟨fun x _ => List.nodup_flatMap.2 ⟨fun r _ => ?_, ?_⟩, ?_⟩
    · exact (Multimap.nodup_values _ _).map fun y z hyz => (Fact.edge.inj hyz).2.2
    · refine (Multimap.nodup_values _ _).imp fun {r s} hrs f hf hf' => hrs ?_
      obtain ⟨y, -, rfl⟩ := List.mem_map.1 hf
      obtain ⟨z, -, heq⟩ := List.mem_map.1 hf'
      exact (Fact.edge.inj heq).1.symm
    · refine hclasses.imp fun {x y} hxy f hf hf' => hxy ?_
      obtain ⟨r, -, hf⟩ := List.mem_flatMap.1 hf
      obtain ⟨s, -, hf'⟩ := List.mem_flatMap.1 hf'
      obtain ⟨z, -, rfl⟩ := List.mem_map.1 hf
      obtain ⟨z', -, heq⟩ := List.mem_map.1 hf'
      exact (Fact.edge.inj heq).2.1.symm
  have hsub : edges ⊆ facts.filter Fact.isEdge := by
    intro f hf
    obtain ⟨x, -, hf⟩ := List.mem_flatMap.1 hf
    obtain ⟨r, -, hf⟩ := List.mem_flatMap.1 hf
    obtain ⟨y, hy, rfl⟩ := List.mem_map.1 hf
    exact List.mem_filter.2 ⟨(hmem _).2 (mem_successors.1 hy), rfl⟩
  rw [hlength, ← hedges]
  exact (List.subperm_of_subset hnodup hsub).length_le

end State

end OwlEl.Completion
