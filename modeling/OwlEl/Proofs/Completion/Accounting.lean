import OwlEl.Proofs.Completion.Operations

/-!
# Every fact is taken once

A fact that is added for the first time is put on the agenda, and is never put there
again. So the facts that have been taken from the agenda and the facts that wait are
together all derived facts, each once, whatever operations have been carried out and
in whatever order they have gone through the sets (`Serves.perm`). A run takes one fact
in each turn (`exists_serves_of_runs`), so it has as many turns as facts are derived,
and of these there are no more than the classes and properties of the ontology allow.
-/

namespace OwlEl.Completion

variable {o : Ontology}

open State

/-! ## Taking facts -/

namespace Operation

/-- The facts that the operation takes from the agenda. -/
def takes (s : State o) : Operation → List Fact
  | pop => (s.pop?.map Prod.fst).toList
  | _ => []

/-- The operations lead from one state to the other, when sets are gone through in some order,
and have taken these facts from the agenda. -/
inductive Serves : List Operation → List Fact → State o → State o → Prop
  | done {s} : Serves [] [] s s
  | next {op ops taken s t u} (hop : op.Does s t) (hrest : Serves ops taken t u) :
      Serves (op :: ops) (op.takes s ++ taken) s u

/-- Carry the operations out one after the other, and list the facts that they take. -/
def performAll : List Operation → State o → List Fact × State o
  | [], s => ([], s)
  | op :: ops, s =>
      let (taken, t) := performAll ops (op.perform s)
      (op.takes s ++ taken, t)

variable {op : Operation} {ops ops' : List Operation} {taken taken' : List Fact} {s t u : State o}
  {f : Fact}

theorem takes_of_ne_pop (hop : op ≠ .pop) (s : State o) : op.takes s = [] := by
  cases op with
  | pop => exact absurd rfl hop
  | _ => rfl

theorem takes_pop_of_eq_some (h : s.pop? = some (f, t)) : takes s .pop = [f] := by
  rw [takes, h]
  rfl

theorem takes_pop_of_eq_none (h : s.pop? = none) : takes s .pop = [] := by
  rw [takes, h]
  rfl

theorem Serves.append (h : Serves ops taken s t) (h' : Serves ops' taken' t u) :
    Serves (ops ++ ops') (taken ++ taken') s u := by
  induction h with
  | done => exact h'
  | next hop _ ih =>
      rw [List.append_assoc]
      exact .next hop (ih h')

/-- Operations that only add facts take none from the agenda. -/
theorem serves_of_inOrder {α : Type} {operation : α → Operation} {items : List α}
    (hne : ∀ a ∈ items, operation a ≠ .pop)
    (h : InOrder (fun a s t => (operation a).Does s t) items s u) :
    Serves (items.map operation) [] s u := by
  induction items generalizing s with
  | nil =>
      obtain rfl : s = u := h
      exact .done
  | cons a items ih =>
      obtain ⟨t, hop, hrest⟩ := h
      have hserves := Serves.next hop (ih (fun b hb => hne b (List.mem_cons_of_mem a hb)) hrest)
      rwa [takes_of_ne_pop (hne a (List.mem_cons_self ..)), List.nil_append] at hserves

/-- What is carried out goes through the sets in ascending order. -/
theorem serves_performAll (hs : s.Coherent) (ops : List Operation) :
    Serves ops (performAll ops s).1 s (performAll ops s).2 := by
  induction ops generalizing s with
  | nil => exact .done
  | cons op ops ih =>
      have hop := does_perform hs op
      exact .next hop (ih (hop.coherent hs))

/-! ## Accounting for the facts -/

/-- The facts that have been taken are those that are derived and no longer wait, each once. -/
structure Accounts (taken : List Fact) (st : State o) : Prop where
  coherent : st.Coherent
  once : taken.Nodup
  settled : ∀ {f}, f ∈ taken ↔ st.IsSettled f

theorem accounts_initial : Accounts [] (.initial o) where
  coherent := coherent_initial
  once := List.nodup_nil
  settled := by
    have hgrows : Grows (fun _ => True) (State.empty o) (.initial o) :=
      grows_addAll fun _ _ => trivial
    exact fun {f} => iff_of_false List.not_mem_nil fun hf => holds_empty (hgrows.settled.1 hf).1

/-- What leaves the settled facts as they are leaves the account as it is. -/
theorem Accounts.of_settled (hs : Accounts taken s) (ht : t.Coherent)
    (h : ∀ {f}, t.IsSettled f ↔ s.IsSettled f) : Accounts taken t :=
  ⟨ht, hs.once, hs.settled.trans h.symm⟩

/-- The fact that is taken has waited until now, so that it has not been taken before. -/
theorem Accounts.pop (hs : Accounts taken s) (h : s.pop? = some (f, t)) :
    Accounts (taken ++ [f]) t := by
  obtain ⟨ht, -, -, hsettled, -⟩ := hs.coherent.pop h
  obtain ⟨agenda, hagenda, -⟩ := pop?_eq_some h
  have hwaits : f ∈ s.agenda.toList := hagenda ▸ List.mem_cons_self ..
  have hnew : f ∉ taken := fun hf => (hs.settled.1 hf).2 hwaits
  refine ⟨ht, ?_, fun {g} => ?_⟩
  · apply List.nodup_append.2
    refine ⟨hs.once, List.nodup_singleton f, ?_⟩
    rintro g hg _ hgf rfl
    exact hnew (List.mem_singleton.1 hgf ▸ hg)
  · rw [List.mem_append, List.mem_singleton, hs.settled, hsettled]

theorem settled_of_notesEdge {x y : ClassId} {news : NewlyReachable}
    (h : s.NotesEdge x y t news) : t.IsSettled f ↔ s.IsSettled f := by
  obtain ⟨reachability, -, rfl⟩ := h
  exact Iff.rfl

theorem Does.accounts (h : op.Does s t) (hs : Accounts taken s) :
    Accounts (taken ++ op.takes s) t := by
  by_cases hop : op = .pop
  · subst hop
    simp only [Does] at h
    cases hpop : s.pop? with
    | none =>
        rw [hpop] at h
        obtain rfl : s = t := h
        rwa [takes_pop_of_eq_none hpop, List.append_nil]
    | some popped =>
        rw [hpop] at h
        have hpop : s.pop? = some (popped.1, t) := hpop.trans (congrArg some (Prod.ext rfl h))
        rw [takes_pop_of_eq_some hpop]
        exact hs.pop hpop
  · rw [takes_of_ne_pop hop, List.append_nil]
    apply hs.of_settled (h.coherent hs.coherent)
    rcases h.cases with ⟨hadds, -⟩ | ⟨-, heq⟩ | ⟨x, y, u, news, -, hnotes, hadds⟩
    · exact hadds.grows.settled
    · exact absurd heq hop
    · exact hadds.grows.settled.trans (settled_of_notesEdge hnotes)

theorem Serves.accounts (h : Serves ops taken s t) (hs : Accounts taken' s) :
    Accounts (taken' ++ taken) t := by
  induction h generalizing taken' with
  | done => rwa [List.append_nil]
  | next hop _ ih =>
      have ht := ih (hop.accounts hs)
      rwa [List.append_assoc] at ht

theorem Accounts.perm (h : Accounts taken s) : (taken ++ s.agenda.toList).Perm s.facts := by
  have hnodup : (taken ++ s.agenda.toList).Nodup := by
    apply List.nodup_append.2
    refine ⟨h.once, h.coherent.once, ?_⟩
    rintro f hf _ hwaits rfl
    exact (h.settled.1 hf).2 hwaits
  apply (List.perm_ext_iff_of_nodup hnodup s.nodup_facts).2
  intro f
  rw [List.mem_append, h.settled, mem_facts]
  constructor
  · rintro (hf | hwaits)
    · exact hf.1
    · exact h.coherent.waiting f hwaits
  · intro hf
    by_cases hwaits : f ∈ s.agenda.toList
    · exact .inr hwaits
    · exact .inl ⟨hf, hwaits⟩

/-- The facts that have been taken and the facts that wait are together all derived facts. -/
theorem Serves.perm (h : Serves ops taken (.initial o) s) :
    (taken ++ s.agenda.toList).Perm s.facts := by
  have haccounts := h.accounts accounts_initial
  rw [List.nil_append] at haccounts
  exact haccounts.perm

end Operation

open Operation

/-! ## Runs -/

section Runs

variable {v : Vocabulary} {axioms : OrderedSet NormalAxiom} {rules : RuleTable} {n : Nat}
  {s t : State o} {f : Fact}

theorem exists_serves_of_applies (h : rules.Applies s t f) : ∃ ops, Serves ops [] s t := by
  cases f with
  | subsumer x a =>
      have hne : ∀ rule ∈ rules.onSubsumer, applyToSubsumer rule x a ≠ .pop := by simp
      exact ⟨_, serves_of_inOrder hne h⟩
  | edge r x y =>
      have hne : ∀ rule ∈ rules.onEdge, applyToEdge rule r x y ≠ .pop := by simp
      exact ⟨_, serves_of_inOrder hne h⟩

/-- A turn takes one fact from the agenda and applies the rules to it. -/
theorem exists_serves_of_next (h : Next rules s t) : ∃ ops f, Serves ops [f] s t := by
  obtain ⟨f, u, hpop, happly⟩ := h
  obtain ⟨ops, hserves⟩ := exists_serves_of_applies happly
  have hdoes : Operation.pop.Does s u := by
    simp only [Does, hpop]
    rfl
  have hnext := Serves.next hdoes hserves
  rw [takes_pop_of_eq_some hpop] at hnext
  exact ⟨_, f, hnext⟩

theorem exists_serves_of_runs (h : Runs o rules n s) :
    ∃ ops taken, Serves ops taken (.initial o) s ∧ taken.length = n := by
  induction h with
  | start => exact ⟨[], [], .done, rfl⟩
  | next _ hnext ih =>
      obtain ⟨ops, taken, hserves, hlength⟩ := ih
      obtain ⟨ops', f, hturn⟩ := exists_serves_of_next hnext
      refine ⟨_, _, hserves.append hturn, ?_⟩
      rw [List.length_append, hlength, List.length_singleton]

/-- In a vocabulary with the reserved classes the facts of a run are on its classes and
properties. -/
theorem factCount_le_of_runs (ho : o.Indexes v axioms) (hv : v.WellFormed)
    (h : Runs o rules n s) :
    s.factCount ≤ o.classes.length * o.classes.length +
      o.properties.length * (o.classes.length * o.classes.length) := by
  have hknown : ∀ c, IsKnown v c → c ∈ o.classes := by
    rintro c (hc | rfl | rfl)
    · exact ho.classes.2 hc
    · exact ho.classes.2 (hv.contains_top (by decide))
    · exact ho.classes.2 (hv.contains_bottom (by decide))
  have hvalid := (valid_of_runs (closed_inUniverse ho.wellFormed ho.isOver) ho h).1
  calc s.factCount ≤ (factsOver o.classes o.properties).length :=
        hvalid.factCount_le_length fun f hf => mem_factsOver ho hknown hf
    _ = o.classes.length * o.classes.length +
          o.properties.length * (o.classes.length * o.classes.length) := length_factsOver _ _

/-- The turns of a run are as many as the facts that have been taken, and with the facts that
wait as many as the derived facts. -/
theorem turns_of_runs (ho : o.Indexes v axioms) (hv : v.WellFormed) (h : Runs o rules n s) :
    n + s.agenda.toList.length = s.subsumerCount + s.edgeCount ∧
      n ≤ o.classes.length * o.classes.length +
        o.properties.length * (o.classes.length * o.classes.length) := by
  have hcount := (valid_of_runs (closed_inUniverse ho.wellFormed ho.isOver) ho h).2
  refine ⟨hcount.symm, ?_⟩
  calc n ≤ n + s.agenda.toList.length := Nat.le_add_right ..
    _ = s.factCount := hcount.symm
    _ ≤ o.classes.length * o.classes.length +
          o.properties.length * (o.classes.length * o.classes.length) :=
        factCount_le_of_runs ho hv h

end Runs

end OwlEl.Completion
