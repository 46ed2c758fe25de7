import Mathlib.Data.Set.Card
import OwlEl.Proofs.Completion.Exactness

/-!
# Operations in any order

A state offers operations: facts are added and taken from the agenda, the index of
what is reachable is extended, and rules are applied. A run uses them in the order of
its loop. Here they come in any order and with any arguments, also with facts that do
not follow and with entities that no vocabulary contains, from the initial state of
any tables, also of tables that no axioms give rise to. Whatever they are, a rule only
adds facts (`SubsumerRule.Applies.adds`, `EdgeRule.Applies.adds_of_ne`,
`CopiesAlong.adds`), the other operations leave the facts as they are, and so the
redundant tables say the same as the two relations (`tablesAgree_of_inOrder`).
-/

namespace OwlEl

/-! ## The size of a relation -/

namespace Multimap

variable {κ ν : Type} [Ord κ] [Ord ν]

/-- The sizes of all sets together. -/
def size (m : Multimap κ ν) : Nat := (m.sets.toList.map (·.2.size)).sum

theorem length_toList [Std.TransOrd ν] (m : Multimap κ ν) : m.toList.length = m.size := by
  simp only [toList, size, List.length_flatMap, List.length_map, Std.TreeSet.length_toList]

theorem nodup_toList [Std.TransOrd κ] [Std.LawfulEqOrd κ] [Std.TransOrd ν] [Std.LawfulEqOrd ν]
    (m : Multimap κ ν) : m.toList.Nodup := by
  refine List.nodup_flatMap.2 ⟨fun (k, set) _ => ?_, ?_⟩
  · have hset : set.toList.Nodup :=
      List.Pairwise.imp (fun hne heq => hne (Std.LawfulEqCmp.compare_eq_iff_eq.2 heq))
        Std.TreeSet.distinct_toList
    exact hset.map fun v w hvw => (Prod.mk.inj hvw).2
  · refine List.Pairwise.imp (fun {a b} hab p ha hb => hab ?_) Std.TreeMap.distinct_keys_toList
    obtain ⟨v, -, rfl⟩ := List.mem_map.1 ha
    obtain ⟨w, -, heq⟩ := List.mem_map.1 hb
    exact Std.LawfulEqCmp.compare_eq_iff_eq.2 (Prod.mk.inj heq).1.symm

end Multimap

namespace Completion

variable {o : Ontology}

/-! ## Operations -/

/-- What can be done to a state. -/
inductive Operation where
  /-- Add a fact. -/
  | add (f : Fact)
  /-- Take the oldest fact from the agenda. -/
  | pop
  /-- Take note of an edge in the index of what is reachable. -/
  | extend (x y : ClassId)
  /-- Apply a rule to `a ∈ S(x)`. -/
  | applyToSubsumer (rule : SubsumerRule) (x a : ClassId)
  /-- Apply a rule to `(x, y) ∈ R(r)`. -/
  | applyToEdge (rule : EdgeRule) (r : PropertyId) (x y : ClassId)

namespace Operation

/-- Carry the operation out. -/
def perform (st : State o) : Operation → State o
  | add f => st.add f
  | pop => (st.pop?.map Prod.snd).getD st
  | extend x y => (st.extendReachability x y).1
  | applyToSubsumer rule x a => rule.apply st x a
  | applyToEdge rule r x y => rule.apply st r x y

/-- The operation leads from one state to the other, when sets are gone through in some order. -/
def Does (s t : State o) : Operation → Prop
  | add f => s.add f = t
  | pop => (s.pop?.map Prod.snd).getD s = t
  | extend x y => if o.hasNominals = true then ∃ news, s.NotesEdge x y t news else s = t
  | applyToSubsumer rule x a => rule.Applies x a s t
  | applyToEdge rule r x y => rule.Applies r x y s t

/-- The edges that the operation takes note of in the index of what is reachable. -/
def noted : Operation → List (ClassId × ClassId)
  | extend x y => [(x, y)]
  | applyToEdge .nominal _ x y => [(x, y)]
  | _ => []

end Operation

namespace State

variable {s t u : State o} {f : Fact} {x y a : ClassId}

/-! ## What only adds facts -/

/-- Some facts are added, and nothing else is done. -/
def Adds (s t : State o) : Prop := ∃ facts : List Fact, s.addAll facts = t

namespace Adds

theorem refl (s : State o) : Adds s s := ⟨[], rfl⟩

theorem trans (h : Adds s t) (h' : Adds t u) : Adds s u := by
  obtain ⟨facts, rfl⟩ := h
  obtain ⟨facts', rfl⟩ := h'
  exact ⟨facts ++ facts', List.foldl_append⟩

theorem of_add (f : Fact) : Adds s (s.add f) := ⟨[f], rfl⟩

theorem of_addsAll {facts : List Fact} (h : AddsAll facts s t) : Adds s t :=
  h.imp fun _ => And.right

theorem of_loop {α : Type} {body : α → State o → State o → Prop} {items : List α}
    (h : Loop body items s t) (hbody : ∀ a ∈ items, ∀ {s' t'}, body a s' t' → Adds s' t') :
    Adds s t :=
  (h.visits refl trans fun a ha _ _ _ => hbody a ha).1

theorem grows (h : Adds s t) : Grows (fun _ => True) s t := by
  obtain ⟨facts, rfl⟩ := h
  exact grows_addAll fun _ _ => trivial

end Adds

theorem SharesNominal.adds (h : SharesNominal y a s t) : Adds s t := by
  refine .of_loop h fun w _ {s' u'} hbody => ?_
  obtain ⟨t', hfirst, hsecond⟩ := hbody
  have hst : Adds s' t' := by
    split at hfirst
    · exact .of_addsAll hfirst
    · exact hfirst ▸ .refl s'
  have htu : Adds t' u' := by
    split at hsecond
    · exact .of_addsAll hsecond
    · exact hsecond ▸ .refl t'
  exact hst.trans htu

theorem PassesOn.adds (h : PassesOn y a s t) : Adds s t :=
  .of_loop h fun _ _ => .of_addsAll

theorem CopiesAlong.adds {news : NewlyReachable} (h : CopiesAlong news s u) : Adds s u := by
  obtain ⟨t, hfirst, hsecond⟩ := h
  have hst : Adds s t := by
    refine .of_loop hfirst fun pair _ {s' t'} hbody => ?_
    split at hbody
    · exact .of_addsAll hbody
    · exact hbody ▸ .refl s'
  have htu : Adds t u :=
    .of_loop hsecond fun _ _ => (.of_loop · fun _ _ => (.of_loop · fun _ _ => .of_addsAll))
  exact hst.trans htu

/-! ## What leaves the facts as they are -/

/-- Taking note of an edge changes the index only. -/
theorem NotesEdge.coherent {news : NewlyReachable} (hs : s.Coherent) (h : NotesEdge x y s t news) :
    t.Coherent := by
  obtain ⟨reachability, -, rfl⟩ := h
  exact ⟨hs.nominalMembers, hs.predecessors, hs.propertiesFrom, hs.propertiesInto, hs.waiting,
    hs.once, hs.counted⟩

end State

open State

section Rules

variable {s t : State o} {x y a : ClassId} {r : PropertyId}

theorem SubsumerRule.Applies.adds {rule : SubsumerRule} (h : rule.Applies x a s t) : Adds s t := by
  cases rule with
  | inclusion => exact .of_addsAll h
  | conjunction =>
      refine .of_loop h fun c _ {s' t'} hbody => ?_
      subst hbody
      split
      · exact .of_add _
      · exact .refl s'
  | existsSuper => exact .of_addsAll h
  | existsSub =>
      simp only [SubsumerRule.Applies] at h
      split at h
      · exact h ▸ .refl s
      · exact .of_addsAll h
  | bottom =>
      simp only [SubsumerRule.Applies] at h
      split at h
      · exact .of_addsAll h
      · exact h ▸ .refl s
  | nominal =>
      simp only [SubsumerRule.Applies] at h
      split at h
      · obtain ⟨u, hsu, hut⟩ := h
        have hsu : Adds s u := by
          split at hsu
          · exact hsu.adds
          · exact hsu ▸ .refl s
        exact hsu.trans hut.adds
      · exact h ▸ .refl s

theorem EdgeRule.Applies.adds_of_ne {rule : EdgeRule} (hrule : rule ≠ .nominal)
    (h : rule.Applies r x y s t) : Adds s t := by
  cases rule with
  | existsSub => exact .of_addsAll h
  | hierarchy => exact .of_addsAll h
  | compositionOnLeft => exact .of_loop h fun _ _ => .of_addsAll
  | compositionOnRight => exact .of_loop h fun _ _ => .of_addsAll
  | bottom =>
      simp only [EdgeRule.Applies] at h
      subst h
      split
      · exact .of_add _
      · exact .refl s
  | nominal => exact absurd rfl hrule

end Rules

/-! ## Coherence after any operations -/

namespace Operation

variable {s t : State o} {op : Operation} {ops : List Operation}

/-- An operation adds facts, or takes one from the agenda, or takes note of an edge and then
adds facts. -/
theorem Does.cases (h : op.Does s t) :
    Adds s t ∧ (o.hasNominals = true → op.noted = []) ∨
      (∃ f, s.pop? = some (f, t)) ∧ op = .pop ∨
      ∃ x y u news, op.noted = [(x, y)] ∧ s.NotesEdge x y u news ∧ Adds u t := by
  cases op with
  | add f => exact .inl ⟨h ▸ .of_add f, fun _ => rfl⟩
  | pop =>
      simp only [Does] at h
      cases hpop : s.pop? with
      | none =>
          rw [hpop] at h
          exact .inl ⟨h ▸ .refl s, fun _ => rfl⟩
      | some popped =>
          rw [hpop] at h
          exact .inr (.inl ⟨⟨popped.1, congrArg some (Prod.ext rfl h)⟩, rfl⟩)
  | extend x y =>
      simp only [Does] at h
      split at h
      · obtain ⟨news, hnotes⟩ := h
        exact .inr (.inr ⟨x, y, t, news, rfl, hnotes, .refl t⟩)
      · next ho => exact .inl ⟨h ▸ .refl s, fun ho' => absurd ho' ho⟩
  | applyToSubsumer rule x a => exact .inl ⟨SubsumerRule.Applies.adds h, fun _ => rfl⟩
  | applyToEdge rule r x y =>
      by_cases hrule : rule = .nominal
      · subst hrule
        simp only [Does, EdgeRule.Applies] at h
        split at h
        · obtain ⟨u, news, hnotes, hcopies⟩ := h
          exact .inr (.inr ⟨x, y, u, news, rfl, hnotes, hcopies.adds⟩)
        · next ho => exact .inl ⟨h ▸ .refl s, fun ho' => absurd ho' ho⟩
      · refine .inl ⟨EdgeRule.Applies.adds_of_ne hrule h, fun _ => ?_⟩
        cases rule <;> first | rfl | exact absurd rfl hrule

theorem Does.coherent (h : op.Does s t) (hs : s.Coherent) : t.Coherent := by
  rcases h.cases with ⟨hadds, -⟩ | ⟨⟨f, hpop⟩, -⟩ | ⟨x, y, u, news, -, hnotes, hadds⟩
  · exact hadds.grows.coherent hs
  · exact (hs.pop hpop).1
  · exact hadds.grows.coherent (hnotes.coherent hs)

theorem coherent_initial : (State.initial o).Coherent :=
  (grows_addAll (T := fun _ => True) fun _ _ => trivial).coherent coherent_empty

theorem coherent_of_inOrder (h : InOrder (fun op s t => op.Does s t) ops s t)
    (hs : s.Coherent) : t.Coherent := by
  induction ops generalizing s with
  | nil => exact h ▸ hs
  | cons op ops ih =>
      obtain ⟨u, hop, hrest⟩ := h
      exact ih hrest (hop.coherent hs)

/-- The operation that is carried out goes through the sets in ascending order. -/
theorem does_perform (hs : s.Coherent) (op : Operation) : op.Does s (op.perform s) := by
  cases op with
  | add f => rfl
  | pop => rfl
  | extend x y =>
      simp only [Does, perform]
      split
      · next ho => exact ⟨_, notesEdge_extendReachability hs ho x y⟩
      · next ho => rw [extendReachability, if_neg ho]
  | applyToSubsumer rule x a => exact applies_subsumerRule rule x a s
  | applyToEdge rule r x y => exact applies_edgeRule hs rule r x y

theorem inOrder_perform (hs : s.Coherent) (ops : List Operation) :
    InOrder (fun op s t => op.Does s t) ops s (ops.foldl perform s) :=
  inOrder_foldl (P := Coherent) (fun op _ _ hs => ⟨does_perform hs op,
    (does_perform hs op).coherent hs⟩) hs

end Operation

/-! ## The tables -/

namespace State

variable {st : State o}

/-- The counts, the tables over the relations and the list of all facts say the same as the
two relations. -/
structure TablesAgree (st : State o) : Prop where
  subsumerCount : st.subsumerCount = st.subsumers.size
  edgeCount :
    st.edgeCount = {e : PropertyId × ClassId × ClassId | st.hasEdge e.1 e.2.1 e.2.2}.encard
  subsumers : ∀ x a, a ∈ st.subsumers.values x ↔ st.hasSubsumer x a
  successors : ∀ r x y, y ∈ st.successors.values (r, x) ↔ st.hasEdge r x y
  predecessors : ∀ r x y, x ∈ st.predecessors.values (r, y) ↔ st.hasEdge r x y
  propertiesFrom : ∀ r x, r ∈ st.propertiesFrom.values x ↔ ∃ y, st.hasEdge r x y
  propertiesInto : ∀ r y, r ∈ st.propertiesInto.values y ↔ ∃ x, st.hasEdge r x y
  nominalMembers : ∀ n x, x ∈ st.nominalMembers.values n ↔
    o.isNominalClass n ∧ n ∈ st.subsumers.values x
  facts_nodup : st.facts.Nodup
  mem_facts : ∀ f, f ∈ st.facts ↔ st.holds f

theorem nodup_facts (st : State o) : st.facts.Nodup := by
  refine List.nodup_append.2 ⟨?_, ?_, ?_⟩
  · refine (Multimap.nodup_toList _).map fun (x, a) (y, b) h => ?_
    obtain ⟨rfl, rfl⟩ := Fact.subsumer.inj h
    rfl
  · refine (Multimap.nodup_toList _).map fun ((r, x), y) ((r', x'), y') h => ?_
    obtain ⟨rfl, rfl, rfl⟩ := Fact.edge.inj h
    rfl
  · rintro f hf g hg rfl
    obtain ⟨p, -, rfl⟩ := List.mem_map.1 hf
    obtain ⟨q, -, heq⟩ := List.mem_map.1 hg
    exact absurd heq (by simp)

theorem filter_facts (st : State o) :
    (st.facts.filter Fact.isEdge).length = st.successors.toList.length := by
  rw [facts, List.filter_append, List.length_append, List.filter_map, List.filter_map,
    List.length_map, List.length_map]
  refine (congrArg₂ (· + ·) ?_ ?_).trans (Nat.zero_add _)
  · exact List.length_eq_zero_iff.2 (List.filter_eq_nil_iff.2 fun _ _ => Bool.false_ne_true)
  · exact congrArg List.length (List.filter_eq_self.2 fun _ _ => rfl)

/-- Each count is that of the pairs in the relation it belongs to. -/
theorem Coherent.counts (h : st.Coherent) :
    st.subsumerCount = st.subsumers.size ∧ st.edgeCount = st.successors.toList.length := by
  obtain ⟨counted, hnodup, hmem, hlength, hedges⟩ := h.counted
  have hperm : counted.Perm st.facts :=
    (List.perm_ext_iff_of_nodup hnodup st.nodup_facts).2 fun f => (hmem f).trans mem_facts.symm
  have hedgeCount : st.edgeCount = st.successors.toList.length := by
    rw [← hedges, (hperm.filter _).length_eq, filter_facts]
  have hfactCount : st.factCount = st.subsumers.size + st.successors.toList.length := by
    rw [← hlength, hperm.length_eq, facts, List.length_append, List.length_map, List.length_map,
      Multimap.length_toList]
  rw [factCount] at hfactCount
  exact ⟨by omega, hedgeCount⟩

open Classical in
theorem encard_edges (st : State o) :
    {e : PropertyId × ClassId × ClassId | st.hasEdge e.1 e.2.1 e.2.2}.encard =
      st.successors.toList.length := by
  let triple : (PropertyId × ClassId) × ClassId → PropertyId × ClassId × ClassId :=
    fun e => (e.1.1, e.1.2, e.2)
  have hinj : triple.Injective := by
    rintro ⟨⟨r, x⟩, y⟩ ⟨⟨r', x'⟩, y'⟩ ⟨⟩
    rfl
  have htriples : {e : PropertyId × ClassId × ClassId | st.hasEdge e.1 e.2.1 e.2.2} =
      (st.successors.toList.map triple).toFinset := by
    ext ⟨r, x, y⟩
    rw [Finset.mem_coe, List.mem_toFinset]
    exact Multimap.mem_toList.symm.trans (List.mem_map_of_injective hinj).symm
  rw [htriples, Set.encard_coe_eq_coe_finsetCard,
    List.toFinset_card_of_nodup ((Multimap.nodup_toList _).map hinj), List.length_map]

theorem Coherent.tablesAgree (h : st.Coherent) : st.TablesAgree where
  subsumerCount := h.counts.1
  edgeCount := by rw [encard_edges, h.counts.2]
  subsumers _ _ := mem_subsumers
  successors _ _ _ := mem_successors
  predecessors _ _ _ := h.mem_predecessors
  propertiesFrom _ _ := Multimap.mem_values.trans h.propertiesFrom
  propertiesInto _ _ := h.mem_propertiesInto
  nominalMembers _ _ := h.mem_nominalMembers.trans (and_congr_right' mem_subsumers.symm)
  facts_nodup := st.nodup_facts
  mem_facts _ := mem_facts

end State

/-- Whatever operations have been carried out from the initial state, and in whatever order they
have gone through the sets, the redundant tables say the same as the two relations. What is executed
goes through the sets in one of the orders. -/
theorem tablesAgree_of_inOrder (o : Ontology) (ops : List Operation) :
    (∀ st : State o, InOrder (fun op s t => op.Does s t) ops (.initial o) st → st.TablesAgree) ∧
      InOrder (fun op s t => op.Does s t) ops (.initial o)
        (ops.foldl Operation.perform (.initial o)) := by
  refine ⟨fun st h => ?_, Operation.inOrder_perform Operation.coherent_initial ops⟩
  exact (Operation.coherent_of_inOrder h Operation.coherent_initial).tablesAgree

/-- Facts are added that do not follow, one of them twice, and an edge is noted that has not been
derived. -/
theorem tablesAgree_of_inOrder_unfounded :
    ∃ (o : Ontology) (ops : List Operation) (st : State o), o.hasNominals = true ∧
      ops.foldl Operation.perform (.initial o) = st ∧ st.edgeCount = 2 ∧
      st.hasSubsumer ⟨7⟩ ⟨4⟩ = true ∧ st.TablesAgree := by
  let o : Ontology := .ofAxioms .initial [.nominal ⟨4⟩ ⟨0⟩]
  let ops : List Operation :=
    [.add (.edge ⟨2⟩ ⟨2⟩ ⟨4⟩), .add (.edge ⟨3⟩ ⟨4⟩ ⟨2⟩), .extend ⟨4⟩ ⟨7⟩, .pop,
      .add (.subsumer ⟨7⟩ ⟨4⟩), .applyToEdge .nominal ⟨2⟩ ⟨2⟩ ⟨4⟩, .add (.edge ⟨2⟩ ⟨2⟩ ⟨4⟩),
      .applyToSubsumer .nominal ⟨7⟩ ⟨4⟩]
  obtain ⟨hagree, hexecuted⟩ := tablesAgree_of_inOrder o ops
  exact ⟨o, ops, _, by decide, rfl, by decide +kernel, by decide +kernel, hagree _ hexecuted⟩

end Completion

end OwlEl
