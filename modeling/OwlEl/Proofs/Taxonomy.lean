import Mathlib.Order.Interval.Finset.Basic
import OwlEl.Proofs.Layers
import OwlEl.Taxonomy

/-!
# Taxonomies keep the order they are built from

From subsumers that are a preorder `Taxonomy.build` makes a node of each class of
equivalents, and links it to the nodes that cover it and to those that it covers. Since a
finite order is the transitive closure of its covering relation, the links lead from a node
to just the nodes above and below it.

Main statements: `mem_equivalents_build`, `mem_supers_build`, `mem_subs_build`,
`parents_eq_nil_iff` and `children_eq_nil_iff`.
-/

namespace OwlEl

/-- Links between direct neighbours lead to all that is above. -/
theorem transGen_covers {α : Type} {r : α → α → Prop} [IsStrictOrder α r]
    (hfinite : ∀ a, {b | r a b}.Finite) {a b : α} :
    Relation.TransGen (fun a b => r a b ∧ ∀ c, r a c → ¬r c b) a b ↔ r a b := by
  let order : PartialOrder α := partialOrderOfSO r
  have hinterval : ∀ x y : α, (Set.Icc x y).Finite := by
    intro x y
    refine ((hfinite x).insert x).subset fun z hz => ?_
    rcases hz.1 with rfl | hxz
    · exact Set.mem_insert ..
    · exact Set.mem_insert_of_mem _ hxz
  let _ : LocallyFiniteOrder α := .ofFiniteIcc hinterval
  have hcovers : (fun a b => r a b ∧ ∀ c, r a c → ¬r c b) = fun a b : α => a ⋖ b := by
    ext x y
    exact ⟨fun h => ⟨h.1, fun z => h.2 z⟩, fun h => ⟨h.1, fun z => @h.2 z⟩⟩
  rw [hcovers]
  exact lt_iff_transGen_covBy.symm

namespace Taxonomy

variable {classes : OrderedSet ClassId} {subsumers : Subsumers} {t : Taxonomy}
  {subsumersOf : ClassId → List ClassId} {c d e : ClassId} {n : TaxonomyNode} {i j : Nat}

/-! ## Subsumers -/

/-- The subsumers of the classes are a preorder on the classes. -/
structure IsPreorder (subsumers : Subsumers) (classes : OrderedSet ClassId) : Prop where
  refl : ∀ {c}, c ∈ classes → c ∈ above subsumers c
  trans : ∀ {c d e}, d ∈ above subsumers c → e ∈ above subsumers d → e ∈ above subsumers c
  left : ∀ {c d}, d ∈ above subsumers c → c ∈ classes
  right : ∀ {c d}, d ∈ above subsumers c → d ∈ classes

theorem mem_above : d ∈ above (subsumersWithin classes subsumersOf) c ↔
    c ∈ classes ∧ (d = c ∨ d ∈ subsumersOf c ∧ d ∈ classes) := by
  let within (c : ClassId) : OrderedSet ClassId :=
    (Std.ExtTreeSet.ofList ((subsumersOf c).filter classes.contains) compare).insert c
  have hdistinct : (classes.toList.map fun c => (c, within c)).Pairwise
      fun a b => ¬compare a.1 b.1 = .eq := by
    refine List.pairwise_map.2 (OrderedSet.nodup_toList.imp fun hne heq => hne ?_)
    exact Std.LawfulEqCmp.compare_eq_iff_eq.1 heq
  by_cases hc : c ∈ classes
  · have hget : above (subsumersWithin classes subsumersOf) c = within c :=
      Std.TreeMap.getD_ofList_of_mem Std.ReflCmp.compare_self hdistinct
        (List.mem_map_of_mem (Std.ExtTreeSet.mem_toList.2 hc))
    rw [hget, OrderedSet.mem_insert_iff, OrderedSet.mem_ofList_iff, List.mem_filter,
      Std.ExtTreeSet.contains_iff_mem, and_iff_right hc]
  · have hget : above (subsumersWithin classes subsumersOf) c = ∅ := by
      refine Std.TreeMap.getD_ofList_of_contains_eq_false ?_
      rw [List.map_map, ← Bool.not_eq_true, List.contains_iff_mem]
      intro hmem
      obtain ⟨c', hc', rfl⟩ := List.mem_map.1 hmem
      exact hc (Std.ExtTreeSet.mem_toList.1 hc')
    rw [hget]
    exact iff_of_false Std.ExtTreeSet.not_mem_empty fun h => hc h.1

theorem isPreorder_subsumersWithin
    (htrans : ∀ c ∈ classes, ∀ d ∈ classes, ∀ e ∈ classes,
      d ∈ subsumersOf c → e ∈ subsumersOf d → e ∈ subsumersOf c) :
    IsPreorder (subsumersWithin classes subsumersOf) classes where
  refl hc := mem_above.2 ⟨hc, .inl rfl⟩
  trans hcd hde := by
    obtain ⟨hc, hcd⟩ := mem_above.1 hcd
    obtain ⟨hd, hde⟩ := mem_above.1 hde
    refine mem_above.2 ⟨hc, ?_⟩
    rcases hde with rfl | hde
    · exact hcd
    · rcases hcd with rfl | hcd
      · exact .inr hde
      · exact .inr ⟨htrans _ hc _ hd _ hde.2 hcd.1 hde.1, hde.2⟩
  left hcd := (mem_above.1 hcd).1
  right hcd := by
    obtain ⟨hc, rfl | hd⟩ := mem_above.1 hcd
    · exact hc
    · exact hd.2

section Preorder

variable (h : IsPreorder subsumers classes)

include h

theorem IsPreorder.mem_clique (hc : c ∈ classes) :
    d ∈ clique subsumers c ↔ d ∈ above subsumers c ∧ c ∈ above subsumers d := by
  rw [clique, OrderedSet.mem_insert_iff, OrderedSet.mem_filter_iff, Std.ExtTreeSet.contains_iff_mem]
  refine or_iff_right_of_imp ?_
  rintro rfl
  exact ⟨h.refl hc, h.refl hc⟩

end Preorder

/-! ## Nodes -/

/-- Every node holds the classes that are equivalent to one of them, and the position of a class
is that of the node which holds it, if there is one yet, as there is for the classes that are
done. -/
structure Grouped (subsumers : Subsumers) (classes : OrderedSet ClassId) (done : List ClassId)
    (t : Taxonomy) : Prop where
  members : ∀ {i : Nat} {n : TaxonomyNode}, t.nodes[i]? = some n →
    ∃ c ∈ classes, n.members = (clique subsumers c).toList
  position : ∀ {i : Nat} {c : ClassId}, t.positions[c]? = some i ↔
    ∃ n : TaxonomyNode, t.nodes[i]? = some n ∧ c ∈ n.members
  covered : ∀ c ∈ done, ∃ i, t.positions[c]? = some i

theorem getElem?_foldl_insert {members : List ClassId} {positions : Std.TreeMap ClassId Nat} :
    (members.foldl (fun positions d => positions.insert d i) positions)[c]? =
      if c ∈ members then some i else positions[c]? := by
  induction members generalizing positions with
  | nil => simp
  | cons d members ih =>
      rw [List.foldl_cons, ih, Std.TreeMap.getElem?_insert]
      by_cases hc : c ∈ members
      · rw [if_pos hc, if_pos (List.mem_cons_of_mem _ hc)]
      · simp only [hc, if_false, List.mem_cons, or_false, Std.LawfulEqCmp.compare_eq_iff_eq,
          @eq_comm _ d]

section Grouping

variable {done : List ClassId} (h : IsPreorder subsumers classes)

include h

/-- An equivalent of a class that has no node yet has none either, as it would hold the class. -/
theorem Grouped.position_ne (ht : Grouped subsumers classes done t) (hc : c ∈ classes)
    (hnew : ∀ i, t.positions[c]? ≠ some i) (hd : d ∈ clique subsumers c) :
    t.positions[d]? ≠ some i := by
  intro hi
  obtain ⟨n, hn, hdn⟩ := ht.position.1 hi
  obtain ⟨e, he, hmembers⟩ := ht.members hn
  rw [hmembers, Std.ExtTreeSet.mem_toList, h.mem_clique he] at hdn
  rw [h.mem_clique hc] at hd
  refine hnew i (ht.position.2 ⟨n, hn, ?_⟩)
  rw [hmembers, Std.ExtTreeSet.mem_toList, h.mem_clique he]
  exact ⟨h.trans hdn.1 hd.2, h.trans hd.1 hdn.2⟩

theorem Grouped.push (ht : Grouped subsumers classes done t) (hc : c ∈ classes)
    (hnew : ∀ i, t.positions[c]? ≠ some i) {members : List ClassId}
    (hmembers : members = (clique subsumers c).toList) (hne : members ≠ []) :
    Grouped subsumers classes (done ++ [c])
      { nodes := t.nodes.push ⟨members, hne, [], []⟩
        positions := members.foldl (fun positions d => positions.insert d t.nodes.size)
          t.positions } := by
  have hmem : ∀ {d}, d ∈ members ↔ d ∈ clique subsumers c := by
    intro d
    rw [hmembers, Std.ExtTreeSet.mem_toList]
  refine ⟨fun {i n} hn => ?_, fun {i d} => ?_, fun d hd => ?_⟩
  · rw [Array.getElem?_push] at hn
    split at hn
    · exact ⟨c, hc, Option.some.inj hn ▸ hmembers⟩
    · exact ht.members hn
  · rw [getElem?_foldl_insert, Array.getElem?_push]
    by_cases hi : i = t.nodes.size
    · by_cases hd : d ∈ members
      · simp [hd, hi]
      · simp only [hd, hi, if_false, if_true, Option.some.injEq, exists_eq_left', iff_false]
        intro hdi
        obtain ⟨n, hn, -⟩ := ht.position.1 hdi
        simp at hn
    · by_cases hd : d ∈ members
      · simp only [hd, hi, if_true, if_false, Option.some.injEq, Ne.symm hi, false_iff]
        exact fun hdn => ht.position_ne h hc hnew (hmem.1 hd) (ht.position.2 hdn)
      · simp only [hd, hi, if_false]
        exact ht.position
  · rw [getElem?_foldl_insert]
    by_cases hdc : d ∈ members
    · exact ⟨_, if_pos hdc⟩
    · rw [if_neg hdc]
      refine ht.covered d ((List.mem_append.1 hd).resolve_right fun heq => hdc ?_)
      rw [List.mem_singleton.1 heq, hmem]
      exact Std.ExtTreeSet.mem_insert_self

theorem Grouped.addNode (ht : Grouped subsumers classes done t) (hc : c ∈ classes) :
    Grouped subsumers classes (done ++ [c]) (addNode subsumers t c) := by
  unfold Taxonomy.addNode
  split
  · next hold =>
      refine ⟨ht.members, ht.position, fun d hd => ?_⟩
      rcases List.mem_append.1 hd with hd | hd
      · exact ht.covered d hd
      · rw [List.mem_singleton.1 hd]
        exact Option.isSome_iff_exists.1 (Std.TreeMap.contains_eq_isSome_getElem?.symm.trans hold)
  · next hnew =>
      refine ht.push h hc (fun i hi => hnew ?_) rfl _
      rw [Std.TreeMap.contains_eq_isSome_getElem?, hi, Option.isSome_some]

theorem Grouped.foldl_addNode {cs : List ClassId} (ht : Grouped subsumers classes done t)
    (hcs : ∀ c ∈ cs, c ∈ classes) :
    Grouped subsumers classes (done ++ cs) (cs.foldl (Taxonomy.addNode subsumers) t) := by
  induction cs generalizing done t with
  | nil => rwa [List.append_nil]
  | cons c cs ih =>
      obtain ⟨hc, hcs⟩ := List.forall_mem_cons.1 hcs
      rw [List.append_cons]
      exact ih (ht.addNode h hc) hcs

omit h in
theorem grouped_empty : Grouped subsumers classes [] ⟨#[], ∅⟩ := by
  refine ⟨fun hn => ?_, ?_, fun _ hc => absurd hc List.not_mem_nil⟩
  · simp at hn
  · simp

theorem grouped_nodes : Grouped subsumers classes classes.toList
    (classes.toList.foldl (addNode subsumers) ⟨#[], ∅⟩) :=
  grouped_empty.foldl_addNode h fun _ => Std.ExtTreeSet.mem_toList.1

/-- The classes of one node are the equivalents of each of them. -/
theorem Grouped.position_iff (ht : Grouped subsumers classes done t)
    (hc : t.positions[c]? = some i) :
    t.positions[d]? = some i ↔ d ∈ above subsumers c ∧ c ∈ above subsumers d := by
  obtain ⟨n, hn, hcn⟩ := ht.position.1 hc
  obtain ⟨e, he, hmembers⟩ := ht.members hn
  have hmem : ∀ {d}, d ∈ n.members ↔ d ∈ above subsumers e ∧ e ∈ above subsumers d := by
    intro d
    rw [hmembers, Std.ExtTreeSet.mem_toList, h.mem_clique he]
  have hce := hmem.1 hcn
  have hposition : t.positions[d]? = some i ↔ d ∈ n.members := by
    rw [ht.position]
    refine ⟨fun ⟨m, hm, hd⟩ => ?_, fun hd => ⟨n, hn, hd⟩⟩
    rw [hn] at hm
    exact Option.some.inj hm ▸ hd
  rw [hposition, hmem]
  constructor
  · exact fun hde => ⟨h.trans hce.2 hde.1, h.trans hde.2 hce.1⟩
  · exact fun hdc => ⟨h.trans hce.1 hdc.1, h.trans hdc.2 hce.2⟩

theorem Grouped.mem_classes (ht : Grouped subsumers classes done t)
    (hc : t.positions[c]? = some i) : c ∈ classes :=
  h.left ((ht.position_iff h hc).1 hc).1

end Grouping

/-! ## The order of the nodes -/

/-- The second node is above the first and is not the first. -/
def Higher (subsumers : Subsumers) (t : Taxonomy) (i j : Nat) : Prop :=
  ∃ c d : ClassId, t.positions[c]? = some i ∧ t.positions[d]? = some j ∧
    d ∈ above subsumers c ∧ c ∉ above subsumers d

/-- The second node is above the first with no node between them. -/
def Covers (subsumers : Subsumers) (t : Taxonomy) (i j : Nat) : Prop :=
  Higher subsumers t i j ∧ ∀ k, Higher subsumers t i k → ¬Higher subsumers t k j

/-- The nodes above each node, as they are computed before the nodes are linked. -/
def strictlyAbove (subsumers : Subsumers) (t : Taxonomy) : Array (OrderedSet Nat) :=
  t.nodes.mapIdx (positionsAbove subsumers t)

section Order

variable {done : List ClassId} (h : IsPreorder subsumers classes)
  (ht : Grouped subsumers classes done t)

include h ht

/-- Which of two nodes is above the other can be seen from any of their classes. -/
theorem Grouped.higher_iff (hc : t.positions[c]? = some i) (hd : t.positions[d]? = some j) :
    Higher subsumers t i j ↔ d ∈ above subsumers c ∧ c ∉ above subsumers d := by
  refine ⟨?_, fun hcd => ⟨c, d, hc, hd, hcd⟩⟩
  rintro ⟨c', d', hc', hd', habove, hnot⟩
  have hcc' := (ht.position_iff h hc).1 hc'
  have hdd' := (ht.position_iff h hd).1 hd'
  refine ⟨h.trans (h.trans hcc'.1 habove) hdd'.2, fun hdc => hnot ?_⟩
  exact h.trans (h.trans hdd'.2 hdc) hcc'.1

theorem Grouped.isStrictOrder : IsStrictOrder Nat (Higher subsumers t) where
  irrefl i := by
    rintro ⟨c, d, hc, hd, habove, hnot⟩
    exact hnot ((ht.position_iff h hc).1 hd).2
  trans i j k := by
    rintro ⟨c, d, hc, hd, hcd, hdc⟩ ⟨d', e, hd', he, hde, hed⟩
    have hdd' := (ht.position_iff h hd).1 hd'
    refine ⟨c, e, hc, he, h.trans (h.trans hcd hdd'.1) hde, fun hec => hdc ?_⟩
    exact h.trans (h.trans hdd'.1 hde) hec

theorem Grouped.mem_strictlyAbove :
    j ∈ (strictlyAbove subsumers t).getD i ∅ ↔ Higher subsumers t i j := by
  have hget : (strictlyAbove subsumers t).getD i ∅ =
      (t.nodes[i]?.map (positionsAbove subsumers t i)).getD ∅ := by
    rw [Array.getD_eq_getD_getElem?, strictlyAbove, Array.getElem?_mapIdx]
  rw [hget]
  cases hn : t.nodes[i]? with
  | none =>
      refine iff_of_false Std.ExtTreeSet.not_mem_empty ?_
      rintro ⟨c, d, hc, -⟩
      obtain ⟨n, hn', -⟩ := ht.position.1 hc
      rw [hn] at hn'
      exact absurd hn' (by simp)
  | some n =>
      have hr : t.positions[n.representative]? = some i :=
        ht.position.2 ⟨n, hn, List.head_mem _⟩
      simp only [Option.map_some, Option.getD_some, positionsAbove, OrderedSet.mem_ofList_iff,
        List.mem_filter, List.mem_filterMap, Std.ExtTreeSet.mem_toList, decide_eq_true_eq]
      constructor
      · rintro ⟨⟨d, habove, hd⟩, hne⟩
        refine (ht.higher_iff h hr hd).2 ⟨habove, fun hnot => hne ?_⟩
        have hdi := (ht.position_iff h hr).2 ⟨habove, hnot⟩
        rw [hd] at hdi
        exact Option.some.inj hdi
      · intro hij
        obtain ⟨c, d, hc, hd, -⟩ := id hij
        have habove := (ht.higher_iff h hr hd).1 hij
        refine ⟨⟨d, habove.1, hd⟩, ?_⟩
        rintro rfl
        exact (ht.isStrictOrder h).irrefl _ hij

theorem Grouped.mem_directlyAbove :
    j ∈ directlyAbove (strictlyAbove subsumers t) i ↔ Covers subsumers t i j := by
  simp only [directlyAbove, List.mem_filter, Std.ExtTreeSet.mem_toList, Bool.not_eq_true',
    List.any_eq_false, Bool.and_eq_true, decide_eq_true_eq, Std.ExtTreeSet.contains_iff_mem,
    ht.mem_strictlyAbove h, not_and]
  refine and_congr_right fun _ => ⟨fun hnone k hik hkj => ?_, fun hnone k hik _ => hnone k hik⟩
  refine hnone k hik ?_ hkj
  rintro rfl
  exact (ht.isStrictOrder h).irrefl _ hkj

/-- Links to the nodes that cover a node lead to all that is above it. -/
theorem Grouped.transGen_covers :
    Relation.TransGen (Covers subsumers t) i j ↔ Higher subsumers t i j := by
  have := ht.isStrictOrder h
  refine OwlEl.transGen_covers fun i => ?_
  have hlist : {j | Higher subsumers t i j} =
      {j | j ∈ ((strictlyAbove subsumers t).getD i ∅).toList} := by
    ext j
    rw [Set.mem_ofPred_eq, Set.mem_ofPred_eq, Std.ExtTreeSet.mem_toList, ht.mem_strictlyAbove h]
  rw [hlist]
  exact List.finite_toSet _

omit h in
theorem Grouped.lt_size_of_higher (hij : Higher subsumers t i j) :
    i < t.nodes.size ∧ j < t.nodes.size := by
  obtain ⟨c, d, hc, hd, -⟩ := hij
  obtain ⟨n, hn, -⟩ := ht.position.1 hc
  obtain ⟨m, hm, -⟩ := ht.position.1 hd
  exact ⟨(Array.getElem?_eq_some_iff.1 hn).1, (Array.getElem?_eq_some_iff.1 hm).1⟩

end Order

/-! ## Links -/

section Links

variable {done : List ClassId} (h : IsPreorder subsumers classes)
  (ht : Grouped subsumers classes done t)

include h ht

/-- Linking keeps the classes of a node and adds the nodes that cover it and that it covers. -/
theorem Grouped.getElem?_link (hn : (link subsumers t).nodes[i]? = some n) :
    (∃ m, t.nodes[i]? = some m ∧ n.members = m.members) ∧
    (∀ j, j ∈ n.parents ↔ Covers subsumers t i j) ∧
    ∀ j, j ∈ n.children ↔ Covers subsumers t j i := by
  let parents := t.nodes.mapIdx fun position _ =>
    directlyAbove (strictlyAbove subsumers t) position
  have hparents : ∀ {i j}, j ∈ parents.getD i [] ↔ Covers subsumers t i j := by
    intro i j
    rw [Array.getD_eq_getD_getElem?, Array.getElem?_mapIdx]
    cases hi : t.nodes[i]? with
    | none =>
        refine iff_of_false List.not_mem_nil fun hij => ?_
        have hlt := (ht.lt_size_of_higher hij.1).1
        rw [Array.getElem?_eq_none_iff] at hi
        omega
    | some m => exact ht.mem_directlyAbove h
  rw [link, Array.getElem?_mapIdx] at hn
  obtain ⟨m, hm, rfl⟩ := Option.map_eq_some_iff.1 hn
  refine ⟨⟨m, hm, rfl⟩, fun j => hparents, fun j => ?_⟩
  simp only [List.mem_filter, List.mem_range, List.contains_iff_mem]
  refine Iff.trans (and_iff_right_of_imp fun hj => ?_) hparents
  rw [Array.size_mapIdx]
  exact (ht.lt_size_of_higher (hparents.1 hj).1).1

/-- The nodes that links lead to from a node. -/
def linksFrom (t : Taxonomy) (links : TaxonomyNode → List Nat) (position : Nat) : List Nat :=
  match t.nodes[position]? with
  | some n => links n
  | none => []

omit h ht in
/-- Links lead to the classes of the other nodes that they lead to in any number of steps. -/
theorem mem_linked {links : TaxonomyNode → List Nat} {leads : Nat → Nat → Prop}
    (hlinks : ∀ {i j : Nat}, (∃ n, t.nodes[i]? = some n ∧ j ∈ links n) ↔ leads i j)
    (hsize : ∀ {i j}, leads i j → j < t.nodes.size) (hi : i < t.nodes.size)
    (hc : t.positions[c]? = some i) :
    d ∈ t.linked links c ↔ ∃ j n, t.nodes[j]? = some n ∧ d ∈ n.members ∧ j ≠ i ∧
      Relation.ReflTransGen leads i j := by
  have hnext : Layers.Leads (t.linksFrom links) = leads := by
    ext i j
    rw [← hlinks, Layers.Leads]
    simp only [linksFrom]
    cases t.nodes[i]? with
    | some n => simp
    | none => simp
  have hleads : ∀ {i j}, j ∈ t.linksFrom links i ↔ leads i j := fun {i j} =>
    iff_of_eq (congrFun₂ hnext i j)
  have hfound : ∀ {j}, j ∈ (Layers.reachable (t.linksFrom links) t.nodes.size i).tail ↔
      j ≠ i ∧ Relation.ReflTransGen leads i j := by
    intro j
    have hnodes : ∀ a ∈ List.range t.nodes.size, ∀ b ∈ t.linksFrom links a,
        b ∈ List.range t.nodes.size := fun a _ b hab => List.mem_range.2 (hsize (hleads.1 hab))
    have hreach := Layers.mem_tail_reachable (b := j) (List.mem_range.2 hi) hnodes
    rwa [List.length_range, hnext] at hreach
  simp only [linked, hc, OrderedSet.mem_ofList_iff, List.mem_flatMap, nodesAt, List.mem_filterMap]
  constructor
  · rintro ⟨n, ⟨j, hj, hn⟩, hd⟩
    exact ⟨j, n, hn, hd, hfound.1 hj⟩
  · rintro ⟨j, n, hn, hd, hj⟩
    exact ⟨n, ⟨j, hfound.2 hj, hn⟩, hd⟩

/-- The covering nodes lead to just the nodes above. -/
theorem Grouped.reflTransGen_covers :
    (j ≠ i ∧ Relation.ReflTransGen (Covers subsumers t) i j) ↔ Higher subsumers t i j := by
  rw [Relation.reflTransGen_iff_eq_or_transGen, ht.transGen_covers h]
  constructor
  · exact fun ⟨hne, hij⟩ => hij.resolve_left hne
  · refine fun hij => ⟨?_, .inr hij⟩
    rintro rfl
    exact (ht.isStrictOrder h).irrefl _ hij

theorem Grouped.exists_node_link :
    (∃ n, (link subsumers t).nodes[i]? = some n ∧ d ∈ n.members) ↔ t.positions[d]? = some i := by
  rw [ht.position]
  constructor
  · rintro ⟨n, hn, hd⟩
    obtain ⟨⟨m, hm, hmembers⟩, -⟩ := ht.getElem?_link h hn
    exact ⟨m, hm, hmembers ▸ hd⟩
  · rintro ⟨m, hm, hd⟩
    obtain ⟨n, hn⟩ : ∃ n, (link subsumers t).nodes[i]? = some n := by
      rw [link, Array.getElem?_mapIdx, hm]
      exact ⟨_, rfl⟩
    obtain ⟨⟨m', hm', hmembers⟩, -⟩ := ht.getElem?_link h hn
    rw [hm] at hm'
    exact ⟨n, hn, hmembers ▸ Option.some.inj hm' ▸ hd⟩

theorem Grouped.exists_parent :
    (∃ n, (link subsumers t).nodes[i]? = some n ∧ j ∈ n.parents) ↔ Covers subsumers t i j := by
  constructor
  · rintro ⟨n, hn, hj⟩
    exact ((ht.getElem?_link h hn).2.1 j).1 hj
  · intro hij
    obtain ⟨c, d, hc, -⟩ := hij.1
    obtain ⟨n, hn, -⟩ := (ht.exists_node_link h).2 hc
    exact ⟨n, hn, ((ht.getElem?_link h hn).2.1 j).2 hij⟩

theorem Grouped.exists_child :
    (∃ n, (link subsumers t).nodes[i]? = some n ∧ j ∈ n.children) ↔ Covers subsumers t j i := by
  constructor
  · rintro ⟨n, hn, hj⟩
    exact ((ht.getElem?_link h hn).2.2 j).1 hj
  · intro hji
    obtain ⟨c, d, -, hd, -⟩ := hji.1
    obtain ⟨n, hn, -⟩ := (ht.exists_node_link h).2 hd
    exact ⟨n, hn, ((ht.getElem?_link h hn).2.2 j).2 hji⟩

omit h in
theorem Grouped.lt_size_link (hij : Higher subsumers t i j) :
    i < (link subsumers t).nodes.size ∧ j < (link subsumers t).nodes.size := by
  rw [link, Array.size_mapIdx]
  exact ht.lt_size_of_higher hij

theorem Grouped.mem_supers_link (hc : t.positions[c]? = some i) :
    d ∈ (link subsumers t).supers c ↔
      ∃ j, t.positions[d]? = some j ∧ Higher subsumers t i j := by
  have hi : i < (link subsumers t).nodes.size := by
    obtain ⟨n, hn, -⟩ := (ht.exists_node_link h).2 hc
    exact (Array.getElem?_eq_some_iff.1 hn).1
  rw [supers, mem_linked (ht.exists_parent h) (fun hij => (ht.lt_size_link hij.1).2) hi hc]
  refine exists_congr fun j => ?_
  rw [← ht.exists_node_link h, ← ht.reflTransGen_covers h]
  exact ⟨fun ⟨n, hn, hd, hj⟩ => ⟨⟨n, hn, hd⟩, hj⟩, fun ⟨⟨n, hn, hd⟩, hj⟩ => ⟨n, hn, hd, hj⟩⟩

theorem Grouped.mem_subs_link (hc : t.positions[c]? = some i) :
    d ∈ (link subsumers t).subs c ↔
      ∃ j, t.positions[d]? = some j ∧ Higher subsumers t j i := by
  have hi : i < (link subsumers t).nodes.size := by
    obtain ⟨n, hn, -⟩ := (ht.exists_node_link h).2 hc
    exact (Array.getElem?_eq_some_iff.1 hn).1
  rw [subs, mem_linked (ht.exists_child h) (fun hij => (ht.lt_size_link hij.1).1) hi hc]
  refine exists_congr fun j => ?_
  rw [← ht.exists_node_link h, ← ht.reflTransGen_covers h, ne_comm,
    ← Relation.reflTransGen_swap (r := Covers subsumers t)]
  exact ⟨fun ⟨n, hn, hd, hj⟩ => ⟨⟨n, hn, hd⟩, hj⟩, fun ⟨⟨n, hn, hd⟩, hj⟩ => ⟨n, hn, hd, hj⟩⟩

end Links

/-! ## Taxonomies that are built -/

section Build

variable (h : IsPreorder (subsumersWithin classes subsumersOf) classes)

include h

/-- The nodes before they are linked. -/
theorem exists_grouped : ∃ t,
    Grouped (subsumersWithin classes subsumersOf) classes classes.toList t ∧
    build classes subsumersOf = link (subsumersWithin classes subsumersOf) t :=
  ⟨_, grouped_nodes h, rfl⟩

/-- The equivalents of a class are those that subsume it and that it subsumes. -/
theorem mem_equivalents_build (hc : c ∈ classes) : d ∈ (build classes subsumersOf).equivalents c ↔
    d ∈ above (subsumersWithin classes subsumersOf) c ∧
      c ∈ above (subsumersWithin classes subsumersOf) d := by
  obtain ⟨t, ht, hbuild⟩ := exists_grouped h
  obtain ⟨i, hi⟩ := ht.covered c (Std.ExtTreeSet.mem_toList.2 hc)
  rw [← ht.position_iff h hi, ← ht.exists_node_link h, hbuild]
  have hnode : (link (subsumersWithin classes subsumersOf) t).node? c =
      (link (subsumersWithin classes subsumersOf) t).nodes[i]? := by
    have hposition : (link (subsumersWithin classes subsumersOf) t).positions[c]? = some i := hi
    rw [node?, hposition, Option.bind_some]
  rw [equivalents, hnode]
  cases (link (subsumersWithin classes subsumersOf) t).nodes[i]? with
  | some n => simp
  | none => simp

/-- The classes above a class are those that subsume it and that it does not subsume. -/
theorem mem_supers_build (hc : c ∈ classes) : d ∈ (build classes subsumersOf).supers c ↔
    d ∈ above (subsumersWithin classes subsumersOf) c ∧
      c ∉ above (subsumersWithin classes subsumersOf) d := by
  obtain ⟨t, ht, hbuild⟩ := exists_grouped h
  obtain ⟨i, hi⟩ := ht.covered c (Std.ExtTreeSet.mem_toList.2 hc)
  rw [hbuild, ht.mem_supers_link h hi]
  constructor
  · rintro ⟨j, hj, hij⟩
    exact (ht.higher_iff h hi hj).1 hij
  · intro hcd
    obtain ⟨j, hj⟩ := ht.covered d (Std.ExtTreeSet.mem_toList.2 (h.right hcd.1))
    exact ⟨j, hj, (ht.higher_iff h hi hj).2 hcd⟩

/-- The classes below a class are those that it subsumes and that do not subsume it. -/
theorem mem_subs_build (hc : c ∈ classes) : d ∈ (build classes subsumersOf).subs c ↔
    c ∈ above (subsumersWithin classes subsumersOf) d ∧
      d ∉ above (subsumersWithin classes subsumersOf) c := by
  obtain ⟨t, ht, hbuild⟩ := exists_grouped h
  obtain ⟨i, hi⟩ := ht.covered c (Std.ExtTreeSet.mem_toList.2 hc)
  rw [hbuild, ht.mem_subs_link h hi]
  constructor
  · rintro ⟨j, hj, hji⟩
    exact (ht.higher_iff h hj hi).1 hji
  · intro hdc
    obtain ⟨j, hj⟩ := ht.covered d (Std.ExtTreeSet.mem_toList.2 (h.left hdc.1))
    exact ⟨j, hj, (ht.higher_iff h hj hi).2 hdc⟩

/-- A class that subsumes all others is in the only node without parents. -/
theorem parents_eq_nil_iff
    (htop : ∀ c ∈ classes, e ∈ above (subsumersWithin classes subsumersOf) c)
    (hn : (build classes subsumersOf).nodes[i]? = some n) :
    n.parents = [] ↔ (build classes subsumersOf).positions[e]? = some i := by
  obtain ⟨t, ht, hbuild⟩ := exists_grouped h
  rw [hbuild] at hn ⊢
  obtain ⟨⟨m, hm, -⟩, hparents, -⟩ := ht.getElem?_link h hn
  have hr : t.positions[m.representative]? = some i := ht.position.2 ⟨m, hm, List.head_mem _⟩
  have habove := htop _ (ht.mem_classes h hr)
  show n.parents = [] ↔ t.positions[e]? = some i
  rw [ht.position_iff h hr, and_iff_right habove, List.eq_nil_iff_forall_not_mem]
  constructor
  · intro hnone
    by_contra hnot
    -- then the class is above the node, and something covers the node
    obtain ⟨j, hj⟩ := ht.covered e (Std.ExtTreeSet.mem_toList.2 (h.right habove))
    have hij := (ht.transGen_covers h).2 ((ht.higher_iff h hr hj).2 ⟨habove, hnot⟩)
    obtain ⟨k, hik, -⟩ := Relation.TransGen.head'_iff.1 hij
    exact hnone k ((hparents k).2 hik)
  · intro hle k hk
    obtain ⟨hik, -⟩ := (hparents k).1 hk
    obtain ⟨c, d, hc, hd, hcd⟩ := id hik
    have hrd := (ht.higher_iff h hr hd).1 hik
    exact hrd.2 (h.trans (htop _ (h.right hrd.1)) hle)

/-- A class that all others subsume is in the only node without children. -/
theorem children_eq_nil_iff
    (hbottom : ∀ c ∈ classes, c ∈ above (subsumersWithin classes subsumersOf) e)
    (hn : (build classes subsumersOf).nodes[i]? = some n) :
    n.children = [] ↔ (build classes subsumersOf).positions[e]? = some i := by
  obtain ⟨t, ht, hbuild⟩ := exists_grouped h
  rw [hbuild] at hn ⊢
  obtain ⟨⟨m, hm, -⟩, -, hchildren⟩ := ht.getElem?_link h hn
  have hr : t.positions[m.representative]? = some i := ht.position.2 ⟨m, hm, List.head_mem _⟩
  have hbelow := hbottom _ (ht.mem_classes h hr)
  show n.children = [] ↔ t.positions[e]? = some i
  rw [ht.position_iff h hr, and_iff_left hbelow, List.eq_nil_iff_forall_not_mem]
  constructor
  · intro hnone
    by_contra hnot
    -- then the class is below the node, and the node covers something
    obtain ⟨j, hj⟩ := ht.covered e (Std.ExtTreeSet.mem_toList.2 (h.left hbelow))
    have hji := (ht.transGen_covers h).2 ((ht.higher_iff h hj hr).2 ⟨hbelow, hnot⟩)
    obtain ⟨k, -, hki⟩ := Relation.TransGen.tail'_iff.1 hji
    exact hnone k ((hchildren k).2 hki)
  · intro hle k hk
    obtain ⟨hki, -⟩ := (hchildren k).1 hk
    obtain ⟨c, d, hc, hd, hcd⟩ := id hki
    have hcr := (ht.higher_iff h hc hr).1 hki
    exact hcr.2 (h.trans hle (hbottom _ (h.left hcr.1)))

/-- The members of the node of a class. -/
theorem exists_node_build (hc : c ∈ classes) :
    ∃ i n, (build classes subsumersOf).positions[c]? = some i ∧
      (build classes subsumersOf).nodes[i]? = some n := by
  obtain ⟨t, ht, hbuild⟩ := exists_grouped h
  obtain ⟨i, hi⟩ := ht.covered c (Std.ExtTreeSet.mem_toList.2 hc)
  obtain ⟨n, hn, -⟩ := (ht.exists_node_link h).2 hi
  rw [hbuild]
  exact ⟨i, n, hi, hn⟩

end Build

end Taxonomy

end OwlEl
