import OwlEl.Proofs.Taxonomy

/-!
# Taxonomies are transitive reductions

From subsumers that are reflexive and transitive on the classes, `Taxonomy.build` makes the
transitive reduction: the nodes are the classes of equivalents in the order of their smallest
members, and the links are the pairs of nodes with no node strictly between. A node is added for
the first of its classes that is come upon; as the classes are gone through in ascending order,
that is the smallest one.

Main statement: `build_isReduction`.
-/

namespace OwlEl.Taxonomy

/-! ## Transitive reductions -/

/-- The class is a member of the node at the position. -/
def Holds (t : Taxonomy) (i : Nat) (c : ClassId) : Prop :=
  ∃ n, t.nodes[i]? = some n ∧ c ∈ n.members

/-- The second node is among the parents of the first. -/
def IsParent (t : Taxonomy) (i j : Nat) : Prop := ∃ n, t.nodes[i]? = some n ∧ j ∈ n.parents

/-- The second node is among the children of the first. -/
def IsChild (t : Taxonomy) (i j : Nat) : Prop := ∃ n, t.nodes[i]? = some n ∧ j ∈ n.children

/-- The classes of the second node are above those of the first, and not the other way round. -/
def StrictlyAbove (le : ClassId → ClassId → Prop) (t : Taxonomy) (i j : Nat) : Prop :=
  ∃ c d, t.Holds i c ∧ t.Holds j d ∧ le c d ∧ ¬le d c

/-- The taxonomy is the transitive reduction of an order of the classes. -/
structure IsReduction (le : ClassId → ClassId → Prop) (classes : OrderedSet ClassId)
    (t : Taxonomy) : Prop where
  mem_classes : ∀ {c}, c ∈ classes ↔ ∃ i, t.Holds i c
  disjoint : ∀ {c i j}, t.Holds i c → t.Holds j c → i = j
  clique : ∀ {c d i}, t.Holds i c → (t.Holds i d ↔ d ∈ classes ∧ le c d ∧ le d c)
  position : ∀ {c : ClassId} {i : Nat}, t.positions[c]? = some i ↔ t.Holds i c
  members : ∀ {i : Nat} {n : TaxonomyNode}, t.nodes[i]? = some n → IsAscending n.members
  representatives : IsAscending (t.nodes.toList.map TaxonomyNode.representative)
  parent : ∀ {i j}, t.IsParent i j ↔
    StrictlyAbove le t i j ∧ ∀ k, StrictlyAbove le t i k → ¬StrictlyAbove le t k j
  child : ∀ {i j}, t.IsChild i j ↔ t.IsParent j i
  parents : ∀ {i : Nat} {n : TaxonomyNode}, t.nodes[i]? = some n → IsAscending n.parents
  children : ∀ {i : Nat} {n : TaxonomyNode}, t.nodes[i]? = some n → IsAscending n.children
  reaches : ∀ {i j}, Relation.TransGen t.IsParent i j ↔ StrictlyAbove le t i j
  acyclic : ∀ i, ¬Relation.TransGen t.IsParent i i

variable {classes : OrderedSet ClassId} {subsumers : Subsumers} {t : Taxonomy}
  {subsumersOf : ClassId → List ClassId} {c d : ClassId} {n : TaxonomyNode} {i j : Nat}

/-! ## The order of the nodes in the list -/

theorem head_eq_of_isAscending {α : Type} [Ord α] [Std.TransOrd α] {xs : List α} {a : α}
    (hxs : IsAscending xs) (hne : xs ≠ []) (ha : a ∈ xs)
    (hsmallest : ∀ b ∈ xs, b = a ∨ compare a b = .lt) : xs.head hne = a := by
  cases xs with
  | nil => exact absurd rfl hne
  | cons b xs =>
      rcases List.mem_cons.1 ha with rfl | ha
      · rfl
      · have hba : compare b a = .lt := (List.pairwise_cons.1 hxs).1 a ha
        rcases hsmallest b (List.mem_cons_self ..) with rfl | hab
        · rfl
        · exact absurd hab (Std.OrientedCmp.not_lt_of_lt hba)

section Representatives

variable {done cs : List ClassId} (h : IsPreorder subsumers classes)

include h

/-- The smaller equivalents of a class that has no node would have had a node with that class. -/
theorem Grouped.head_clique (ht : Grouped subsumers classes done t)
    (hclasses : classes.toList = done ++ c :: cs) (hnew : ∀ i, t.positions[c]? ≠ some i) :
    (clique subsumers c).toList.head (clique_toList_ne_nil subsumers c) = c := by
  have hc : c ∈ classes := by
    rw [← Std.ExtTreeSet.mem_toList, hclasses]
    simp
  have hlater : ∀ d ∈ cs, compare c d = .lt := by
    have hall := isAscending_toList classes
    rw [hclasses] at hall
    exact (List.pairwise_cons.1 (List.pairwise_append.1 hall).2.1).1
  refine head_eq_of_isAscending (isAscending_toList _) _
    (Std.ExtTreeSet.mem_toList.2 Std.ExtTreeSet.mem_insert_self) fun d hd => ?_
  rw [Std.ExtTreeSet.mem_toList] at hd
  have hmem : d ∈ done ++ c :: cs := by
    rw [← hclasses, Std.ExtTreeSet.mem_toList]
    exact h.right ((h.mem_clique hc).1 hd).1
  rcases List.mem_append.1 hmem with hdone | hmem
  · obtain ⟨i, hi⟩ := ht.covered d hdone
    exact absurd hi (ht.position_ne h hc hnew hd)
  · exact (List.mem_cons.1 hmem).imp_right (hlater d)

theorem Grouped.representatives_addNode (ht : Grouped subsumers classes done t)
    (hclasses : classes.toList = done ++ c :: cs)
    (hsub : (t.nodes.toList.map TaxonomyNode.representative).Sublist done) :
    ((Taxonomy.addNode subsumers t c).nodes.toList.map TaxonomyNode.representative).Sublist
      (done ++ [c]) := by
  unfold Taxonomy.addNode
  split
  · exact hsub.trans (List.sublist_append_left ..)
  · next hnew =>
      have hhead := ht.head_clique h hclasses fun i hi => hnew (by
        rw [Std.TreeMap.contains_eq_isSome_getElem?, hi, Option.isSome_some])
      rw [Array.toList_push, List.map_append, List.map_singleton, TaxonomyNode.representative,
        hhead]
      exact hsub.append (List.Sublist.refl _)

theorem Grouped.representatives_foldl (ht : Grouped subsumers classes done t)
    (hclasses : classes.toList = done ++ cs)
    (hsub : (t.nodes.toList.map TaxonomyNode.representative).Sublist done) :
    ((cs.foldl (Taxonomy.addNode subsumers) t).nodes.toList.map
      TaxonomyNode.representative).Sublist (done ++ cs) := by
  induction cs generalizing done t with
  | nil => rwa [List.append_nil]
  | cons c cs ih =>
      have hc : c ∈ classes := by
        rw [← Std.ExtTreeSet.mem_toList, hclasses]
        simp
      have hnext := ht.representatives_addNode h hclasses hsub
      rw [List.append_cons] at hclasses ⊢
      exact ih (ht.addNode h hc) hclasses hnext

end Representatives

/-! ## The order of the links -/

theorem isAscending_sublist {α : Type} [Ord α] {xs ys : List α} (h : IsAscending ys)
    (hsub : xs.Sublist ys) : IsAscending xs :=
  List.Pairwise.sublist hsub h

theorem isAscending_range (k : Nat) : IsAscending (List.range k) :=
  List.pairwise_lt_range.imp Nat.compare_eq_lt.2

theorem isAscending_links (hn : (link subsumers t).nodes[i]? = some n) :
    IsAscending n.parents ∧ IsAscending n.children := by
  rw [link, Array.getElem?_mapIdx] at hn
  obtain ⟨m, hm, rfl⟩ := Option.map_eq_some_iff.1 hn
  constructor
  · dsimp only
    rw [Array.getD_eq_getD_getElem?, Array.getElem?_mapIdx, hm]
    exact isAscending_sublist (isAscending_toList _) List.filter_sublist
  · exact isAscending_sublist (isAscending_range _) List.filter_sublist

theorem representatives_link : (link subsumers t).nodes.toList.map TaxonomyNode.representative =
    t.nodes.toList.map TaxonomyNode.representative := by
  apply List.ext_getElem?
  intro i
  rw [List.getElem?_map, List.getElem?_map, Array.getElem?_toList, Array.getElem?_toList, link,
    Array.getElem?_mapIdx, Option.map_map]
  rfl

/-! ## Linked nodes -/

section Links

variable {le : ClassId → ClassId → Prop} (h : IsPreorder subsumers classes)
  (ht : Grouped subsumers classes classes.toList t)
  (hle : ∀ {c d}, d ∈ above subsumers c ↔ c ∈ classes ∧ d ∈ classes ∧ le c d)

include h ht

theorem Grouped.holds_link : (link subsumers t).Holds i c ↔ t.positions[c]? = some i :=
  ht.exists_node_link h

theorem Grouped.isAscending_members (hn : (link subsumers t).nodes[i]? = some n) :
    IsAscending n.members := by
  obtain ⟨⟨m, hm, hmembers⟩, -⟩ := ht.getElem?_link h hn
  obtain ⟨c, -, hclique⟩ := ht.members hm
  rw [hmembers, hclique]
  exact isAscending_toList _

include hle

theorem Grouped.strictlyAbove_link :
    StrictlyAbove le (link subsumers t) i j ↔ Higher subsumers t i j := by
  refine exists₂_congr fun c d => ?_
  rw [ht.holds_link h, ht.holds_link h]
  refine and_congr_right fun hc => and_congr_right fun hd => ?_
  have hc := ht.mem_classes h hc
  have hd := ht.mem_classes h hd
  simp only [hle, hc, hd, true_and]

theorem Grouped.isReduction
    (hsub : (t.nodes.toList.map TaxonomyNode.representative).Sublist classes.toList) :
    IsReduction le classes (link subsumers t) := by
  have hreaches : ∀ {i j}, Relation.TransGen (link subsumers t).IsParent i j ↔
      StrictlyAbove le (link subsumers t) i j := by
    intro i j
    have hparent : (link subsumers t).IsParent = Covers subsumers t := by
      ext i j
      exact ht.exists_parent h
    rw [hparent, ht.strictlyAbove_link h hle, ht.transGen_covers h]
  constructor
  case mem_classes =>
    intro c
    simp only [ht.holds_link h]
    exact ⟨fun hc => ht.covered c (Std.ExtTreeSet.mem_toList.2 hc),
      fun ⟨i, hi⟩ => ht.mem_classes h hi⟩
  case disjoint =>
    intro c i j hi hj
    rw [ht.holds_link h] at hi hj
    exact Option.some.inj (hi.symm.trans hj)
  case clique =>
    intro c d i hc
    rw [ht.holds_link h] at hc ⊢
    have hmem := ht.mem_classes h hc
    rw [ht.position_iff h hc, hle, hle]
    constructor
    · exact fun ⟨⟨_, hd, hcd⟩, _, _, hdc⟩ => ⟨hd, hcd, hdc⟩
    · exact fun ⟨hd, hcd, hdc⟩ => ⟨⟨hmem, hd, hcd⟩, hd, hmem, hdc⟩
  case position => exact (ht.holds_link h).symm
  case members => exact ht.isAscending_members h
  case representatives =>
    rw [representatives_link]
    exact isAscending_sublist (isAscending_toList classes) hsub
  case parent =>
    intro i j
    simp only [ht.strictlyAbove_link h hle]
    exact ht.exists_parent h
  case child =>
    intro i j
    exact (ht.exists_child h).trans (ht.exists_parent h).symm
  case parents => exact fun hn => (isAscending_links hn).1
  case children => exact fun hn => (isAscending_links hn).2
  case reaches => exact hreaches
  case acyclic =>
    intro i hi
    rw [hreaches, ht.strictlyAbove_link h hle] at hi
    exact (ht.isStrictOrder h).irrefl i hi

end Links

/-! ## Taxonomies that are built -/

/-- Subsumers that are not among the classes make no difference. -/
theorem build_congr {subsumersOf' : ClassId → List ClassId}
    (h : ∀ c ∈ classes, ∀ d ∈ classes, d ∈ subsumersOf c ↔ d ∈ subsumersOf' c) :
    build classes subsumersOf = build classes subsumersOf' := by
  have hwithin : subsumersWithin classes subsumersOf = subsumersWithin classes subsumersOf' := by
    unfold subsumersWithin
    congr 1
    apply List.map_congr_left
    intro c hc
    rw [Std.ExtTreeSet.mem_toList] at hc
    congr 2
    apply Std.ExtTreeSet.ext_mem
    intro d
    simp only [OrderedSet.mem_ofList_iff, List.mem_filter, Std.ExtTreeSet.contains_iff_mem]
    exact and_congr_left fun hd => h c hc d hd
  unfold build
  rw [hwithin]

/-- From subsumers that are reflexive and transitive on the classes the transitive reduction of
their order is built, whatever the subsumers outside of the classes are. -/
theorem build_isReduction (hrefl : ∀ c ∈ classes, c ∈ subsumersOf c)
    (htrans : ∀ c ∈ classes, ∀ d ∈ classes, ∀ e ∈ classes,
      d ∈ subsumersOf c → e ∈ subsumersOf d → e ∈ subsumersOf c) :
    IsReduction (fun c d => d ∈ subsumersOf c) classes (build classes subsumersOf) ∧
      ∀ subsumersOf' : ClassId → List ClassId,
        (∀ c ∈ classes, ∀ d ∈ classes, d ∈ subsumersOf c ↔ d ∈ subsumersOf' c) →
        build classes subsumersOf = build classes subsumersOf' := by
  refine ⟨?_, fun _ => build_congr⟩
  have h := isPreorder_subsumersWithin htrans
  have habove : ∀ {c d}, d ∈ above (subsumersWithin classes subsumersOf) c ↔
      c ∈ classes ∧ d ∈ classes ∧ d ∈ subsumersOf c := by
    intro c d
    rw [mem_above]
    refine and_congr_right fun hc => ⟨?_, fun ⟨hd, hcd⟩ => .inr ⟨hcd, hd⟩⟩
    rintro (rfl | ⟨hcd, hd⟩)
    · exact ⟨hc, hrefl d hc⟩
    · exact ⟨hd, hcd⟩
  have hempty : Grouped (subsumersWithin classes subsumersOf) classes [] ⟨#[], ∅⟩ := grouped_empty
  have hsub := hempty.representatives_foldl h (List.nil_append classes.toList).symm
    (List.nil_sublist _)
  exact (grouped_nodes h).isReduction h habove hsub

/-- Two equivalent classes below two classes below one more make a diamond of four nodes. -/
theorem build_isReduction_diamond :
    ∃ (classes : OrderedSet ClassId) (subsumersOf : ClassId → List ClassId),
      IsReduction (fun c d => d ∈ subsumersOf c) classes (build classes subsumersOf) ∧
      (build classes subsumersOf).nodes.toList.map (fun n => (n.members, n.parents, n.children)) =
        [([⟨2⟩], [], [1, 2]), ([⟨3⟩], [0], [3]), ([⟨4⟩], [0], [3]), ([⟨5⟩, ⟨6⟩], [1, 2], [])] := by
  let below : List (ClassId × List ClassId) :=
    [(⟨2⟩, [⟨2⟩]), (⟨3⟩, [⟨3⟩, ⟨2⟩]), (⟨4⟩, [⟨4⟩, ⟨2⟩]),
      (⟨5⟩, [⟨6⟩, ⟨5⟩, ⟨4⟩, ⟨3⟩, ⟨2⟩, ⟨9⟩]), (⟨6⟩, [⟨6⟩, ⟨5⟩, ⟨4⟩, ⟨3⟩, ⟨2⟩])]
  let subsumersOf (c : ClassId) : List ClassId := (below.lookup c).getD []
  let classes : OrderedSet ClassId := .ofList [⟨6⟩, ⟨5⟩, ⟨4⟩, ⟨3⟩, ⟨2⟩] compare
  have hmem : ∀ c, c ∈ classes ↔ c ∈ [⟨6⟩, ⟨5⟩, ⟨4⟩, ⟨3⟩, ⟨2⟩] := fun c =>
    OrderedSet.mem_ofList_iff
  have hrefl : ∀ c ∈ classes, c ∈ subsumersOf c := by
    simp only [hmem]
    decide
  have htrans : ∀ c ∈ classes, ∀ d ∈ classes, ∀ e ∈ classes,
      d ∈ subsumersOf c → e ∈ subsumersOf d → e ∈ subsumersOf c := by
    simp only [hmem]
    decide
  exact ⟨classes, subsumersOf, (build_isReduction hrefl htrans).1, by cbv⟩

end OwlEl.Taxonomy
