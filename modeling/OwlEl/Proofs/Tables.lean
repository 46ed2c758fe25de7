import OwlEl.Ontology

/-!
# The tables of an ontology

A table is filled from the axioms of one form, and what stands at a key are the axioms of that form
with the key in its place: `Ontology.Tabulates` says this of all tables. A table is read off the
ascending list of the axioms, so that what stands at a key is in their order and stands there once:
`lists_get`. Two tables are made in another way. A conjunction stands at several keys, at each of
them once because its operands are ascending, and the reflexive properties are sorted, which
changes nothing.
-/

namespace OwlEl

/-- The values stand for the axioms of the set that match, for each of them once and in their
order. -/
structure Lists {β : Type} (axioms : OrderedSet NormalAxiom) (matching : NormalAxiom → Prop)
    (form : β → NormalAxiom) (values : List β) : Prop where
  mem_map : ∀ {a}, a ∈ values.map form ↔ a ∈ axioms ∧ matching a
  ascending : IsAscending (values.map form)

section Lists

variable {β : Type} {axioms : OrderedSet NormalAxiom} {matching : NormalAxiom → Prop}
  {form : β → NormalAxiom} {values : List β}

theorem Lists.mem_iff (h : Lists axioms matching form values) (hform : Function.Injective form)
    {b : β} : b ∈ values ↔ form b ∈ axioms ∧ matching (form b) := by
  rw [← h.mem_map, List.mem_map]
  constructor
  · exact fun hb => ⟨b, hb, rfl⟩
  · rintro ⟨c, hc, heq⟩
    exact hform heq ▸ hc

/-- The values, if the axioms that they stand for match. -/
theorem Lists.mem_iff_of_matches (h : Lists axioms matching form values)
    (hform : Function.Injective form) {b : β} (hb : matching (form b)) :
    b ∈ values ↔ form b ∈ axioms := by
  rw [h.mem_iff hform, and_iff_left hb]

/-- Values stand for their axioms once and in order when these come one after the other in the
list of all axioms. -/
theorem lists_of_sublist (hsublist : (values.map form).Sublist axioms.toList)
    (hmem : ∀ b, b ∈ values ↔ form b ∈ axioms ∧ matching (form b))
    (hmatching : ∀ a, matching a → ∃ b, form b = a) : Lists axioms matching form values where
  mem_map {a} := by
    rw [List.mem_map]
    constructor
    · rintro ⟨b, hb, rfl⟩
      exact (hmem b).1 hb
    · rintro ⟨ha, hmatch⟩
      obtain ⟨b, rfl⟩ := hmatching a hmatch
      exact ⟨b, (hmem b).2 ⟨ha, hmatch⟩, rfl⟩
  ascending := List.Pairwise.sublist hsublist (isAscending_toList axioms)

/-- What is read off the axioms that match, if it determines the axiom. -/
theorem lists_filterMap {f : NormalAxiom → Option β}
    (h : ∀ a b, f a = some b ↔ matching a ∧ form b = a)
    (hmatching : ∀ a, matching a → ∃ b, form b = a) :
    Lists axioms matching form (axioms.toList.filterMap f) := by
  refine lists_of_sublist ?_ (fun b => ?_) hmatching
  · have hmap : (fun a => (f a).map form) = Option.guard fun a => (f a).isSome := by
      funext a
      cases hfa : f a with
      | none => simp [Option.guard, hfa]
      | some b => simp [Option.guard, hfa, ((h a b).1 hfa).2]
    rw [List.map_filterMap, hmap, List.filterMap_eq_filter]
    exact List.filter_sublist
  · simp only [List.mem_filterMap, Std.ExtTreeSet.mem_toList, h]
    constructor
    · rintro ⟨a, ha, hmatch, rfl⟩
      exact ⟨ha, hmatch⟩
    · exact fun ⟨ha, hmatch⟩ => ⟨_, ha, hmatch, rfl⟩

/-- Values that are in the order of their axioms are not moved when they are sorted. -/
theorem lists_ascending [Ord β] [Std.TransOrd β] [Std.LawfulEqOrd β] [DecidableEq β]
    {f : NormalAxiom → Option β} (hcompare : ∀ b c, compare (form b) (form c) = compare b c)
    (h : ∀ a b, f a = some b ↔ matching a ∧ form b = a)
    (hmatching : ∀ a, matching a → ∃ b, form b = a) :
    Lists axioms matching form (ascending (axioms.toList.filterMap f)) := by
  have hlists : Lists axioms matching form (axioms.toList.filterMap f) :=
    lists_filterMap h hmatching
  have hascending := List.pairwise_map.1 hlists.ascending
  simp only [hcompare] at hascending
  rwa [ascending_eq_self hascending]

variable {κ : Type} [Ord κ] [Std.TransOrd κ] [Std.LawfulEqOrd κ] [DecidableEq κ] {k : κ}

/-- The values at a key of a table, if the key and a value determine the axiom. -/
theorem lists_get {f : NormalAxiom → Option (κ × β)}
    (h : ∀ a b, f a = some (k, b) ↔ matching a ∧ form b = a)
    (hmatching : ∀ a, matching a → ∃ b, form b = a) :
    Lists axioms matching form ((Grouping.ofList (axioms.toList.filterMap f)).get k) := by
  rw [Grouping.get_ofList, List.filterMap_filterMap]
  refine lists_filterMap (fun a b => ?_) hmatching
  rw [← h]
  cases hfa : f a with
  | none => simp
  | some e =>
      obtain ⟨k', b'⟩ := e
      by_cases hk : k' = k <;> simp [hk]

theorem sublist_singleton {α : Type} {xs : List α} {a : α} (hxs : xs.Pairwise fun _ _ => False)
    (h : ∀ x ∈ xs, x = a) : xs.Sublist [a] := by
  cases xs with
  | nil => exact List.nil_sublist _
  | cons x xs =>
      obtain ⟨rfl, -⟩ := List.forall_mem_cons.1 h
      have hnil : xs = [] := List.eq_nil_iff_forall_not_mem.2 (List.pairwise_cons.1 hxs).1
      subst hnil
      exact .refl _

theorem flatMap_sublist {α : Type} {g : α → List α} {xs : List α}
    (h : ∀ a ∈ xs, (g a).Sublist [a]) : (xs.flatMap g).Sublist xs := by
  induction xs with
  | nil => exact List.nil_sublist _
  | cons a xs ih =>
      obtain ⟨ha, hxs⟩ := List.forall_mem_cons.1 h
      rw [List.flatMap_cons]
      exact ha.append (ih hxs)

/-- The values at a key of a table to which an axiom gives values at several keys. -/
theorem lists_get_flatMap {g : NormalAxiom → List (κ × β)}
    (hkeys : ∀ a ∈ axioms, (g a).Pairwise (·.1 ≠ ·.1))
    (h : ∀ a ∈ axioms, ∀ b, (k, b) ∈ g a ↔ matching a ∧ form b = a)
    (hmatching : ∀ a, matching a → ∃ b, form b = a) :
    Lists axioms matching form ((Grouping.ofList (axioms.toList.flatMap g)).get k) := by
  refine lists_of_sublist ?_ (fun b => ?_) hmatching
  · rw [Grouping.get_ofList, List.filterMap_flatMap, List.map_flatMap]
    apply flatMap_sublist
    intro a ha
    have ha := Std.ExtTreeSet.mem_toList.1 ha
    apply sublist_singleton
    · -- two values at the key would have been given for different keys
      apply List.pairwise_map.2
      apply (hkeys a ha).filterMap
      grind
    · intro x hx
      obtain ⟨b, hb, rfl⟩ := List.mem_map.1 hx
      obtain ⟨⟨k', b'⟩, hmem, heq⟩ := List.mem_filterMap.1 hb
      apply ((h a ha b).1 ?_).2
      grind
  · simp only [Grouping.mem_get_ofList, List.mem_flatMap, Std.ExtTreeSet.mem_toList]
    constructor
    · rintro ⟨a, ha, hb⟩
      obtain ⟨hmatch, rfl⟩ := (h a ha b).1 hb
      exact ⟨ha, hmatch⟩
    · exact fun ⟨ha, hmatch⟩ => ⟨_, ha, (h _ ha b).2 ⟨hmatch, rfl⟩⟩

end Lists

namespace Ontology

/-- At every key the tables hold the axioms that they are for. -/
structure Tabulates (o : Ontology) (axioms : OrderedSet NormalAxiom) : Prop where
  supers : ∀ a, Lists axioms (∃ b, · = .subsumption a b) (.subsumption a) (o.supers.get a)
  conjunctions : ∀ a,
    Lists axioms (∃ operands b, · = .conjunction operands b ∧ a ∈ operands)
      (fun c => .conjunction c.operands c.sup) (o.conjunctions.get a)
  existsSupers : ∀ a,
    Lists axioms (∃ r b, · = .existsSuper a r b) (fun (r, b) => .existsSuper a r b)
      (o.existsSupers.get a)
  existsSubsByProperty : ∀ r,
    Lists axioms (∃ a b, · = .existsSub r a b) (fun (a, b) => .existsSub r a b)
      (o.existsSubsByProperty.get r)
  existsSubsByFiller : ∀ a,
    Lists axioms (∃ r b, · = .existsSub r a b) (fun (r, b) => .existsSub r a b)
      (o.existsSubsByFiller.get a)
  existsSubs : ∀ r a,
    Lists axioms (∃ b, · = .existsSub r a b) (.existsSub r a) (o.existsSubs.get (r, a))
  directSupers : ∀ r, Lists axioms (∃ s, · = .inclusion r s) (.inclusion r) (o.directSupers.get r)
  directSubs : ∀ s, Lists axioms (∃ r, · = .inclusion r s) (.inclusion · s) (o.directSubs.get s)
  compositionsByLeft : ∀ r,
    Lists axioms (∃ s t, · = .composition r s t) (fun c => .composition c.left c.right c.sup)
      (o.compositionsByLeft.get r)
  compositionsByRight : ∀ s,
    Lists axioms (∃ r t, · = .composition r s t) (fun c => .composition c.left c.right c.sup)
      (o.compositionsByRight.get s)
  nominalsByIndividual : ∀ i,
    Lists axioms (∃ c, · = .nominal c i) (.nominal · i) (o.nominalsByIndividual.get i)
  nominals :
    Lists axioms (∃ c i, · = .nominal c i) (fun (i, c) => .nominal c i) o.nominals
  ranges : ∀ r, Lists axioms (∃ c, · = .range r c) (.range r) (o.ranges.get r)
  reflexive : Lists axioms (∃ r, · = .reflexive r) .reflexive o.reflexive
  functional : ∀ r, o.functional.contains r = true ↔ .functional r ∈ axioms
  hasExistsSub : ∀ r,
    o.existsSubsByProperty.hasKey r = true ↔ o.existsSubsByProperty.get r ≠ []

section OfAxioms

variable {v : Vocabulary} {axioms : OrderedSet NormalAxiom} {r : PropertyId}

theorem lists_directSupers :
    Lists axioms (∃ s, · = .inclusion r s) (.inclusion r)
      ((ofAxioms v axioms.toList).directSupers.get r) := by
  refine lists_get (fun x s => ?_) fun x ⟨s, hs⟩ => ⟨s, hs.symm⟩
  cases x <;> grind

theorem lists_directSubs :
    Lists axioms (∃ s, · = .inclusion s r) (.inclusion · r)
      ((ofAxioms v axioms.toList).directSubs.get r) := by
  refine lists_get (fun x s => ?_) fun x ⟨s, hs⟩ => ⟨s, hs.symm⟩
  cases x <;> grind

theorem compare_reflexive (r s : PropertyId) :
    compare (NormalAxiom.reflexive r) (.reflexive s) = compare r s := by
  change compare (NormalAxiom.reflexive r).shape (NormalAxiom.reflexive s).shape = compare r s
  rw [← Id.compare_position]
  simp [NormalAxiom.shape, Shape.compare_def, Shape.compare, Shape.compareParts, Id.shape,
    Shape.leaf]

/-- The tables over well-formed axioms hold them. -/
theorem tabulates_ofAxioms (hwf : ∀ x ∈ axioms, x.IsWellFormed) :
    (ofAxioms v axioms.toList).Tabulates axioms where
  supers a := by
    refine lists_get (fun x s => ?_) fun x ⟨s, hs⟩ => ⟨s, hs.symm⟩
    cases x <;> grind
  conjunctions a := by
    refine lists_get_flatMap (fun x hx => ?_) (fun x hx c => ?_) fun x hx => ?_
    · cases x with
      | conjunction operands b => exact List.pairwise_map.2 (hwf _ hx).2.nodup
      | _ => exact List.Pairwise.nil
    · cases x <;> cases c <;> grind
    · obtain ⟨operands, b, rfl, -⟩ := hx
      exact ⟨⟨operands, b⟩, rfl⟩
  existsSupers a := by
    refine lists_get (fun x s => ?_) fun x ⟨r, b, hx⟩ => ⟨(r, b), hx.symm⟩
    cases x <;> grind
  existsSubsByProperty r := by
    refine lists_get (fun x s => ?_) fun x ⟨a, b, hx⟩ => ⟨(a, b), hx.symm⟩
    cases x <;> grind
  existsSubsByFiller a := by
    refine lists_get (fun x s => ?_) fun x ⟨r, b, hx⟩ => ⟨(r, b), hx.symm⟩
    cases x <;> grind
  existsSubs r a := by
    refine lists_get (fun x s => ?_) fun x ⟨b, hx⟩ => ⟨b, hx.symm⟩
    cases x <;> grind
  directSupers r := lists_directSupers
  directSubs s := lists_directSubs
  compositionsByLeft r := by
    refine lists_get (fun x c => ?_) fun x ⟨s, t, hx⟩ => ⟨⟨r, s, t⟩, hx.symm⟩
    cases x <;> cases c <;> grind
  compositionsByRight s := by
    refine lists_get (fun x c => ?_) fun x ⟨r, t, hx⟩ => ⟨⟨r, s, t⟩, hx.symm⟩
    cases x <;> cases c <;> grind
  nominalsByIndividual i := by
    refine lists_get (fun x c => ?_) fun x ⟨c, hx⟩ => ⟨c, hx.symm⟩
    cases x <;> grind
  nominals := by
    refine lists_filterMap (fun x c => ?_) fun x ⟨c, i, hx⟩ => ⟨(i, c), hx.symm⟩
    cases x <;> grind
  ranges r := by
    refine lists_get (fun x c => ?_) fun x ⟨b, hx⟩ => ⟨b, hx.symm⟩
    cases x <;> grind
  reflexive := by
    refine lists_ascending compare_reflexive (fun x s => ?_) fun x ⟨s, hs⟩ => ⟨s, hs.symm⟩
    cases x <;> grind
  functional r := by
    refine Std.ExtTreeSet.contains_iff_mem.trans (OrderedSet.mem_ofList_iff.trans ?_)
    rw [List.mem_filterMap]
    constructor
    · rintro ⟨x, hx, heq⟩
      cases x <;> simp_all
    · exact fun hr => ⟨_, Std.ExtTreeSet.mem_toList.2 hr, rfl⟩
  hasExistsSub r := Grouping.hasKey_ofList

end OfAxioms

end Ontology

end OwlEl
