import OwlEl.Proofs.Completion.Calculus
import OwlEl.Proofs.Role.Faults

/-!
# The closure of axioms on properties without inverses

If none of the properties that the axioms mention has an inverse, every inverse that the closure
under converses asks for is new, and so the converses are about new properties only:
`isDetached_of_close`. No inclusion leads from an old property to a new one, so the closure does
not change what lies above an old property: `above_iff`. The closure needs at most as many new
properties as there are old ones: `full_of_refused`.
-/

namespace OwlEl.Converse

variable {v w : Vocabulary} {axioms closed : OrderedSet NormalAxiom} {fault : Fault}

/-- None of the properties that the axioms mention has an inverse. In particular the reserved
properties are not mentioned, as they are their own inverses. -/
def AreUnpaired (v : Vocabulary) (axioms : OrderedSet NormalAxiom) : Prop :=
  ∀ a ∈ axioms, ∀ p : PropertyId, a.Mentions p → v.inverse? p = none

/-- The axiom is an inclusion or a composition of properties that are not in the vocabulary. -/
inductive IsDetached (v : Vocabulary) : NormalAxiom → Prop
  | inclusion {r s : PropertyId} (hr : v.contains r = false) (hs : v.contains s = false) :
      IsDetached v (.inclusion r s)
  | composition {r s t : PropertyId} (hr : v.contains r = false) (hs : v.contains s = false)
      (ht : v.contains t = false) : IsDetached v (.composition r s t)

/-! ## What is minted -/

namespace MintsInverses

/-- Only properties are minted. -/
theorem table_eq (h : MintsInverses v w) (hv : v.WellFormed) {k : Kind} (hk : k ≠ .property) :
    w.table k = v.table k := by
  induction h with
  | refl => rfl
  | tail hvu hstep ih =>
      obtain ⟨p, q, hq⟩ := hstep
      rcases Minting.inverseOf_eq_ok (MintsInverses.grows hvu hv).2 hq with
        ⟨rfl, -⟩ | ⟨-, -, t, ht, rfl⟩
      · exact ih
      · exact (ht.issues.others k hk).trans ih

/-- Every new property is the inverse of an old one. -/
theorem old_or_inverse (h : MintsInverses v w) (hv : v.WellFormed) {q : PropertyId}
    (hq : w.contains q = true) :
    v.contains q = true ∨ ∃ p : PropertyId, v.contains p = true ∧ w.inverse? p = some q := by
  induction h generalizing q with
  | refl => exact .inl hq
  | @tail u w hvu hstep ih =>
      obtain ⟨p, q', hq'⟩ := hstep
      have hu := (MintsInverses.grows hvu hv).2
      obtain ⟨hgrow, -, hinverse⟩ := Minting.inverseOf_grows hu hq'
      have hold : ∀ {r : PropertyId}, u.contains r = true →
          v.contains r = true ∨ ∃ p, v.contains (.ofId p) = true ∧ w.inverse? p = some r :=
        fun hr => (ih hr).imp_right fun ⟨p, hp, hpr⟩ => ⟨p, hp, hgrow.inverse? hpr⟩
      rcases Minting.inverseOf_eq_ok hu hq' with ⟨rfl, -⟩ | ⟨hnone, hp, t, ht, rfl⟩
      · exact ih hq
      · rcases ht.issues.eq_or_contains hq with heq | hq
        · obtain rfl := Entity.ofId_inj.1 heq
          -- an inverse is minted only for a property without one, so for an old one
          rcases ih hp with hp | ⟨s, -, hs⟩
          · exact .inr ⟨p, hp, hinverse⟩
          · rw [hu.inverse?_symm hs] at hnone
            exact absurd hnone (by simp)
        · exact hold hq

theorem size_le (h : MintsInverses v w) (hv : v.WellFormed) :
    (w.table .property).size ≤ 2 * (v.table .property).size := by
  let old := (v.table .property).toList
  have hsub : (w.table .property).toList ⊆ old ++ old.filterMap w.inverse? := by
    intro q hq
    rw [NameTable.mem_toList, ← Vocabulary.contains_ofId] at hq
    rw [List.mem_append, List.mem_filterMap]
    refine (h.old_or_inverse hv hq).imp (fun hold => ?_) fun ⟨p, hp, hpq⟩ => ⟨p, ?_, hpq⟩
    · exact NameTable.mem_toList.2 (Vocabulary.contains_ofId.1 hold)
    · exact NameTable.mem_toList.2 (Vocabulary.contains_ofId.1 hp)
  have hlength : ∀ {u : Vocabulary},
      (u.table .property).toList.length = (u.table .property).size := by
    simp [NameTable.toList]
  calc (w.table .property).size
      = (w.table .property).toList.length := hlength.symm
    _ ≤ (old ++ old.filterMap w.inverse?).length :=
        length_le_of_subset
          (NameTable.nodup_toList ((h.grows hv).2.size_lt .property).le) hsub
    _ ≤ old.length + old.length := by
        rw [List.length_append]
        exact Nat.add_le_add_left (List.length_filterMap_le ..) _
    _ = 2 * (v.table .property).size := by rw [hlength, Nat.two_mul]

end MintsInverses

/-- The closure of axioms over the vocabulary can fail only if there is no room for an inverse of
every property. -/
theorem full_of_refused (h : Refused v axioms fault w) (hv : v.WellFormed)
    (hover : ∀ a ∈ axioms, a.IsOver (v.contains ·)) :
    fault = .idsExhausted ∧ UInt32.size ≤ 2 * (v.table .property).size + 1 := by
  obtain ⟨rfl, hfull⟩ := h.eq_idsExhausted hv hover
  have hfull : UInt32.size - 1 ≤ (w.table .property).size := hfull
  have hle := h.mints.size_le hv
  exact ⟨rfl, by omega⟩

/-! ## What is added -/

theorem isDetached_of_isConverse {a b : NormalAxiom} (h : AddsInverses v w)
    (hover : a.IsOver (v.contains ·))
    (hunpaired : ∀ p : PropertyId, a.Mentions p → v.inverse? p = none)
    (hconverse : IsConverse w a b) : IsDetached v b := by
  have hfresh : ∀ {p q : PropertyId}, a.Mentions p → w.inverse? p = some q →
      v.contains q = false := by
    intro p q hp hpq
    obtain ⟨hreserved, hnone⟩ := Minting.inverse?_eq_none (hunpaired p hp)
    rw [Vocabulary.inverse?, if_neg hreserved] at hpq
    have hcontains : v.contains p = true := NormalAxiom.isOver_iff_mentions.1 hover p hp
    rcases h.inverses hpq with hold | hnew | hnew
    · rw [hnone] at hold
      exact absurd hold (by simp)
    · exact absurd hcontains (Bool.eq_false_iff.1 hnew)
    · exact hnew
  cases hconverse with
  | inclusion hr hs =>
      exact .inclusion (hfresh (mentions_inclusion.2 (.inl rfl)) hr)
        (hfresh (mentions_inclusion.2 (.inr rfl)) hs)
  | composition hr hs ht =>
      exact .composition (hfresh (mentions_composition.2 (.inr (.inl rfl))) hs)
        (hfresh (mentions_composition.2 (.inl rfl)) hr)
        (hfresh (mentions_composition.2 (.inr (.inr rfl))) ht)

/-- What is added to axioms on properties without inverses is about new properties. -/
theorem isDetached_of_close (hv : v.WellFormed) (hover : ∀ a ∈ axioms, a.IsOver (v.contains ·))
    (hunpaired : AreUnpaired v axioms) (h : close axioms v = .ok closed w) :
    ∀ a ∈ closed, a ∈ axioms ∨ IsDetached v a := by
  have hadds := addsConverses_close hv h
  intro a ha
  refine (hadds.adds a ha).imp_right fun ⟨_, b, hb, hconverse⟩ => ?_
  exact isDetached_of_isConverse (hadds.mints.addsInverses hv) (hover b hb) (hunpaired b hb)
    hconverse

/-- No inclusion leads from an old property to a new one. -/
theorem above_iff (hkeeps : ∀ a ∈ axioms, a ∈ closed)
    (hadds : ∀ a ∈ closed, a ∈ axioms ∨ IsDetached v a)
    (hover : ∀ a ∈ axioms, a.IsOver (v.contains ·)) {r s : PropertyId}
    (hr : v.contains r = true) : Above closed r s ↔ Above axioms r s := by
  refine ⟨fun h => ?_, fun h => Relation.ReflTransGen.mono (fun _ _ => hkeeps _) _ _ h⟩
  induction h with
  | refl => exact .refl
  | @tail s t _ hst ih =>
      have hs := Completion.contains_of_above hover ih hr
      rcases hadds _ hst with hst | ⟨hnew, -⟩
      · exact ih.tail hst
      · exact absurd hs (Bool.eq_false_iff.1 hnew)

end OwlEl.Converse
