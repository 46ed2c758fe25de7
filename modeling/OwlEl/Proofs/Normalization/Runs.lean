import OwlEl.Proofs.Normalization.Draining
import OwlEl.Proofs.Normalization.Provenance

/-!
# What a run of normalization keeps

A run is taken apart once: `IsInvariant` says of a property of axioms that whatever takes the place
of an axiom has it as well, and then what a run finds has it (`IsInvariant.normalize`). A property
that an axiom has if the lighter ones have it that take its place is one of all that has been looked
at when the run ends (`Justified.all`).
-/

namespace OwlEl.Normalization

/-- What takes the place of an axiom: what a step yields, or the normal form that is read off
when no step is left. -/
inductive Replaced : Vocabulary → Axiom → List Axiom → Vocabulary → Prop
  | step {v a out w} (h : Step v a out w) : Replaced v a out w
  | read {v a form w} (hleft : replacement? a = none) (h : Reading v a form w) :
      Replaced v a [.normal form] w

variable {v w : Vocabulary} {l l' : Worklist} {found forms : OrderedSet NormalAxiom}
  {a : Axiom} {out axioms : List Axiom}

theorem Replaced.onlyMints (h : Replaced v a out w) : v.OnlyMints w := by
  cases h with
  | step h => exact h.onlyMints
  | read _ h => exact h.onlyMints

theorem Replaced.isOver (h : Replaced v a out w) (hv : v.WellFormed)
    (ha : a.IsOver (v.contains ·)) : ∀ b ∈ out, b.IsOver (w.contains ·) := by
  cases h with
  | step h => exact h.isOver hv ha
  | read _ h => exact List.forall_mem_singleton.2 (h.isOver hv ha)

/-! ## Everything in a worklist -/

/-- The property holds of all that is pending and of all that is found. -/
structure Worklist.All (P : Axiom → Prop) (l : Worklist) (found : OrderedSet NormalAxiom) :
    Prop where
  pending : ∀ a ∈ l.pending, P a
  found : ∀ a ∈ found, P (.normal a)

namespace Worklist.All

variable {P Q : Axiom → Prop}

theorem pop? (h : All P l found) (hpop : l.pop? = some (a, l')) : P a ∧ All P l' found := by
  obtain ⟨ha, rfl⟩ := Worklist.pop?_eq_some hpop
  exact ⟨h.pending a ha, fun b hb => h.pending b (OrderedSet.mem_erase_iff.1 hb).2, h.found⟩

theorem insert {form : NormalAxiom} (h : All P l found) (hform : P (.normal form)) :
    All P l (found.insert form) := by
  refine ⟨h.pending, fun b hb => ?_⟩
  rcases OrderedSet.mem_insert_iff.1 hb with rfl | hb
  · exact hform
  · exact h.found b hb

theorem pushAll (h : All P l found) (hout : ∀ a ∈ out, P a) : All P (l.pushAll out) found := by
  refine ⟨fun b hb => ?_, h.found⟩
  rcases Worklist.mem_pending_pushAll.1 hb with hb | ⟨hb, -⟩
  · exact h.pending b hb
  · exact hout b hb

theorem imp (h : All P l found) (hPQ : ∀ a, P a → Q a) : All Q l found :=
  ⟨fun a ha => hPQ a (h.pending a ha), fun a ha => hPQ _ (h.found a ha)⟩

theorem ofList (h : ∀ a ∈ axioms, P a) : All P (.ofList axioms) ∅ :=
  ⟨fun a ha => h a (Worklist.mem_pending_ofList.1 ha),
    fun _ ha => absurd ha Std.ExtTreeSet.not_mem_empty⟩

end Worklist.All

/-! ## Invariants -/

/-- Axioms that have the property keep it while the vocabulary grows, and it passes to what takes
their place. -/
structure IsInvariant (P : Vocabulary → Axiom → Prop) : Prop where
  mono : ∀ {v w a}, v.Extends w → P v a → P w a
  replaced : ∀ {v a out w}, v.WellFormed → P v a → Replaced v a out w → ∀ b ∈ out, P w b

theorem IsInvariant.and {P Q : Vocabulary → Axiom → Prop} (hP : IsInvariant P)
    (hQ : IsInvariant Q) : IsInvariant fun v a => P v a ∧ Q v a where
  mono hvw ha := ⟨hP.mono hvw ha.1, hQ.mono hvw ha.2⟩
  replaced hv ha h b hb := ⟨hP.replaced hv ha.1 h b hb, hQ.replaced hv ha.2 h b hb⟩

theorem isInvariant_isOver : IsInvariant fun v a => a.IsOver (v.contains ·) where
  mono hvw ha := ha.of_extends hvw
  replaced hv ha h := h.isOver hv ha

section Invariant

variable {P : Vocabulary → Axiom → Prop} (hP : IsInvariant P)

include hP

/-- What is replaced is taken from the worklist, and what takes its place is taken up. -/
theorem IsInvariant.all_pushAll {u : Vocabulary} (hv : v.WellFormed) (hall : l.All (P v) found)
    (ha : P v a) (h : Replaced v a out u) :
    v.Extends u ∧ u.WellFormed ∧ (∀ b ∈ out, P u b) ∧ l.All (P u) found := by
  obtain ⟨hgrow, hu⟩ := h.onlyMints.grows hv
  exact ⟨hgrow, hu, hP.replaced hv ha h, hall.imp fun _ => hP.mono hgrow⟩

/-- A run adds to the vocabulary, and what it finds has the property. -/
theorem Drained.grows (h : Drained l found v forms w) (hv : v.WellFormed)
    (hall : l.All (P v) found) :
    v.Extends w ∧ w.WellFormed ∧ ∀ a ∈ forms, P w (.normal a) := by
  induction h with
  | done _ => exact ⟨.refl _, hv, hall.found⟩
  | keep hpop _ _ ih =>
      obtain ⟨ha, hall⟩ := hall.pop? hpop
      exact ih hv (hall.insert ha)
  | step hpop hstep _ ih =>
      obtain ⟨ha, hall⟩ := hall.pop? hpop
      obtain ⟨hgrow, hu, hout, hall⟩ := hP.all_pushAll hv hall ha (.step hstep)
      obtain ⟨hgrow', hrest⟩ := ih hu (hall.pushAll hout)
      exact ⟨hgrow.trans hgrow', hrest⟩
  | read hpop hleft hread _ ih =>
      obtain ⟨ha, hall⟩ := hall.pop? hpop
      obtain ⟨hgrow, hu, hout, hall⟩ := hP.all_pushAll hv hall ha (.read hleft hread)
      obtain ⟨hgrow', hrest⟩ := ih hu (hall.insert (hout _ (List.mem_singleton.2 rfl)))
      exact ⟨hgrow.trans hgrow', hrest⟩

theorem IsInvariant.normalize (hv : v.WellFormed) (hall : ∀ a ∈ axioms, P v a)
    (h : normalize axioms v = .ok forms w) :
    v.Extends w ∧ w.WellFormed ∧ ∀ a ∈ forms, P w (.normal a) :=
  (drained_of_normalize h).grows hP hv (.ofList hall)

end Invariant

theorem Drained.found_subset {form : NormalAxiom} (h : Drained l found v forms w)
    (hform : form ∈ found) : form ∈ forms := by
  induction h with
  | done _ => exact hform
  | keep _ _ _ ih => exact ih (OrderedSet.mem_insert_iff.2 (.inr hform))
  | step _ _ _ ih => exact ih hform
  | read _ _ _ _ ih => exact ih (OrderedSet.mem_insert_iff.2 (.inr hform))

/-! ## Justification -/

/-- An axiom that has been looked at is pending, or it holds if the lighter ones do. -/
def Justified (holds : Axiom → Prop) (l : Worklist) : Prop :=
  ∀ a ∈ l.seen, a ∉ l.pending → (∀ b ∈ l.seen, b.weight < a.weight → holds b) → holds a

section Justified

variable {holds : Axiom → Prop}

theorem Justified.pop? (h : Justified holds l) (hpop : l.pop? = some (a, l')) (ha : holds a) :
    Justified holds l' := by
  obtain ⟨-, rfl⟩ := Worklist.pop?_eq_some hpop
  intro b hb hwaits hlighter
  by_cases hba : b = a
  · exact hba ▸ ha
  · exact h b hb (fun hpending => hwaits (OrderedSet.mem_erase_iff.2 ⟨hba, hpending⟩)) hlighter

/-- An axiom may be taken when its replacements are taken up. -/
theorem Justified.step (h : Justified holds l) (hpop : l.pop? = some (a, l'))
    (hlight : ∀ b ∈ out, b.weight < a.weight) (ha : (∀ b ∈ out, holds b) → holds a) :
    Justified holds (l'.pushAll out) := by
  obtain ⟨-, rfl⟩ := Worklist.pop?_eq_some hpop
  intro b hb hwaits hlighter
  have hseen : ∀ {c}, c ∈ out ∨ c ∈ l.seen →
      c ∈ (Worklist.pushAll { l with pending := l.pending.erase a } out).seen :=
    fun hc => Worklist.mem_seen_pushAll.2 hc
  by_cases hba : b = a
  · subst hba
    exact ha fun c hc => hlighter c (hseen (.inl hc)) (hlight c hc)
  · rw [Worklist.mem_pending_pushAll, OrderedSet.mem_erase_iff] at hwaits
    have hbseen : b ∈ l.seen := by
      by_contra hnew
      exact hwaits (.inr ⟨(Worklist.mem_seen_pushAll.1 hb).resolve_right hnew, hnew⟩)
    exact h b hbseen (fun hpending => hwaits (.inl ⟨hba, hpending⟩))
      fun c hc => hlighter c (hseen (.inr hc))

/-- With nothing pending, everything that has been looked at holds. -/
theorem Justified.all (h : Justified holds l) (hdone : ∀ a, a ∉ l.pending) :
    ∀ a ∈ l.seen, holds a := by
  suffices hweight : ∀ n, ∀ a ∈ l.seen, a.weight = n → holds a from
    fun a ha => hweight _ a ha rfl
  intro n
  induction n using Nat.strong_induction_on with
  | _ n ih =>
      intro a ha hn
      exact h a ha (hdone a) fun b hb hlt => ih b.weight (hn ▸ hlt) b hb rfl

end Justified

end OwlEl.Normalization
