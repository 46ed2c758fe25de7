import OwlEl.Normalization.Weight
import OwlEl.Proofs.Faults

/-!
# Room for new identifiers

Identifiers are never given back, so an action needs as much room as it mints. What a longer
action needs is counted as it goes along. A `Minting.Ledger` says what is counted, and
`Ledger.Covers n left m v` that a budget of `n` is enough for the action `m`, that so much of it is
left as its result tells, and that only want of room makes it fail. `Minting.Costs` is the case in
which the identifiers of all kinds are counted alike.
-/

namespace OwlEl

namespace Vocabulary

/-- So many identifiers of each kind are left. -/
def HasRoom (v : Vocabulary) (n : Nat) : Prop := ∀ k, (v.table k).size + n < UInt32.size

variable {v w : Vocabulary} {k : Kind} {m n : Nat}

theorem HasRoom.mono (h : v.HasRoom n) (hmn : m ≤ n) : v.HasRoom m :=
  fun k => Nat.lt_of_le_of_lt (Nat.add_le_add_left hmn _) (h k)

theorem HasRoom.of_size_le (h : v.HasRoom n)
    (hsize : ∀ k, (w.table k).size + m ≤ (v.table k).size + n) : w.HasRoom m :=
  fun k => Nat.lt_of_le_of_lt (hsize k) (h k)

theorem IsFull.not_hasRoom (h : v.IsFull k) : ¬v.HasRoom (n + 1) := by
  intro hroom
  have hlt := hroom k
  simp only [IsFull] at h
  omega

theorem Issues.size_le {e : Entity} (h : v.Issues w e) (k : Kind) :
    (w.table k).size ≤ (v.table k).size + 1 := by
  by_cases hk : k = e.kind
  · subst hk
    exact Nat.le_of_eq h.size
  · rw [h.others k hk]
    exact Nat.le_succ _

end Vocabulary

namespace Minting

variable {α β : Type} {v w : Vocabulary} {m : Minting α} {n n' : Nat} {left left' : α → Nat}

/-! ## Ledgers -/

/-- How identifiers are counted: what counts as spent of each kind in a vocabulary, and how many of
each kind a unit of a budget pays for. -/
structure Ledger where
  spent : Kind → Vocabulary → Nat
  share : Kind → Nat

namespace Ledger

/-- What is spent and what a budget of `n` may still pay for. -/
def used (L : Ledger) (k : Kind) (n : Nat) (v : Vocabulary) : Nat := L.spent k v + L.share k * n

/-- A budget of `n` pays for all that the action spends and keeps what its result tells to be left,
and only when the budget exceeds what there is of some kind does the action fail. -/
structure Covers (L : Ledger) (n : Nat) (left : α → Nat) (m : Minting α) (v : Vocabulary) :
    Prop where
  leaves : ∀ {a w}, m v = .ok a w → ∀ k, L.used k (left a) w ≤ L.used k n v
  fails : ∀ {fault w}, m v = .error fault w →
    fault = .idsExhausted ∧ ∃ k, UInt32.size ≤ L.used k n v

variable {L : Ledger}

theorem used_mono {k : Kind} (h : n ≤ n') : L.used k n v ≤ L.used k n' v :=
  Nat.add_le_add_left (Nat.mul_le_mul_left _ h) _

theorem used_add {k : Kind} (r : Nat) : L.used k (r + n) v = L.share k * r + L.used k n v := by
  rw [used, used, Nat.mul_add, Nat.add_left_comm]

theorem Covers.mono (h : L.Covers n left m v) (hn : n ≤ n')
    (hleft : ∀ a w, m v = .ok a w → left' a ≤ left a) : L.Covers n' left' m v where
  leaves {a w} hm k := by
    calc L.used k (left' a) w
        ≤ L.used k (left a) w := used_mono (hleft a w hm)
      _ ≤ L.used k n v := h.leaves hm k
      _ ≤ L.used k n' v := used_mono hn
  fails hm := (h.fails hm).imp_right fun ⟨k, hk⟩ => ⟨k, Nat.le_trans hk (used_mono hn)⟩

/-- What an action does not need is left. -/
theorem Covers.add (h : L.Covers n left m v) (r : Nat) :
    L.Covers (r + n) (fun a => r + left a) m v where
  leaves hm k := by
    rw [used_add, used_add]
    exact Nat.add_le_add_left (h.leaves hm k) _
  fails hm := (h.fails hm).imp_right fun ⟨k, hk⟩ =>
    ⟨k, Nat.le_trans hk (used_mono (Nat.le_add_left n r))⟩

theorem covers_pure {a : α} (h : left a ≤ n) : L.Covers n left (pure a) v where
  leaves hm k := by
    obtain ⟨rfl, rfl⟩ := pure_eq_ok.1 hm
    exact used_mono h
  fails hm := absurd hm pure_eq_error.1

theorem covers_bind {f : α → Minting β} {left' : β → Nat} (hm : L.Covers n left m v)
    (hf : ∀ a u, m v = .ok a u → L.Covers (left a) left' (f a) u) :
    L.Covers n left' (m >>= f) v where
  leaves h k := by
    obtain ⟨a, u, hok, hrest⟩ := bind_eq_ok.1 h
    exact Nat.le_trans ((hf a u hok).leaves hrest k) (hm.leaves hok k)
  fails h := by
    rcases bind_eq_error.1 h with h | ⟨a, u, hok, h⟩
    · exact hm.fails h
    · obtain ⟨hfault, k, hk⟩ := (hf a u hok).fails h
      exact ⟨hfault, k, Nat.le_trans hk (hm.leaves hok k)⟩

/-- Actions in a row take what they take together, if what each needs is kept by the others. -/
theorem covers_mapM {f : α → Minting β} {P : Vocabulary → Prop} {xs : List α} (cost : α → Nat)
    (gain : β → Nat) (hcovers : ∀ x ∈ xs, ∀ {v}, P v → L.Covers (cost x) gain (f x) v)
    (hkeeps : ∀ x ∈ xs, ∀ {v w y}, P v → f x v = .ok y w → P w) (hv : P v) :
    L.Covers (totalWeight (xs.map cost)) (fun ys => totalWeight (ys.map gain)) (xs.mapM f) v := by
  induction xs generalizing v with
  | nil =>
      rw [List.mapM_nil]
      exact covers_pure (Nat.le_refl _)
  | cons x xs ih =>
      have hcost : totalWeight ((x :: xs).map cost) = cost x + totalWeight (xs.map cost) := rfl
      rw [List.mapM_cons, hcost, Nat.add_comm]
      apply covers_bind ((hcovers x (by simp) hv).add _)
      intro y u hy
      have hrest := ih (fun z hz => hcovers z (by simp [hz])) (fun z hz => hkeeps z (by simp [hz]))
        (hkeeps x (by simp) hv hy)
      rw [Nat.add_comm]
      apply covers_bind (hrest.add (gain y))
      exact fun ys _ _ => covers_pure (Nat.le_refl (gain y + totalWeight (ys.map gain)))

end Ledger

/-! ## Costs -/

/-- The action mints at most what lies between `n` and what its result tells to be left, and with
room for `n` identifiers it does not fail. -/
structure Costs (n : Nat) (left : α → Nat) (m : Minting α) (v : Vocabulary) : Prop where
  leaves : ∀ {a w}, m v = .ok a w → ∀ k, (w.table k).size + left a ≤ (v.table k).size + n
  fails : ∀ {fault w}, m v = .error fault w → fault = .idsExhausted ∧ ¬v.HasRoom n

/-- A unit of the budget pays for an identifier of every kind. -/
def everyKind : Ledger := ⟨fun k v => (v.table k).size, fun _ => 1⟩

theorem costs_iff_covers : Costs n left m v ↔ everyKind.Covers n left m v := by
  have hused : ∀ {k n v}, everyKind.used k n v = (v.table k).size + n := fun {k n v} =>
    congrArg ((v.table k).size + ·) (Nat.one_mul n)
  have hroom : ¬v.HasRoom n ↔ ∃ k, UInt32.size ≤ everyKind.used k n v := by
    simp only [Vocabulary.HasRoom, hused, Classical.not_forall, Nat.not_lt]
  constructor
  · intro h
    refine ⟨fun hm k => ?_, fun hm => (h.fails hm).imp_right hroom.1⟩
    rw [hused, hused]
    exact h.leaves hm k
  · intro h
    refine ⟨fun hm k => ?_, fun hm => (h.fails hm).imp_right hroom.2⟩
    rw [← hused, ← hused]
    exact h.leaves hm k

theorem Costs.failsOnly (h : Costs n left m v) : FailsOnly (· = .idsExhausted) m v :=
  fun _ _ hm => (h.fails hm).1

theorem Costs.mono (h : Costs n left m v) (hn : n ≤ n')
    (hleft : ∀ a w, m v = .ok a w → left' a ≤ left a) : Costs n' left' m v :=
  costs_iff_covers.2 ((costs_iff_covers.1 h).mono hn hleft)

theorem costs_pure {a : α} (h : left a ≤ n) : Costs n left (pure a) v :=
  costs_iff_covers.2 (Ledger.covers_pure h)

theorem costs_bind {f : α → Minting β} {left' : β → Nat} (hm : Costs n left m v)
    (hf : ∀ a u, m v = .ok a u → Costs (left a) left' (f a) u) : Costs n left' (m >>= f) v :=
  costs_iff_covers.2
    (Ledger.covers_bind (costs_iff_covers.1 hm) fun a u h => costs_iff_covers.1 (hf a u h))

/-- Actions in a row cost what they cost together, if what each needs is kept by the others. -/
theorem costs_mapM {f : α → Minting β} {P : Vocabulary → Prop} {xs : List α} (cost : α → Nat)
    (gain : β → Nat) (hcosts : ∀ x ∈ xs, ∀ {v} n, P v → Costs (n + cost x) (n + gain ·) (f x) v)
    (hkeeps : ∀ x ∈ xs, ∀ {v w y}, P v → f x v = .ok y w → P w) (hv : P v) (n : Nat) :
    Costs (n + totalWeight (xs.map cost)) (fun ys => n + totalWeight (ys.map gain))
      (xs.mapM f) v := by
  apply costs_iff_covers.2
  apply Ledger.Covers.add
  apply Ledger.covers_mapM (P := P) cost gain _ hkeeps hv
  intro x hx v hv
  have hzero := hcosts x hx 0 hv
  simp only [Nat.zero_add] at hzero
  exact costs_iff_covers.1 hzero

/-! ## The actions -/

theorem costs_mint {k : Kind} {name : Id k → String} (hv : v.WellFormed) :
    Costs (n + 1) (fun _ => n) (mint k name) v where
  leaves hm k := by
    have hsize := (mint_mints hv hm).issues.size_le k
    omega
  fails hm := by
    obtain ⟨hfull, hfault, -⟩ := mint_eq_error.1 hm
    exact ⟨hfault, hfull.not_hasRoom⟩

theorem costs_nominalOf {i : IndividualId} (hv : v.WellFormed) (hi : v.contains i = true) :
    Costs (n + 1) (fun _ => n) (nominalOf i) v where
  leaves hm k := by
    rcases nominalOf_eq_ok hv hm with ⟨rfl, -⟩ | ⟨-, -, u, hu, rfl⟩
    · omega
    · have hsize := hu.issues.size_le k
      cases k <;> simp only [Vocabulary.table] at hsize ⊢ <;> omega
  fails hm := by
    obtain ⟨-, hrefuses, -⟩ := nominalOf_eq_error.1 hm
    obtain ⟨hfault, hfull⟩ := hrefuses.eq_idsExhausted hi
    exact ⟨hfault, hfull.not_hasRoom⟩

theorem costs_inverseOf {p : PropertyId} (hv : v.WellFormed) (hp : v.contains p = true) :
    Costs (n + 1) (fun _ => n) (inverseOf p) v where
  leaves hm k := by
    rcases inverseOf_eq_ok hv hm with ⟨rfl, -⟩ | ⟨-, -, u, hu, rfl⟩
    · omega
    · have hsize := hu.issues.size_le k
      cases k <;> simp only [Vocabulary.table] at hsize ⊢ <;> omega
  fails hm := by
    obtain ⟨-, hrefuses, -⟩ := inverseOf_eq_error.1 hm
    obtain ⟨hfault, hfull⟩ := hrefuses.eq_idsExhausted hp
    exact ⟨hfault, hfull.not_hasRoom⟩

theorem costs_resolve {r : PropertyExpr} (hv : v.WellFormed) (hr : v.contains r.property = true) :
    Costs (n + 1) (fun _ => n) (resolve r) v := by
  cases r with
  | named p => exact costs_pure (Nat.le_succ n)
  | inverseOf p => exact costs_inverseOf hv hr

end Minting

end OwlEl
