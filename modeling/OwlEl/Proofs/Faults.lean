import OwlEl.Proofs.Growth

/-!
# How actions on a vocabulary fail

An action that fails leaves what it has added until then. A single action adds only when it
succeeds, so its failure leaves the vocabulary as it was: there is one lemma for each of
them, with the exact condition. An entity is minted for another one only if that one has been
issued and an identifier is left, which is what `Vocabulary.Refuses` denies.

Of longer actions `Minting.FailsOnly` says with which faults they can fail.
-/

namespace OwlEl

/-- The entity that is not there, if that is the fault. -/
def Fault.missing? : Fault → Option Entity
  | .notIssued e | .unknownEntity e => some e
  | _ => none

namespace Vocabulary

/-- Every identifier of the kind has been issued. -/
def IsFull (v : Vocabulary) (k : Kind) : Prop := UInt32.size - 1 ≤ (v.table k).size

/-- Why no entity of the kind is minted for the given entity. -/
inductive Refuses (v : Vocabulary) (k : Kind) (e : Entity) : Fault → Prop
  | notIssued (he : v.contains e = false) : Refuses v k e (.notIssued e)
  | idsExhausted (he : v.contains e = true) (hfull : v.IsFull k) : Refuses v k e .idsExhausted

variable {v : Vocabulary} {k : Kind} {e : Entity} {fault : Fault}

theorem Refuses.eq_idsExhausted (h : v.Refuses k e fault) (he : v.contains e = true) :
    fault = .idsExhausted ∧ v.IsFull k := by
  cases h with
  | notIssued hnot => exact absurd he (Bool.eq_false_iff.1 hnot)
  | idsExhausted _ hfull => exact ⟨rfl, hfull⟩

theorem record_eq_error :
    v.record e = .error fault ↔ fault = .notIssued e ∧ v.contains e = false := by
  have hcontains : v.contains e = false ↔ (v.table e.kind).record? e.id = none := by
    rw [Bool.eq_false_iff, ne_eq, contains_iff, not_exists]
    unfold record
    cases (v.table e.kind).record? e.id <;> simp
  rw [hcontains]
  unfold record
  cases (v.table e.kind).record? e.id <;> simp [eq_comm]

theorem nameOf_eq_error :
    v.nameOf e = .error fault ↔ fault = .notIssued e ∧ v.contains e = false := by
  rw [← record_eq_error, nameOf]
  cases v.record e <;> simp [Functor.map, Except.map]

theorem isAuxiliary_eq_error :
    v.isAuxiliary e = .error fault ↔ fault = .notIssued e ∧ v.contains e = false := by
  rw [← record_eq_error, isAuxiliary]
  cases v.record e <;> simp [Functor.map, Except.map]

theorem exists_nameOf (he : v.contains e = true) : ∃ name, v.nameOf e = .ok name := by
  obtain ⟨r, hr⟩ := contains_iff.1 he
  exact ⟨r.name, by rw [nameOf, hr]; rfl⟩

end Vocabulary

/-! ## Failing checks -/

section Except

variable {ε α β : Type} {fault : ε}

theorem except_pure_eq_error {a : α} : (pure a : Except ε α) = .error fault ↔ False := by
  simp [pure, Except.pure]

theorem except_bind_eq_error {x : Except ε α} {f : α → Except ε β} :
    x >>= f = .error fault ↔ x = .error fault ∨ ∃ a, x = .ok a ∧ f a = .error fault := by
  cases x <;> simp [bind, Except.bind]

theorem except_forM_eq_error {f : α → Except ε Unit} {xs : List α} :
    xs.forM f = .error fault ↔ ∃ before x after, xs = before ++ x :: after ∧
      (∀ y ∈ before, f y = .ok ()) ∧ f x = .error fault := by
  induction xs with
  | nil => exact iff_of_false except_pure_eq_error.1 (by simp)
  | cons x xs ih =>
      rw [List.forM, except_bind_eq_error]
      constructor
      · rintro (h | ⟨⟨⟩, hx, h⟩)
        · exact ⟨[], x, xs, rfl, by simp, h⟩
        · obtain ⟨before, y, after, rfl, hbefore, hy⟩ := ih.1 h
          exact ⟨x :: before, y, after, rfl, List.forall_mem_cons.2 ⟨hx, hbefore⟩, hy⟩
      · rintro ⟨before, y, after, hxs, hbefore, hy⟩
        cases before with
        | nil =>
            obtain ⟨rfl, -⟩ := List.cons.inj hxs
            exact .inl hy
        | cons z before =>
            obtain ⟨rfl, htail⟩ := List.cons.inj hxs
            obtain ⟨hx, hbefore⟩ := List.forall_mem_cons.1 hbefore
            exact .inr ⟨(), hx, ih.2 ⟨before, y, after, htail, hbefore, hy⟩⟩

theorem except_mapM_eq_error {f : α → Except ε β} {xs : List α}
    (h : xs.mapM f = .error fault) : ∃ x ∈ xs, f x = .error fault := by
  induction xs with
  | nil => exact absurd h except_pure_eq_error.1
  | cons x xs ih =>
      rw [List.mapM_cons] at h
      rcases except_bind_eq_error.1 h with h | ⟨_, -, h⟩
      · exact ⟨x, by simp, h⟩
      · rcases except_bind_eq_error.1 h with h | ⟨_, -, h⟩
        · obtain ⟨y, hy, h⟩ := ih h
          exact ⟨y, by simp [hy], h⟩
        · exact absurd h except_pure_eq_error.1

end Except

namespace Minting

variable {α β : Type} {v w : Vocabulary} {fault : Fault} {k : Kind}

/-! ## Failing runs -/

@[simp] theorem pure_eq_error {a : α} : (pure a : Minting α) v = .error fault w ↔ False := by
  change EStateM.Result.ok a v = _ ↔ _
  simp

theorem bind_eq_error {m : Minting α} {f : α → Minting β} :
    (m >>= f) v = .error fault w ↔
      m v = .error fault w ∨ ∃ a u, m v = .ok a u ∧ f a u = .error fault w := by
  change EStateM.bind m f v = _ ↔ _
  unfold EStateM.bind
  cases m v <;> simp [and_assoc]

@[simp] theorem throw_eq_error {cause : Fault} :
    (throw cause : Minting α) v = .error fault w ↔ cause = fault ∧ v = w := by
  change EStateM.Result.error cause v = _ ↔ _
  simp

@[simp] theorem get_eq_error : (get : Minting Vocabulary) v = .error fault w ↔ False := by
  change EStateM.Result.ok v v = _ ↔ _
  simp

@[simp] theorem modify_eq_error {f : Vocabulary → Vocabulary} :
    (modify f : Minting PUnit) v = .error fault w ↔ False := by
  change EStateM.Result.ok PUnit.unit (f v) = _ ↔ _
  simp

@[simp] theorem ofExcept_eq_error {x : Except Fault α} :
    (ofExcept x) v = .error fault w ↔ x = .error fault ∧ v = w := by
  cases x <;> simp [ofExcept]

/-! ## The actions -/

theorem next_eq_error :
    next k v = .error fault w ↔ v.IsFull k ∧ fault = .idsExhausted ∧ v = w := by
  simp only [next, bind_eq_error, get_eq_error, get_eq_ok, false_or]
  constructor
  · rintro ⟨_, _, ⟨rfl, rfl⟩, h⟩
    split at h
    · exact absurd h pure_eq_error.1
    · next hfull =>
        obtain ⟨rfl, rfl⟩ := throw_eq_error.1 h
        exact ⟨Nat.le_of_not_lt hfull, rfl, rfl⟩
  · rintro ⟨hfull, rfl, rfl⟩
    refine ⟨v, v, ⟨rfl, rfl⟩, ?_⟩
    rw [if_neg (Nat.not_lt.2 hfull)]
    exact throw_eq_error.2 ⟨rfl, rfl⟩

theorem mint_eq_error {name : Id k → String} :
    mint k name v = .error fault w ↔ v.IsFull k ∧ fault = .idsExhausted ∧ v = w := by
  simp only [mint, bind_eq_error, next_eq_error, modify_eq_error, pure_eq_error, and_false,
    exists_false, or_false]

theorem register_eq_error {name : String} :
    register k name v = .error fault w ↔
      v.idOf? k name = none ∧ v.IsFull k ∧ fault = .idsExhausted ∧ v = w := by
  simp only [register, bind_eq_error, get_eq_error, get_eq_ok, false_or]
  constructor
  · rintro ⟨_, _, ⟨rfl, rfl⟩, h⟩
    cases hid : v.idOf? k name with
    | some id => simp only [hid, pure_eq_error] at h
    | none =>
        simp only [hid, bind_eq_error, next_eq_error, modify_eq_error, pure_eq_error, and_false,
          exists_false, or_false] at h
        exact ⟨rfl, h⟩
  · rintro ⟨hid, hfull⟩
    refine ⟨v, v, ⟨rfl, rfl⟩, ?_⟩
    simp only [hid, bind_eq_error, next_eq_error]
    exact .inl hfull

/-- To mint an entity that is named after another one fails only if that is refused. -/
theorem mintAfter_eq_error {e : Entity} {text : String → Id k → String}
    {note : Id k → Vocabulary → Vocabulary} :
    (do
      let name ← ofExcept ((← get).nameOf e)
      let id ← mint k (text name)
      modify (note id)
      return id : Minting (Id k)) v = .error fault w ↔ v.Refuses k e fault ∧ v = w := by
  simp only [bind_eq_error, get_eq_error, get_eq_ok, ofExcept_eq_error, ofExcept_eq_ok,
    mint_eq_error, modify_eq_error, pure_eq_error, and_false, exists_false, or_false, false_or]
  constructor
  · rintro ⟨_, _, ⟨rfl, rfl⟩, ⟨hname, rfl⟩ | ⟨name, _, ⟨hname, rfl⟩, hfull, rfl, rfl⟩⟩
    · obtain ⟨rfl, he⟩ := Vocabulary.nameOf_eq_error.1 hname
      exact ⟨.notIssued he, rfl⟩
    · exact ⟨.idsExhausted (Vocabulary.contains_of_nameOf hname) hfull, rfl⟩
  · rintro ⟨h, rfl⟩
    refine ⟨v, v, ⟨rfl, rfl⟩, ?_⟩
    cases h with
    | notIssued he => exact .inl ⟨Vocabulary.nameOf_eq_error.2 ⟨rfl, he⟩, rfl⟩
    | idsExhausted he hfull =>
        obtain ⟨name, hname⟩ := Vocabulary.exists_nameOf he
        exact .inr ⟨name, v, ⟨hname, rfl⟩, hfull, rfl, rfl⟩

/-- The class of an individual is withheld only if it would have to be minted and cannot be. -/
theorem nominalOf_eq_error {i : IndividualId} :
    nominalOf i v = .error fault w ↔
      v.nominalOf[i]? = none ∧ v.Refuses .cls i fault ∧ v = w := by
  rw [nominalOf, bind_eq_error]
  simp only [get_eq_error, get_eq_ok, false_or]
  constructor
  · rintro ⟨_, _, ⟨rfl, rfl⟩, h⟩
    cases hc : v.nominalOf[i]? with
    | some c => simp only [hc, pure_eq_error] at h
    | none =>
        simp only [hc] at h
        exact ⟨rfl, mintAfter_eq_error.1 h⟩
  · rintro ⟨hc, h⟩
    refine ⟨v, v, ⟨rfl, rfl⟩, ?_⟩
    simp only [hc]
    exact mintAfter_eq_error.2 h

/-- The inverse of a property is withheld only if it would have to be minted and cannot be. -/
theorem inverseOf_eq_error {p : PropertyId} :
    inverseOf p v = .error fault w ↔
      v.inverse? p = none ∧ v.Refuses .property p fault ∧ v = w := by
  rw [inverseOf, bind_eq_error]
  simp only [get_eq_error, get_eq_ok, false_or]
  constructor
  · rintro ⟨_, _, ⟨rfl, rfl⟩, h⟩
    cases hq : v.inverse? p with
    | some q => simp only [hq, pure_eq_error] at h
    | none =>
        simp only [hq] at h
        exact ⟨rfl, mintAfter_eq_error.1 h⟩
  · rintro ⟨hq, h⟩
    refine ⟨v, v, ⟨rfl, rfl⟩, ?_⟩
    simp only [hq]
    exact mintAfter_eq_error.2 h

/-! ## Longer actions -/

/-- Whenever the action fails, then with an allowed fault. -/
def FailsOnly (allowed : Fault → Prop) (m : Minting α) (v : Vocabulary) : Prop :=
  ∀ ⦃fault w⦄, m v = .error fault w → allowed fault

section FailsOnly

variable {allowed allowed' : Fault → Prop} {m : Minting α}

theorem FailsOnly.imp (h : FailsOnly allowed m v) (himp : ∀ fault, allowed fault → allowed' fault) :
    FailsOnly allowed' m v :=
  fun _ _ hm => himp _ (h hm)

theorem failsOnly_pure (a : α) : FailsOnly allowed (pure a) v :=
  fun _ _ hm => absurd hm pure_eq_error.1

theorem failsOnly_throw {cause : Fault} (h : allowed cause) :
    FailsOnly allowed (throw cause : Minting α) v := fun _ _ hm => (throw_eq_error.1 hm).1 ▸ h

theorem failsOnly_bind {f : α → Minting β} (hm : FailsOnly allowed m v)
    (hf : ∀ a u, m v = .ok a u → FailsOnly allowed (f a) u) : FailsOnly allowed (m >>= f) v := by
  intro fault w h
  rcases bind_eq_error.1 h with h | ⟨a, u, hok, h⟩
  · exact hm h
  · exact hf a u hok h

theorem failsOnly_ofExcept {x : Except Fault α} (h : ∀ fault, x = .error fault → allowed fault) :
    FailsOnly allowed (ofExcept x) v := fun _ _ hm => h _ (ofExcept_eq_error.1 hm).1

end FailsOnly

end Minting

end OwlEl
