import Mathlib.Data.List.Forall2
import Mathlib.Data.List.Permutation
import Mathlib.Tactic.Basic
import OwlEl.Vocabulary
import Std.Internal.Do

/-!
# How a vocabulary grows

Every action on a vocabulary only adds to it. `Vocabulary.Extends` says what an
addition keeps, `Vocabulary.WellFormed` what holds of every vocabulary that the
actions produce from the initial one (`Vocabulary.Reachable`), and each of the
actions has one lemma about its success.

An action is analysed by what a successful run of it says of its parts:
`Minting.bind_eq_ok` takes a sequence apart. A closed run is evaluated instead,
with the equations of `Std.Internal.Do`: `Minting.exists_ok_of_yields`.
-/

namespace OwlEl

namespace Minting

variable {α β : Type} {v w : Vocabulary}

/-! ## Successful runs -/

@[simp] theorem pure_eq_ok {a b : α} : (pure a : Minting α) v = .ok b w ↔ a = b ∧ v = w := by
  change EStateM.Result.ok a v = _ ↔ _
  simp

theorem bind_eq_ok {m : Minting α} {f : α → Minting β} {b : β} :
    (m >>= f) v = .ok b w ↔ ∃ a u, m v = .ok a u ∧ f a u = .ok b w := by
  change EStateM.bind m f v = _ ↔ _
  unfold EStateM.bind
  cases m v <;> simp [and_assoc]

theorem bind_apply_of_ok {m : Minting α} {f : α → Minting β} {a : α} (h : m v = .ok a w) :
    (m >>= f) v = f a w := by
  change EStateM.bind m f v = f a w
  rw [EStateM.bind, h]

/-- What follows an action matters only where the action leads. -/
theorem bind_apply_congr {m : Minting α} {f g : α → Minting β}
    (h : ∀ a u, m v = .ok a u → f a u = g a u) : (m >>= f) v = (m >>= g) v := by
  change EStateM.bind m f v = EStateM.bind m g v
  unfold EStateM.bind
  cases hm : m v with
  | ok a u => exact h a u hm
  | error => rfl

@[simp] theorem throw_eq_ok {fault : Fault} {a : α} :
    (throw fault : Minting α) v = .ok a w ↔ False := by
  change EStateM.Result.error fault v = _ ↔ _
  simp

@[simp] theorem get_eq_ok {u : Vocabulary} :
    (get : Minting Vocabulary) v = .ok u w ↔ v = u ∧ v = w := by
  change EStateM.Result.ok v v = _ ↔ _
  simp

@[simp] theorem modify_eq_ok {f : Vocabulary → Vocabulary} {a : PUnit} :
    (modify f : Minting PUnit) v = .ok a w ↔ f v = w := by
  change EStateM.Result.ok PUnit.unit (f v) = _ ↔ _
  simp

@[simp] theorem ofExcept_eq_ok {x : Except Fault α} {a : α} :
    (ofExcept x) v = .ok a w ↔ x = .ok a ∧ v = w := by
  cases x <;> simp [ofExcept]

/-- Whether the action succeeds. -/
def succeeds (m : Minting α) (v : Vocabulary) : Bool :=
  match m v with
  | .ok _ _ => true
  | .error _ _ => false

theorem exists_ok_of_succeeds {m : Minting α} (h : succeeds m v = true) :
    ∃ a w, m v = .ok a w := by
  unfold succeeds at h
  cases hm : m v with
  | ok a w => exact ⟨a, w, rfl⟩
  | error fault w =>
      rw [hm] at h
      exact absurd h Bool.false_ne_true

/-- Whether the action succeeds with a result that passes the test. -/
def yields (m : Minting α) (test : α → Bool) (v : Vocabulary) : Bool :=
  match m v with
  | .ok a _ => test a
  | .error _ _ => false

theorem exists_ok_of_yields {m : Minting α} {test : α → Bool} (h : yields m test v = true) :
    ∃ a w, m v = .ok a w ∧ test a = true := by
  unfold yields at h
  cases hm : m v with
  | ok a w =>
      rw [hm] at h
      exact ⟨a, w, rfl, h⟩
  | error fault w =>
      rw [hm] at h
      exact absurd h Bool.false_ne_true

theorem mapM_nil_eq_ok {m : α → Minting β} {ys : List β} :
    (([] : List α).mapM m) v = .ok ys w ↔ [] = ys ∧ v = w := by
  rw [List.mapM_nil, pure_eq_ok]

theorem mapM_cons_eq_ok {m : α → Minting β} {x : α} {xs : List α} {ys : List β} :
    ((x :: xs).mapM m) v = .ok ys w ↔
      ∃ y u ys', m x v = .ok y u ∧ xs.mapM m u = .ok ys' w ∧ y :: ys' = ys := by
  simp only [List.mapM_cons, bind_eq_ok, pure_eq_ok]
  constructor
  · rintro ⟨y, u, hy, ys', _, hys, rfl, rfl⟩
    exact ⟨y, u, ys', hy, hys, rfl⟩
  · rintro ⟨y, u, ys', hy, hys, rfl⟩
    exact ⟨y, u, hy, ys', w, hys, rfl, rfl⟩

/-- What each of the actions ensures of its result. -/
theorem mapM_forall₂ {m : α → Minting β} {R : α → β → Prop} {xs : List α} {ys : List β}
    (hm : ∀ x ∈ xs, ∀ {v w y}, m x v = .ok y w → R x y) (h : xs.mapM m v = .ok ys w) :
    List.Forall₂ R xs ys := by
  induction xs generalizing v ys with
  | nil =>
      obtain ⟨rfl, -⟩ := mapM_nil_eq_ok.1 h
      exact .nil
  | cons x xs ih =>
      obtain ⟨y, u, ys', hy, hys, rfl⟩ := mapM_cons_eq_ok.1 h
      exact .cons (hm x (by simp) hy) (ih (fun z hz => hm z (by simp [hz])) hys)

end Minting

/-! ## Tables -/

theorem Entity.ofId_inj {k : Kind} {a b : Id k} : Entity.ofId a = Entity.ofId b ↔ a = b := by
  cases a; cases b; simp [Entity.ofId]

namespace NameTable

variable {k : Kind} {t : NameTable k}

theorem position_next (h : t.size < UInt32.size) : t.next.position = t.size := by
  simp only [next, Id.position, UInt32.toNat_ofNat']
  exact Nat.mod_eq_of_lt h

theorem mem_toList {id : Id k} : id ∈ t.toList ↔ id.position < t.size := by
  simp only [toList, List.mem_map, List.mem_range]
  constructor
  · rintro ⟨i, hi, rfl⟩
    exact Nat.lt_of_le_of_lt (Nat.mod_le _ _) hi
  · intro h
    refine ⟨id.position, h, ?_⟩
    simp [Id.position]

theorem nodup_toList (h : t.size ≤ UInt32.size) : t.toList.Nodup := by
  refine List.pairwise_map.2 (List.nodup_range.imp_of_mem fun {i j} hi hj hne hij => hne ?_)
  rw [List.mem_range] at hi hj
  have hposition := congrArg Id.position hij
  simp only [Id.position, UInt32.toNat_ofNat'] at hposition
  have hlt : ∀ {n}, n < t.size → n < UInt32.size := fun hn => Nat.lt_of_lt_of_le hn h
  rwa [Nat.mod_eq_of_lt (hlt hi), Nat.mod_eq_of_lt (hlt hj)] at hposition

end NameTable

namespace Vocabulary

variable {v w u : Vocabulary} {k : Kind}

@[simp] theorem table_modifyTable_self (f : NameTable k → NameTable k) :
    (v.modifyTable f).table k = f (v.table k) := by
  cases k <;> rfl

theorem table_modifyTable_of_ne {l : Kind} (f : NameTable k → NameTable k) (h : l ≠ k) :
    (v.modifyTable f).table l = v.table l := by
  cases k <;> cases l <;> first | rfl | exact absurd rfl h

@[simp] theorem nominalOf_modifyTable (f : NameTable k → NameTable k) :
    (v.modifyTable f).nominalOf = v.nominalOf := by
  cases k <;> rfl

@[simp] theorem memberOf_modifyTable (f : NameTable k → NameTable k) :
    (v.modifyTable f).memberOf = v.memberOf := by
  cases k <;> rfl

@[simp] theorem inverses_modifyTable (f : NameTable k → NameTable k) :
    (v.modifyTable f).inverses = v.inverses := by
  cases k <;> rfl

theorem record_eq_ok {e : Entity} {r : EntityRecord} :
    v.record e = .ok r ↔ (v.table e.kind).records[e.id.position]? = some r := by
  unfold record NameTable.record?
  cases (v.table e.kind).records[e.id.position]? <;> simp

theorem contains_iff {e : Entity} : v.contains e = true ↔ ∃ r, v.record e = .ok r := by
  simp only [contains, record_eq_ok, NameTable.size]
  constructor
  · intro h
    exact ⟨_, Array.getElem?_eq_getElem (of_decide_eq_true h)⟩
  · rintro ⟨r, h⟩
    exact decide_eq_true (Array.getElem?_eq_some_iff.1 h).1

theorem contains_ofId {id : Id k} :
    v.contains (.ofId id) = true ↔ id.position < (v.table k).size := by
  simp only [contains, decide_eq_true_eq]
  exact Iff.rfl

theorem isAuxiliary_eq_ok {e : Entity} {b : Bool} :
    v.isAuxiliary e = .ok b ↔ ∃ r, v.record e = .ok r ∧ r.auxiliary = b := by
  unfold isAuxiliary
  cases v.record e <;> simp [Functor.map, Except.map]

/-! ## Growth -/

/-- Everything that is recorded of the entities of the first vocabulary is recorded in the
second. -/
structure Extends (v w : Vocabulary) : Prop where
  record : ∀ {e r}, v.record e = .ok r → w.record e = .ok r
  name : ∀ {k name} {id : Id k}, v.idOf? k name = some id → w.idOf? k name = some id
  nominal : ∀ {i : IndividualId} {c : ClassId}, v.nominalOf[i]? = some c → w.nominalOf[i]? = some c
  member : ∀ {c : ClassId} {i : IndividualId}, v.memberOf[c]? = some i → w.memberOf[c]? = some i
  inverse : ∀ {p q : PropertyId}, v.inverses[p]? = some q → w.inverses[p]? = some q

theorem Extends.refl (v : Vocabulary) : v.Extends v := ⟨id, id, id, id, id⟩

theorem Extends.trans (h : v.Extends w) (h' : w.Extends u) : v.Extends u :=
  ⟨h'.record ∘ h.record, h'.name ∘ h.name, h'.nominal ∘ h.nominal, h'.member ∘ h.member,
    h'.inverse ∘ h.inverse⟩

theorem Extends.contains (h : v.Extends w) {e : Entity} (he : v.contains e = true) :
    w.contains e = true := by
  obtain ⟨r, hr⟩ := contains_iff.1 he
  exact contains_iff.2 ⟨r, h.record hr⟩

theorem Extends.isAuxiliary (h : v.Extends w) {e : Entity} {b : Bool}
    (he : v.isAuxiliary e = .ok b) : w.isAuxiliary e = .ok b := by
  obtain ⟨r, hr, hb⟩ := isAuxiliary_eq_ok.1 he
  exact isAuxiliary_eq_ok.2 ⟨r, h.record hr, hb⟩

theorem Extends.inverse? (h : v.Extends w) {p q : PropertyId} (hp : v.inverse? p = some q) :
    w.inverse? p = some q := by
  unfold Vocabulary.inverse? at *
  split at hp
  · next hr => rwa [if_pos hr]
  · next hr => rw [if_neg hr]; exact h.inverse hp

/-- The reserved entities are there and are named, no identifier is too large for its type,
and the correspondences are between entities of the vocabulary, as they are minted. -/
structure WellFormed (v : Vocabulary) : Prop where
  size_lt : ∀ k, (v.table k).size < UInt32.size
  bottom : ∀ k, k ≠ .individual → v.isAuxiliary (.ofId (.bottom : Id k)) = .ok false
  top : ∀ k, k ≠ .individual → v.isAuxiliary (.ofId (.top : Id k)) = .ok false
  nominal_individual : ∀ {i : IndividualId} {c : ClassId},
    v.nominalOf[i]? = some c → v.contains i = true
  nominal_auxiliary : ∀ {i : IndividualId} {c : ClassId},
    v.nominalOf[i]? = some c → v.isAuxiliary c = .ok true
  member_iff : ∀ {c : ClassId} {i : IndividualId},
    v.memberOf[c]? = some i ↔ v.nominalOf[i]? = some c
  inverse_symm : ∀ {p q : PropertyId}, v.inverses[p]? = some q → v.inverses[q]? = some p
  inverse_contains : ∀ {p q : PropertyId}, v.inverses[p]? = some q → v.contains p = true
  inverse_auxiliary : ∀ {p q : PropertyId}, v.inverses[p]? = some q →
    v.isAuxiliary p = .ok true ∨ v.isAuxiliary q = .ok true
  inverse_ne : ∀ {p q : PropertyId}, v.inverses[p]? = some q → p ≠ .top ∧ p ≠ .bottom

theorem contains_of_isAuxiliary {e : Entity} {b : Bool} (h : v.isAuxiliary e = .ok b) :
    v.contains e = true := by
  obtain ⟨r, hr, _⟩ := isAuxiliary_eq_ok.1 h
  exact contains_iff.2 ⟨r, hr⟩

theorem WellFormed.contains_bottom (hv : v.WellFormed) (hk : k ≠ .individual) :
    v.contains (.ofId (.bottom : Id k)) = true :=
  contains_of_isAuxiliary (hv.bottom k hk)

theorem WellFormed.contains_top (hv : v.WellFormed) (hk : k ≠ .individual) :
    v.contains (.ofId (.top : Id k)) = true :=
  contains_of_isAuxiliary (hv.top k hk)

namespace WellFormed

variable (hv : v.WellFormed)

include hv

theorem nominal_contains {i : IndividualId} {c : ClassId} (h : v.nominalOf[i]? = some c) :
    v.contains c = true :=
  contains_of_isAuxiliary (hv.nominal_auxiliary h)

theorem nominal_ne_bottom {i : IndividualId} {c : ClassId} (h : v.nominalOf[i]? = some c) :
    c ≠ .bottom := by
  rintro rfl
  have hbottom := hv.bottom .cls (by decide)
  rw [hv.nominal_auxiliary h] at hbottom
  exact absurd (Except.ok.inj hbottom) (by decide)

theorem inverse?_contains {p q : PropertyId} (h : v.inverse? p = some q) :
    v.contains p = true ∧ v.contains q = true := by
  unfold Vocabulary.inverse? at h
  split at h
  · next hr =>
      obtain rfl : p = q := by simpa using h
      rcases hr with rfl | rfl
      · exact ⟨hv.contains_top (by decide), hv.contains_top (by decide)⟩
      · exact ⟨hv.contains_bottom (by decide), hv.contains_bottom (by decide)⟩
  · exact ⟨hv.inverse_contains h, hv.inverse_contains (hv.inverse_symm h)⟩

theorem inverse?_symm {p q : PropertyId} (h : v.inverse? p = some q) :
    v.inverse? q = some p := by
  unfold Vocabulary.inverse? at *
  split at h
  · next hp =>
      obtain rfl : p = q := by simpa using h
      rw [if_pos hp]
  · have hq := hv.inverse_ne (hv.inverse_symm h)
    rw [if_neg (not_or.2 hq)]
    exact hv.inverse_symm h

end WellFormed

theorem contains_of_nameOf {e : Entity} {name : String} (h : v.nameOf e = .ok name) :
    v.contains e = true := by
  refine contains_iff.2 ?_
  unfold nameOf at h
  cases hr : v.record e with
  | ok r => exact ⟨r, rfl⟩
  | error fault => rw [hr] at h; exact absurd h (by simp [Functor.map, Except.map])

/-! ## Minting an entity -/

/-- Issuing an identifier adds its record and changes no other. -/
theorem record_modifyTable {f : NameTable k → NameTable k} {r : EntityRecord}
    (hf : (f (v.table k)).records = (v.table k).records.push r)
    (hlt : (v.table k).size < UInt32.size) (e : Entity) :
    (v.modifyTable f).record e =
      if e = .ofId (v.table k).next then .ok r else v.record e := by
  obtain ⟨l, i⟩ := e
  by_cases hl : l = k
  · subst hl
    have hpos := NameTable.position_next hlt
    have hiff : (⟨l, i⟩ : Entity) = .ofId (v.table l).next ↔
        (⟨i⟩ : Id l).position = (v.table l).records.size := by
      rw [show (⟨l, i⟩ : Entity) = .ofId (⟨i⟩ : Id l) from rfl, Entity.ofId_inj,
        ← Id.position_inj, hpos, NameTable.size]
    by_cases hi : (⟨i⟩ : Id l).position = (v.table l).records.size
    · simp [record, NameTable.record?, hf, hiff, Entity.id, hi]
    · simp [record, NameTable.record?, hf, Array.getElem?_push, hiff, Entity.id, hi]
  · have hne : (⟨l, i⟩ : Entity) ≠ .ofId (v.table k).next := fun h => hl (congrArg Entity.kind h)
    simp only [record, table_modifyTable_of_ne f hl, if_neg hne]

/-- The entity has been issued last: it has the number that was next for its kind, and no
other entity is new. -/
structure Issues (v w : Vocabulary) (e : Entity) : Prop where
  position : e.id.position = (v.table e.kind).size
  size : (w.table e.kind).size = (v.table e.kind).size + 1
  others : ∀ k, k ≠ e.kind → w.table k = v.table k

theorem Issues.eq_or_contains {e e' : Entity} (h : v.Issues w e) (he' : w.contains e' = true) :
    e' = e ∨ v.contains e' = true := by
  by_cases hkind : e'.kind = e.kind
  · obtain ⟨k, i⟩ := e
    obtain ⟨l, j⟩ := e'
    obtain rfl : l = k := hkind
    have hlt : (⟨j⟩ : Id l).position < (w.table l).size := of_decide_eq_true he'
    have hsize : (w.table l).size = (v.table l).size + 1 := h.size
    have hposition : (⟨i⟩ : Id l).position = (v.table l).size := h.position
    rcases Nat.lt_or_ge (⟨j⟩ : Id l).position (v.table l).size with hold | hnew
    · exact .inr (decide_eq_true hold)
    · have heq : (⟨j⟩ : Id l) = ⟨i⟩ := Id.position_inj.1 (by omega)
      exact .inl (congrArg Entity.ofId heq)
  · rw [contains, h.others _ hkind] at he'
    exact .inr he'

theorem issues_modifyTable {f : NameTable k → NameTable k} {r : EntityRecord}
    (hf : (f (v.table k)).records = (v.table k).records.push r)
    (hlt : (v.table k).size < UInt32.size) :
    v.Issues (v.modifyTable f) (.ofId (v.table k).next) where
  position := NameTable.position_next hlt
  size := by
    change ((v.modifyTable f).table k).size = (v.table k).size + 1
    rw [table_modifyTable_self, NameTable.size, hf, Array.size_push]
    rfl
  others _ hl := table_modifyTable_of_ne f hl

/-- The second vocabulary has one new auxiliary entity, about which nothing else is known. -/
structure Mints (v w : Vocabulary) (id : Id k) : Prop where
  grows : v.Extends w
  wellFormed : w.WellFormed
  issues : v.Issues w (.ofId id)
  fresh : v.contains (.ofId id) = false
  auxiliary : w.isAuxiliary (.ofId id) = .ok true
  nominalOf : w.nominalOf = v.nominalOf
  memberOf : w.memberOf = v.memberOf
  inverses : w.inverses = v.inverses

/-- What was there before is not what has been minted. -/
theorem Mints.ne {id id' : Id k} (h : Mints v w id) (hid : v.contains (.ofId id') = true) :
    id ≠ id' := by
  rintro rfl
  rw [h.fresh] at hid
  exact absurd hid (by decide)

theorem not_contains_next (hlt : (v.table k).size < UInt32.size) :
    v.contains (.ofId (v.table k).next) = false := by
  rw [← Bool.not_eq_true, contains_ofId, NameTable.position_next hlt]
  exact Nat.lt_irrefl _

theorem size_modifyTable {f : NameTable k → NameTable k} {r : EntityRecord}
    (hf : (f (v.table k)).records = (v.table k).records.push r) {l : Kind} :
    ((v.modifyTable f).table l).size ≤ (v.table l).size + if l = k then 1 else 0 := by
  by_cases hl : l = k
  · subst hl
    simp [NameTable.size, hf]
  · simp [table_modifyTable_of_ne f hl, hl]

theorem extends_modifyTable {f : NameTable k → NameTable k} {r : EntityRecord}
    (hf : (f (v.table k)).records = (v.table k).records.push r)
    (hids : ∀ {name : String} {id : Id k},
      (v.table k).ids[name]? = some id → (f (v.table k)).ids[name]? = some id)
    (hlt : (v.table k).size < UInt32.size) : v.Extends (v.modifyTable f) where
  record {e r'} he := by
    rw [record_modifyTable hf hlt]
    split
    · next heq =>
        have hc : v.contains e = true := contains_iff.2 ⟨r', he⟩
        rw [heq, not_contains_next hlt] at hc
        exact absurd hc (by decide)
    · exact he
  name {l name id} h := by
    by_cases hl : l = k
    · subst hl
      simp only [idOf?, table_modifyTable_self] at *
      exact hids h
    · simpa only [idOf?, table_modifyTable_of_ne f hl] using h
  nominal h := by simpa using h
  member h := by simpa using h
  inverse h := by simpa using h

theorem WellFormed.modifyTable (hv : v.WellFormed) {f : NameTable k → NameTable k}
    {r : EntityRecord} (hf : (f (v.table k)).records = (v.table k).records.push r)
    (hgrow : v.Extends (v.modifyTable f)) (hlt : (v.table k).size < UInt32.size - 1) :
    (v.modifyTable f).WellFormed where
  size_lt l := by
    have hl := hv.size_lt l
    have hs := size_modifyTable hf (l := l)
    split at hs
    · next h => subst h; omega
    · omega
  bottom l hl := hgrow.isAuxiliary (hv.bottom l hl)
  top l hl := hgrow.isAuxiliary (hv.top l hl)
  nominal_individual h := hgrow.contains (hv.nominal_individual (by simpa using h))
  nominal_auxiliary h := hgrow.isAuxiliary (hv.nominal_auxiliary (by simpa using h))
  member_iff {c i} := by simpa using hv.member_iff (c := c) (i := i)
  inverse_symm h := by simpa using hv.inverse_symm (by simpa using h)
  inverse_contains h := hgrow.contains (hv.inverse_contains (by simpa using h))
  inverse_auxiliary h :=
    (hv.inverse_auxiliary (by simpa using h)).imp hgrow.isAuxiliary hgrow.isAuxiliary
  inverse_ne h := hv.inverse_ne (by simpa using h)

end Vocabulary

/-! ## The actions -/

namespace Minting

variable {v w : Vocabulary} {k : Kind}

open Vocabulary

theorem next_eq_ok {id : Id k} :
    next k v = .ok id w ↔
      (v.table k).size < UInt32.size - 1 ∧ (v.table k).next = id ∧ v = w := by
  simp only [next, bind_eq_ok, get_eq_ok]
  constructor
  · rintro ⟨_, _, ⟨rfl, rfl⟩, h⟩
    split at h
    · next hlt => exact ⟨hlt, pure_eq_ok.1 h⟩
    · exact absurd h throw_eq_ok.1
  · rintro ⟨hlt, hid, rfl⟩
    refine ⟨v, v, ⟨rfl, rfl⟩, ?_⟩
    rw [if_pos hlt]
    exact pure_eq_ok.2 ⟨hid, rfl⟩

theorem mint_mints {name : Id k → String} {id : Id k} (hv : v.WellFormed)
    (h : mint k name v = .ok id w) : Mints v w id := by
  simp only [mint, bind_eq_ok, next_eq_ok, modify_eq_ok, pure_eq_ok] at h
  obtain ⟨_, _, ⟨hlt, rfl, rfl⟩, _, _, rfl, rfl, rfl⟩ := h
  have hlt' := hv.size_lt k
  have hgrow := extends_modifyTable (v := v) (k := k)
    (f := fun t => t.push ⟨name (v.table k).next, true⟩) rfl id hlt'
  refine ⟨hgrow, hv.modifyTable rfl hgrow hlt,
    issues_modifyTable (r := ⟨name (v.table k).next, true⟩) rfl hlt', not_contains_next hlt', ?_,
    by simp, by simp, by simp⟩
  refine isAuxiliary_eq_ok.2 ⟨⟨name (v.table k).next, true⟩, ?_, rfl⟩
  rw [record_modifyTable rfl hlt', if_pos rfl]

/-- Registering a name gives an entity that is or becomes known under it. -/
theorem register_grows {name : String} {id : Id k} (hv : v.WellFormed)
    (h : register k name v = .ok id w) : v.Extends w ∧ w.WellFormed := by
  simp only [register, bind_eq_ok, get_eq_ok] at h
  obtain ⟨_, _, ⟨rfl, rfl⟩, h⟩ := h
  cases hid : v.idOf? k name with
  | some id' =>
      simp only [hid, pure_eq_ok] at h
      exact h.2 ▸ ⟨.refl v, hv⟩
  | none =>
      simp only [hid, bind_eq_ok, next_eq_ok, modify_eq_ok, pure_eq_ok] at h
      obtain ⟨_, _, ⟨hlt, rfl, rfl⟩, _, _, rfl, rfl, rfl⟩ := h
      have hids : ∀ {name' : String} {id : Id k}, (v.table k).ids[name']? = some id →
          ((v.table k).register name).ids[name']? = some id := by
        intro name' id hname
        have hne : name ≠ name' := fun heq => by
          rw [idOf?, heq, hname] at hid
          exact absurd hid (by simp)
        simp [NameTable.register, Std.TreeMap.getElem?_insert, hne, hname]
      have hgrow := extends_modifyTable (v := v) (k := k)
        (f := fun t => t.register name) rfl hids (hv.size_lt k)
      exact ⟨hgrow, hv.modifyTable rfl hgrow hlt⟩

/-- What is known after the class of an individual has been asked for. -/
theorem nominalOf_eq_ok {i : IndividualId} {c : ClassId} (hv : v.WellFormed)
    (h : nominalOf i v = .ok c w) :
    (v = w ∧ v.nominalOf[i]? = some c) ∨
      v.nominalOf[i]? = none ∧ v.contains i = true ∧ ∃ u, Mints v u c ∧
        w = { u with nominalOf := v.nominalOf.insert i c, memberOf := u.memberOf.insert c i } := by
  simp only [nominalOf, bind_eq_ok, get_eq_ok] at h
  obtain ⟨_, _, ⟨rfl, rfl⟩, h⟩ := h
  cases hc : v.nominalOf[i]? with
  | some c' =>
      simp only [hc, pure_eq_ok] at h
      exact .inl ⟨h.2, by rw [h.1]⟩
  | none =>
      simp only [hc, bind_eq_ok, get_eq_ok, ofExcept_eq_ok, modify_eq_ok, pure_eq_ok] at h
      obtain ⟨_, _, ⟨rfl, rfl⟩, name, _, ⟨hname, rfl⟩, c', u, hmint, _, _, rfl, rfl, rfl⟩ := h
      have hu := mint_mints hv hmint
      exact .inr ⟨rfl, contains_of_nameOf hname, u, hu, by rw [hu.nominalOf]⟩

theorem Vocabulary.Mints.nominalOf_ne {u : Vocabulary} {c : ClassId} (hv : v.WellFormed)
    (hu : Mints v u c) (j : IndividualId) : v.nominalOf[j]? ≠ some c :=
  fun hj => hu.ne (contains_of_isAuxiliary (hv.nominal_auxiliary hj)) rfl

theorem nominalOf_grows {i : IndividualId} {c : ClassId} (hv : v.WellFormed)
    (h : nominalOf i v = .ok c w) :
    v.Extends w ∧ w.WellFormed ∧ w.nominalOf[i]? = some c := by
  rcases nominalOf_eq_ok hv h with ⟨rfl, hc⟩ | ⟨hnone, hi, u, hu, rfl⟩
  · exact ⟨.refl v, hv, hc⟩
  · have hnew := Vocabulary.Mints.nominalOf_ne hv hu
    have hlookup : ∀ {j : IndividualId} {d : ClassId}, (v.nominalOf.insert i c)[j]? = some d →
        i = j ∧ c = d ∨ v.nominalOf[j]? = some d := by
      intro j d hd
      grind
    refine ⟨⟨hu.grows.record, hu.grows.name, ?_, ?_, hu.grows.inverse⟩,
      ⟨hu.wellFormed.size_lt, hu.wellFormed.bottom, hu.wellFormed.top, ?_, ?_, ?_,
        hu.wellFormed.inverse_symm, hu.wellFormed.inverse_contains,
        hu.wellFormed.inverse_auxiliary, hu.wellFormed.inverse_ne⟩, by simp⟩
    · intro j d hd
      have hne : i ≠ j := fun heq => by rw [← heq, hnone] at hd; exact absurd hd (by simp)
      simpa [Std.TreeMap.getElem?_insert, hne] using hd
    · intro d j hd
      have hne : c ≠ d := fun heq => hnew j (heq ▸ hv.member_iff.1 hd)
      simpa [Std.TreeMap.getElem?_insert, hne, hu.memberOf] using hd
    · intro j d hd
      rcases hlookup hd with ⟨rfl, -⟩ | hd
      · exact hu.grows.contains hi
      · exact hu.grows.contains (hv.nominal_individual hd)
    · intro j d hd
      rcases hlookup hd with ⟨-, rfl⟩ | hd
      · exact hu.auxiliary
      · exact hu.grows.isAuxiliary (hv.nominal_auxiliary hd)
    · intro d j
      have hmember : v.memberOf[d]? = some j ↔ v.nominalOf[j]? = some d := hv.member_iff
      have hd := hnew j
      simp only [Std.TreeMap.getElem?_insert, Std.LawfulEqCmp.compare_eq_iff_eq, hu.memberOf]
      by_cases hcd : c = d
      · subst hcd
        by_cases hij : i = j <;> simp [hij, hd]
      · by_cases hij : i = j
        · subst hij; simp [hcd, hmember, hnone]
        · simp [hcd, hij, hmember]

/-- What is known after the inverse of a property has been asked for. -/
theorem inverseOf_eq_ok {p q : PropertyId} (hv : v.WellFormed)
    (h : inverseOf p v = .ok q w) :
    (v = w ∧ v.inverse? p = some q) ∨
      v.inverse? p = none ∧ v.contains p = true ∧ ∃ u, Mints v u q ∧
        w = { u with inverses := (v.inverses.insert p q).insert q p } := by
  simp only [inverseOf, bind_eq_ok, get_eq_ok] at h
  obtain ⟨_, _, ⟨rfl, rfl⟩, h⟩ := h
  cases hc : v.inverse? p with
  | some q' =>
      simp only [hc, pure_eq_ok] at h
      exact .inl ⟨h.2, by rw [h.1]⟩
  | none =>
      simp only [hc, bind_eq_ok, get_eq_ok, ofExcept_eq_ok, modify_eq_ok, pure_eq_ok] at h
      obtain ⟨_, _, ⟨rfl, rfl⟩, name, _, ⟨hname, rfl⟩, q', u, hmint, _, _, rfl, rfl, rfl⟩ := h
      have hu := mint_mints hv hmint
      exact .inr ⟨rfl, contains_of_nameOf hname, u, hu, by rw [hu.inverses]⟩

theorem inverse?_eq_none {p : PropertyId} (h : v.inverse? p = none) :
    ¬(p = .top ∨ p = .bottom) ∧ v.inverses[p]? = none := by
  unfold Vocabulary.inverse? at h
  split at h
  · exact absurd h (by simp)
  · next hr => exact ⟨hr, h⟩

theorem inverseOf_grows {p q : PropertyId} (hv : v.WellFormed)
    (h : inverseOf p v = .ok q w) :
    v.Extends w ∧ w.WellFormed ∧ w.inverse? p = some q := by
  rcases inverseOf_eq_ok hv h with ⟨rfl, hq⟩ | ⟨hnone, hp, u, hu, rfl⟩
  · exact ⟨.refl v, hv, hq⟩
  · obtain ⟨hreserved, hnone⟩ := inverse?_eq_none hnone
    have hqp : q ≠ p := hu.ne hp
    have hpair : ((v.inverses.insert p q).insert q p)[p]? = some q := by grind
    have hfresh : ∀ r, v.inverses[q]? ≠ some r := fun r hr => hu.ne (hv.inverse_contains hr) rfl
    have hlookup : ∀ {r s : PropertyId}, ((v.inverses.insert p q).insert q p)[r]? = some s →
        p = r ∧ q = s ∨ q = r ∧ p = s ∨ v.inverses[r]? = some s := by
      intro r s hr
      grind
    refine ⟨⟨hu.grows.record, hu.grows.name, hu.grows.nominal, hu.grows.member, ?_⟩,
      ⟨hu.wellFormed.size_lt, hu.wellFormed.bottom, hu.wellFormed.top,
        hu.wellFormed.nominal_individual, hu.wellFormed.nominal_auxiliary,
        hu.wellFormed.member_iff, ?_, ?_, ?_, ?_⟩, ?_⟩
    · intro r s hr
      have hqr : q ≠ r := fun heq => hfresh s (heq ▸ hr)
      have hpr : p ≠ r := fun heq => by rw [← heq, hnone] at hr; exact absurd hr (by simp)
      simpa [Std.TreeMap.getElem?_insert, hqr, hpr] using hr
    · intro r s hr
      rcases hlookup hr with ⟨rfl, rfl⟩ | ⟨rfl, rfl⟩ | hr
      · simp
      · exact hpair
      · have hs := hv.inverse_symm hr
        have hqs : q ≠ s := fun heq => hfresh r (heq ▸ hs)
        have hps : p ≠ s := fun heq => by rw [← heq, hnone] at hs; exact absurd hs (by simp)
        simpa [Std.TreeMap.getElem?_insert, hqs, hps] using hs
    · intro r s hr
      rcases hlookup hr with ⟨rfl, -⟩ | ⟨rfl, -⟩ | hr
      · exact hu.grows.contains hp
      · exact contains_of_isAuxiliary hu.auxiliary
      · exact hu.grows.contains (hv.inverse_contains hr)
    · intro r s hr
      rcases hlookup hr with ⟨-, rfl⟩ | ⟨rfl, -⟩ | hr
      · exact .inr hu.auxiliary
      · exact .inl hu.auxiliary
      · exact (hv.inverse_auxiliary hr).imp hu.grows.isAuxiliary hu.grows.isAuxiliary
    · intro r s hr
      rcases hlookup hr with ⟨rfl, -⟩ | ⟨rfl, -⟩ | hr
      · exact not_or.1 hreserved
      · -- a new property is not one of the reserved ones, which are there already
        exact ⟨hu.ne (hv.contains_top (by decide)), hu.ne (hv.contains_bottom (by decide))⟩
      · exact hv.inverse_ne hr
    · rw [Vocabulary.inverse?, if_neg hreserved]
      exact hpair

/-- What an action ensures of each result is ensured of a list of results, if it stays true
while the vocabulary grows in the way that the action makes it grow. -/
theorem mapM_grows {α β : Type} {m : α → Minting β} {R : Vocabulary → Vocabulary → Prop}
    {P : α → Vocabulary → Prop} {Q : α → β → Vocabulary → Prop} {xs : List α} {ys : List β}
    (refl : ∀ {v}, v.WellFormed → R v v) (trans : ∀ {v u w}, R v u → R u w → R v w)
    (wellFormed : ∀ {v w}, R v w → w.WellFormed)
    (hpre : ∀ {x v w}, R v w → P x v → P x w) (hpost : ∀ {x y v w}, R v w → Q x y v → Q x y w)
    (hm : ∀ x ∈ xs, ∀ {v w y}, v.WellFormed → P x v → m x v = .ok y w → R v w ∧ Q x y w)
    (hv : v.WellFormed) (hxs : ∀ x ∈ xs, P x v) (h : xs.mapM m v = .ok ys w) :
    R v w ∧ List.Forall₂ (Q · · w) xs ys := by
  induction xs generalizing v ys with
  | nil =>
      obtain ⟨rfl, rfl⟩ := mapM_nil_eq_ok.1 h
      exact ⟨refl hv, .nil⟩
  | cons x xs ih =>
      obtain ⟨y, u, ys', hy, hys, rfl⟩ := mapM_cons_eq_ok.1 h
      obtain ⟨hvu, hxy⟩ := hm x (by simp) hv (hxs x (by simp)) hy
      obtain ⟨huw, hrest⟩ := ih (fun z hz => hm z (by simp [hz])) (wellFormed hvu)
        (fun z hz => hpre hvu (hxs z (by simp [hz]))) hys
      exact ⟨trans hvu huw, .cons (hpost huw hxy) hrest⟩

end Minting

/-- What a relation says of its second argument holds of every item of the second list. -/
theorem forall_mem_of_forall₂ {α β : Type} {R : α → β → Prop} {Q : β → Prop} {xs : List α}
    {ys : List β} (h : List.Forall₂ R xs ys) (hQ : ∀ x y, R x y → Q y) : ∀ y ∈ ys, Q y := by
  induction h with
  | nil => simp
  | cons hxy _ ih => exact List.forall_mem_cons.2 ⟨hQ _ _ hxy, ih⟩

/-! ## Reachable vocabularies -/

/-- The vocabularies that a series of actions produces from the initial one. -/
inductive Vocabulary.Reachable : Vocabulary → Prop
  | initial : Reachable .initial
  | register {v w : Vocabulary} {k : Kind} {name : String} {id : Id k} (hv : Reachable v)
      (h : Minting.register k name v = .ok id w) : Reachable w
  | freshClass {v w : Vocabulary} {c : ClassId} (hv : Reachable v)
      (h : Minting.freshClass v = .ok c w) : Reachable w
  | freshProperty {v w : Vocabulary} {p : PropertyId} (hv : Reachable v)
      (h : Minting.freshProperty v = .ok p w) : Reachable w
  | nominalOf {v w : Vocabulary} {i : IndividualId} {c : ClassId} (hv : Reachable v)
      (h : Minting.nominalOf i v = .ok c w) : Reachable w
  | inverseOf {v w : Vocabulary} {p q : PropertyId} (hv : Reachable v)
      (h : Minting.inverseOf p v = .ok q w) : Reachable w

namespace Vocabulary

theorem wellFormed_initial : initial.WellFormed where
  size_lt k := by cases k <;> decide
  bottom k hk := by
    cases k
    · rfl
    · rfl
    · exact absurd rfl hk
  top k hk := by
    cases k
    · rfl
    · rfl
    · exact absurd rfl hk
  nominal_individual h := by simp [initial] at h
  nominal_auxiliary h := by simp [initial] at h
  member_iff := by simp [initial]
  inverse_symm h := by simp [initial] at h
  inverse_contains h := by simp [initial] at h
  inverse_auxiliary h := by simp [initial] at h
  inverse_ne h := by simp [initial] at h

/-- What the actions keep holds of every vocabulary that they produce. -/
theorem Reachable.wellFormed {v : Vocabulary} (h : v.Reachable) : v.WellFormed := by
  induction h with
  | initial => exact wellFormed_initial
  | register _ h ih => exact (Minting.register_grows ih h).2
  | freshClass _ h ih => exact (Minting.mint_mints ih h).wellFormed
  | freshProperty _ h ih => exact (Minting.mint_mints ih h).wellFormed
  | nominalOf _ h ih => exact (Minting.nominalOf_grows ih h).2.1
  | inverseOf _ h ih => exact (Minting.inverseOf_grows ih h).2.1

/-- Three classes, a property and an individual under names. -/
def sample : Vocabulary :=
  ((initial.modifyTable fun t : NameTable .cls =>
    ((t.register "A").register "B").register "C").modifyTable fun t : NameTable .property =>
      t.register "r").modifyTable fun t : NameTable .individual => t.register "i"

theorem reachable_sample : sample.Reachable := by
  let v₁ := initial.modifyTable fun t : NameTable .cls => t.register "A"
  let v₂ := v₁.modifyTable fun t : NameTable .cls => t.register "B"
  let v₃ := v₂.modifyTable fun t : NameTable .cls => t.register "C"
  let v₄ := v₃.modifyTable fun t : NameTable .property => t.register "r"
  have hv₁ : v₁.Reachable :=
    .register .initial (show Minting.register .cls "A" .initial = .ok ⟨2⟩ v₁ from rfl)
  have hv₂ : v₂.Reachable :=
    .register hv₁ (show Minting.register .cls "B" v₁ = .ok ⟨3⟩ v₂ from rfl)
  have hv₃ : v₃.Reachable :=
    .register hv₂ (show Minting.register .cls "C" v₂ = .ok ⟨4⟩ v₃ from rfl)
  have hv₄ : v₄.Reachable :=
    .register hv₃ (show Minting.register .property "r" v₃ = .ok ⟨2⟩ v₄ from rfl)
  exact .register hv₄ (show Minting.register .individual "i" v₄ = .ok ⟨0⟩ sample from rfl)

end Vocabulary

end OwlEl
