import OwlEl.Proofs.Faults

/-!
# Series of calls

A vocabulary is made by calls of the five actions that add to it, in any order and with any
arguments. A call may fail, because an entity that it is about has not been issued or because
no identifier is left; it then changes nothing. `Vocabulary.Consistent` says how the tables of
records, names, nominal classes and inverses agree with each other, and `afterAll_consistent`
that they do after every series of calls.

The vocabularies that series of calls lead to are the reachable ones: `reachable_iff`.
-/

namespace OwlEl

/-- A call of one of the actions that may add to a vocabulary. -/
inductive Call where
  | register (kind : Kind) (name : String)
  | freshClass
  | freshProperty
  | nominalOf (individual : IndividualId)
  | inverseOf (property : PropertyId)

namespace Call

/-- What is called. The answer is an entity. -/
def action : Call → Minting Entity
  | .register k name => do return .ofId (← Minting.register k name)
  | .freshClass => do return .ofId (← Minting.freshClass)
  | .freshProperty => do return .ofId (← Minting.freshProperty)
  | .nominalOf i => do return .ofId (← Minting.nominalOf i)
  | .inverseOf p => do return .ofId (← Minting.inverseOf p)

/-- The entity that the call is about, if there is one. -/
def subject? : Call → Option Entity
  | .nominalOf i => some (.ofId i)
  | .inverseOf p => some (.ofId p)
  | .register .. | .freshClass | .freshProperty => none

end Call

namespace Vocabulary

/-- The vocabulary that a call leaves, whether it succeeds or fails. -/
def after (v : Vocabulary) (call : Call) : Vocabulary :=
  match call.action v with
  | .ok _ w | .error _ w => w

/-- The vocabulary that is left by calls one after the other. -/
def afterAll (v : Vocabulary) (calls : List Call) : Vocabulary := calls.foldl after v

/-- The tables agree with each other. -/
structure Consistent (v : Vocabulary) : Prop where
  /-- There are records for the numbers from zero on, without a gap. -/
  dense : ∀ {k} {id : Id k}, (∃ r, v.record id = .ok r) ↔ id.position < (v.table k).size
  /-- A name leads to the entity that is recorded under it and is not auxiliary. -/
  idOf?_iff : ∀ {k name} {id : Id k}, v.idOf? k name = some id ↔ v.record id = .ok ⟨name, false⟩
  /-- The reserved classes and properties are not auxiliary. -/
  reserved : ∀ k, k ≠ .individual → v.isAuxiliary (.ofId (.bottom : Id k)) = .ok false ∧
    v.isAuxiliary (.ofId (.top : Id k)) = .ok false
  /-- Individuals and nominal classes determine each other. -/
  nominalOf_iff : ∀ {i : IndividualId} {c : ClassId},
    v.nominalOf[i]? = some c ↔ v.memberOf[c]? = some i
  /-- The nominal class of an issued individual is an auxiliary class. -/
  nominalOf_issued : ∀ {i : IndividualId} {c : ClassId}, v.nominalOf[i]? = some c →
    v.contains i = true ∧ v.isAuxiliary c = .ok true
  inverse?_symm : ∀ {p q : PropertyId}, v.inverse? p = some q → v.inverse? q = some p
  /-- Only the reserved properties are their own inverses. -/
  inverse?_self : ∀ {p : PropertyId}, v.inverse? p = some p ↔ p = .top ∨ p = .bottom
  inverse?_issued : ∀ {p q : PropertyId}, v.inverse? p = some q →
    v.contains p = true ∧ v.contains q = true
  /-- Of two properties that are inverses of each other, the later one is auxiliary. -/
  inverse?_later : ∀ {p q : PropertyId}, v.inverse? p = some q → p.position < q.position →
    v.isAuxiliary q = .ok true

/-- What a call does: it answers with an entity that is there or that it issues, and fails
without a trace, because the entity it is about has not been issued or no number is left. -/
structure Handles (v : Vocabulary) (call : Call) : Prop where
  answers : ∀ {e w}, call.action v = .ok e w → w.contains e = true ∧ (w = v ∨ v.Issues w e)
  fails : ∀ {fault w}, call.action v = .error fault w → w = v ∧ (fault = .idsExhausted ∨
    ∃ e, call.subject? = some e ∧ v.contains e = false ∧ fault = .notIssued e)
  refuses : ∀ {e}, call.subject? = some e → v.contains e = false →
    call.action v = .error (.notIssued e) v

/-- No two entities of a kind are registered under one name. -/
theorem Consistent.eq_of_record {v : Vocabulary} {k : Kind} {a b : Id k} {name : String}
    (h : v.Consistent) (ha : v.record a = .ok ⟨name, false⟩)
    (hb : v.record b = .ok ⟨name, false⟩) : a = b :=
  Option.some.inj ((h.idOf?_iff.2 ha).symm.trans (h.idOf?_iff.2 hb))

end Vocabulary

/-! ## Names -/

namespace NameTable

variable {k : Kind} {t : NameTable k} {name : String} {r : EntityRecord}

/-- The names lead to the entities that are recorded under them and are not auxiliary. -/
def Named (t : NameTable k) : Prop :=
  ∀ name id, t.ids[name]? = some id ↔ t.record? id = some ⟨name, false⟩

theorem record?_of_push (t' : NameTable k) (h : t'.records = t.records.push r)
    (hlt : t.size < UInt32.size) (id : Id k) :
    t'.record? id = if id = t.next then some r else t.record? id := by
  have hiff : id = t.next ↔ id.position = t.records.size := by
    rw [← Id.position_inj, position_next hlt, size]
  simp only [record?, h, Array.getElem?_push, hiff]

theorem named_empty : (empty : NameTable k).Named := by
  intro name id
  simp [empty, record?]

theorem Named.push (ht : t.Named) (hlt : t.size < UInt32.size) (hr : r.auxiliary = true) :
    (t.push r).Named := by
  intro name id
  have hid : (t.push r).ids[name]? = t.ids[name]? := rfl
  rw [hid, ht name id, record?_of_push (t.push r) rfl hlt]
  split
  · next hnext =>
      have hnone : t.record? id = none := by
        rw [record?, Array.getElem?_eq_none_iff, hnext, position_next hlt]
        exact Nat.le_refl _
      have hne : r ≠ ⟨name, false⟩ := fun heq => by simp [heq] at hr
      simp [hnone, hne]
  · rfl

theorem Named.register (ht : t.Named) (hlt : t.size < UInt32.size) (hnew : t.ids[name]? = none) :
    (t.register name).Named := by
  intro name' id
  have hids : (t.register name).ids[name']? =
      if name = name' then some t.next else t.ids[name']? := by
    simp [NameTable.register, Std.TreeMap.getElem?_insert]
  rw [hids, record?_of_push (t.register name) rfl hlt]
  by_cases hname : name = name'
  · subst hname
    by_cases hid : id = t.next
    · simp [hid]
    · have hnot : t.record? id ≠ some ⟨name, false⟩ := fun h => by
        rw [(ht _ _).2 h] at hnew
        exact absurd hnew (by simp)
      simp [hid, hnot, Ne.symm hid]
  · by_cases hid : id = t.next
    · have hnot : t.ids[name']? ≠ some id := fun h => by
        have hposition : id.position < t.size :=
          (Array.getElem?_eq_some_iff.1 ((ht _ _).1 h)).1
        rw [hid, position_next hlt] at hposition
        exact absurd hposition (Nat.lt_irrefl _)
      rw [if_neg hname, if_pos hid]
      simp [hnot, hname]
    · rw [if_neg hname, if_neg hid]
      exact ht name' id

end NameTable

namespace Vocabulary

/-! ## What the actions keep -/

/-- What is kept besides well-formedness: names lead to the entities registered under them, and
an inverse is minted after the property that it is of. -/
structure Ordered (v : Vocabulary) : Prop where
  named : ∀ k, (v.table k).Named
  later : ∀ {p q : PropertyId}, v.inverses[p]? = some q →
    p ≠ q ∧ (p.position < q.position → v.isAuxiliary q = .ok true)

variable {v w : Vocabulary} {k : Kind} {e : Entity}

theorem Ordered.idOf?_iff (h : v.Ordered) {name : String} {id : Id k} :
    v.idOf? k name = some id ↔ v.record id = .ok ⟨name, false⟩ :=
  (h.named k name id).trans (record_eq_ok (e := .ofId id)).symm

theorem consistent_of_ordered (hv : v.WellFormed) (h : v.Ordered) : v.Consistent where
  dense := contains_iff.symm.trans contains_ofId
  idOf?_iff := h.idOf?_iff
  reserved k hk := ⟨hv.bottom k hk, hv.top k hk⟩
  nominalOf_iff := hv.member_iff.symm
  nominalOf_issued hc := ⟨hv.nominal_individual hc, hv.nominal_auxiliary hc⟩
  inverse?_symm := hv.inverse?_symm
  inverse?_self {p} := by
    unfold inverse?
    split
    · next hp => simpa using hp
    · next hp => exact iff_of_false (fun hself => (h.later hself).1 rfl) hp
  inverse?_issued := hv.inverse?_contains
  inverse?_later {p q} hq hlt := by
    unfold inverse? at hq
    split at hq
    · rw [Option.some.inj hq] at hlt
      exact absurd hlt (Nat.lt_irrefl _)
    · exact (h.later hq).2 hlt

theorem ordered_initial : initial.Ordered where
  named k := by
    have hregister : ∀ {k : Kind} {first second : String}, first ≠ second →
        ((NameTable.empty.register first).register second : NameTable k).Named := by
      intro k first second hne
      refine (NameTable.named_empty.register (show 0 < UInt32.size by decide)
        (by simp [NameTable.empty])).register (show 1 < UInt32.size by decide) ?_
      simp [NameTable.register, NameTable.empty, hne]
    cases k with
    | cls => exact hregister (by decide)
    | property => exact hregister (by decide)
    | individual => exact NameTable.named_empty
  later h := by simp [initial] at h

theorem Ordered.modifyTable (hv : v.Ordered) {f : NameTable k → NameTable k}
    (hf : (f (v.table k)).Named) (hgrow : v.Extends (v.modifyTable f)) :
    (v.modifyTable f).Ordered where
  named l := by
    by_cases hl : l = k
    · subst hl
      rwa [table_modifyTable_self]
    · rw [table_modifyTable_of_ne f hl]
      exact hv.named l
  later hq := by
    obtain ⟨hne, hlater⟩ := hv.later (by simpa using hq)
    exact ⟨hne, fun hlt => hgrow.isAuxiliary (hlater hlt)⟩

end Vocabulary

namespace Minting

open OwlEl.Vocabulary

variable {v w : Vocabulary} {k : Kind}

theorem register_ordered {name : String} {id : Id k} (hv : v.WellFormed) (hordered : v.Ordered)
    (h : register k name v = .ok id w) :
    w.Ordered ∧ w.contains (.ofId id) = true ∧ (w = v ∨ v.Issues w (.ofId id)) := by
  obtain ⟨hgrow, -⟩ := register_grows hv h
  simp only [register, bind_eq_ok, get_eq_ok] at h
  obtain ⟨_, _, ⟨rfl, rfl⟩, h⟩ := h
  cases hid : v.idOf? k name with
  | some id' =>
      simp only [hid, pure_eq_ok] at h
      obtain ⟨rfl, rfl⟩ := h
      exact ⟨hordered, contains_iff.2 ⟨_, hordered.idOf?_iff.1 hid⟩, .inl rfl⟩
  | none =>
      simp only [hid, bind_eq_ok, next_eq_ok, modify_eq_ok, pure_eq_ok] at h
      obtain ⟨_, _, ⟨hlt, rfl, rfl⟩, _, _, rfl, rfl, rfl⟩ := h
      have hlt' := hv.size_lt k
      refine ⟨hordered.modifyTable ((hordered.named k).register hlt' hid) hgrow, ?_,
        .inr (issues_modifyTable (r := ⟨name, false⟩) rfl hlt')⟩
      refine contains_iff.2 ⟨⟨name, false⟩, ?_⟩
      rw [record_modifyTable (r := ⟨name, false⟩) rfl hlt', if_pos rfl]

theorem mint_ordered {name : Id k → String} {id : Id k} (hv : v.WellFormed) (hordered : v.Ordered)
    (h : mint k name v = .ok id w) : w.Ordered := by
  have hgrow := (mint_mints hv h).grows
  simp only [mint, bind_eq_ok, next_eq_ok, modify_eq_ok, pure_eq_ok] at h
  obtain ⟨_, _, ⟨hlt, rfl, rfl⟩, _, _, rfl, rfl, rfl⟩ := h
  exact hordered.modifyTable ((hordered.named k).push (hv.size_lt k) rfl) hgrow

/-- To mint an entity that is named after another one is to mint it and to note what it is. -/
theorem mintAfter_eq_ok {e : Entity} {text : String → Id k → String}
    {note : Id k → Vocabulary → Vocabulary} {id : Id k} :
    (do
      let name ← ofExcept ((← get).nameOf e)
      let id ← mint k (text name)
      modify (note id)
      return id : Minting (Id k)) v = .ok id w ↔
      ∃ name u, v.nameOf e = .ok name ∧ mint k (text name) v = .ok id u ∧ note id u = w := by
  simp only [bind_eq_ok, get_eq_ok, ofExcept_eq_ok, modify_eq_ok, pure_eq_ok]
  constructor
  · rintro ⟨_, _, ⟨rfl, rfl⟩, name, _, ⟨hname, rfl⟩, _, u, hmint, _, _, hnote, rfl, rfl⟩
    exact ⟨name, u, hname, hmint, hnote⟩
  · rintro ⟨name, u, hname, hmint, hnote⟩
    exact ⟨v, v, ⟨rfl, rfl⟩, name, v, ⟨hname, rfl⟩, id, u, hmint, ⟨⟩, w, hnote, rfl, rfl⟩

theorem nominalOf_ordered {i : IndividualId} {c : ClassId} (hv : v.WellFormed)
    (hordered : v.Ordered) (h : nominalOf i v = .ok c w) :
    w.Ordered ∧ w.contains c = true ∧ (w = v ∨ v.Issues w c) := by
  obtain ⟨-, hw, hc⟩ := nominalOf_grows hv h
  refine (and_left_comm.1 ⟨hw.nominal_contains hc, ?_⟩)
  simp only [nominalOf, bind_eq_ok, get_eq_ok] at h
  obtain ⟨_, _, ⟨rfl, rfl⟩, h⟩ := h
  cases hlookup : v.nominalOf[i]? with
  | some c' =>
      simp only [hlookup, pure_eq_ok] at h
      obtain ⟨-, rfl⟩ := h
      exact ⟨hordered, .inl rfl⟩
  | none =>
      simp only [hlookup] at h
      obtain ⟨name, u, -, hmint, rfl⟩ := mintAfter_eq_ok.1 h
      have hu := mint_ordered hv hordered hmint
      have hissues := (mint_mints hv hmint).issues
      exact ⟨⟨hu.named, hu.later⟩, .inr ⟨hissues.position, hissues.size, hissues.others⟩⟩

theorem inverseOf_ordered {p q : PropertyId} (hv : v.WellFormed) (hordered : v.Ordered)
    (h : inverseOf p v = .ok q w) :
    w.Ordered ∧ w.contains q = true ∧ (w = v ∨ v.Issues w q) := by
  obtain ⟨-, hw, hq⟩ := inverseOf_grows hv h
  refine (and_left_comm.1 ⟨(hw.inverse?_contains hq).2, ?_⟩)
  simp only [inverseOf, bind_eq_ok, get_eq_ok] at h
  obtain ⟨_, _, ⟨rfl, rfl⟩, h⟩ := h
  cases hlookup : v.inverse? p with
  | some q' =>
      simp only [hlookup, pure_eq_ok] at h
      obtain ⟨-, rfl⟩ := h
      exact ⟨hordered, .inl rfl⟩
  | none =>
      simp only [hlookup] at h
      obtain ⟨name, u, hname, hmint, rfl⟩ := mintAfter_eq_ok.1 h
      have hu := mint_ordered hv hordered hmint
      have hmints := mint_mints hv hmint
      have hissues := hmints.issues
      have hp : v.contains p = true := contains_of_nameOf hname
      -- the new number is the size of the table, which all numbers before are below
      have hlt : p.position < q.position :=
        Nat.lt_of_lt_of_eq (contains_ofId.1 hp) hissues.position.symm
      refine ⟨⟨hu.named, ?_⟩, .inr ⟨hissues.position, hissues.size, hissues.others⟩⟩
      intro r s hrs
      have hpairs : p = r ∧ q = s ∨ q = r ∧ p = s ∨ u.inverses[r]? = some s := by
        grind
      rcases hpairs with ⟨rfl, rfl⟩ | ⟨rfl, rfl⟩ | hrs
      · exact ⟨(hmints.ne hp).symm, fun _ => hmints.auxiliary⟩
      · exact ⟨hmints.ne hp, fun hlt' => absurd hlt' (Nat.lt_asymm hlt)⟩
      · exact hu.later hrs

end Minting

/-! ## Series of calls -/

namespace Call

open OwlEl.Vocabulary Minting

variable {v w : Vocabulary} {call : Call} {e : Entity} {fault : Fault}

theorem action_eq_ok (hv : v.WellFormed) (hordered : v.Ordered)
    (h : call.action v = .ok e w) :
    v.Extends w ∧ w.WellFormed ∧ w.Ordered ∧ w.contains e = true ∧ (w = v ∨ v.Issues w e) := by
  cases call <;> simp only [action, bind_eq_ok, pure_eq_ok] at h <;>
    obtain ⟨id, _, h, rfl, rfl⟩ := h
  case register =>
    obtain ⟨hgrow, hw⟩ := register_grows hv h
    exact ⟨hgrow, hw, register_ordered hv hordered h⟩
  case freshClass | freshProperty =>
    have hmints := mint_mints hv h
    exact ⟨hmints.grows, hmints.wellFormed, mint_ordered hv hordered h,
      contains_of_isAuxiliary hmints.auxiliary, .inr hmints.issues⟩
  case nominalOf =>
    obtain ⟨hgrow, hw, -⟩ := nominalOf_grows hv h
    exact ⟨hgrow, hw, nominalOf_ordered hv hordered h⟩
  case inverseOf =>
    obtain ⟨hgrow, hw, -⟩ := inverseOf_grows hv h
    exact ⟨hgrow, hw, inverseOf_ordered hv hordered h⟩

theorem action_eq_error (h : call.action v = .error fault w) :
    w = v ∧ (fault = .idsExhausted ∨
      ∃ e, call.subject? = some e ∧ v.contains e = false ∧ fault = .notIssued e) := by
  have hrefuses : ∀ {k e}, call.subject? = some e → v.Refuses k e fault →
      fault = .idsExhausted ∨
        ∃ e, call.subject? = some e ∧ v.contains e = false ∧ fault = .notIssued e := by
    intro k e hsubject hrefuses
    cases hrefuses with
    | notIssued he => exact .inr ⟨e, hsubject, he, rfl⟩
    | idsExhausted _ _ => exact .inl rfl
  cases call <;> simp only [action, bind_eq_error, pure_eq_error, and_false, exists_false,
    or_false] at h
  case register =>
    obtain ⟨-, -, rfl, rfl⟩ := register_eq_error.1 h
    exact ⟨rfl, .inl rfl⟩
  case freshClass | freshProperty =>
    obtain ⟨-, rfl, rfl⟩ := mint_eq_error.1 h
    exact ⟨rfl, .inl rfl⟩
  case nominalOf =>
    obtain ⟨-, hrefused, rfl⟩ := nominalOf_eq_error.1 h
    exact ⟨rfl, hrefuses rfl hrefused⟩
  case inverseOf =>
    obtain ⟨-, hrefused, rfl⟩ := inverseOf_eq_error.1 h
    exact ⟨rfl, hrefuses rfl hrefused⟩

/-- What a call is about has to be there. -/
theorem action_of_not_contains (hv : v.WellFormed) (hsubject : call.subject? = some e)
    (he : v.contains e = false) : call.action v = .error (.notIssued e) v := by
  cases call with
  | register | freshClass | freshProperty => exact absurd hsubject (by simp [subject?])
  | nominalOf i =>
      obtain rfl := Option.some.inj hsubject
      have hnone : v.nominalOf[i]? = none := by
        by_contra hne
        obtain ⟨c, hc⟩ := Option.ne_none_iff_exists'.1 hne
        exact absurd (hv.nominal_individual hc) (Bool.eq_false_iff.1 he)
      exact bind_eq_error.2 (.inl (nominalOf_eq_error.2 ⟨hnone, .notIssued he, rfl⟩))
  | inverseOf p =>
      obtain rfl := Option.some.inj hsubject
      have hnone : v.inverse? p = none := by
        by_contra hne
        obtain ⟨q, hq⟩ := Option.ne_none_iff_exists'.1 hne
        exact absurd (hv.inverse?_contains hq).1 (Bool.eq_false_iff.1 he)
      exact bind_eq_error.2 (.inl (inverseOf_eq_error.2 ⟨hnone, .notIssued he, rfl⟩))

end Call

namespace Vocabulary

variable {v w : Vocabulary}

theorem handles (hv : v.WellFormed) (hordered : v.Ordered) (call : Call) : v.Handles call where
  answers h := (Call.action_eq_ok hv hordered h).2.2.2
  fails h := Call.action_eq_error h
  refuses := Call.action_of_not_contains hv

/-- A call keeps what there is, and keeps it in order. -/
theorem after_grows (hv : v.WellFormed) (hordered : v.Ordered) (call : Call) :
    v.Extends (v.after call) ∧ (v.after call).WellFormed ∧ (v.after call).Ordered := by
  unfold after
  cases h : call.action v with
  | ok e w =>
      obtain ⟨hgrow, hw, hordered', -⟩ := Call.action_eq_ok hv hordered h
      exact ⟨hgrow, hw, hordered'⟩
  | error fault w =>
      obtain ⟨rfl, -⟩ := Call.action_eq_error h
      exact ⟨.refl _, hv, hordered⟩

/-- A series of calls keeps what there is, and keeps it in order. -/
theorem afterAll_grows (hv : v.WellFormed) (hordered : v.Ordered) (calls : List Call) :
    v.Extends (v.afterAll calls) ∧ (v.afterAll calls).WellFormed ∧
      (v.afterAll calls).Ordered := by
  induction calls generalizing v with
  | nil => exact ⟨.refl v, hv, hordered⟩
  | cons call calls ih =>
      obtain ⟨hgrow, hv', hordered'⟩ := after_grows hv hordered call
      obtain ⟨hgrow', hrest⟩ := ih hv' hordered'
      exact ⟨hgrow.trans hgrow', hrest⟩

theorem afterAll_append (calls more : List Call) :
    v.afterAll (calls ++ more) = (v.afterAll calls).afterAll more := List.foldl_append

/-- After every series of calls the tables agree with each other and a name belongs to one
entity; further calls keep what there is; and every call is handled. -/
theorem afterAll_consistent (calls : List Call) :
    (initial.afterAll calls).Consistent ∧
      (∀ (k : Kind) (a b : Id k) (name : String),
        (initial.afterAll calls).record a = .ok ⟨name, false⟩ →
        (initial.afterAll calls).record b = .ok ⟨name, false⟩ → a = b) ∧
      (∀ more, (initial.afterAll calls).Extends (initial.afterAll (calls ++ more))) ∧
      ∀ call, (initial.afterAll calls).Handles call := by
  obtain ⟨-, hv, hordered⟩ := afterAll_grows wellFormed_initial ordered_initial calls
  have hconsistent := consistent_of_ordered hv hordered
  refine ⟨hconsistent, fun _ _ _ _ => hconsistent.eq_of_record, fun more => ?_,
    handles hv hordered⟩
  rw [afterAll_append]
  exact (afterAll_grows hv hordered more).1

theorem after_of_ok {call : Call} {k : Kind} {m : Minting (Id k)} {id : Id k}
    (haction : call.action = do return .ofId (← m)) (h : m v = .ok id w) : v.after call = w := by
  have hok : call.action v = .ok (.ofId id) w := by
    rw [haction]
    exact Minting.bind_eq_ok.2 ⟨id, w, h, rfl⟩
  rw [after, hok]

theorem Reachable.after (hv : v.Reachable) (call : Call) : (v.after call).Reachable := by
  unfold Vocabulary.after
  cases h : call.action v with
  | error fault w =>
      obtain ⟨rfl, -⟩ := Call.action_eq_error h
      exact hv
  | ok e w =>
      cases call <;> simp only [Call.action, Minting.bind_eq_ok, Minting.pure_eq_ok] at h <;>
        obtain ⟨id, _, h, rfl, rfl⟩ := h
      case register => exact .register hv h
      case freshClass => exact .freshClass hv h
      case freshProperty => exact .freshProperty hv h
      case nominalOf => exact .nominalOf hv h
      case inverseOf => exact .inverseOf hv h

/-- The vocabularies that series of calls lead to are the reachable ones. -/
theorem reachable_iff : v.Reachable ↔ ∃ calls, initial.afterAll calls = v := by
  constructor
  · have hsnoc : ∀ {u w : Vocabulary} (call : Call), (∃ calls, initial.afterAll calls = u) →
        u.after call = w → ∃ calls, initial.afterAll calls = w := by
      rintro u w call ⟨calls, rfl⟩ hw
      exact ⟨calls ++ [call], (afterAll_append calls [call]).trans hw⟩
    intro h
    induction h with
    | initial => exact ⟨[], rfl⟩
    | register _ h ih => exact hsnoc (.register _ _) ih (after_of_ok rfl h)
    | freshClass _ h ih => exact hsnoc .freshClass ih (after_of_ok rfl h)
    | freshProperty _ h ih => exact hsnoc .freshProperty ih (after_of_ok rfl h)
    | nominalOf _ h ih => exact hsnoc (.nominalOf _) ih (after_of_ok rfl h)
    | inverseOf _ h ih => exact hsnoc (.inverseOf _) ih (after_of_ok rfl h)
  · rintro ⟨calls, rfl⟩
    exact List.foldlRecOn calls Vocabulary.after .initial fun _ hv call _ => hv.after call

end Vocabulary

end OwlEl
