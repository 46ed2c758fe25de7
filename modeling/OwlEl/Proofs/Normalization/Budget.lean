import Mathlib.Data.Finset.Card
import OwlEl.Proofs.Normalization.Totality

/-!
# What the normalization of inclusions mints

Each part of an inclusion that is not a named class pays for one class. A pending inclusion has a
budget: one class for each nominal in it, and one for each intersection and each restriction except
one, which stays in the normal form. Whatever rule is taken, the budget pays for the class that is
minted and for the budgets of the axioms in the place of the inclusion: `inclusionRules_pays`.
Properties are minted only when a normal form is read off, as inverses of what the inclusions
invert: `toNormal_pays`.

So what is spent and what the pending axioms may still spend never grows along a run
(`drain_pays`), and no more classes are minted than there are parts that are not named, and no more
properties than are inverted: `normalize_mints_linearly`.
-/

namespace OwlEl

/-! ## Counting the parts of an expression -/

namespace ClassExpr

/-- The parts of the expression that are not named classes, counted with multiplicities: an
intersection or a restriction counts for the first number and a nominal for the second. -/
def count (onConnective onNominal : Nat) : ClassExpr → Nat :=
  fold
    { named := fun _ => 0
      intersection := fun operands => onConnective + totalWeight operands
      existential := fun _ filler => onConnective + filler
      oneOf := fun _ => onNominal }

/-- The number of parts of the expression that are not named classes. -/
def compounds : ClassExpr → Nat := count 1 1

variable {x y : Nat} {e : ClassExpr} {operands : List ClassExpr}

@[simp] theorem count_named (c : ClassId) : (named c).count x y = 0 := rfl

@[simp] theorem count_intersection (operands : List ClassExpr) :
    (intersection operands).count x y = x + totalWeight (operands.map (count x y)) := by
  simp [count, fold_intersection]

@[simp] theorem count_existential (r : PropertyExpr) (filler : ClassExpr) :
    (existential r filler).count x y = x + filler.count x y := rfl

theorem count_add (x y x' y' : Nat) (e : ClassExpr) :
    e.count (x + x') (y + y') = e.count x y + e.count x' y' := by
  induction e using ClassExpr.induction with
  | named c => rfl
  | intersection operands ih =>
      have hsum : totalWeight (operands.map (count (x + x') (y + y'))) =
          totalWeight (operands.map (count x y)) + totalWeight (operands.map (count x' y')) := by
        rw [← totalWeight_add, List.map_congr_left ih]
      simp only [count_intersection, hsum]
      omega
  | existential r filler ih =>
      simp only [count_existential, ih]
      omega
  | oneOf i => rfl

/-- The connectives and the nominals are counted apart. -/
theorem compounds_eq (e : ClassExpr) : e.compounds = e.count 1 0 + e.count 0 1 :=
  count_add 1 0 0 1 e

/-- The operands are a set, so some may fall together. -/
theorem count_and_le (operands : List ClassExpr) :
    (ClassExpr.and operands).count x y ≤ x + totalWeight (operands.map (count x y)) := by
  rw [ClassExpr.and, count_intersection]
  apply Nat.add_le_add_left
  exact totalWeight_subset (isAscending_ascending operands).nodup fun _ he => mem_ascending.1 he

theorem le_count_and (operands : List ClassExpr) : x ≤ (ClassExpr.and operands).count x y := by
  rw [ClassExpr.and, count_intersection]
  exact Nat.le_add_right x _

theorem count_nominal_eq_zero (h : e.containsNominal = false) : e.count 0 1 = 0 := by
  induction e using ClassExpr.induction with
  | named c => rfl
  | intersection operands ih =>
      have hzero : operands.map (count 0 1) = operands.map fun _ => 0 :=
        List.map_congr_left fun e he => ih e he (containsNominal_intersection.1 h e he)
      rw [count_intersection, hzero, totalWeight_const, Nat.zero_mul]
  | existential r filler ih =>
      calc (existential r filler).count 0 1 = 0 + filler.count 0 1 := count_existential r filler
        _ = 0 := by rw [ih h]
  | oneOf i => exact absurd h.symm Bool.false_ne_true

theorem one_le_count_connective (h : e.isNamed = false) (hfree : e.containsNominal = false) :
    1 ≤ e.count 1 0 := by
  cases e with
  | named c => exact absurd h (by simp)
  | intersection operands =>
      rw [count_intersection]
      omega
  | existential r filler =>
      rw [count_existential]
      omega
  | oneOf i => exact absurd hfree.symm Bool.false_ne_true

end ClassExpr

/-! ## Inverted properties -/

/-- The property, if the expression is the inverse of one. -/
def PropertyExpr.inverted : PropertyExpr → List PropertyId
  | .named _ => []
  | .inverseOf p => [p]

namespace ClassExpr

/-- The properties whose inverses the expression mentions, one for each mention. -/
def inverted : ClassExpr → List PropertyId :=
  fold
    { named := fun _ => []
      intersection := List.flatten
      existential := fun r filler => r.inverted ++ filler
      oneOf := fun _ => [] }

/-- The expression inverts no properties but these. -/
def InvertsOnly (P : Finset PropertyId) (e : ClassExpr) : Prop := ∀ p ∈ e.inverted, p ∈ P

variable {P : Finset PropertyId} {operands : List ClassExpr}

@[simp] theorem invertsOnly_named (c : ClassId) : (named c).InvertsOnly P := nofun

@[simp] theorem invertsOnly_intersection :
    (intersection operands).InvertsOnly P ↔ ∀ e ∈ operands, e.InvertsOnly P := by
  have hinverted : (intersection operands).inverted = (operands.map inverted).flatten :=
    fold_intersection ..
  simp only [InvertsOnly, hinverted, ← List.flatMap_def, List.mem_flatMap]
  constructor
  · exact fun h e he p hp => h p ⟨e, he, hp⟩
  · rintro h p ⟨e, he, hp⟩
    exact h e he p hp

@[simp] theorem invertsOnly_existential {r : PropertyExpr} {filler : ClassExpr} :
    (existential r filler).InvertsOnly P ↔ (∀ p ∈ r.inverted, p ∈ P) ∧ filler.InvertsOnly P :=
  List.forall_mem_append

@[simp] theorem invertsOnly_and :
    (ClassExpr.and operands).InvertsOnly P ↔ ∀ e ∈ operands, e.InvertsOnly P := by
  simp only [ClassExpr.and, invertsOnly_intersection, mem_ascending]

end ClassExpr

/-- An inclusion that inverts no properties but these, or a normal form. -/
def Axiom.IsWithin (P : Finset PropertyId) : Axiom → Prop
  | .subClassOf c d => c.InvertsOnly P ∧ d.InvertsOnly P
  | .normal _ => True
  | _ => False

namespace Normalization

open Minting Ledger

variable {v w : Vocabulary} {P : Finset PropertyId} {c d e : ClassExpr} {a : Axiom}
  {m : Replacement} {n : Nat} {x y : Nat} {operands : List ClassExpr}

/-! ## The accounts -/

/-- How many of the properties have no inverse yet. -/
def unpaired (P : Finset PropertyId) (v : Vocabulary) : Nat := (P.filter (v.inverse? · = none)).card

theorem unpaired_le_card (P : Finset PropertyId) (v : Vocabulary) : unpaired P v ≤ P.card :=
  Finset.card_filter_le P _

theorem filter_unpaired_subset (h : v.Extends w) :
    P.filter (w.inverse? · = none) ⊆ P.filter (v.inverse? · = none) := by
  apply Finset.monotone_filter_right
  intro p _ hw
  by_contra hne
  obtain ⟨q, hq⟩ := Option.ne_none_iff_exists'.1 hne
  rw [h.inverse? hq] at hw
  exact absurd hw (by simp)

theorem unpaired_mono (h : v.Extends w) : unpaired P w ≤ unpaired P v :=
  Finset.card_le_card (filter_unpaired_subset h)

/-- A property that gets its inverse is unpaired no longer. -/
theorem unpaired_lt {p q : PropertyId} (h : v.Extends w) (hp : p ∈ P) (hv : v.inverse? p = none)
    (hw : w.inverse? p = some q) : unpaired P w < unpaired P v := by
  apply Finset.card_lt_card
  rw [Finset.ssubset_iff_of_subset (filter_unpaired_subset h)]
  refine ⟨p, Finset.mem_filter.2 ⟨hp, hv⟩, fun hmem => ?_⟩
  rw [(Finset.mem_filter.1 hmem).2] at hw
  exact absurd hw (by simp)

/-- A unit of the budget pays for a class. An inverse is paid for by the property that it is of, and
individuals are not minted. -/
def inclusionLedger (P : Finset PropertyId) : Ledger where
  spent
    | .cls, v => v.classes.size
    | .property, v => v.properties.size + unpaired P v
    | .individual, v => v.individuals.size
  share
    | .cls => 1
    | .property | .individual => 0

@[simp] theorem used_cls : (inclusionLedger P).used .cls n v = v.classes.size + n :=
  congrArg (v.classes.size + ·) (Nat.one_mul n)

@[simp] theorem used_property :
    (inclusionLedger P).used .property n v = v.properties.size + unpaired P v :=
  congrArg (v.properties.size + unpaired P v + ·) (Nat.zero_mul n)

@[simp] theorem used_individual :
    (inclusionLedger P).used .individual n v = v.individuals.size :=
  congrArg (v.individuals.size + ·) (Nat.zero_mul n)

/-- A new class takes a unit of the budget. -/
theorem used_of_issues {u : Vocabulary} {c : ClassId} (hvw : v.Extends w)
    (hvu : v.Issues u (.ofId c)) (htable : ∀ k, w.table k = u.table k) (k : Kind) :
    (inclusionLedger P).used k n w ≤ (inclusionLedger P).used k (n + 1) v := by
  have hunpaired := unpaired_mono (P := P) hvw
  cases k with
  | cls =>
      have hsize : w.classes.size = v.classes.size + 1 :=
        (congrArg NameTable.size (htable .cls)).trans hvu.size
      simp only [used_cls]
      omega
  | property =>
      have hproperties : w.properties = v.properties :=
        (htable .property).trans (hvu.others .property (show Kind.property ≠ .cls by decide))
      simp only [used_property, hproperties]
      omega
  | individual =>
      have hindividuals : w.individuals = v.individuals :=
        (htable .individual).trans (hvu.others .individual (show Kind.individual ≠ .cls by decide))
      simp only [used_individual, hindividuals]
      exact Nat.le_refl _

theorem exists_used_of_isFull (h : v.IsFull .cls) :
    ∃ k, UInt32.size ≤ (inclusionLedger P).used k (n + 1) v := by
  have hfull : UInt32.size - 1 ≤ v.classes.size := h
  refine ⟨.cls, ?_⟩
  rw [used_cls]
  omega

theorem freshClass_covers (hv : v.WellFormed) :
    (inclusionLedger P).Covers (n + 1) (fun _ => n) freshClass v where
  leaves hm := by
    have hmints := mint_mints hv hm
    exact used_of_issues hmints.grows hmints.issues fun _ => rfl
  fails hm := by
    obtain ⟨hfull, hfault, -⟩ := mint_eq_error.1 hm
    exact ⟨hfault, exists_used_of_isFull hfull⟩

theorem nominalOf_covers {i : IndividualId} (hv : v.WellFormed) (hi : v.contains i = true) :
    (inclusionLedger P).Covers (n + 1) (fun _ => n) (nominalOf i) v where
  leaves hm k := by
    obtain ⟨hgrow, -, -⟩ := nominalOf_grows hv hm
    rcases nominalOf_eq_ok hv hm with ⟨rfl, -⟩ | ⟨-, -, u, hu, rfl⟩
    · exact used_mono (Nat.le_succ n)
    · exact used_of_issues hgrow hu.issues (fun k => by cases k <;> rfl) k
  fails hm := by
    obtain ⟨-, hrefuses, -⟩ := nominalOf_eq_error.1 hm
    obtain ⟨hfault, hfull⟩ := hrefuses.eq_idsExhausted hi
    exact ⟨hfault, exists_used_of_isFull hfull⟩

theorem inverseOf_covers {p : PropertyId} (hv : v.WellFormed) (hcontains : v.contains p = true)
    (hp : p ∈ P) : (inclusionLedger P).Covers n (fun _ => n) (inverseOf p) v where
  leaves hm k := by
    obtain ⟨hgrow, -, hq⟩ := inverseOf_grows hv hm
    rcases inverseOf_eq_ok hv hm with ⟨rfl, -⟩ | ⟨hnone, -, u, hu, rfl⟩
    · exact Nat.le_refl _
    · have hlt := unpaired_lt hgrow hp hnone hq
      have hclasses : u.classes = v.classes :=
        hu.issues.others .cls (show Kind.cls ≠ .property by decide)
      have hindividuals : u.individuals = v.individuals :=
        hu.issues.others .individual (show Kind.individual ≠ .property by decide)
      have hsize : u.properties.size = v.properties.size + 1 := hu.issues.size
      cases k with
      | cls => simp only [used_cls, hclasses, Nat.le_refl]
      | property =>
          simp only [used_property]
          omega
      | individual => simp only [used_individual, hindividuals, Nat.le_refl]
  fails hm := by
    obtain ⟨hnone, hrefuses, -⟩ := inverseOf_eq_error.1 hm
    obtain ⟨hfault, hfull⟩ := hrefuses.eq_idsExhausted hcontains
    have hfull : UInt32.size - 1 ≤ v.properties.size := hfull
    have hpos : 0 < unpaired P v := Finset.card_pos.2 ⟨p, Finset.mem_filter.2 ⟨hp, hnone⟩⟩
    refine ⟨hfault, .property, ?_⟩
    rw [used_property]
    omega

theorem resolve_covers {r : PropertyExpr} (hv : v.WellFormed)
    (hcontains : v.contains r.property = true) (hr : ∀ p ∈ r.inverted, p ∈ P) :
    (inclusionLedger P).Covers n (fun _ => n) (resolve r) v := by
  cases r with
  | named p => exact covers_pure (Nat.le_refl n)
  | inverseOf p => exact inverseOf_covers hv hcontains (hr p (List.mem_singleton.2 rfl))

/-! ## Expressions -/

/-- Each nominal pays for its class. -/
theorem nameNominals_covers (hv : v.WellFormed) (he : e.IsOver (v.contains ·)) :
    (inclusionLedger P).Covers (e.count 0 1) (fun _ => 0) (nameNominals e) v := by
  induction e using ClassExpr.induction generalizing v with
  | named c => exact covers_pure (Nat.le_refl 0)
  | intersection operands ih =>
      have hoperands : (inclusionLedger P).Covers (totalWeight (operands.map (ClassExpr.count 0 1)))
          (fun rs => totalWeight (rs.map fun _ => 0)) (operands.mapM nameNominals) v := by
        apply covers_mapM (ClassExpr.count 0 1) (fun _ => 0)
          (P := fun v => v.WellFormed ∧ ∀ e ∈ operands, e.IsOver (v.contains ·))
        · exact fun e hmem _ hgood => ih e hmem hgood.1 (hgood.2 e hmem)
        · intro e hmem _ _ _ hgood hrun
          obtain ⟨hgrow, hw⟩ := (nameNominals_onlyMints hrun).grows hgood.1
          exact ⟨hw, fun e' he' => (hgood.2 e' he').of_extends hgrow⟩
        · exact ⟨hv, ClassExpr.isOver_intersection.1 he⟩
      rw [nameNominals_intersection, ClassExpr.count_intersection, Nat.zero_add]
      exact covers_bind hoperands fun _ _ _ => covers_pure (Nat.zero_le _)
  | existential r filler ih =>
      have hfiller : (inclusionLedger P).Covers (filler.count 0 1) (fun _ => 0)
          (nameNominals filler) v := ih hv (ClassExpr.isOver_existential.1 he).2
      rw [ClassExpr.count_existential, Nat.zero_add]
      exact covers_bind hfiller fun _ _ _ => covers_pure (Nat.le_refl 0)
  | oneOf i =>
      exact covers_bind (nominalOf_covers hv (ClassExpr.isOver_oneOf.1 he))
        fun _ _ _ => covers_pure (Nat.le_refl 0)

theorem nameNominals_count_le {named : ClassExpr × List NormalAxiom}
    (h : nameNominals e v = .ok named w) : named.1.count 1 0 ≤ e.count 1 0 := by
  refine nameNominals_relates (R := fun e e' => e'.count 1 0 ≤ e.count 1 0) ?_ ?_ ?_ ?_ h
  · exact fun _ => Nat.le_refl 0
  · intro es es' hall
    calc (ClassExpr.and es').count 1 0
        ≤ 1 + totalWeight (es'.map (ClassExpr.count 1 0)) := ClassExpr.count_and_le es'
      _ ≤ 1 + totalWeight (es.map (ClassExpr.count 1 0)) :=
          Nat.add_le_add_left (totalWeight_forall₂ hall) 1
      _ = (ClassExpr.intersection es).count 1 0 := (ClassExpr.count_intersection es).symm
  · exact fun h => Nat.add_le_add_left h 1
  · exact fun _ _ => Nat.le_refl 0

theorem nameNominals_invertsOnly {named : ClassExpr × List NormalAxiom}
    (h : nameNominals e v = .ok named w) (he : e.InvertsOnly P) : named.1.InvertsOnly P := by
  refine nameNominals_relates (R := fun e e' => e.InvertsOnly P → e'.InvertsOnly P)
    ?_ ?_ ?_ ?_ h he
  · exact fun _ hc => hc
  · intro es es' hall hes
    rw [ClassExpr.invertsOnly_intersection] at hes
    rw [ClassExpr.invertsOnly_and]
    induction hall with
    | nil => exact nofun
    | cons hee' _ ih =>
        rw [List.forall_mem_cons] at hes ⊢
        exact ⟨hee' hes.1, ih hes.2⟩
  · intro r e e' hee' h
    rw [ClassExpr.invertsOnly_existential] at h ⊢
    exact ⟨h.1, hee' h.2⟩
  · exact fun _ _ _ => ClassExpr.invertsOnly_named _

theorem count_getD_sole? (e : ClassExpr) : ((sole? e).getD e).count x y ≤ e.count x y := by
  rcases e with c | (_ | ⟨e, _ | ⟨e', es⟩⟩) | ⟨r, filler⟩ | i
  · exact Nat.le_refl _
  · exact Nat.zero_le _
  · simp [sole?]
  · exact Nat.le_refl _
  · exact Nat.le_refl _
  · exact Nat.le_refl _

theorem count_flatten_singleton_le (e : ClassExpr) :
    totalWeight ((flatten [e]).map (ClassExpr.count x y)) ≤ e.count x y := by
  cases e with
  | intersection inner =>
      have hinner : flatten [.intersection inner] = inner := List.append_nil inner
      rw [hinner, ClassExpr.count_intersection]
      exact Nat.le_add_left _ x
  | named | existential | oneOf => exact Nat.le_refl _

/-- To dissolve inner intersections adds nothing. -/
theorem count_flatten_le (operands : List ClassExpr) :
    (ClassExpr.and (flatten operands)).count x y ≤ (ClassExpr.intersection operands).count x y := by
  have hflatten : flatten operands = operands.flatMap fun e => flatten [e] := by
    simp only [flatten, List.flatMap_singleton]
  calc (ClassExpr.and (flatten operands)).count x y
      ≤ x + totalWeight ((flatten operands).map (ClassExpr.count x y)) := ClassExpr.count_and_le _
    _ ≤ x + totalWeight (operands.map (ClassExpr.count x y)) := by
        rw [hflatten, totalWeight_flatMap]
        exact Nat.add_le_add_left (totalWeight_mono fun e _ => count_flatten_singleton_le e) x
    _ = (ClassExpr.intersection operands).count x y := (ClassExpr.count_intersection operands).symm

/-- To name an operand takes its parts out of the intersection. -/
theorem count_nameOperand_le (fresh : ClassId) (he : e ∈ operands) :
    e.count x y + (ClassExpr.and (.named fresh :: operands.filter (· ≠ e))).count x y ≤
      (ClassExpr.intersection operands).count x y := by
  have hand := ClassExpr.count_and_le (x := x) (y := y)
    (.named fresh :: operands.filter (· ≠ e))
  have hrest := totalWeight_filter_ne (f := ClassExpr.count x y) he
  rw [List.map_cons, totalWeight_cons, ClassExpr.count_named] at hand
  rw [ClassExpr.count_intersection]
  omega

/-! ## Rules -/

/-- What the normalization of the inclusion may spend on classes. -/
def inclusionBudget (c d : ClassExpr) : Nat :=
  c.count 1 0 + d.count 1 0 - 1 + (c.count 0 1 + d.count 0 1)

theorem inclusionBudget_mono {c' d' : ClassExpr} (hc : ∀ x y, c'.count x y ≤ c.count x y)
    (hd : ∀ x y, d'.count x y ≤ d.count x y) : inclusionBudget c' d' ≤ inclusionBudget c d :=
  Nat.add_le_add (Nat.sub_le_sub_right (Nat.add_le_add (hc 1 0) (hd 1 0)) 1)
    (Nat.add_le_add (hc 0 1) (hd 0 1))

/-- What the normalization of the axiom may spend on classes, if it is an inclusion. -/
def budget : Axiom → Nat
  | .subClassOf c d => inclusionBudget c d
  | _ => 0

/-- What several axioms may spend together. -/
def totalBudget (axioms : List Axiom) : Nat := totalWeight (axioms.map budget)

@[simp] theorem totalBudget_nil : totalBudget [] = 0 := rfl

@[simp] theorem totalBudget_cons (a : Axiom) (axioms : List Axiom) :
    totalBudget (a :: axioms) = budget a + totalBudget axioms := rfl

@[simp] theorem totalBudget_normal (forms : List NormalAxiom) :
    totalBudget (forms.map .normal) = 0 := by
  rw [totalBudget, List.map_map]
  exact (totalWeight_const 0 forms).trans (Nat.zero_mul _)

theorem inclusionBudget_le (c d : ClassExpr) : inclusionBudget c d ≤ c.compounds + d.compounds := by
  rw [inclusionBudget, ClassExpr.compounds_eq, ClassExpr.compounds_eq]
  omega

/-- The budget of the inclusion pays for its replacement and for the budgets of what takes its
place. -/
abbrev Pays (P : Finset PropertyId) (c d : ClassExpr) (m : Replacement) (v : Vocabulary) : Prop :=
  (inclusionLedger P).Covers (inclusionBudget c d) totalBudget m v

/-- A rule that mints a class leaves one less to spend. -/
theorem pays_freshClass {f : ClassId → List Axiom} (hv : v.WellFormed)
    (hf : ∀ fresh, totalBudget (f fresh) + 1 ≤ inclusionBudget c d) :
    Pays P c d (do return f (← freshClass)) v := by
  have hpos : 1 ≤ inclusionBudget c d := Nat.le_of_add_left_le (hf .top)
  obtain ⟨n, hn⟩ := Nat.exists_eq_add_of_le' hpos
  rw [Pays, hn]
  apply covers_bind (freshClass_covers hv)
  intro fresh _ _
  apply covers_pure
  have hle := hf fresh
  omega

/-- A rule that mints nothing and adds no part to the inclusion leaves its budget as it is. -/
theorem pays_pure {c' d' : ClassExpr} (hc : ∀ x y, c'.count x y ≤ c.count x y)
    (hd : ∀ x y, d'.count x y ≤ d.count x y) : Pays P c d (pure [.subClassOf c' d']) v :=
  covers_pure (inclusionBudget_mono hc hd)

theorem unwrapIntersection_pays (hm : unwrapIntersection c d = some m) : Pays P c d m v := by
  obtain rfl := eq_of_ite_some hm
  apply pays_pure
  · exact fun _ _ => count_getD_sole? c
  · exact fun _ _ => count_getD_sole? d

theorem nameNominalSuper_pays (hv : v.WellFormed) (hd : d.IsOver (v.contains ·))
    (hm : nameNominalSuper c d = some m) : Pays P c d m v := by
  cases d with
  | oneOf i =>
      obtain rfl := Option.some.inj hm
      apply covers_bind (nominalOf_covers hv (ClassExpr.isOver_oneOf.1 hd))
      exact fun n _ _ => covers_pure (Nat.le_refl (inclusionBudget c (.named n)))
  | named | intersection | existential => exact absurd hm (by simp [nameNominalSuper])

theorem nameAllNominals_pays (hv : v.WellFormed) (hc : c.IsOver (v.contains ·))
    (hd : d.IsOver (v.contains ·)) (hm : nameAllNominals c d = some m) : Pays P c d m v := by
  obtain rfl := eq_of_ite_some hm
  have hfirst := (nameNominals_covers (P := P) hv hc).add
    (c.count 1 0 + d.count 1 0 - 1 + d.count 0 1)
  have hbudget : inclusionBudget c d =
      c.count 1 0 + d.count 1 0 - 1 + d.count 0 1 + c.count 0 1 := by
    rw [inclusionBudget]
    omega
  rw [Pays, hbudget]
  apply covers_bind hfirst
  intro named u hnamed
  obtain ⟨hvu, hu⟩ := (nameNominals_onlyMints hnamed).grows hv
  apply covers_bind ((nameNominals_covers hu (hd.of_extends hvu)).add _)
  intro named' w hnamed'
  apply covers_pure
  -- no nominal is left, and naming them adds nothing else
  have hcn := nameNominals_count_le hnamed
  have hdn := nameNominals_count_le hnamed'
  have hcz := ClassExpr.count_nominal_eq_zero (nameNominals_containsNominal hnamed)
  have hdz := ClassExpr.count_nominal_eq_zero (nameNominals_containsNominal hnamed')
  simp only [totalBudget_cons, totalBudget_normal, budget, inclusionBudget, hcz, hdz]
  omega

theorem splitSuper_pays (hm : splitSuper c d = some m) : Pays P c d m v := by
  cases d with
  | intersection operands =>
      obtain ⟨hc, hm⟩ := Option.ite_none_right_eq_some.1 hm
      obtain ⟨a, rfl⟩ := exists_of_isNamed hc
      obtain rfl := Option.some.inj hm
      apply covers_pure
      calc totalBudget (operands.map (.subClassOf (.named a)))
          = totalWeight (operands.map fun e => inclusionBudget (.named a) e) := by
            rw [totalBudget, List.map_map]
            rfl
        _ ≤ totalWeight (operands.map fun e => e.count 1 0 + e.count 0 1) := by
            apply totalWeight_mono
            intro e _
            rw [inclusionBudget, ClassExpr.count_named, ClassExpr.count_named]
            omega
        _ = inclusionBudget (.named a) (.intersection operands) := by
            rw [totalWeight_add]
            simp only [inclusionBudget, ClassExpr.count_named, ClassExpr.count_intersection]
            omega
  | named | existential | oneOf => exact absurd hm (by simp [splitSuper])

theorem nameBetween_pays (hv : v.WellFormed) (hfree : IsNominalFree c d)
    (hm : nameBetween c d = some m) : Pays P c d m v := by
  obtain ⟨⟨hc, hd⟩, hm⟩ := Option.ite_none_right_eq_some.1 hm
  obtain rfl := Option.some.inj hm
  have hc := ClassExpr.one_le_count_connective (by simpa using hc) hfree.1
  have hd := ClassExpr.one_le_count_connective (by simpa using hd) hfree.2
  apply pays_freshClass hv
  intro fresh
  simp only [totalBudget_cons, totalBudget_nil, budget, inclusionBudget, ClassExpr.count_named]
  omega

theorem nameFillerSuper_pays (hv : v.WellFormed) (hfree : IsNominalFree c d)
    (hm : nameFillerSuper c d = some m) : Pays P c d m v := by
  cases d with
  | existential r filler =>
      obtain ⟨⟨hc, hf⟩, hm⟩ := Option.ite_none_right_eq_some.1 hm
      obtain ⟨a, rfl⟩ := exists_of_isNamed hc
      obtain rfl := Option.some.inj hm
      have hf := ClassExpr.one_le_count_connective (e := filler) (by simpa using hf) hfree.2
      apply pays_freshClass hv
      intro fresh
      simp only [totalBudget_cons, totalBudget_nil, budget, inclusionBudget, ClassExpr.count_named,
        ClassExpr.count_existential]
      omega
  | named | intersection | oneOf => exact absurd hm (by simp [nameFillerSuper])

theorem simplifyOperands_pays (hv : v.WellFormed) (hfree : IsNominalFree c d)
    (hm : simplifyOperands c d = some m) : Pays P c d m v := by
  cases c with
  | intersection operands =>
      obtain ⟨hd, hm⟩ := Option.ite_none_left_eq_some.1 hm
      obtain ⟨b, rfl⟩ := exists_of_isNamed (by simpa using hd)
      split at hm
      · obtain rfl := Option.some.inj hm
        apply pays_pure
        · exact fun _ _ => count_flatten_le operands
        · exact fun _ _ => Nat.le_refl _
      · obtain ⟨e, hfind, rfl⟩ := Option.map_eq_some_iff.1 hm
        have he := List.mem_of_find?_eq_some hfind
        have hone : 1 ≤ e.count 1 0 := by
          apply ClassExpr.one_le_count_connective
          · simpa using List.find?_some hfind
          · exact ClassExpr.containsNominal_intersection.1 hfree.1 e he
        apply pays_freshClass hv
        intro fresh
        have hconnectives := count_nameOperand_le (x := 1) (y := 0) fresh he
        have hnominals := count_nameOperand_le (x := 0) (y := 1) fresh he
        have hrest := ClassExpr.le_count_and (x := 1) (y := 0)
          (.named fresh :: operands.filter (· ≠ e))
        simp only [totalBudget_cons, totalBudget_nil, budget, inclusionBudget,
          ClassExpr.count_named]
        omega
  | named | existential | oneOf => exact absurd hm (by simp [simplifyOperands])

theorem nameFillerSub_pays (hv : v.WellFormed) (hfree : IsNominalFree c d)
    (hm : nameFillerSub c d = some m) : Pays P c d m v := by
  cases c with
  | existential r filler =>
      obtain ⟨⟨hd, hf⟩, hm⟩ := Option.ite_none_right_eq_some.1 hm
      obtain ⟨b, rfl⟩ := exists_of_isNamed hd
      obtain rfl := Option.some.inj hm
      have hf := ClassExpr.one_le_count_connective (e := filler) (by simpa using hf) hfree.1
      apply pays_freshClass hv
      intro fresh
      simp only [totalBudget_cons, totalBudget_nil, budget, inclusionBudget, ClassExpr.count_named,
        ClassExpr.count_existential]
      omega
  | named | intersection | oneOf => exact absurd hm (by simp [nameFillerSub])

/-- Whatever rule is taken, the budget pays for it. -/
theorem inclusionRules_pays (hv : v.WellFormed) (hc : c.IsOver (v.contains ·))
    (hd : d.IsOver (v.contains ·)) (hm : replacement? (.subClassOf c d) = some m) :
    Pays P c d m v := by
  cases taken_of_inclusionRules hm with
  | dropEmptySub hm | dropTrivial hm =>
      obtain rfl := eq_of_ite_some hm
      exact covers_pure (Nat.zero_le _)
  | unwrapIntersection _ hm => exact unwrapIntersection_pays hm
  | nameNominalSuper _ _ hm => exact nameNominalSuper_pays hv hd hm
  | nameAllNominals _ _ hm => exact nameAllNominals_pays hv hc hd hm
  | splitSuper _ hm => exact splitSuper_pays hm
  | nameBetween hfree hm => exact nameBetween_pays hv hfree hm
  | nameFillerSuper hfree hm => exact nameFillerSuper_pays hv hfree hm
  | simplifyOperands hfree hm => exact simplifyOperands_pays hv hfree hm
  | nameFillerSub hfree hm => exact nameFillerSub_pays hv hfree hm

/-! ## Runs -/

/-- What takes the place of an inclusion inverts no other properties. -/
theorem Step.isWithin {out : List Axiom} (h : Step v a out w) (ha : a.IsWithin P) :
    ∀ b ∈ out, b.IsWithin P := by
  have hnamed : ∀ c, (ClassExpr.named c).InvertsOnly P := ClassExpr.invertsOnly_named
  have hexistential : ∀ {r : PropertyExpr} {fresh : ClassId}, (∀ p ∈ r.inverted, p ∈ P) →
      (ClassExpr.existential r (.named fresh)).InvertsOnly P := fun hr =>
    ClassExpr.invertsOnly_existential.2 ⟨hr, hnamed _⟩
  cases h with
  | emptySub _ | superTop | reflInclusion | superOperand _ => nofun
  | unwrap =>
      have hsole : ∀ {e : ClassExpr}, e.InvertsOnly P → ((sole? e).getD e).InvertsOnly P :=
        getD_sole?_of (hnamed _) ClassExpr.invertsOnly_intersection.1
      exact List.forall_mem_singleton.2 ⟨hsole ha.1, hsole ha.2⟩
  | nominalSuper => exact forall_mem_pair.2 ⟨⟨ha.1, hnamed _⟩, trivial⟩
  | allNominals _ _ _ hc hd =>
      have hcn := nameNominals_invertsOnly hc ha.1
      have hdn := nameNominals_invertsOnly hd ha.2
      exact List.forall_mem_cons.2 ⟨⟨hcn, hdn⟩, List.forall_mem_map.2 fun _ _ => trivial⟩
  | splitSuper =>
      have hoperands := ClassExpr.invertsOnly_intersection.1 ha.2
      exact List.forall_mem_map.2 fun e he => ⟨ha.1, hoperands e he⟩
  | between =>
      exact forall_mem_pair.2 ⟨⟨ha.1, hnamed _⟩, hnamed _, ha.2⟩
  | fillerSuper =>
      obtain ⟨hr, hfiller⟩ := ClassExpr.invertsOnly_existential.1 ha.2
      exact forall_mem_pair.2 ⟨⟨ha.1, hexistential hr⟩, hnamed _, hfiller⟩
  | flatten =>
      have hoperands := (forall_mem_flatten fun _ => ClassExpr.invertsOnly_intersection).2
        (ClassExpr.invertsOnly_intersection.1 ha.1)
      exact List.forall_mem_singleton.2 ⟨ClassExpr.invertsOnly_and.2 hoperands, ha.2⟩
  | nameOperand _ he =>
      have hoperands := ClassExpr.invertsOnly_intersection.1 ha.1
      refine forall_mem_pair.2 ⟨⟨hoperands _ he, hnamed _⟩, ClassExpr.invertsOnly_and.2 ?_, ha.2⟩
      exact List.forall_mem_cons.2
        ⟨hnamed _, fun e he => hoperands e (List.mem_of_mem_filter he)⟩
  | fillerSub =>
      obtain ⟨hr, hfiller⟩ := ClassExpr.invertsOnly_existential.1 ha.1
      exact forall_mem_pair.2 ⟨⟨hfiller, hnamed _⟩, hexistential hr, ha.2⟩
  | _ => exact ha.elim

theorem isInvariant_isWithin : IsInvariant fun _ a => a.IsRegular ∧ a.IsWithin P where
  mono _ ha := ha
  replaced _ ha h b hb := by
    cases h with
    | step h => exact ⟨h.isRegular ha.1.isCanonical b hb, h.isWithin ha.2 b hb⟩
    | read _ h => exact List.mem_singleton.1 hb ▸ ⟨h.isWellFormed, trivial⟩

/-- What is left to do for an inclusion is paid for by its budget. -/
theorem replacement_pays (hv : v.WellFormed) (hover : a.IsOver (v.contains ·)) (ha : a.IsWithin P)
    (hm : replacement? a = some m) : (inclusionLedger P).Covers (budget a) totalBudget m v := by
  cases a with
  | subClassOf c d => exact inclusionRules_pays hv hover.1 hover.2 hm
  | normal form => exact absurd hm (by simp [replacement?])
  | _ => exact ha.elim

/-- The inverse that a normal form speaks of is paid for by the property that it is of. -/
theorem toNormal_pays (h : IsReadable a) (hv : v.WellFormed) (hover : a.IsOver (v.contains ·))
    (hcanonical : a.IsCanonical) (ha : a.IsWithin P) :
    (inclusionLedger P).Covers 0 (fun _ => 0) (toNormal a) v := by
  apply toNormal_covers h hcanonical
  · rintro c r d rfl
    exact resolve_covers hv (ClassExpr.isOver_existential.1 hover.2).1
      (ClassExpr.invertsOnly_existential.1 ha.2).1
  · rintro c r d rfl
    exact resolve_covers hv (ClassExpr.isOver_existential.1 hover.1).1
      (ClassExpr.invertsOnly_existential.1 ha.1).1

/-- The budgets of the pending axioms pay for the rest of a run. -/
theorem drain_pays {steps : Nat} {l : Worklist} {found : OrderedSet NormalAxiom}
    (hv : v.WellFormed)
    (hall : l.All (fun a => a.IsOver (v.contains ·) ∧ a.IsRegular ∧ a.IsWithin P) found) :
    (inclusionLedger P).Covers (l.total budget) (fun _ => 0) (drain steps l found) v := by
  have hinvariant := isInvariant_isOver.and (isInvariant_isWithin (P := P))
  induction steps generalizing l found v with
  | zero => exact covers_pure (Nat.zero_le _)
  | succ steps ih =>
      cases hpop : l.pop? with
      | none =>
          rw [drain_none hpop]
          exact covers_pure (Nat.zero_le _)
      | some popped =>
          obtain ⟨a, l'⟩ := popped
          obtain ⟨ha, hall⟩ := hall.pop? hpop
          rw [Worklist.total_pop? (f := budget) hpop, Nat.add_comm]
          rcases drain_some found hpop with
            ⟨form, rfl, hdrain⟩ | ⟨m, hm, hdrain⟩ | ⟨hm, hform, hdrain⟩
          · have hcheck : form.check = .ok () := check_eq_ok.2 ha.2.1
            rw [hdrain, hcheck]
            exact ih hv (hall.insert ha)
          · rw [hdrain]
            apply covers_bind ((replacement_pays hv ha.1 ha.2.2 hm).add (l'.total budget))
            intro out u hout
            obtain ⟨-, hu, hnew, hall⟩ :=
              hinvariant.all_pushAll hv hall ha (.step (step_of_replacement? hm hout))
            apply (ih hu (hall.pushAll hnew)).mono
            · exact Worklist.total_pushAll l' out
            · exact fun _ _ _ => Nat.le_refl 0
          · rw [hdrain]
            have hreadable := isReadable_of_replacement? hm hform
            have hcovers := toNormal_pays hreadable hv ha.1 ha.2.1.isCanonical ha.2.2
            have hle : l'.total budget + 0 ≤ l'.total budget + budget a :=
              Nat.add_le_add_left (Nat.zero_le _) _
            apply covers_bind ((hcovers.add (l'.total budget)).mono hle fun _ _ _ => Nat.le_refl _)
            intro form u hread
            obtain ⟨-, hu, hnew, hall⟩ :=
              hinvariant.all_pushAll hv hall ha (.read hm (reading_of_toNormal hread))
            exact ih hu (hall.insert (hnew _ (List.mem_singleton.2 rfl)))

/-! ## Normalization -/

/-- The inclusions as axioms. -/
def subClassAxioms (inclusions : List (ClassExpr × ClassExpr)) : List Axiom :=
  inclusions.map fun i => .subClassOf i.1 i.2

/-- The number of parts of the inclusions, on both sides, that are not named classes. -/
def compoundParts (inclusions : List (ClassExpr × ClassExpr)) : Nat :=
  totalWeight (inclusions.map fun i => i.1.compounds + i.2.compounds)

/-- The properties whose inverses the inclusions mention. -/
def invertedProperties (inclusions : List (ClassExpr × ClassExpr)) : Finset PropertyId :=
  (inclusions.flatMap fun i => i.1.inverted ++ i.2.inverted).toFinset

theorem isWithin_invertedProperties {inclusions : List (ClassExpr × ClassExpr)} :
    ∀ a ∈ subClassAxioms inclusions, a.IsWithin (invertedProperties inclusions) := by
  have hmem : ∀ i ∈ inclusions, ∀ p ∈ i.1.inverted ++ i.2.inverted,
      p ∈ invertedProperties inclusions := fun i hi p hp =>
    List.mem_toFinset.2 (List.mem_flatMap.2 ⟨i, hi, hp⟩)
  intro a ha
  obtain ⟨i, hi, rfl⟩ := List.mem_map.1 ha
  constructor
  · exact fun p hp => hmem i hi p (List.mem_append_left _ hp)
  · exact fun p hp => hmem i hi p (List.mem_append_right _ hp)

/-- The inclusions may spend on classes at most one for each part that is not named. -/
theorem total_budget_le (inclusions : List (ClassExpr × ClassExpr)) :
    (Worklist.ofList (subClassAxioms inclusions)).total budget ≤ compoundParts inclusions := by
  have hsub : (Worklist.ofList (subClassAxioms inclusions)).pending.toList ⊆
      subClassAxioms inclusions := fun a ha =>
    Worklist.mem_pending_ofList.1 (Std.ExtTreeSet.mem_toList.1 ha)
  calc (Worklist.ofList (subClassAxioms inclusions)).total budget
      ≤ totalWeight ((subClassAxioms inclusions).map budget) :=
        totalWeight_subset OrderedSet.nodup_toList hsub
    _ = totalWeight (inclusions.map fun i => inclusionBudget i.1 i.2) := by
        rw [subClassAxioms, List.map_map]
        rfl
    _ ≤ compoundParts inclusions := totalWeight_mono fun i _ => inclusionBudget_le i.1 i.2

theorem normalize_pays {inclusions : List (ClassExpr × ClassExpr)} (hv : v.WellFormed)
    (hover : ∀ a ∈ subClassAxioms inclusions, a.IsOver (v.contains ·))
    (hcanonical : ∀ a ∈ subClassAxioms inclusions, a.IsCanonical) :
    (inclusionLedger (invertedProperties inclusions)).Covers (compoundParts inclusions)
      (fun _ => 0) (normalize (subClassAxioms inclusions)) v := by
  have hregular : ∀ a ∈ subClassAxioms inclusions, a.IsRegular := by
    intro a ha
    have hcanonical := hcanonical a ha
    obtain ⟨i, -, rfl⟩ := List.mem_map.1 ha
    exact hcanonical
  have hall : ∀ a ∈ subClassAxioms inclusions, a.IsOver (v.contains ·) ∧ a.IsRegular ∧
      a.IsWithin (invertedProperties inclusions) := fun a ha =>
    ⟨hover a ha, hregular a ha, isWithin_invertedProperties a ha⟩
  have hrun : (inclusionLedger (invertedProperties inclusions)).Covers
      ((Worklist.ofList (subClassAxioms inclusions)).total budget) (fun _ => 0)
      (normalize (subClassAxioms inclusions)) v := drain_pays hv (.ofList hall)
  exact hrun.mono (total_budget_le inclusions) fun _ _ _ => Nat.le_refl 0

/-- Normalizing inclusions mints at most one class for each part of them that is not a named class
and at most one property for each property whose inverse they mention. With room for so many it
succeeds. -/
theorem normalize_mints_linearly {inclusions : List (ClassExpr × ClassExpr)} (hv : v.Reachable)
    (hover : ∀ a ∈ subClassAxioms inclusions, ∀ e ∈ a.entities, v.contains e = true)
    (hcanonical : ∀ a ∈ subClassAxioms inclusions, a.IsCanonical) :
    (∀ forms w, normalize (subClassAxioms inclusions) v = .ok forms w →
      w.classes.size ≤ v.classes.size + compoundParts inclusions ∧
      w.properties.size ≤ v.properties.size + (invertedProperties inclusions).card) ∧
    (v.classes.size + compoundParts inclusions < UInt32.size →
      v.properties.size + (invertedProperties inclusions).card < UInt32.size →
      ∃ forms w, normalize (subClassAxioms inclusions) v = .ok forms w) := by
  have hpays := normalize_pays hv.wellFormed (fun a ha => Axiom.isOver_iff.2 (hover a ha))
    hcanonical
  have hcard := unpaired_le_card (invertedProperties inclusions) v
  constructor
  · intro forms w h
    have hclasses := hpays.leaves h .cls
    have hproperties := hpays.leaves h .property
    simp only [used_cls, used_property] at hclasses hproperties
    omega
  · intro hclasses hproperties
    cases h : normalize (subClassAxioms inclusions) v with
    | ok forms w => exact ⟨forms, w, rfl⟩
    | error fault w =>
        obtain ⟨-, k, hk⟩ := hpays.fails h
        have hindividuals : v.individuals.size < UInt32.size := hv.wellFormed.size_lt .individual
        cases k <;> simp only [used_cls, used_property, used_individual] at hk <;> omega

/-- A chain of restrictions on both sides of an inclusion, with a nominal and an inverse in it twice
over. -/
def bothSided : List (ClassExpr × ClassExpr) :=
  [(.existential (.inverseOf ⟨2⟩) (.intersection [.named ⟨2⟩, .existential (.inverseOf ⟨2⟩)
      (.oneOf ⟨0⟩)]), .intersection [.named ⟨3⟩, .existential (.named ⟨2⟩)
      (.existential (.inverseOf ⟨2⟩) (.oneOf ⟨0⟩))]),
    (.intersection [.named ⟨2⟩, .named ⟨3⟩], .existential (.named ⟨2⟩) (.named ⟨4⟩))]

/-- Ten classes and a property are enough for these. -/
theorem normalize_mints_linearly_bothSided :
    ∃ forms w, normalize (subClassAxioms bothSided) .sample = .ok forms w ∧
      w.classes.size ≤ 15 ∧ w.properties.size ≤ 4 := by
  have hover : ∀ a ∈ subClassAxioms bothSided, ∀ e ∈ a.entities,
      Vocabulary.sample.contains e = true := by
    have hmentions : ∀ a ∈ subClassAxioms bothSided, ∀ e ∈ Axiom.entities.mentions a,
        Vocabulary.sample.contains e = true := by decide
    exact fun a ha e he => hmentions a ha e (OrderedSet.mem_ofList_iff.1 he)
  have hcanonical : ∀ a ∈ subClassAxioms bothSided, a.IsCanonical := by decide
  have hclasses : Vocabulary.sample.classes.size + compoundParts bothSided = 15 := by decide
  have hproperties :
      Vocabulary.sample.properties.size + (invertedProperties bothSided).card = 4 := by decide
  obtain ⟨hbound, hroom⟩ :=
    normalize_mints_linearly Vocabulary.reachable_sample hover hcanonical
  rw [hclasses, hproperties] at hroom
  obtain ⟨forms, w, h⟩ := hroom (by decide) (by decide)
  have hle := hbound forms w h
  rw [hclasses, hproperties] at hle
  exact ⟨forms, w, h, hle⟩

end Normalization

end OwlEl
