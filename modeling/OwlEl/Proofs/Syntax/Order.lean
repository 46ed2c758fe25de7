import OwlEl.Syntax.Axiom

/-!
# The canonical order of expressions and axioms

Expressions and axioms are compared by their shapes. Read off the values themselves, the order is
the one that their declarations suggest: the constructor decides, then the fields from left to
right, and a set of expressions is compared as the ascending list of its members, by the same order
again. It is total and tells all different values apart. A set therefore does not depend on how it
has been put together, and neither does an expression on the order in which operands were given.

Main statement: `canonical_order`.
-/

namespace OwlEl

/-! ## Comparison of the fields -/

namespace Shape

/-- The position of the constructor. -/
def rank : Shape → Nat
  | .node n _ => n

/-- The shapes of the fields. -/
def parts : Shape → List Shape
  | .node _ xs => xs

theorem compare_eq_then (a b : Shape) :
    a.compare b = (Ord.compare a.rank b.rank).then (compareParts a.parts b.parts) := by
  cases a
  cases b
  rw [compare]
  rfl

/-- Lists of shapes are compared as the lists of the values, if the shapes are. -/
theorem compareParts_map {α : Type} [Ord α] {shape : α → Shape}
    (h : ∀ a b, (shape a).compare (shape b) = Ord.compare a b) (as bs : List α) :
    compareParts (as.map shape) (bs.map shape) = List.compareLex Ord.compare as bs := by
  induction as generalizing bs with
  | nil => cases bs <;> rfl
  | cons a as ih =>
      cases bs with
      | nil => rfl
      | cons b bs =>
          rw [List.map_cons, List.map_cons, compareParts, h, ih, List.compareLex_cons_cons]

theorem compare_list {α : Type} [Ord α] {shape : α → Shape}
    (h : ∀ a b, (shape a).compare (shape b) = Ord.compare a b) (as bs : List α) :
    (list (as.map shape)).compare (list (bs.map shape)) = List.compareLex Ord.compare as bs := by
  rw [list, list, compare, Nat.compare_eq_eq.2 rfl, Ordering.eq_then, compareParts_map h]

/-- The comparison of shapes, read off the values: the ranks decide, then the fields. -/
theorem compare_eq_fieldwise {α : Type} [Ord α] {shape : α → Shape} {rank : α → Nat}
    {fieldwise : α → α → Ordering}
    (hshape : ∀ a b, Ord.compare a b = (shape a).compare (shape b))
    (hrank : ∀ a, (shape a).rank = rank a)
    (hfields : ∀ a b, rank a = rank b →
      compareParts (shape a).parts (shape b).parts = fieldwise a b) (a b : α) :
    Ord.compare a b = (Ord.compare (rank a) (rank b)).then (fieldwise a b) := by
  rw [hshape, compare_eq_then, hrank, hrank]
  by_cases h : rank a = rank b
  · rw [hfields a b h]
  · have hne : Ord.compare (rank a) (rank b) ≠ .eq := fun heq => h (Nat.compare_eq_eq.1 heq)
    cases hcompare : Ord.compare (rank a) (rank b)
    · rfl
    · exact absurd hcompare hne
    · rfl

end Shape

theorem Id.compare_shape {k : Kind} (a b : Id k) : a.shape.compare b.shape = compare a b := by
  rw [shape, shape, Shape.leaf, Shape.leaf, Shape.compare, Id.compare_position]
  exact Ordering.then_eq

namespace PropertyExpr

/-- The comparison of the fields of expressions that have the same constructor. -/
def compareFields : PropertyExpr → PropertyExpr → Ordering
  | .named p, .named q | .inverseOf p, .inverseOf q => compare p q
  | _, _ => .eq

theorem compare_shape (r s : PropertyExpr) : r.shape.compare s.shape = compare r s := rfl

theorem compare_eq_then (r s : PropertyExpr) :
    compare r s = (compare r.ctorIdx s.ctorIdx).then (r.compareFields s) := by
  refine Shape.compare_eq_fieldwise (fun _ _ => rfl) (fun r => ?_) (fun r s h => ?_) r s
  · cases r <;> rfl
  · cases r <;> cases s <;> cases h <;>
      simp [shape, Shape.parts, Shape.compareParts, compareFields, Id.compare_shape]

end PropertyExpr

namespace ClassExpr

/-- The comparison of the fields of expressions that have the same constructor. -/
def compareFields : ClassExpr → ClassExpr → Ordering
  | .named c, .named d => compare c d
  | .intersection es, .intersection fs => List.compareLex compare es fs
  | .existential r e, .existential s f => (compare r s).then (compare e f)
  | .oneOf i, .oneOf j => compare i j
  | _, _ => .eq

theorem compare_shape (e f : ClassExpr) : e.shape.compare f.shape = compare e f := rfl

theorem compare_eq_then (e f : ClassExpr) :
    compare e f = (compare e.ctorIdx f.ctorIdx).then (e.compareFields f) := by
  refine Shape.compare_eq_fieldwise (fun _ _ => rfl) (fun e => ?_) (fun e f h => ?_) e f
  · cases e <;> simp [Shape.rank] <;> rfl
  · cases e <;> cases f <;> cases h <;>
      simp [Shape.parts, Shape.compareParts, Shape.compareParts_map compare_shape, compareFields,
        Id.compare_shape, PropertyExpr.compare_shape, compare_shape]

end ClassExpr

namespace NormalAxiom

/-- The comparison of the fields of axioms that have the same constructor. -/
def compareFields : NormalAxiom → NormalAxiom → Ordering
  | .subsumption a b, .subsumption a' b' => (compare a a').then (compare b b')
  | .conjunction as b, .conjunction as' b' =>
      (List.compareLex compare as as').then (compare b b')
  | .existsSuper a r b, .existsSuper a' r' b' =>
      (compare a a').then ((compare r r').then (compare b b'))
  | .existsSub r a b, .existsSub r' a' b' =>
      (compare r r').then ((compare a a').then (compare b b'))
  | .reflexive r, .reflexive r' | .functional r, .functional r' => compare r r'
  | .inclusion r s, .inclusion r' s' => (compare r r').then (compare s s')
  | .composition r s t, .composition r' s' t' =>
      (compare r r').then ((compare s s').then (compare t t'))
  | .nominal a i, .nominal a' i' => (compare a a').then (compare i i')
  | .range r a, .range r' a' => (compare r r').then (compare a a')
  | _, _ => .eq

theorem compare_shape (a b : NormalAxiom) : a.shape.compare b.shape = compare a b := rfl

theorem compare_eq_then (a b : NormalAxiom) :
    compare a b = (compare a.ctorIdx b.ctorIdx).then (a.compareFields b) := by
  refine Shape.compare_eq_fieldwise (fun _ _ => rfl) (fun a => ?_) (fun a b h => ?_) a b
  · cases a <;> rfl
  · cases a <;> cases b <;> cases h <;>
      simp [shape, Shape.parts, Shape.compareParts, Shape.compare_list Id.compare_shape,
        compareFields, Id.compare_shape]

end NormalAxiom

namespace Axiom

/-- The comparison of the fields of axioms that have the same constructor. -/
def compareFields : Axiom → Axiom → Ordering
  | .subClassOf c d, .subClassOf c' d' => (compare c c').then (compare d d')
  | .equivalentClasses cs, .equivalentClasses cs'
  | .disjointClasses cs, .disjointClasses cs' => List.compareLex compare cs cs'
  | .subPropertyOf r s, .subPropertyOf r' s' => (compare r r').then (compare s s')
  | .subPropertyChainOf rs s, .subPropertyChainOf rs' s' =>
      (List.compareLex compare rs rs').then (compare s s')
  | .equivalentProperties rs, .equivalentProperties rs' => List.compareLex compare rs rs'
  | .inverseProperties r s, .inverseProperties r' s' => (compare r r').then (compare s s')
  | .propertyDomain r c, .propertyDomain r' c'
  | .propertyRange r c, .propertyRange r' c' => (compare r r').then (compare c c')
  | .functionalProperty r, .functionalProperty r'
  | .reflexiveProperty r, .reflexiveProperty r'
  | .transitiveProperty r, .transitiveProperty r' => compare r r'
  | .classAssertion c i, .classAssertion c' i' => (compare c c').then (compare i i')
  | .propertyAssertion r i j, .propertyAssertion r' i' j'
  | .negativePropertyAssertion r i j, .negativePropertyAssertion r' i' j' =>
      (compare r r').then ((compare i i').then (compare j j'))
  | .sameIndividual is, .sameIndividual is'
  | .differentIndividuals is, .differentIndividuals is' => List.compareLex compare is is'
  | .normal a, .normal a' => compare a a'
  | _, _ => .eq

theorem compare_eq_then (a b : Axiom) :
    compare a b = (compare a.ctorIdx b.ctorIdx).then (a.compareFields b) := by
  refine Shape.compare_eq_fieldwise (fun _ _ => rfl) (fun a => ?_) (fun a b h => ?_) a b
  · cases a <;> rfl
  · cases a <;> cases b <;> cases h <;>
      simp [shape, Shape.parts, Shape.compareParts, Shape.compareParts_map Id.compare_shape,
        Shape.compareParts_map PropertyExpr.compare_shape,
        Shape.compareParts_map ClassExpr.compare_shape,
        Shape.compare_list PropertyExpr.compare_shape, compareFields, Id.compare_shape,
        PropertyExpr.compare_shape, ClassExpr.compare_shape, NormalAxiom.compare_shape]

end Axiom

/-! ## Sets -/

section Sets

variable {α : Type} [Ord α] [Std.TransOrd α]

/-- The set into which the elements have been put one after the other. -/
def insertAll (xs : List α) : OrderedSet α := xs.foldl (fun s a => s.insert a) ∅

theorem foldl_insert_eq_insertMany (s : OrderedSet α) (xs : List α) :
    xs.foldl (fun s a => s.insert a) s = s.insertMany xs := by
  induction xs generalizing s with
  | nil => exact Std.ExtTreeSet.insertMany_nil.symm
  | cons a xs ih => rw [List.foldl_cons, ih, Std.ExtTreeSet.insertMany_cons]

theorem toList_insertAll (xs : List α) : (insertAll xs).toList = ascending xs := by
  rw [insertAll, foldl_insert_eq_insertMany, ascending, Std.ExtTreeSet.ofList_eq_insertMany_empty]

/-- The constructor decides the order of two values, then their fields. The order is total, equates
no two values, and is the one in which a set lists its members, however it has been put together. -/
structure IsCanonicalOrder (α : Type) [Ord α] [Std.TransOrd α] (rank : α → Nat)
    (compareFields : α → α → Ordering) : Prop where
  compare_eq_then : ∀ a b : α, compare a b = (compare (rank a) (rank b)).then (compareFields a b)
  swap : ∀ a b : α, compare a b = (compare b a).swap
  antisymm : ∀ a b : α, (compare a b).isLE → (compare b a).isLE → a = b
  trans : ∀ a b c : α, (compare a b).isLE → (compare b c).isLE → (compare a c).isLE
  total : ∀ a b : α, (compare a b).isLE ∨ (compare b a).isLE
  eq_iff : ∀ a b : α, compare a b = .eq ↔ a = b
  isAscending : ∀ xs : List α, IsAscending (insertAll xs).toList
  mem_iff : ∀ (xs : List α) (a : α), a ∈ (insertAll xs).toList ↔ a ∈ xs
  toList_eq_iff : ∀ xs ys : List α,
    (insertAll xs).toList = (insertAll ys).toList ↔ ∀ a, a ∈ xs ↔ a ∈ ys

variable [Std.LawfulEqOrd α] [DecidableEq α]

/-- Two lists have the same members if and only if sorting makes them the same. -/
theorem ascending_eq_iff {xs ys : List α} :
    ascending xs = ascending ys ↔ ∀ a, a ∈ xs ↔ a ∈ ys := by
  constructor
  · intro h a
    calc
      a ∈ xs ↔ a ∈ ascending xs := mem_ascending.symm
      _ ↔ a ∈ ascending ys := by rw [h]
      _ ↔ a ∈ ys := mem_ascending
  · intro h
    apply (isAscending_ascending xs).ext (isAscending_ascending ys)
    intro a
    rw [mem_ascending, mem_ascending, h]

theorem isCanonicalOrder {rank : α → Nat} {compareFields : α → α → Ordering}
    (h : ∀ a b : α, compare a b = (compare (rank a) (rank b)).then (compareFields a b)) :
    IsCanonicalOrder α rank compareFields where
  compare_eq_then := h
  swap a b := Std.OrientedCmp.eq_swap
  antisymm a b hab hba := Std.LawfulEqCmp.eq_of_compare (Std.OrientedCmp.isLE_antisymm hab hba)
  trans a b c := Std.TransCmp.isLE_trans
  total a b := by
    have hswap : compare b a = (compare a b).swap := Std.OrientedCmp.eq_swap
    cases hab : compare a b with
    | lt => exact .inl rfl
    | eq => exact .inl rfl
    | gt =>
        rw [hab] at hswap
        exact .inr (by rw [hswap]; rfl)
  eq_iff a b := Std.LawfulEqCmp.compare_eq_iff_eq
  isAscending xs := isAscending_toList (insertAll xs)
  mem_iff xs a := by rw [toList_insertAll, mem_ascending]
  toList_eq_iff xs ys := by rw [toList_insertAll, toList_insertAll, ascending_eq_iff]

end Sets

/-! ## Rearrangement of operands -/

namespace ClassExpr

/-- The expressions differ only in the order of operands and in how often these are repeated, at
whatever depth. -/
inductive Rearranged : ClassExpr → ClassExpr → Prop
  | refl (e) : Rearranged e e
  | symm {e f} (h : Rearranged e f) : Rearranged f e
  | trans {e f g} (hef : Rearranged e f) (hfg : Rearranged f g) : Rearranged e g
  | operands {es fs : List ClassExpr} (h : ∀ e, e ∈ es ↔ e ∈ fs) :
      Rearranged (.intersection es) (.intersection fs)
  | operand {before after e f} (h : Rearranged e f) :
      Rearranged (.intersection (before ++ e :: after)) (.intersection (before ++ f :: after))
  | filler {r e f} (h : Rearranged e f) : Rearranged (.existential r e) (.existential r f)

variable {e f : ClassExpr} {es : List ClassExpr}

/-- The expression in which the operands of every intersection have been put into a set. -/
def arrange : ClassExpr → ClassExpr :=
  fold
    { named := .named
      intersection := .and
      existential := .existential
      oneOf := .oneOf }

@[simp] theorem arrange_named (c : ClassId) : (named c).arrange = .named c := rfl

@[simp] theorem arrange_intersection (es : List ClassExpr) :
    (intersection es).arrange = .and (es.map arrange) := fold_intersection ..

@[simp] theorem arrange_existential (r : PropertyExpr) (e : ClassExpr) :
    (existential r e).arrange = .existential r e.arrange := rfl

@[simp] theorem arrange_oneOf (i : IndividualId) : (oneOf i).arrange = .oneOf i := rfl

theorem isCanonical_arrange (e : ClassExpr) : e.arrange.IsCanonical := by
  induction e using ClassExpr.induction with
  | named c => trivial
  | intersection es ih =>
      rw [arrange_intersection]
      apply isCanonical_and
      intro f hf
      obtain ⟨e, he, rfl⟩ := List.mem_map.1 hf
      exact ih e he
  | existential r e ih => exact ih
  | oneOf i => trivial

theorem map_arrange_eq_self (h : ∀ e ∈ es, e.arrange = e) : es.map arrange = es :=
  (List.map_congr_left h).trans (List.map_id es)

theorem arrange_of_isCanonical (h : e.IsCanonical) : e.arrange = e := by
  induction e using ClassExpr.induction with
  | named c => rfl
  | intersection es ih =>
      obtain ⟨hascending, hes⟩ := isCanonical_intersection.1 h
      rw [arrange_intersection, map_arrange_eq_self fun e he => ih e he (hes e he), ClassExpr.and,
        ascending_eq_self hascending]
  | existential r e ih => rw [arrange_existential, ih h]
  | oneOf i => rfl

theorem arrange_eq_self_iff : e.arrange = e ↔ e.IsCanonical :=
  ⟨fun h => h ▸ isCanonical_arrange e, arrange_of_isCanonical⟩

theorem Rearranged.arrange_eq (h : e.Rearranged f) : e.arrange = f.arrange := by
  induction h with
  | refl e => rfl
  | symm _ ih => exact ih.symm
  | trans _ _ hef hfg => exact hef.trans hfg
  | @operands es fs h =>
      rw [arrange_intersection, arrange_intersection, ClassExpr.and, ClassExpr.and,
        ascending_eq_iff.2]
      intro e
      rw [List.mem_map, List.mem_map]
      exact exists_congr fun e => and_congr_left fun _ => h e
  | operand _ ih => simp only [arrange_intersection, List.map_append, List.map_cons, ih]
  | filler _ ih => rw [arrange_existential, arrange_existential, ih]

/-- Operands can be rearranged one after the other. -/
theorem rearranged_map_arrange (before : List ClassExpr)
    (h : ∀ e ∈ es, e.Rearranged e.arrange) :
    (intersection (before ++ es)).Rearranged (.intersection (before ++ es.map arrange)) := by
  induction es generalizing before with
  | nil => exact .refl _
  | cons e es ih =>
      obtain ⟨he, hes⟩ := List.forall_mem_cons.1 h
      have hrest := ih (before ++ [e.arrange]) hes
      rw [List.append_assoc, List.append_assoc] at hrest
      exact (Rearranged.operand he).trans hrest

theorem rearranged_arrange (e : ClassExpr) : e.Rearranged e.arrange := by
  induction e using ClassExpr.induction with
  | named c => exact .refl _
  | intersection es ih =>
      rw [arrange_intersection]
      apply (rearranged_map_arrange [] ih).trans
      exact .operands fun e => mem_ascending.symm
  | existential r e ih => exact .filler ih
  | oneOf i => exact .refl _

theorem arrange_eq_iff_rearranged : e.arrange = f.arrange ↔ e.Rearranged f := by
  constructor
  · intro h
    apply (rearranged_arrange e).trans
    rw [h]
    exact (rearranged_arrange f).symm
  · exact Rearranged.arrange_eq

/-- Expressions that keep their operands as sets are told apart by more than the order in which
operands have been given. -/
theorem Rearranged.eq (h : e.Rearranged f) (he : e.IsCanonical) (hf : f.IsCanonical) : e = f :=
  calc
    e = e.arrange := (arrange_of_isCanonical he).symm
    _ = f.arrange := h.arrange_eq
    _ = f := arrange_of_isCanonical hf

end ClassExpr

/-- Expressions and axioms are ordered by their constructors and then by their fields, those that
are sets as the ascending lists of their members. The order is total and equates no two values, so
that a set does not depend on the order of insertions or their repetition. Putting the operands of
an expression into sets makes it equal to just those that differ from it in the order of operands
and their repetition. -/
theorem canonical_order :
    IsCanonicalOrder PropertyExpr PropertyExpr.ctorIdx PropertyExpr.compareFields ∧
    IsCanonicalOrder ClassExpr ClassExpr.ctorIdx ClassExpr.compareFields ∧
    IsCanonicalOrder NormalAxiom NormalAxiom.ctorIdx NormalAxiom.compareFields ∧
    IsCanonicalOrder Axiom Axiom.ctorIdx Axiom.compareFields ∧
    (∀ e f : ClassExpr, e.arrange = f.arrange ↔ e.Rearranged f) ∧
    (∀ e : ClassExpr, e.arrange = e ↔ e.IsCanonical) ∧
    ∀ e f : ClassExpr, e.IsCanonical → f.IsCanonical → e.Rearranged f → e = f := by
  refine ⟨isCanonicalOrder PropertyExpr.compare_eq_then,
    isCanonicalOrder ClassExpr.compare_eq_then, isCanonicalOrder NormalAxiom.compare_eq_then,
    isCanonicalOrder Axiom.compare_eq_then, ?_, ?_, ?_⟩
  · intro e f
    exact ClassExpr.arrange_eq_iff_rearranged
  · intro e
    exact ClassExpr.arrange_eq_self_iff
  · intro e f he hf h
    exact h.eq he hf

/-- Given as operands, `B`, `A` and again `B` make the same intersection as `A` and `B`. -/
theorem canonical_order_operands :
    let e : ClassExpr := .existential (.named ⟨2⟩) (.intersection [.named ⟨2⟩, .named ⟨3⟩])
    let f : ClassExpr := .existential (.named ⟨2⟩) (.and [.named ⟨3⟩, .named ⟨2⟩, .named ⟨3⟩])
    e = f ∧ (insertAll [e, f, .named ⟨2⟩]).toList = (insertAll [.named ⟨2⟩, e]).toList := by
  intro e f
  obtain ⟨-, horder, -, -, -, -, heq⟩ := canonical_order
  have he : e.IsCanonical := by decide
  have hf : f.IsCanonical := by decide
  have hef : e.Rearranged f := by
    apply ClassExpr.Rearranged.filler
    apply ClassExpr.Rearranged.operands
    intro g
    rw [mem_ascending]
    simp only [List.mem_cons, List.not_mem_nil, or_false]
    grind
  have hsame : e = f := heq e f he hf hef
  refine ⟨hsame, (horder.toList_eq_iff _ _).2 fun g => ?_⟩
  rw [← hsame]
  simp only [List.mem_cons, List.not_mem_nil, or_false]
  grind

end OwlEl
