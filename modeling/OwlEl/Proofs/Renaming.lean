import Mathlib.Data.List.Nodup
import OwlEl.Proofs.Normalization.Individuals

/-!
# Renaming

A renaming puts an entity of the same kind in the place of every entity. The sets inside
expressions and axioms are sorted anew, as the order of identifiers may change. Where the entities
get their names back, so do the canonical expressions and axioms over them, by `rename_rename` and
`rename_eq_self`, so different expressions stay different. Hence an inclusion that normalization
does not drop is not dropped under its new name (`isKept_rename`), and what it activates is
activated by the renamed inclusion (`Activates.rename`).
-/

namespace OwlEl

open Normalization

/-! ## Sets -/

section Sets

variable {α β : Type} {xs ys : List α} {f : α → β}
variable [Ord β] [Std.TransOrd β] [Std.LawfulEqOrd β] [DecidableEq β]

theorem mem_ascending_map {b : β} : b ∈ ascending (xs.map f) ↔ ∃ a ∈ xs, f a = b := by
  rw [mem_ascending, List.mem_map]

theorem forall_mem_ascending_map {P : β → Prop} :
    (∀ b ∈ ascending (xs.map f), P b) ↔ ∀ a ∈ xs, P (f a) := by
  simp only [mem_ascending, List.forall_mem_map]

/-- What relates the images of a set pairwise relates its members, if these stay different. -/
theorem of_forall_ne_ascending_map {R : β → β → Prop}
    (hf : ∀ a ∈ xs, ∀ b ∈ xs, f a = f b → a = b)
    (h : ∀ a ∈ ascending (xs.map f), ∀ b ∈ ascending (xs.map f), a ≠ b → R a b) :
    ∀ a ∈ xs, ∀ b ∈ xs, a ≠ b → R (f a) (f b) := fun a ha b hb hne =>
  h (f a) (mem_ascending_map.2 ⟨a, ha, rfl⟩) (f b) (mem_ascending_map.2 ⟨b, hb, rfl⟩)
    fun heq => hne (hf a ha b hb heq)

variable [Ord α] [Std.LawfulEqOrd α]

/-- A set whose members stay different keeps its size. -/
theorem length_ascending_map (hxs : IsAscending xs)
    (h : ∀ a ∈ xs, ∀ b ∈ xs, f a = f b → a = b) : (ascending (xs.map f)).length = xs.length := by
  rw [length_ascending (List.Nodup.map_on h hxs.nodup), List.length_map]

variable [Std.TransOrd α] [DecidableEq α]

theorem ascending_congr (h : ∀ a, a ∈ xs ↔ a ∈ ys) : ascending xs = ascending ys := by
  apply (isAscending_ascending xs).ext (isAscending_ascending ys)
  intro a
  rw [mem_ascending, mem_ascending, h]

/-- To sort between two changes of the members makes no difference. -/
theorem ascending_map_ascending : ascending ((ascending xs).map f) = ascending (xs.map f) := by
  apply ascending_congr
  simp only [List.mem_map, mem_ascending, implies_true]

theorem ascending_map_eq_self {f : α → α} (hxs : IsAscending xs) (h : ∀ a ∈ xs, f a = a) :
    ascending (xs.map f) = xs := by
  rw [List.map_congr_left h, List.map_id', ascending_eq_self hxs]

end Sets

/-! ## Renamings -/

/-- An entity of the same kind for every entity. -/
structure Renaming where
  map : {k : Kind} → Id k → Id k

namespace Renaming

instance : CoeFun Renaming fun _ => {k : Kind} → Id k → Id k := ⟨Renaming.map⟩

/-- The second renaming and then the first. -/
def comp (σ ρ : Renaming) : Renaming := ⟨fun x => σ (ρ x)⟩

/-- The known entities keep their names. -/
def Fixes (ρ : Renaming) (known : Entity → Prop) : Prop :=
  ∀ {k : Kind} {x : Id k}, known x → ρ x = x

end Renaming

variable {ρ σ : Renaming} {known known' : Entity → Prop}

/-! ## Expressions -/

namespace PropertyExpr

/-- The expression under a renaming. -/
def rename (ρ : Renaming) : PropertyExpr → PropertyExpr
  | .named p => .named (ρ p)
  | .inverseOf p => .inverseOf (ρ p)

@[simp] theorem property_rename (r : PropertyExpr) : (r.rename ρ).property = ρ r.property := by
  cases r <;> rfl

theorem rename_rename (r : PropertyExpr) : (r.rename ρ).rename σ = r.rename (σ.comp ρ) := by
  cases r <;> rfl

theorem rename_eq_self (h : ρ.Fixes known) {r : PropertyExpr} (hr : known r.property) :
    r.rename ρ = r := by
  cases r with
  | named p => exact congrArg named (h hr)
  | inverseOf p => exact congrArg inverseOf (h hr)

end PropertyExpr

namespace ClassExpr

/-- The expression under a renaming. -/
def rename (ρ : Renaming) : ClassExpr → ClassExpr :=
  fold
    { named := fun c => .named (ρ c)
      intersection := .and
      existential := fun r filler => .existential (r.rename ρ) filler
      oneOf := fun i => .oneOf (ρ i) }

@[simp] theorem rename_named (c : ClassId) : (named c).rename ρ = .named (ρ c) := rfl

@[simp] theorem rename_existential (r : PropertyExpr) (filler : ClassExpr) :
    (existential r filler).rename ρ = .existential (r.rename ρ) (filler.rename ρ) := rfl

@[simp] theorem rename_intersection (operands : List ClassExpr) :
    (intersection operands).rename ρ = .and (operands.map (rename ρ)) := fold_intersection ..

@[simp] theorem rename_and (operands : List ClassExpr) :
    (ClassExpr.and operands).rename ρ = .and (operands.map (rename ρ)) := by
  rw [ClassExpr.and, rename_intersection, ClassExpr.and, ascending_map_ascending, ClassExpr.and]

variable {c d e : ClassExpr}

theorem isOver_rename (h : ∀ {k : Kind} {x : Id k}, known x → known' (ρ x))
    (he : e.IsOver known) : (e.rename ρ).IsOver known' := by
  induction e using ClassExpr.induction with
  | named c => exact isOver_named.2 (h (isOver_named.1 he))
  | intersection operands ih =>
      rw [rename_intersection, isOver_and, List.forall_mem_map]
      exact fun e hmem => ih e hmem (isOver_intersection.1 he e hmem)
  | existential r filler ih =>
      obtain ⟨hr, hfiller⟩ := isOver_existential.1 he
      refine isOver_existential.2 ⟨?_, ih hfiller⟩
      rw [PropertyExpr.property_rename]
      exact h hr
  | oneOf i => exact isOver_oneOf.2 (h (isOver_oneOf.1 he))

theorem rename_rename (e : ClassExpr) : (e.rename ρ).rename σ = e.rename (σ.comp ρ) := by
  induction e using ClassExpr.induction with
  | named | oneOf => rfl
  | intersection operands ih =>
      rw [rename_intersection, rename_and, rename_intersection, List.map_map]
      exact congrArg ClassExpr.and (List.map_congr_left ih)
  | existential r filler ih => simp only [rename_existential, PropertyExpr.rename_rename, ih]

theorem rename_eq_self (h : ρ.Fixes known) (he : e.IsOver known) (hcanonical : e.IsCanonical) :
    e.rename ρ = e := by
  induction e using ClassExpr.induction with
  | named c => exact congrArg named (h (isOver_named.1 he))
  | intersection operands ih =>
      obtain ⟨hascending, hoperands⟩ := hcanonical
      rw [rename_intersection, ClassExpr.and]
      apply congrArg intersection
      apply ascending_map_eq_self hascending
      intro e hmem
      exact ih e hmem (isOver_intersection.1 he e hmem) (areCanonical_iff.1 hoperands e hmem)
  | existential r filler ih =>
      obtain ⟨hr, hfiller⟩ := isOver_existential.1 he
      rw [rename_existential, PropertyExpr.rename_eq_self h hr, ih hfiller hcanonical]
  | oneOf i => exact congrArg oneOf (h (isOver_oneOf.1 he))

theorem mem_mentions_rename {i : IndividualId} (h : Entity.ofId i ∈ e.mentions) :
    Entity.ofId (ρ i) ∈ (e.rename ρ).mentions := by
  induction e using ClassExpr.induction with
  | named c => exact absurd h not_mem_mentions_named
  | intersection operands ih =>
      obtain ⟨e, he, hi⟩ := mem_mentions_intersection.1 h
      rw [rename_intersection, ClassExpr.and]
      exact mem_mentions_intersection.2
        ⟨e.rename ρ, mem_ascending_map.2 ⟨e, he, rfl⟩, ih e he hi⟩
  | existential r filler ih =>
      exact mem_mentions_existential.2 (ih (mem_mentions_existential.1 h))
  | oneOf j =>
      obtain rfl := mem_mentions_oneOf.1 h
      exact mem_mentions_oneOf.2 rfl

end ClassExpr

/-! ## Axioms -/

/-- The normal form under a renaming. -/
def NormalAxiom.rename (ρ : Renaming) : NormalAxiom → NormalAxiom
  | .subsumption a b => .subsumption (ρ a) (ρ b)
  | .conjunction operands b => .conjunction (ascending (operands.map ρ.map)) (ρ b)
  | .existsSuper a r b => .existsSuper (ρ a) (ρ r) (ρ b)
  | .existsSub r a b => .existsSub (ρ r) (ρ a) (ρ b)
  | .reflexive r => .reflexive (ρ r)
  | .inclusion r s => .inclusion (ρ r) (ρ s)
  | .composition r s t => .composition (ρ r) (ρ s) (ρ t)
  | .nominal a i => .nominal (ρ a) (ρ i)
  | .range r a => .range (ρ r) (ρ a)
  | .functional r => .functional (ρ r)

theorem NormalAxiom.isOver_rename (h : ∀ {k : Kind} {x : Id k}, known x → known' (ρ x))
    {a : NormalAxiom} (ha : a.IsOver known) : (a.rename ρ).IsOver known' := by
  cases a with
  | conjunction operands b =>
      exact ⟨forall_mem_ascending_map.2 fun a hmem => h (ha.1 a hmem), h ha.2⟩
  | subsumption | inclusion | nominal | range => exact ⟨h ha.1, h ha.2⟩
  | existsSuper | existsSub | composition => exact ⟨h ha.1, h ha.2.1, h ha.2.2⟩
  | reflexive | functional => exact h ha

namespace Axiom

/-- The axiom under a renaming. -/
def rename (ρ : Renaming) : Axiom → Axiom
  | .subClassOf c d => .subClassOf (c.rename ρ) (d.rename ρ)
  | .equivalentClasses cs => .equivalent (cs.map (·.rename ρ))
  | .disjointClasses cs => .disjoint (cs.map (·.rename ρ))
  | .subPropertyOf r s => .subPropertyOf (r.rename ρ) (s.rename ρ)
  | .subPropertyChainOf chain s => .subPropertyChainOf (chain.map (·.rename ρ)) (s.rename ρ)
  | .equivalentProperties rs => .equivalentProperties (ascending (rs.map (·.rename ρ)))
  | .inverseProperties r s => .inverseProperties (ρ r) (ρ s)
  | .propertyDomain r c => .propertyDomain (r.rename ρ) (c.rename ρ)
  | .propertyRange r c => .propertyRange (r.rename ρ) (c.rename ρ)
  | .functionalProperty r => .functionalProperty (r.rename ρ)
  | .reflexiveProperty r => .reflexiveProperty (r.rename ρ)
  | .transitiveProperty r => .transitiveProperty (r.rename ρ)
  | .classAssertion c i => .classAssertion (c.rename ρ) (ρ i)
  | .propertyAssertion r i j => .propertyAssertion (r.rename ρ) (ρ i) (ρ j)
  | .negativePropertyAssertion r i j => .negativePropertyAssertion (r.rename ρ) (ρ i) (ρ j)
  | .sameIndividual is => .sameIndividual (ascending (is.map ρ.map))
  | .differentIndividuals is => .differentIndividuals (ascending (is.map ρ.map))
  | .normal a => .normal (a.rename ρ)

variable {a : Axiom}

theorem isOver_rename (h : ∀ {k : Kind} {x : Id k}, known x → known' (ρ x))
    (ha : a.IsOver known) : (a.rename ρ).IsOver known' := by
  have hrole : ∀ {r : PropertyExpr}, known r.property → known' (r.rename ρ).property := by
    intro r hr
    rw [PropertyExpr.property_rename]
    exact h hr
  cases a with
  | subClassOf c d =>
      exact ⟨ClassExpr.isOver_rename h ha.1, ClassExpr.isOver_rename h ha.2⟩
  | equivalentClasses cs | disjointClasses cs =>
      exact forall_mem_ascending_map.2 fun c hc => ClassExpr.isOver_rename h (ha c hc)
  | subPropertyOf r s => exact ⟨hrole ha.1, hrole ha.2⟩
  | subPropertyChainOf chain s =>
      exact ⟨List.forall_mem_map.2 fun r hr => hrole (ha.1 r hr), hrole ha.2⟩
  | equivalentProperties rs =>
      exact forall_mem_ascending_map.2 fun r hr => hrole (ha r hr)
  | inverseProperties r s => exact ⟨h ha.1, h ha.2⟩
  | propertyDomain r c | propertyRange r c =>
      exact ⟨hrole ha.1, ClassExpr.isOver_rename h ha.2⟩
  | functionalProperty r | reflexiveProperty r | transitiveProperty r =>
      exact hrole (r := r) ha
  | classAssertion c i => exact ⟨ClassExpr.isOver_rename h ha.1, h ha.2⟩
  | propertyAssertion r i j | negativePropertyAssertion r i j =>
      exact ⟨hrole ha.1, h ha.2.1, h ha.2.2⟩
  | sameIndividual is | differentIndividuals is =>
      exact forall_mem_ascending_map.2 fun i hi => h (ha i hi)
  | normal a => exact NormalAxiom.isOver_rename h ha

theorem rename_rename (a : Axiom) (hnormal : ∀ form, a ≠ .normal form) :
    (a.rename ρ).rename σ = a.rename (σ.comp ρ) := by
  have hclasses : ∀ cs : List ClassExpr, ascending ((ascending (cs.map (·.rename ρ))).map
      (·.rename σ)) = ascending (cs.map (·.rename (σ.comp ρ))) := by
    intro cs
    rw [ascending_map_ascending, List.map_map]
    exact congrArg ascending (List.map_congr_left fun c _ => c.rename_rename)
  have hindividuals : ∀ is : List IndividualId, ascending ((ascending (is.map ρ.map)).map σ.map) =
      ascending (is.map (σ.comp ρ).map) := by
    intro is
    rw [ascending_map_ascending, List.map_map]
    rfl
  have hchain : ∀ rs : List PropertyExpr, (rs.map (·.rename ρ)).map (·.rename σ) =
      rs.map (·.rename (σ.comp ρ)) := by
    intro rs
    rw [List.map_map]
    exact List.map_congr_left fun r _ => r.rename_rename
  cases a with
  | equivalentClasses cs => exact congrArg equivalentClasses (hclasses cs)
  | disjointClasses cs => exact congrArg disjointClasses (hclasses cs)
  | subPropertyChainOf chain s => simp only [rename, hchain, s.rename_rename]
  | equivalentProperties rs =>
      simp only [rename]
      rw [ascending_map_ascending, hchain]
  | sameIndividual is => exact congrArg sameIndividual (hindividuals is)
  | differentIndividuals is => exact congrArg differentIndividuals (hindividuals is)
  | normal form => exact absurd rfl (hnormal form)
  | _ => simp only [rename, ClassExpr.rename_rename, PropertyExpr.rename_rename, Renaming.comp]

theorem rename_eq_self (h : ρ.Fixes known) (ha : a.IsOver known) (hcanonical : a.IsCanonical)
    (hnormal : ∀ form, a ≠ .normal form) : a.rename ρ = a := by
  have hrole : ∀ {r : PropertyExpr}, known r.property → r.rename ρ = r :=
    PropertyExpr.rename_eq_self h
  have hclass : ∀ {c : ClassExpr}, c.IsOver known → c.IsCanonical → c.rename ρ = c :=
    ClassExpr.rename_eq_self h
  cases a with
  | subClassOf c d => simp only [rename, hclass ha.1 hcanonical.1, hclass ha.2 hcanonical.2]
  | equivalentClasses cs =>
      apply congrArg equivalentClasses
      exact ascending_map_eq_self hcanonical.1 fun c hc => hclass (ha c hc) (hcanonical.2 c hc)
  | disjointClasses cs =>
      apply congrArg disjointClasses
      exact ascending_map_eq_self hcanonical.1 fun c hc => hclass (ha c hc) (hcanonical.2 c hc)
  | subPropertyOf r s => simp only [rename, hrole ha.1, hrole ha.2]
  | subPropertyChainOf chain s =>
      have hchain : chain.map (·.rename ρ) = chain := by
        rw [List.map_congr_left fun r hr => hrole (ha.1 r hr), List.map_id']
      simp only [rename, hchain, hrole ha.2]
  | equivalentProperties rs =>
      apply congrArg equivalentProperties
      exact ascending_map_eq_self hcanonical fun r hr => hrole (ha r hr)
  | inverseProperties r s => simp only [rename, h ha.1, h ha.2]
  | propertyDomain r c | propertyRange r c =>
      simp only [rename, hrole ha.1, hclass ha.2 hcanonical]
  | functionalProperty r => exact congrArg functionalProperty (hrole ha)
  | reflexiveProperty r => exact congrArg reflexiveProperty (hrole ha)
  | transitiveProperty r => exact congrArg transitiveProperty (hrole ha)
  | classAssertion c i => simp only [rename, hclass ha.1 hcanonical, h ha.2]
  | propertyAssertion r i j | negativePropertyAssertion r i j =>
      simp only [rename, hrole ha.1, h ha.2.1, h ha.2.2]
  | sameIndividual is =>
      apply congrArg sameIndividual
      exact ascending_map_eq_self hcanonical fun i hi => h (ha i hi)
  | differentIndividuals is =>
      apply congrArg differentIndividuals
      exact ascending_map_eq_self hcanonical fun i hi => h (ha i hi)
  | normal form => exact absurd rfl (hnormal form)

end Axiom

/-! ## Inclusions -/

/-- The entity is the empty or the universal class or property. -/
def Entity.IsReserved (e : Entity) : Prop := e.kind ≠ .individual ∧ (e.id = .bottom ∨ e.id = .top)

instance : DecidablePred Entity.IsReserved := fun _ => inferInstanceAs (Decidable (_ ∧ _))

theorem Entity.isReserved_class {c : ClassId} (h : c = .bottom ∨ c = .top) :
    Entity.IsReserved c := ⟨nofun, h⟩

theorem Entity.isReserved_property {p : PropertyId} (h : p = .bottom ∨ p = .top) :
    Entity.IsReserved p := ⟨nofun, h⟩

/-- The first renaming gives the known entities their names back, and the reserved entities are
known and keep their names. -/
structure Renaming.Reverses (σ ρ : Renaming) (known : Entity → Prop) : Prop where
  fixes : (σ.comp ρ).Fixes known
  reserved : ∀ {k : Kind} {x : Id k}, Entity.IsReserved x → known x ∧ ρ x = x

theorem Renaming.Reverses.bottom (h : σ.Reverses ρ known) :
    known (.bottom : ClassId) ∧ ρ (.bottom : ClassId) = .bottom :=
  h.reserved (Entity.isReserved_class (.inl rfl))

theorem Renaming.Reverses.top (h : σ.Reverses ρ known) :
    known (.top : ClassId) ∧ ρ (.top : ClassId) = .top :=
  h.reserved (Entity.isReserved_class (.inr rfl))

section Inclusions

variable (h : σ.Reverses ρ known) {c d e : ClassExpr}

include h

theorem Renaming.Reverses.eq_of_eq {k : Kind} {x y : Id k} (hx : known x) (hy : known y)
    (hxy : ρ x = ρ y) : x = y := by
  calc
    x = σ (ρ x) := (h.fixes hx).symm
    _ = σ (ρ y) := by rw [hxy]
    _ = y := h.fixes hy

theorem PropertyExpr.eq_of_rename_eq {r s : PropertyExpr} (hr : known r.property)
    (hs : known s.property) (hrs : r.rename ρ = s.rename ρ) : r = s := by
  calc
    r = (r.rename ρ).rename σ := by rw [rename_rename, rename_eq_self h.fixes hr]
    _ = (s.rename ρ).rename σ := by rw [hrs]
    _ = s := by rw [rename_rename, rename_eq_self h.fixes hs]

theorem ClassExpr.eq_of_rename_eq (hc : c.IsOver known ∧ c.IsCanonical)
    (hd : d.IsOver known ∧ d.IsCanonical) (hcd : c.rename ρ = d.rename ρ) : c = d := by
  calc
    c = (c.rename ρ).rename σ := by rw [rename_rename, rename_eq_self h.fixes hc.1 hc.2]
    _ = (d.rename ρ).rename σ := by rw [hcd]
    _ = d := by rw [rename_rename, rename_eq_self h.fixes hd.1 hd.2]

theorem containsBottom_rename (hc : c.IsOver known) :
    (c.rename ρ).containsBottom = true ↔ c.containsBottom = true := by
  induction c using ClassExpr.induction with
  | named c =>
      simp only [ClassExpr.rename_named, ClassExpr.containsBottom, ClassExpr.fold,
        decide_eq_true_eq]
      constructor
      · intro hbottom
        refine h.eq_of_eq (ClassExpr.isOver_named.1 hc) h.bottom.1 ?_
        rw [hbottom, h.bottom.2]
      · rintro rfl
        exact h.bottom.2
  | intersection operands ih =>
      simp only [ClassExpr.rename_intersection, ClassExpr.and, ClassExpr.containsBottom,
        ClassExpr.fold_intersection, List.any_map, List.any_eq_true, mem_ascending_map] at *
      constructor
      · rintro ⟨_, ⟨e, he, rfl⟩, hbottom⟩
        exact ⟨e, he, (ih e he (ClassExpr.isOver_intersection.1 hc e he)).1 hbottom⟩
      · rintro ⟨e, he, hbottom⟩
        exact ⟨_, ⟨e, he, rfl⟩, (ih e he (ClassExpr.isOver_intersection.1 hc e he)).2 hbottom⟩
  | existential r filler ih => exact ih (ClassExpr.isOver_existential.1 hc).2
  | oneOf i => exact Iff.rfl

/-- Only an intersection of fewer than two classes is renamed to one. -/
theorem sole?_rename (hc : c.IsOver known) (hcanonical : c.IsCanonical) :
    sole? (c.rename ρ) = (sole? c).map (·.rename ρ) := by
  cases c with
  | named | existential | oneOf => rfl
  | intersection operands =>
      have hoperand : ∀ e ∈ operands, e.IsOver known ∧ e.IsCanonical := fun e he =>
        ⟨ClassExpr.isOver_intersection.1 hc e he, ClassExpr.areCanonical_iff.1 hcanonical.2 e he⟩
      have hlength := length_ascending_map hcanonical.1 fun d hd e he =>
        ClassExpr.eq_of_rename_eq h (hoperand d hd) (hoperand e he)
      rw [ClassExpr.rename_intersection, ClassExpr.and]
      rcases operands with _ | ⟨e, _ | ⟨e', es⟩⟩
      · simp only [sole?, List.map_nil, Option.map_some, ClassExpr.rename_named, h.top.2]
        rfl
      · rw [List.map_singleton, ascending_eq_self (List.pairwise_singleton _ _)]
        rfl
      · rcases hmap : ascending ((e :: e' :: es).map (ClassExpr.rename ρ)) with
          _ | ⟨x, _ | ⟨y, zs⟩⟩
        · rw [hmap] at hlength
          simp at hlength
        · rw [hmap] at hlength
          simp at hlength
        · rfl

/-- What is not dropped is not dropped under another name. -/
theorem isKept_rename (hc : c.IsOver known ∧ c.IsCanonical) (hd : d.IsOver known ∧ d.IsCanonical)
    (hkept : IsKept c d) : IsKept (c.rename ρ) (d.rename ρ) := by
  simp only [IsKept, dropEmptySub, dropTrivial, ite_eq_right_iff, reduceCtorEq, imp_false,
    not_or] at hkept ⊢
  obtain ⟨hbottom, htop, hne, hoperand⟩ := hkept
  refine ⟨mt (containsBottom_rename h hc.1).1 hbottom, fun heq => htop ?_,
    fun heq => hne (ClassExpr.eq_of_rename_eq h hc hd heq), fun hmem => hoperand ?_⟩
  · refine ClassExpr.eq_of_rename_eq h hd ⟨ClassExpr.isOver_named.2 h.top.1, trivial⟩ ?_
    rw [heq, ClassExpr.rename_named, h.top.2]
  · cases c with
    | named | existential | oneOf => exact absurd hmem Bool.false_ne_true
    | intersection operands =>
        simp only [ClassExpr.rename_intersection, ClassExpr.and, List.contains_iff_mem,
          mem_ascending_map] at hmem ⊢
        obtain ⟨e, he, heq⟩ := hmem
        have he' := ClassExpr.isOver_intersection.1 hc.1 e he
        rwa [← ClassExpr.eq_of_rename_eq h
          ⟨he', ClassExpr.areCanonical_iff.1 hc.2.2 e he⟩ hd heq]

/-- What an inclusion activates is activated by the renamed inclusion. -/
theorem Activates.rename {i : IndividualId} (hi : Activates i c d)
    (hc : c.IsOver known ∧ c.IsCanonical) (hd : d.IsOver known ∧ d.IsCanonical) :
    Activates (ρ i) (c.rename ρ) (d.rename ρ) := by
  have hpart : ∀ {e : ClassExpr}, e.IsOver known ∧ e.IsCanonical →
      ((sole? e).getD e).IsOver known ∧ ((sole? e).getD e).IsCanonical :=
    getD_sole?_of (P := fun e => e.IsOver known ∧ e.IsCanonical)
      ⟨ClassExpr.isOver_named.2 h.top.1, trivial⟩ fun hops e he =>
        ⟨ClassExpr.isOver_intersection.1 hops.1 e he, ClassExpr.areCanonical_iff.1 hops.2.2 e he⟩
  induction hi with
  | mention hkept hsole hi =>
      refine .mention (isKept_rename h hc hd hkept) (unwrapIntersection_eq_none.2 ?_)
        (hi.imp ClassExpr.mem_mentions_rename ClassExpr.mem_mentions_rename)
      obtain ⟨hcnone, hdnone⟩ := unwrapIntersection_eq_none.1 hsole
      rw [sole?_rename h hc.1 hc.2, sole?_rename h hd.1 hd.2, hcnone, hdnone]
      exact ⟨rfl, rfl⟩
  | unwrap hkept hsole _ ih =>
      have hi := ih (hpart hc) (hpart hd)
      refine .unwrap (isKept_rename h hc hd hkept) ?_ ?_
      · rwa [sole?_rename h hc.1 hc.2, sole?_rename h hd.1 hd.2, Option.isSome_map,
          Option.isSome_map]
      · rwa [sole?_rename h hc.1 hc.2, sole?_rename h hd.1 hd.2, Option.getD_map,
          Option.getD_map]

end Inclusions

end OwlEl
