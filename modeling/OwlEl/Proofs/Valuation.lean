import Mathlib.Order.ConditionallyCompleteLattice.Basic
import Mathlib.Order.CompletePartialOrder
import OwlEl.Proofs.Normalization.Individuals

/-!
# Valuations

What a class expression, an axiom and a normal form say, for classes and properties that may be
read in more than one way. `Meanings` gathers what is needed for this: the classes form a complete
lattice, and properties can be reversed, composed and compared. Sets and relations are meanings,
and their valuations are the interpretations; so are the lower sets of a frame.

An inclusion is read with the empty class on the left as the least class, and on the right as what
counts as absurd. It also activates the individuals that it mentions, if normalization does not
drop it: only for these is a nominal class declared.

Main statements: `Valuation.AgreesOn.satisfies_iff` and `Valuation.AgreesOn.satisfiesNormal_iff`.
-/

namespace OwlEl

universe u

open Normalization

/-! ## Meanings -/

/-- What classes and what properties can be. -/
structure Meanings (C P : Type u) [CompleteLattice C] where
  /-- What the empty class is where it need not be the least one. -/
  absurd : C
  /-- What an individual is that has a nominal class. -/
  IsSharp : C → Prop
  /-- Whether some individuals may be left without a nominal class. -/
  selective : Bool
  /-- Whether an inclusion of properties is one of their inverses as well. -/
  mirrored : Bool
  /-- The inverse of a property. -/
  swap : P → P
  /-- First the one property and then the other. -/
  comp : P → P → P
  Within : P → P → Prop
  IsReflexive : P → Prop
  IsFunctional : P → Prop
  HasRange : P → C → Prop
  /-- The class of all that a property relates to a member of a class. -/
  preimage : P → C → C
  swap_swap : ∀ p, swap (swap p) = p
  swap_comp : ∀ p q, swap (comp p q) = comp (swap q) (swap p)
  within_refl : ∀ p, Within p p
  within_trans : ∀ {p q r}, Within p q → Within q r → Within p r
  within_comp : ∀ {p q} r, Within p q → Within (comp p r) (comp q r)
  within_swap : ∀ {p q}, mirrored = true → Within p q → Within (swap p) (swap q)
  preimage_mono : ∀ p {s t}, s ≤ t → preimage p s ≤ preimage p t
  preimage_bot : ∀ p, preimage p ⊥ = ⊥
  hasRange_mono : ∀ {p s t}, s ≤ t → HasRange p s → HasRange p t

variable {C P : Type u} [CompleteLattice C]

namespace Meanings

variable (M : Meanings C P)

/-- The composition of a chain that is given from right to left. -/
def composite (last : P) : List P → P
  | [] => last
  | p :: rest => M.comp (composite p rest) last

/-- The inclusion of a chain that is given from right to left; that of the empty chain says that
the property is reflexive. -/
def ChainWithin : List P → P → Prop
  | [], q => M.IsReflexive q
  | last :: rest, q => M.Within (M.composite last rest) q

end Meanings

/-- A meaning for every class, property and individual. -/
structure Valuation (M : Meanings C P) where
  classes : ClassId → C
  properties : PropertyId → P
  individuals : IndividualId → C
  /-- The individuals for which a nominal class is declared. -/
  active : Set IndividualId
  sharp : ∀ {i}, i ∈ active → M.IsSharp (individuals i)
  all_active : M.selective = false → ∀ i, i ∈ active

namespace Valuation

variable {M : Meanings C P} (I : Valuation M)

/-- What a property expression stands for. -/
def role : PropertyExpr → P
  | .named p => I.properties p
  | .inverseOf p => M.swap (I.properties p)

/-- What a class expression stands for. -/
def extension : ClassExpr → C :=
  ClassExpr.fold
    { named := I.classes
      intersection := fun classes => sInf {s | s ∈ classes}
      existential := fun r s => M.preimage (I.role r) s
      oneOf := I.individuals }

@[simp] theorem extension_named (c : ClassId) : I.extension (.named c) = I.classes c := rfl

@[simp] theorem extension_oneOf (i : IndividualId) :
    I.extension (.oneOf i) = I.individuals i := rfl

@[simp] theorem extension_existential (r : PropertyExpr) (filler : ClassExpr) :
    I.extension (.existential r filler) = M.preimage (I.role r) (I.extension filler) := rfl

@[simp] theorem le_extension_intersection {operands : List ClassExpr} {s : C} :
    s ≤ I.extension (.intersection operands) ↔ ∀ e ∈ operands, s ≤ I.extension e := by
  simp [extension, ClassExpr.fold_intersection]

@[simp] theorem le_extension_and {operands : List ClassExpr} {s : C} :
    s ≤ I.extension (.and operands) ↔ ∀ e ∈ operands, s ≤ I.extension e := by
  simp [ClassExpr.and, mem_ascending]

theorem extension_intersection_le {operands : List ClassExpr} {e : ClassExpr}
    (he : e ∈ operands) : I.extension (.intersection operands) ≤ I.extension e :=
  I.le_extension_intersection.1 (le_refl _) e he

/-- The empty class is read as the least class. -/
def strict : Valuation M := { I with classes := Function.update I.classes .bottom ⊥ }

theorem strict_classes_bottom : I.strict.classes .bottom = ⊥ :=
  Function.update_self Id.bottom ⊥ I.classes

theorem strict_classes_of_ne {c : ClassId} (h : c ≠ .bottom) : I.strict.classes c = I.classes c :=
  Function.update_of_ne h ..

/-- The inclusion holds, and what it activates is active. -/
def Included (c d : ClassExpr) : Prop :=
  I.strict.extension c ≤ I.extension d ∧ ∀ i, Activates i c d → i ∈ I.active

/-- The normal form holds. -/
def SatisfiesNormal : NormalAxiom → Prop
  | .subsumption a b => I.classes a ≤ I.classes b
  | .conjunction operands b => ∀ s, (∀ a ∈ operands, s ≤ I.classes a) → s ≤ I.classes b
  | .existsSuper a r b => I.classes a ≤ M.preimage (I.properties r) (I.classes b)
  | .existsSub r a b => M.preimage (I.properties r) (I.classes a) ≤ I.classes b
  | .reflexive r => M.IsReflexive (I.properties r)
  | .inclusion r s => M.Within (I.properties r) (I.properties s)
  | .composition r s t => M.Within (M.comp (I.properties r) (I.properties s)) (I.properties t)
  | .nominal a i => I.classes a = I.individuals i ∧ i ∈ I.active
  | .range r a => M.HasRange (I.properties r) (I.classes a)
  | .functional r => M.IsFunctional (I.properties r)

/-- The axiom holds. What a range activates depends on the range alone. -/
def Satisfies : Axiom → Prop
  | .subClassOf c d => I.Included c d
  | .equivalentClasses cs => ∀ c ∈ cs, ∀ d ∈ cs, c ≠ d → I.Included c d
  | .disjointClasses cs =>
      cs.Pairwise fun c d => I.Included (.and [c, d]) (.named .bottom)
  | .subPropertyOf r s => M.Within (I.role r) (I.role s)
  | .subPropertyChainOf chain s => M.ChainWithin (chain.reverse.map I.role) (I.role s)
  | .equivalentProperties rs => ∀ r ∈ rs, ∀ s ∈ rs, r ≠ s → M.Within (I.role r) (I.role s)
  | .inverseProperties r s =>
      M.Within (I.properties s) (M.swap (I.properties r)) ∧
        M.Within (M.swap (I.properties r)) (I.properties s) ∧
        M.Within (I.properties r) (M.swap (I.properties s)) ∧
        M.Within (M.swap (I.properties s)) (I.properties r)
  | .propertyDomain r c => I.Included (.existential r (.named .top)) c
  | .propertyRange r c =>
      M.HasRange (I.role r) (I.extension c) ∧ ∀ i, Activates i (.named .top) c → i ∈ I.active
  | .functionalProperty r => M.IsFunctional (I.role r)
  | .reflexiveProperty r => M.IsReflexive (I.role r)
  | .transitiveProperty r => M.Within (M.comp (I.role r) (I.role r)) (I.role r)
  | .classAssertion c i => I.Included (.oneOf i) c
  | .propertyAssertion r i j => I.Included (.oneOf i) (assertedEdge r j)
  | .negativePropertyAssertion r i j =>
      I.Included (.and [.oneOf i, assertedEdge r j]) (.named .bottom)
  | .sameIndividual is => ∀ i ∈ is, ∀ j ∈ is, i ≠ j → I.Included (.oneOf i) (.oneOf j)
  | .differentIndividuals is =>
      ∀ i ∈ is, ∀ j ∈ is, i ≠ j → I.Included (.and [.oneOf i, .oneOf j]) (.named .bottom)
  | .normal a => I.SatisfiesNormal a

/-! ## Expressions -/

section Strict

variable {I} {e c d : ClassExpr}

theorem strict_extension_le (e : ClassExpr) : I.strict.extension e ≤ I.extension e := by
  induction e using ClassExpr.induction with
  | named c =>
      by_cases hc : c = .bottom
      · rw [hc, extension_named, strict_classes_bottom]
        exact bot_le
      · rw [extension_named, strict_classes_of_ne _ hc]
        exact le_refl _
  | intersection operands ih =>
      exact I.le_extension_intersection.2 fun e he =>
        (I.strict.extension_intersection_le he).trans (ih e he)
  | existential r filler ih => exact M.preimage_mono _ ih
  | oneOf i => exact le_refl _

/-- A class in which the empty class stands where it must not is empty. -/
theorem strict_extension_of_containsBottom (h : e.containsBottom = true) :
    I.strict.extension e = ⊥ := by
  induction e using ClassExpr.induction with
  | named c =>
      obtain rfl : c = .bottom := by simpa [ClassExpr.containsBottom, ClassExpr.fold] using h
      exact I.strict_classes_bottom
  | intersection operands ih =>
      simp only [ClassExpr.containsBottom, ClassExpr.fold_intersection, List.any_map,
        List.any_eq_true] at h
      obtain ⟨e, he, hbottom⟩ := h
      rw [← le_bot_iff, ← ih e he hbottom]
      exact I.strict.extension_intersection_le he
  | existential r filler ih => rw [extension_existential, ih h, M.preimage_bot]
  | oneOf i => exact absurd h Bool.false_ne_true

/-- Elsewhere the empty class makes no difference. -/
theorem strict_extension_of_not_containsBottom (h : e.containsBottom = false) :
    I.strict.extension e = I.extension e := by
  induction e using ClassExpr.induction with
  | named c =>
      have hc : c ≠ .bottom := by
        simpa [ClassExpr.containsBottom, ClassExpr.fold] using h
      exact I.strict_classes_of_ne hc
  | intersection operands ih =>
      simp only [ClassExpr.containsBottom, ClassExpr.fold_intersection, List.any_map,
        List.any_eq_false, Bool.not_eq_true] at h
      refine eq_of_forall_le_iff fun s => ?_
      rw [le_extension_intersection, le_extension_intersection]
      refine forall₂_congr fun e he => ?_
      rw [ih e he (h e he)]
  | existential r filler ih =>
      rw [extension_existential, ih h]
      rfl
  | oneOf i => rfl

theorem extension_getD_sole? (htop : I.classes .top = ⊤) (e : ClassExpr) :
    I.extension ((sole? e).getD e) = I.extension e := by
  rcases e with c | (_ | ⟨e, _ | ⟨e', es⟩⟩) | ⟨r, filler⟩ | i
  · rfl
  · refine eq_of_forall_le_iff fun s => ?_
    simp [sole?, htop]
  · refine eq_of_forall_le_iff fun s => ?_
    simp [sole?]
  · rfl
  · rfl
  · rfl

theorem extension_flatten (operands : List ClassExpr) :
    I.extension (.and (flatten operands)) = I.extension (.intersection operands) := by
  refine eq_of_forall_le_iff fun s => ?_
  rw [le_extension_and, le_extension_intersection]
  exact forall_mem_flatten fun _ => I.le_extension_intersection

theorem included_iff_of_isNominalFree (h : IsNominalFree c d) :
    I.Included c d ↔ I.strict.extension c ≤ I.extension d :=
  and_iff_left fun _ hi => (not_activates_of_isNominalFree h hi).elim

theorem included_named_iff {x : ClassId} (hx : x ≠ .bottom) (hd : d.containsNominal = false) :
    I.Included (.named x) d ↔ I.classes x ≤ I.extension d := by
  rw [included_iff_of_isNominalFree ⟨rfl, hd⟩, extension_named, strict_classes_of_ne _ hx]

theorem included_of_dropped (h : ¬IsKept c d) (hle : I.strict.extension c ≤ I.extension d) :
    I.Included c d :=
  ⟨hle, fun _ hi => (not_activates_of_dropped h hi).elim⟩

end Strict

/-! ## Agreement -/

variable {I} {J K : Valuation M} {known known' : Entity → Prop}

variable (I J) in
/-- The second valuation means the same as the first by every known entity, and the same individuals
are active. -/
structure AgreesOn (known : Entity → Prop) : Prop where
  classes : ∀ c : ClassId, known c → J.classes c = I.classes c
  properties : ∀ p : PropertyId, known p → J.properties p = I.properties p
  individuals : ∀ i : IndividualId, known i → J.individuals i = I.individuals i
  active : J.active = I.active

theorem AgreesOn.refl (I : Valuation M) (known : Entity → Prop) : I.AgreesOn I known :=
  ⟨fun _ _ => rfl, fun _ _ => rfl, fun _ _ => rfl, rfl⟩

theorem AgreesOn.trans (h : I.AgreesOn J known) (h' : J.AgreesOn K known')
    (hle : ∀ e, known e → known' e) : I.AgreesOn K known where
  classes c hc := (h'.classes c (hle _ hc)).trans (h.classes c hc)
  properties p hp := (h'.properties p (hle _ hp)).trans (h.properties p hp)
  individuals i hi := (h'.individuals i (hle _ hi)).trans (h.individuals i hi)
  active := h'.active.trans h.active

section

variable (h : I.AgreesOn J known)

include h

theorem AgreesOn.strict : I.strict.AgreesOn J.strict known where
  classes c hc := by
    by_cases hbottom : c = .bottom
    · rw [hbottom, strict_classes_bottom, strict_classes_bottom]
    · rw [strict_classes_of_ne _ hbottom, strict_classes_of_ne _ hbottom, h.classes c hc]
  properties := h.properties
  individuals := h.individuals
  active := h.active

theorem AgreesOn.role {r : PropertyExpr} (hr : known r.property) : J.role r = I.role r := by
  cases r with
  | named p => exact h.properties p hr
  | inverseOf p => exact congrArg M.swap (h.properties p hr)

theorem AgreesOn.extension {e : ClassExpr} (he : e.IsOver known) :
    J.extension e = I.extension e := by
  induction e using ClassExpr.induction with
  | named c => exact h.classes c (ClassExpr.isOver_named.1 he)
  | intersection operands ih =>
      refine eq_of_forall_le_iff fun s => ?_
      rw [le_extension_intersection, le_extension_intersection]
      refine forall₂_congr fun e hmem => ?_
      rw [ih e hmem (ClassExpr.isOver_intersection.1 he e hmem)]
  | existential r filler ih =>
      obtain ⟨hr, hfiller⟩ := ClassExpr.isOver_existential.1 he
      rw [extension_existential, extension_existential, h.role hr, ih hfiller]
  | oneOf i => exact h.individuals i (ClassExpr.isOver_oneOf.1 he)

theorem AgreesOn.included_iff {c d : ClassExpr} (hc : c.IsOver known) (hd : d.IsOver known) :
    J.Included c d ↔ I.Included c d := by
  rw [Included, Included, h.strict.extension hc, h.extension hd, h.active]

/-- What a normal form says depends only on the entities that it mentions. -/
theorem AgreesOn.satisfiesNormal_iff {a : NormalAxiom} (ha : a.IsOver known) :
    J.SatisfiesNormal a ↔ I.SatisfiesNormal a := by
  cases a with
  | subsumption a b => simp only [SatisfiesNormal, h.classes a ha.1, h.classes b ha.2]
  | conjunction operands b =>
      have hops : ∀ s, (∀ a ∈ operands, s ≤ J.classes a) ↔ ∀ a ∈ operands, s ≤ I.classes a :=
        fun s => forall₂_congr fun a hmem => by rw [h.classes a (ha.1 a hmem)]
      simp only [SatisfiesNormal, hops, h.classes b ha.2]
  | existsSuper a r b =>
      simp only [SatisfiesNormal, h.classes a ha.1, h.properties r ha.2.1, h.classes b ha.2.2]
  | existsSub r a b =>
      simp only [SatisfiesNormal, h.properties r ha.1, h.classes a ha.2.1, h.classes b ha.2.2]
  | reflexive r => simp only [SatisfiesNormal, h.properties r ha]
  | inclusion r s => simp only [SatisfiesNormal, h.properties r ha.1, h.properties s ha.2]
  | composition r s t =>
      simp only [SatisfiesNormal, h.properties r ha.1, h.properties s ha.2.1,
        h.properties t ha.2.2]
  | nominal a i =>
      simp only [SatisfiesNormal, h.classes a ha.1, h.individuals i ha.2, h.active]
  | range r a => simp only [SatisfiesNormal, h.properties r ha.1, h.classes a ha.2]
  | functional r => simp only [SatisfiesNormal, h.properties r ha]

/-- What an axiom says depends only on the entities that it mentions and on the empty and the
universal class. -/
theorem AgreesOn.satisfies_iff {a : Axiom} (ha : a.IsOver known)
    (htop : known (.top : ClassId)) (hbottom : known (.bottom : ClassId)) :
    J.Satisfies a ↔ I.Satisfies a := by
  have hbottom := ClassExpr.isOver_named.2 hbottom
  have htop := ClassExpr.isOver_named.2 htop
  have hedge : ∀ {r j}, known r.property → known (.ofId j) → (assertedEdge r j).IsOver known :=
    fun hr hj => isOver_assertedEdge.2 ⟨hr, hj⟩
  have hpair : ∀ {c d : ClassExpr}, c.IsOver known → d.IsOver known →
      (ClassExpr.and [c, d]).IsOver known := fun hc hd =>
    ClassExpr.isOver_and.2 (forall_mem_pair.2 ⟨hc, hd⟩)
  cases a with
  | subClassOf c d => exact h.included_iff ha.1 ha.2
  | equivalentClasses cs =>
      exact forall₂_congr fun c hc => forall₂_congr fun d hd =>
        imp_congr_right fun _ => h.included_iff (ha c hc) (ha d hd)
  | disjointClasses cs =>
      exact List.Pairwise.iff_of_mem fun hc hd => h.included_iff (hpair (ha _ hc) (ha _ hd)) hbottom
  | subPropertyOf r s => simp only [Satisfies, h.role ha.1, h.role ha.2]
  | subPropertyChainOf chain s =>
      have hchain : chain.reverse.map J.role = chain.reverse.map I.role :=
        List.map_congr_left fun r hr => h.role (ha.1 r (List.mem_reverse.1 hr))
      simp only [Satisfies, hchain, h.role ha.2]
  | equivalentProperties rs =>
      refine forall₂_congr fun r hr => forall₂_congr fun s hs => imp_congr_right fun _ => ?_
      rw [h.role (ha r hr), h.role (ha s hs)]
  | inverseProperties r s => simp only [Satisfies, h.properties r ha.1, h.properties s ha.2]
  | propertyDomain r c =>
      exact h.included_iff (ClassExpr.isOver_existential.2 ⟨ha.1, htop⟩) ha.2
  | propertyRange r c => simp only [Satisfies, h.role ha.1, h.extension ha.2, h.active]
  | functionalProperty r | reflexiveProperty r | transitiveProperty r =>
      have hr : J.role r = I.role r := h.role ha
      simp only [Satisfies, hr]
  | classAssertion c i => exact h.included_iff (ClassExpr.isOver_oneOf.2 ha.2) ha.1
  | propertyAssertion r i j =>
      exact h.included_iff (ClassExpr.isOver_oneOf.2 ha.2.1) (hedge ha.1 ha.2.2)
  | negativePropertyAssertion r i j =>
      exact h.included_iff
        (hpair (ClassExpr.isOver_oneOf.2 ha.2.1) (hedge ha.1 ha.2.2)) hbottom
  | sameIndividual is =>
      exact forall₂_congr fun i hi => forall₂_congr fun j hj => imp_congr_right fun _ =>
        h.included_iff (ClassExpr.isOver_oneOf.2 (ha i hi)) (ClassExpr.isOver_oneOf.2 (ha j hj))
  | differentIndividuals is =>
      exact forall₂_congr fun i hi => forall₂_congr fun j hj => imp_congr_right fun _ =>
        h.included_iff (hpair (ClassExpr.isOver_oneOf.2 (ha i hi))
          (ClassExpr.isOver_oneOf.2 (ha j hj))) hbottom
  | normal a => exact h.satisfiesNormal_iff ha

end

end Valuation

end OwlEl
