import Mathlib.Data.Set.Insert
import Mathlib.Tactic.Tauto
import OwlEl.Syntax.Axiom

/-!
# Interpretations

The meaning of class expressions, axioms and normal forms over a domain. An
interpretation assigns a set to each class, a relation to each property and an
element to each individual, so its domain is never empty.

`IsOver` says that an expression or an axiom mentions only entities of a certain
kind, and `AgreesOn` that two interpretations mean the same by these.
-/

namespace OwlEl

universe u

/-- A meaning for every class, property and individual. -/
structure Interpretation (Δ : Type u) where
  classes : ClassId → Set Δ
  properties : PropertyId → Δ → Δ → Prop
  individuals : IndividualId → Δ

namespace Interpretation

variable {Δ : Type u} (I : Interpretation Δ)

/-! ## Truth -/

/-- The relation that a property expression stands for. -/
def role : PropertyExpr → Δ → Δ → Prop
  | .named p => I.properties p
  | .inverseOf p => fun x y => I.properties p y x

/-- The set that a class expression stands for. -/
def extension : ClassExpr → Set Δ :=
  ClassExpr.fold
    { named := I.classes
      intersection := fun sets => {x | ∀ s ∈ sets, x ∈ s}
      existential := fun r s => {x | ∃ y, I.role r x y ∧ y ∈ s}
      oneOf := fun i => {I.individuals i} }

@[simp] theorem extension_named (c : ClassId) : I.extension (.named c) = I.classes c := rfl

@[simp] theorem mem_extension_intersection {operands : List ClassExpr} {x : Δ} :
    x ∈ I.extension (.intersection operands) ↔ ∀ e ∈ operands, x ∈ I.extension e := by
  simp [extension, ClassExpr.fold_intersection]

@[simp] theorem mem_extension_existential {r : PropertyExpr} {filler : ClassExpr} {x : Δ} :
    x ∈ I.extension (.existential r filler) ↔ ∃ y, I.role r x y ∧ y ∈ I.extension filler :=
  Iff.rfl

@[simp] theorem extension_oneOf (i : IndividualId) :
    I.extension (.oneOf i) = {I.individuals i} := rfl

/-- The composition of relations from left to right, the identity for none. -/
def compose : List (Δ → Δ → Prop) → Δ → Δ → Prop
  | [] => fun x y => x = y
  | r :: rest => fun x z => ∃ y, r x y ∧ compose rest y z

/-- The normal form is true. -/
def SatisfiesNormal : NormalAxiom → Prop
  | .subsumption a b => I.classes a ⊆ I.classes b
  | .conjunction operands b => ∀ x, (∀ a ∈ operands, x ∈ I.classes a) → x ∈ I.classes b
  | .existsSuper a r b => ∀ x ∈ I.classes a, ∃ y, I.properties r x y ∧ y ∈ I.classes b
  | .existsSub r a b => ∀ x y, I.properties r x y → y ∈ I.classes a → x ∈ I.classes b
  | .reflexive r => ∀ x, I.properties r x x
  | .inclusion r s => ∀ x y, I.properties r x y → I.properties s x y
  | .composition r s t => ∀ x y z, I.properties r x y → I.properties s y z → I.properties t x z
  | .nominal a i => I.classes a = {I.individuals i}
  | .range r a => ∀ x y, I.properties r x y → y ∈ I.classes a
  | .functional r => ∀ x y z, I.properties r x y → I.properties r x z → y = z

/-- The axiom is true. -/
def Satisfies : Axiom → Prop
  | .subClassOf c d => I.extension c ⊆ I.extension d
  | .equivalentClasses cs => ∀ c ∈ cs, ∀ d ∈ cs, I.extension c = I.extension d
  | .disjointClasses cs =>
      cs.Pairwise fun c d => ∀ x, x ∈ I.extension c → x ∈ I.extension d → False
  | .subPropertyOf r s => ∀ x y, I.role r x y → I.role s x y
  | .subPropertyChainOf chain s => ∀ x y, compose (chain.map I.role) x y → I.role s x y
  | .equivalentProperties rs => ∀ r ∈ rs, ∀ s ∈ rs, I.role r = I.role s
  | .inverseProperties r s => ∀ x y, I.properties r x y ↔ I.properties s y x
  | .propertyDomain r c => ∀ x y, I.role r x y → x ∈ I.extension c
  | .propertyRange r c => ∀ x y, I.role r x y → y ∈ I.extension c
  | .functionalProperty r => ∀ x y z, I.role r x y → I.role r x z → y = z
  | .reflexiveProperty r => ∀ x, I.role r x x
  | .transitiveProperty r => ∀ x y z, I.role r x y → I.role r y z → I.role r x z
  | .classAssertion c i => I.individuals i ∈ I.extension c
  | .propertyAssertion r i j => I.role r (I.individuals i) (I.individuals j)
  | .negativePropertyAssertion r i j => ¬I.role r (I.individuals i) (I.individuals j)
  | .sameIndividual is => ∀ i ∈ is, ∀ j ∈ is, I.individuals i = I.individuals j
  | .differentIndividuals is => ∀ i ∈ is, ∀ j ∈ is, i ≠ j → I.individuals i ≠ I.individuals j
  | .normal a => I.SatisfiesNormal a

/-- The universal and the empty class have their meaning. -/
structure HasBounds : Prop where
  top : I.classes .top = Set.univ
  bottom : I.classes .bottom = ∅

/-- The universal and the empty property have their meaning. -/
structure HasPropertyBounds : Prop where
  top : ∀ x y, I.properties .top x y
  bottom : ∀ x y, ¬I.properties .bottom x y

end Interpretation

/-! ## What an axiom mentions -/

theorem Signature.forall_entities_ofLists {classes : List ClassId}
    {properties : List PropertyId} {individuals : List IndividualId} {known : Entity → Prop} :
    (∀ e ∈ (Signature.ofLists classes properties individuals).entities, known e) ↔
      (∀ c ∈ classes, known c) ∧ (∀ p ∈ properties, known p) ∧ ∀ i ∈ individuals, known i := by
  simp [Signature.entities, Signature.ofLists, or_imp, forall_and]

/-- All entities that the normal form mentions are known. -/
def NormalAxiom.IsOver (known : Entity → Prop) : NormalAxiom → Prop
  | .subsumption a b => known a ∧ known b
  | .conjunction operands b => (∀ a ∈ operands, known a) ∧ known b
  | .existsSuper a r b => known a ∧ known r ∧ known b
  | .existsSub r a b => known r ∧ known a ∧ known b
  | .reflexive r | .functional r => known r
  | .inclusion r s => known r ∧ known s
  | .composition r s t => known r ∧ known s ∧ known t
  | .nominal a i => known a ∧ known i
  | .range r a => known r ∧ known a

theorem NormalAxiom.isOver_iff {known : Entity → Prop} {a : NormalAxiom} :
    a.IsOver known ↔ ∀ e ∈ a.signature.entities, known e := by
  cases a <;>
    simp only [IsOver, signature, Signature.forall_entities_ofLists, List.forall_mem_append,
      List.forall_mem_cons, List.not_mem_nil, false_implies, implies_true, and_true, true_and] <;>
    tauto

/-- The normal form mentions the entity. -/
def NormalAxiom.Mentions (a : NormalAxiom) (e : Entity) : Prop := ¬a.IsOver (· ≠ e)

theorem NormalAxiom.mentions_iff {a : NormalAxiom} {e : Entity} :
    a.Mentions e ↔ e ∈ a.signature.entities := by
  simp [Mentions, isOver_iff]

theorem NormalAxiom.isOver_iff_mentions {known : Entity → Prop} {a : NormalAxiom} :
    a.IsOver known ↔ ∀ e, a.Mentions e → known e := by
  simp only [isOver_iff, mentions_iff]

/-- All entities that the class expression mentions are known. -/
def ClassExpr.IsOver (known : Entity → Prop) (e : ClassExpr) : Prop := ∀ a ∈ e.mentions, known a

namespace ClassExpr

variable {known : Entity → Prop}

@[simp] theorem isOver_named {c : ClassId} : (named c).IsOver known ↔ known c := by
  simp [IsOver, mentions, fold]

@[simp] theorem isOver_intersection {operands : List ClassExpr} :
    (intersection operands).IsOver known ↔ ∀ e ∈ operands, e.IsOver known := by
  simp only [IsOver, mentions, fold_intersection, List.mem_flatten, List.mem_map]
  constructor
  · intro h e he a ha
    exact h a ⟨_, ⟨e, he, rfl⟩, ha⟩
  · rintro h a ⟨_, ⟨e, he, rfl⟩, ha⟩
    exact h e he a ha

@[simp] theorem isOver_existential {r : PropertyExpr} {filler : ClassExpr} :
    (existential r filler).IsOver known ↔ known r.property ∧ filler.IsOver known := by
  simp [IsOver, mentions, fold]

@[simp] theorem isOver_oneOf {i : IndividualId} : (oneOf i).IsOver known ↔ known i := by
  simp [IsOver, mentions, fold]

@[simp] theorem isOver_and {operands : List ClassExpr} :
    (ClassExpr.and operands).IsOver known ↔ ∀ e ∈ operands, e.IsOver known := by
  simp [ClassExpr.and, mem_ascending]

end ClassExpr

/-- All entities that the axiom mentions are known. -/
def Axiom.IsOver (known : Entity → Prop) : Axiom → Prop
  | .subClassOf c d => c.IsOver known ∧ d.IsOver known
  | .equivalentClasses cs | .disjointClasses cs => ∀ c ∈ cs, c.IsOver known
  | .subPropertyOf r s => known r.property ∧ known s.property
  | .subPropertyChainOf chain s => (∀ r ∈ chain, known r.property) ∧ known s.property
  | .equivalentProperties rs => ∀ r ∈ rs, known r.property
  | .inverseProperties r s => known r ∧ known s
  | .propertyDomain r c | .propertyRange r c => known r.property ∧ c.IsOver known
  | .functionalProperty r | .reflexiveProperty r | .transitiveProperty r => known r.property
  | .classAssertion c i => c.IsOver known ∧ known i
  | .propertyAssertion r i j | .negativePropertyAssertion r i j =>
      known r.property ∧ known i ∧ known j
  | .sameIndividual is | .differentIndividuals is => ∀ i ∈ is, known i
  | .normal a => a.IsOver known

theorem Axiom.isOver_iff {known : Entity → Prop} {a : Axiom} :
    a.IsOver known ↔ ∀ e ∈ a.entities, known e := by
  have hmem : ∀ e, e ∈ a.entities ↔ e ∈ entities.mentions a := fun e => by simp [entities]
  simp only [hmem]
  cases a <;>
    simp [IsOver, ClassExpr.IsOver, NormalAxiom.isOver_iff, entities.mentions, or_imp, forall_and]
  case equivalentClasses | disjointClasses =>
    exact ⟨fun h e c hc he => h c hc e he, fun h c hc e he => h e c hc he⟩

section IsOver

variable {known known' : Entity → Prop} (hle : ∀ e, known e → known' e)

include hle

theorem NormalAxiom.IsOver.imp {a : NormalAxiom} (h : a.IsOver known) : a.IsOver known' :=
  NormalAxiom.isOver_iff.2 fun e he => hle e (NormalAxiom.isOver_iff.1 h e he)

theorem ClassExpr.IsOver.imp {e : ClassExpr} (h : e.IsOver known) : e.IsOver known' :=
  fun b hb => hle b (h b hb)

theorem Axiom.IsOver.imp {a : Axiom} (h : a.IsOver known) : a.IsOver known' :=
  Axiom.isOver_iff.2 fun e he => hle e (Axiom.isOver_iff.1 h e he)

end IsOver

/-- The axiom mentions the entity. -/
def Axiom.Mentions (a : Axiom) (e : Entity) : Prop := ¬a.IsOver (· ≠ e)

theorem Axiom.mentions_iff {a : Axiom} {e : Entity} : a.Mentions e ↔ e ∈ a.entities := by
  simp [Mentions, isOver_iff]

theorem Axiom.isOver_iff_mentions {known : Entity → Prop} {a : Axiom} :
    a.IsOver known ↔ ∀ e, a.Mentions e → known e := by
  simp only [isOver_iff, mentions_iff]

namespace Interpretation

variable {Δ : Type u} {I J : Interpretation Δ} {known known' : Entity → Prop}

/-! ## Agreement -/

variable (I J) in
/-- The second interpretation means the same as the first by every known entity. -/
structure AgreesOn (known : Entity → Prop) : Prop where
  classes : ∀ c : ClassId, known c → J.classes c = I.classes c
  properties : ∀ p : PropertyId, known p → J.properties p = I.properties p
  individuals : ∀ i : IndividualId, known i → J.individuals i = I.individuals i

theorem AgreesOn.refl (I : Interpretation Δ) (known : Entity → Prop) : I.AgreesOn I known :=
  ⟨fun _ _ => rfl, fun _ _ => rfl, fun _ _ => rfl⟩

theorem AgreesOn.trans {K : Interpretation Δ} (h : I.AgreesOn J known)
    (h' : J.AgreesOn K known') (hle : ∀ e, known e → known' e) : I.AgreesOn K known where
  classes c hc := (h'.classes c (hle _ hc)).trans (h.classes c hc)
  properties p hp := (h'.properties p (hle _ hp)).trans (h.properties p hp)
  individuals i hi := (h'.individuals i (hle _ hi)).trans (h.individuals i hi)

end Interpretation

end OwlEl
