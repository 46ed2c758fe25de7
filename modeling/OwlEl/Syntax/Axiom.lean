import OwlEl.Syntax.ClassExpr
import OwlEl.Syntax.NormalAxiom

/-!
# Axioms

The axioms of OWL 2 EL as they are handed to the reasoner, with the normal forms
among them. An axiom over a set of classes, properties or individuals keeps the
set as an ascending list.
-/

namespace OwlEl

/-- An axiom of OWL 2 EL. -/
inductive Axiom where
  | subClassOf (sub sup : ClassExpr)
  | equivalentClasses (classes : List ClassExpr)
  | disjointClasses (classes : List ClassExpr)
  | subPropertyOf (sub sup : PropertyExpr)
  /-- The composition of the properties of `chain`, from left to right, is below `sup`. -/
  | subPropertyChainOf (chain : List PropertyExpr) (sup : PropertyExpr)
  | equivalentProperties (properties : List PropertyExpr)
  | inverseProperties (first second : PropertyId)
  | propertyDomain (property : PropertyExpr) (domain : ClassExpr)
  | propertyRange (property : PropertyExpr) (range : ClassExpr)
  | functionalProperty (property : PropertyExpr)
  | reflexiveProperty (property : PropertyExpr)
  | transitiveProperty (property : PropertyExpr)
  | classAssertion (cls : ClassExpr) (individual : IndividualId)
  | propertyAssertion (property : PropertyExpr) (subject object : IndividualId)
  | negativePropertyAssertion (property : PropertyExpr) (subject object : IndividualId)
  | sameIndividual (individuals : List IndividualId)
  | differentIndividuals (individuals : List IndividualId)
  | normal (form : NormalAxiom)
deriving DecidableEq

namespace Axiom

/-- The axioms are ordered as they are declared, and each by its parts from left to right. -/
def shape : Axiom → Shape
  | .subClassOf c d => .node 0 [c.shape, d.shape]
  | .equivalentClasses cs => .node 1 (cs.map ClassExpr.shape)
  | .disjointClasses cs => .node 2 (cs.map ClassExpr.shape)
  | .subPropertyOf r s => .node 3 [r.shape, s.shape]
  | .subPropertyChainOf chain s => .node 4 [.list (chain.map PropertyExpr.shape), s.shape]
  | .equivalentProperties rs => .node 5 (rs.map PropertyExpr.shape)
  | .inverseProperties r s => .node 6 [r.shape, s.shape]
  | .propertyDomain r c => .node 7 [r.shape, c.shape]
  | .propertyRange r c => .node 8 [r.shape, c.shape]
  | .functionalProperty r => .node 9 [r.shape]
  | .reflexiveProperty r => .node 10 [r.shape]
  | .transitiveProperty r => .node 11 [r.shape]
  | .classAssertion c i => .node 12 [c.shape, i.shape]
  | .propertyAssertion r i j => .node 13 [r.shape, i.shape, j.shape]
  | .negativePropertyAssertion r i j => .node 14 [r.shape, i.shape, j.shape]
  | .sameIndividual is => .node 15 (is.map Id.shape)
  | .differentIndividuals is => .node 16 (is.map Id.shape)
  | .normal a => .node 17 [a.shape]

instance : Ord Axiom := ⟨compareOn shape⟩

theorem shape_injective (a b : Axiom) (h : a.shape = b.shape) : a = b := by
  cases a <;> cases b <;>
    simp_all [shape, Shape.list, Id.shape_inj, ClassExpr.shape_inj, PropertyExpr.shape_inj,
      NormalAxiom.shape_inj, List.map_inj_right]

instance : Std.TransOrd Axiom := transOrd_of_shape fun _ _ => rfl

instance : Std.LawfulEqOrd Axiom := lawfulEqOrd_of_shape (fun _ _ => rfl) shape_injective

/-- The given classes have the same members. -/
def equivalent (classes : List ClassExpr) : Axiom := .equivalentClasses (ascending classes)

/-- No two of the given classes have a member in common. -/
def disjoint (classes : List ClassExpr) : Axiom := .disjointClasses (ascending classes)

/-- The sets inside the axiom are in ascending order. -/
def IsCanonical : Axiom → Prop
  | .subClassOf c d => c.IsCanonical ∧ d.IsCanonical
  | .equivalentClasses cs | .disjointClasses cs => IsAscending cs ∧ ∀ c ∈ cs, c.IsCanonical
  | .equivalentProperties rs => IsAscending rs
  | .propertyDomain _ c | .propertyRange _ c | .classAssertion c _ => c.IsCanonical
  | .sameIndividual is | .differentIndividuals is => IsAscending is
  | _ => True

instance (a : Axiom) : Decidable a.IsCanonical := by
  cases a <;> unfold IsCanonical <;> infer_instance

/-- The entities that the axiom mentions. -/
def entities (a : Axiom) : OrderedSet Entity :=
  .ofList (mentions a) compare
where
  mentions : Axiom → List Entity
    | .subClassOf c d => c.mentions ++ d.mentions
    | .equivalentClasses cs | .disjointClasses cs => cs.flatMap ClassExpr.mentions
    | .subPropertyOf r s => [Entity.ofId r.property, Entity.ofId s.property]
    | .subPropertyChainOf chain s =>
        chain.map (Entity.ofId ·.property) ++ [Entity.ofId s.property]
    | .equivalentProperties rs => rs.map (Entity.ofId ·.property)
    | .inverseProperties r s => [Entity.ofId r, Entity.ofId s]
    | .propertyDomain r c | .propertyRange r c => Entity.ofId r.property :: c.mentions
    | .functionalProperty r | .reflexiveProperty r | .transitiveProperty r =>
        [Entity.ofId r.property]
    | .classAssertion c i => c.mentions ++ [Entity.ofId i]
    | .propertyAssertion r i j | .negativePropertyAssertion r i j =>
        [Entity.ofId r.property, Entity.ofId i, Entity.ofId j]
    | .sameIndividual is | .differentIndividuals is => is.map Entity.ofId
    | .normal a => a.signature.entities

end Axiom

end OwlEl
