import OwlEl.Proofs.Growth
import OwlEl.Proofs.Interpretation

/-!
# Reading a vocabulary

An interpretation reads a vocabulary when the reserved classes have their meaning, the nominal
classes stand for single individuals and inverse properties for converse relations.
-/

namespace OwlEl

universe u

open Vocabulary

/-- What the vocabulary says of its entities is true. -/
structure Interpretation.Reads {Δ : Type u} (I : Interpretation Δ) (v : Vocabulary) : Prop where
  bounds : I.HasBounds
  nominal : ∀ {i : IndividualId} {c : ClassId},
    v.nominalOf[i]? = some c → I.classes c = {I.individuals i}
  inverse : ∀ {p q : PropertyId},
    v.inverse? p = some q → ∀ x y, I.properties q x y ↔ I.properties p y x

/-- The interpretation is a model of axioms over the vocabulary. -/
structure Interpretation.IsModel {Δ : Type u} (I : Interpretation Δ) (v : Vocabulary)
    (axioms : List Axiom) : Prop where
  reads : I.Reads v
  propertyBounds : I.HasPropertyBounds
  satisfies : ∀ a ∈ axioms, I.Satisfies a

section IsOver

variable {v w : Vocabulary}

theorem ClassExpr.IsOver.of_extends {e : ClassExpr} (he : e.IsOver (v.contains ·))
    (h : v.Extends w) : e.IsOver (w.contains ·) := he.imp fun _ => h.contains

theorem NormalAxiom.IsOver.of_extends {a : NormalAxiom} (ha : a.IsOver (v.contains ·))
    (h : v.Extends w) : a.IsOver (w.contains ·) := ha.imp fun _ => h.contains

theorem Axiom.IsOver.of_extends {a : Axiom} (ha : a.IsOver (v.contains ·))
    (h : v.Extends w) : a.IsOver (w.contains ·) := ha.imp fun _ => h.contains

end IsOver

theorem Interpretation.AgreesOn.trans_extends {Δ : Type u} {I J K : Interpretation Δ}
    {v w : Vocabulary} (h : I.AgreesOn J (v.contains ·)) (h' : J.AgreesOn K (w.contains ·))
    (hvw : v.Extends w) : I.AgreesOn K (v.contains ·) :=
  h.trans h' fun _ he => hvw.contains he

end OwlEl
