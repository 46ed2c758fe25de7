import OwlEl.Syntax.Term
import OwlEl.Syntax.Text

/-!
# Faults

Why a request to the reasoner has no answer. Each cause carries what a caller
needs to find the place; `Fault.message` is the only place where the wording is
decided.
-/

namespace OwlEl

/-- Why a request to the reasoner has no answer. -/
inductive Fault where
  /-- An entity is looked up that the vocabulary has not issued. -/
  | notIssued (entity : Entity)
  /-- Every number of the kind in question has been issued. -/
  | idsExhausted
  /-- An axiom mentions an entity that the vocabulary has not issued. -/
  | unknownEntity (entity : Entity)
  /-- A conjunction is asked for with fewer than two different operands. -/
  | tooFewOperands (count : Nat)
  /-- A normal form is not well-formed. -/
  | malformed (form : NormalAxiom)
  /-- No normal form corresponds to the axiom. -/
  | noNormalForm (source : Axiom)
  /-- Only normal forms are accepted, and the axiom is none. -/
  | notNormal (source : Axiom)
  /-- The classification was called off. -/
  | cancelled
  /-- The time allowed for the classification has run out. -/
  | timedOut

namespace Fault

/-- The wording of the fault; running out of time has none. -/
def message? : Fault → Option String
  | .notIssued e => some (e.text ++ " was not issued by this entity manager")
  | .idsExhausted => some "entity id space exhausted"
  | .unknownEntity e => some ("Unknown entity: " ++ e.text)
  | .tooFewOperands n =>
      some ("Invalid axiom: GCI1 needs at least two distinct operands, got " ++ toString n)
  | .malformed a =>
      some ("Invalid axiom: GCI1 operands must be at least two sorted distinct classes: " ++ a.text)
  | .noNormalForm a => some ("Unsupported axiom: " ++ a.term.text)
  | .notNormal a =>
      some ("Unsupported axiom: normalization is disabled but got " ++ a.term.text)
  | .cancelled => some "Classification cancelled"
  | .timedOut => none

end Fault

namespace NormalAxiom

/-- Refuse an axiom that is not well-formed. -/
def check (a : NormalAxiom) : Except Fault Unit :=
  if a.IsWellFormed then pure () else throw (.malformed a)

/-- The conjunction of the given classes, in whatever order and however often they are given. -/
def conjunctionOf (operands : List ClassId) (sup : ClassId) : Except Fault NormalAxiom :=
  let operands := ascending operands
  if 2 ≤ operands.length then pure (.conjunction operands sup)
  else throw (.tooFewOperands operands.length)

end NormalAxiom

end OwlEl
