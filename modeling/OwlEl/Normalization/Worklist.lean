import OwlEl.Normalization.Rules
import OwlEl.Normalization.Weight

/-!
# Normalization

A list of axioms is brought into normal form step by step, always at the smallest
pending axiom. An axiom that a step yields is taken up unless it was pending
before. `normalize` gives the loop as many steps as the axioms weigh, which is
enough.
-/

namespace OwlEl.Normalization

/-- The axioms still to be looked at, and all that ever were. -/
structure Worklist where
  pending : OrderedSet Axiom
  seen : OrderedSet Axiom

namespace Worklist

/-- Nothing has been looked at yet. -/
def ofList (axioms : List Axiom) : Worklist :=
  let axioms := Std.ExtTreeSet.ofList axioms compare
  ⟨axioms, axioms⟩

/-- Take up an axiom, unless it was taken up before. -/
def push (w : Worklist) (a : Axiom) : Worklist :=
  if w.seen.contains a then w else ⟨w.pending.insert a, w.seen.insert a⟩

/-- Take the smallest pending axiom. -/
def pop? (w : Worklist) : Option (Axiom × Worklist) :=
  w.pending.min?.map fun a => (a, { w with pending := w.pending.erase a })

/-- The weight of all that is pending. -/
def weight (w : Worklist) : Nat := totalWeight (w.pending.toList.map Axiom.weight)

end Worklist

/-- Add the normal forms of the pending axioms to those of `found`. -/
def drain : Nat → Worklist → OrderedSet NormalAxiom → Minting (OrderedSet NormalAxiom)
  | 0, _, found => return found
  | steps + 1, w, found =>
      match w.pop? with
      | none => return found
      | some (.normal a, w) => do
          Minting.ofExcept a.check
          drain steps w (found.insert a)
      | some (a, w) =>
          match replacement? a with
          | some replacement => do
              let axioms ← replacement
              drain steps (axioms.foldl .push w) found
          | none => do
              let form ← toNormal a
              drain steps w (found.insert form)

/-- The normal forms of the axioms, whose entities must have been issued. -/
def normalize (axioms : List Axiom) : Minting (OrderedSet NormalAxiom) :=
  let w := Worklist.ofList axioms
  drain w.weight w ∅

end OwlEl.Normalization
