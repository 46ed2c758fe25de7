import OwlEl.Vocabulary

/-!
# Converses of property axioms

What holds of properties holds, read backwards, of their inverses. The
completion rules do not see this, so the converses are added beforehand: of
every composition, and of every inclusion in which one of the properties has an
inverse. Inverses are minted as they are needed. That may give further
inclusions a property with an inverse, so passes over the inclusions are
repeated until one adds nothing.
-/

namespace OwlEl.Converse

/-- The inclusions between properties, in the order of the axioms. -/
def inclusions (axioms : OrderedSet NormalAxiom) : List (PropertyId × PropertyId) :=
  axioms.toList.filterMap fun
    | .inclusion r s => some (r, s)
    | _ => none

/-- The converse of a composition. -/
def ofComposition (left right sup : PropertyId) : Minting NormalAxiom := do
  let right' ← Minting.inverseOf right
  let left' ← Minting.inverseOf left
  let sup' ← Minting.inverseOf sup
  return .composition right' left' sup'

/-- Add the converses of the compositions among `sources`. -/
def addCompositions (axioms : OrderedSet NormalAxiom) :
    List NormalAxiom → Minting (OrderedSet NormalAxiom)
  | [] => return axioms
  | .composition left right sup :: sources => do
      let converse ← ofComposition left right sup
      addCompositions (axioms.insert converse) sources
  | _ :: sources => addCompositions axioms sources

/-- Add the converses of those of the inclusions in which a property has an inverse. -/
def addInclusions (axioms : OrderedSet NormalAxiom) :
    List (PropertyId × PropertyId) → Minting (OrderedSet NormalAxiom)
  | [] => return axioms
  | (r, s) :: rest => do
      let v ← get
      if (v.inverse? r).isNone ∧ (v.inverse? s).isNone then
        addInclusions axioms rest
      else do
        let r' ← Minting.inverseOf r
        let s' ← Minting.inverseOf s
        addInclusions (axioms.insert (.inclusion r' s')) rest

/-- Repeat passes over the inclusions until one adds nothing, at most `passes` times. -/
def closeInclusions : Nat → OrderedSet NormalAxiom → Minting (OrderedSet NormalAxiom)
  | 0, axioms => return axioms
  | passes + 1, axioms => do
      let extended ← addInclusions axioms (inclusions axioms)
      if extended.size = axioms.size then return extended
      else closeInclusions passes extended

/-- The axioms together with the converses of the axioms on properties. Every pass but the
last adds the converse of an inclusion, so one pass more than there are inclusions is enough. -/
def close (axioms : OrderedSet NormalAxiom) : Minting (OrderedSet NormalAxiom) := do
  let extended ← addCompositions axioms axioms.toList
  closeInclusions ((inclusions axioms).length + 1) extended

end OwlEl.Converse
