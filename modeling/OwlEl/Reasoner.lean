import OwlEl.Classification
import OwlEl.Normalization.Worklist
import OwlEl.Role.Converse
import OwlEl.Syntax.Codec

/-!
# The reasoner

From axioms to a classification: the axioms are brought into normal form, the
converses of the axioms on properties are added, and what follows is derived. Axioms that
mention an entity not in the vocabulary are refused before anything is minted.
-/

namespace OwlEl

/-- How the reasoner goes about its work. -/
structure Config where
  /-- Bring axioms into normal form; otherwise only normal forms are accepted. -/
  normalize : Bool
  /-- Add the converses of the axioms on properties. -/
  saturateRoles : Bool
  /-- The time allowed for deriving facts, in milliseconds. -/
  timeoutMs : Option UInt64
  /-- After how many processed facts progress is reported, or zero for never. Reports are
  no part of the answers. -/
  progressInterval : UInt64
deriving DecidableEq

namespace Config

/-- Everything is done, and no time limit is set. -/
def default : Config where
  normalize := true
  saturateRoles := true
  timeoutMs := none
  progressInterval := 100000

instance : Inhabited Config := ⟨default⟩

/-- Read a number of 64 bits. -/
def uint64? (json : Json) : Option UInt64 := (json.natBelow? UInt64.size).map .ofNat

/-- The names of the fields, in the order in which an array gives their values. -/
def fieldNames : List String :=
  ["normalize", "saturate_roles", "timeout_ms", "progress_interval"]

/-- The fields that are given: those of an object, or the items of an array taken for the
first fields in their order. An array of more items than there are fields is refused. -/
def given? : Json → Option (List (String × Json))
  | .object fields => some fields
  | .array items =>
      if items.length ≤ fieldNames.length then some (fieldNames.zip items) else none
  | _ => none

/-- Read a field that keeps its default when it is not given. -/
def fieldOr {α : Type} (name : String) (read : Json → Option α) (default : α)
    (fields : List (String × Json)) : Option α :=
  match fields.lookup name with
  | some value => read value
  | none => some default

/-- Every field is written, a missing time limit as null. -/
def toJson (config : Config) : Json :=
  .object
    [ ("normalize", .bool config.normalize), ("saturate_roles", .bool config.saturateRoles),
      ("timeout_ms", match config.timeoutMs with
        | some ms => .ofNat ms.toNat
        | none => .null),
      ("progress_interval", .ofNat config.progressInterval.toNat) ]

/-- Every field may be left out, in an array from the last on, and a null time limit is none. -/
def ofJson? (json : Json) : Option Config := do
  let fields ← given? json
  return {
    normalize := ← fieldOr "normalize" Json.bool? default.normalize fields
    saturateRoles := ← fieldOr "saturate_roles" Json.bool? default.saturateRoles fields
    timeoutMs := ← fieldOr "timeout_ms" timeout? default.timeoutMs fields
    progressInterval := ← fieldOr "progress_interval" uint64? default.progressInterval fields }
where
  timeout? : Json → Option (Option UInt64)
    | .null => some none
    | json => (uint64? json).map some

instance : JsonCodec Config := ⟨toJson, ofJson?⟩

end Config

namespace Reasoner

/-- The first entity that an axiom mentions and the vocabulary does not contain. -/
def firstUnknown? (v : Vocabulary) (axioms : List Axiom) : Option Entity :=
  axioms.findSome? fun a => a.entities.toList.find? (¬v.contains ·)

/-- The axioms, if all are normal forms. -/
def requireNormal (axioms : List Axiom) : Except Fault (OrderedSet NormalAxiom) := do
  let forms ← axioms.mapM fun
    | .normal a => return a
    | a => throw (.notNormal a)
  return .ofList forms compare

/-- Classify normal forms. -/
def classifyNormal (config : Config) (cancelled : Bool) (axioms : OrderedSet NormalAxiom) :
    Minting Classification := do
  let axioms ← if config.saturateRoles then Converse.close axioms else pure axioms
  let v ← get
  let o ← Minting.ofExcept (Ontology.build v axioms)
  let (outcome, st) := Completion.RuleTable.full.run
    ⟨cancelled, config.timeoutMs⟩ (Completion.State.initial o)
  let processed ← Minting.ofExcept outcome
  Minting.ofExcept (Classification.ofState v st processed)

/-- Classify axioms. -/
def classify (config : Config) (cancelled : Bool) (axioms : List Axiom) :
    Minting Classification := do
  match firstUnknown? (← get) axioms with
  | some e => throw (.unknownEntity e)
  | none =>
      let forms ←
        if config.normalize then Normalization.normalize axioms
        else Minting.ofExcept (requireNormal axioms)
      classifyNormal config cancelled forms

end Reasoner

end OwlEl
