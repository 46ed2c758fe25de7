import OwlEl.Completion.Run
import OwlEl.Taxonomy

/-!
# Classifications

A classification answers questions about an ontology from the facts that the
rules have derived. Answers mention classes and properties that are registered
under a name; auxiliary ones are left out. A class that cannot have members is
included in every class, and everything that is not in the ontology is unknown.
-/

namespace OwlEl

/-- How much there was to classify, and how much was derived. -/
structure Statistics where
  axioms : Nat
  classes : Nat
  properties : Nat
  subsumerFacts : Nat
  edgeFacts : Nat
  processedFacts : Nat
deriving DecidableEq

/-- The outcome of classifying an ontology. -/
structure Classification where
  /-- The relation `S`. -/
  subsumption : Multimap ClassId ClassId
  /-- The relations `R(r)`, by `r` and the first component. -/
  edges : Multimap (PropertyId × ClassId) ClassId
  namedClasses : OrderedSet ClassId
  namedProperties : OrderedSet PropertyId
  /-- For each individual the last of the nominal classes that hold it. -/
  nominals : Std.TreeMap IndividualId ClassId
  /-- What lies above each property. -/
  propertiesAbove : Std.TreeMap PropertyId (List PropertyId)
  statistics : Statistics

namespace Classification

/-- The entities that are registered under a name. -/
def named {k : Kind} (v : Vocabulary) (ids : List (Id k)) : Except Fault (OrderedSet (Id k)) := do
  let ids ← ids.filterM fun (id : Id k) => do return !(← v.isAuxiliary id)
  return .ofList ids compare

/-- The classification that a state amounts to after so many facts have been processed. -/
def ofState {o : Ontology} (v : Vocabulary) (st : Completion.State o) (processed : Nat) :
    Except Fault Classification := do
  return {
    subsumption := st.subsumers
    edges := st.successors
    namedClasses := ← named v o.classes
    namedProperties := ← named v o.properties
    nominals := .ofList o.nominals compare
    propertiesAbove := o.superProperties
    statistics :=
      { axioms := o.axioms.length
        classes := o.classes.length
        properties := o.properties.length
        subsumerFacts := st.subsumerCount
        edgeFacts := st.edgeCount
        processedFacts := processed } }

variable (k : Classification)

/-- Whether the class can have members. -/
def isSatisfiable (c : ClassId) : Bool := !k.subsumption.contains c .bottom

/-- Whether the first class is included in the second. -/
def isSubsumedBy (c d : ClassId) : Bool :=
  k.subsumption.contains c .bottom || k.subsumption.contains c d

/-- The named classes that include the class. -/
def subsumers (c : ClassId) : OrderedSet ClassId := k.namedClasses.filter (k.isSubsumedBy c)

/-- The named classes that include the class and are included in it. -/
def equivalents (c : ClassId) : OrderedSet ClassId :=
  (k.subsumers c).filter fun d => k.isSubsumedBy d c

/-- The named classes that cannot have members, but for the empty class itself. -/
def unsatisfiable : OrderedSet ClassId :=
  k.namedClasses.filter fun c => c ≠ .bottom && !k.isSatisfiable c

/-- Whether something can exist, and every individual that has a nominal class. -/
def isConsistent : Bool :=
  k.isSatisfiable .top && k.nominals.toList.all fun (_, c) => k.isSatisfiable c

/-- The classes, auxiliary ones among them, into which every member of the class is led by
the property. -/
def successors (r : PropertyId) (c : ClassId) : List ClassId := k.edges.values (r, c)

/-- The named classes that the individual is in. -/
def typesOf (i : IndividualId) : OrderedSet ClassId :=
  match k.nominals[i]? with
  | some c => k.subsumers c
  | none => .ofList [.top] compare

/-- The individuals that are in the class. -/
def instancesOf (c : ClassId) : List IndividualId :=
  k.nominals.toList.filterMap fun (i, nominal) =>
    if k.isSubsumedBy nominal c then some i else none

/-- The named properties above the property, itself included. -/
def superProperties (r : PropertyId) : OrderedSet PropertyId :=
  .ofList ((k.propertiesAbove.getD r []).filter k.namedProperties.contains) compare

/-- The named properties above the property that it is above of in turn. -/
def equivalentProperties (r : PropertyId) : OrderedSet PropertyId :=
  (k.superProperties r).filter fun s => (k.propertiesAbove.getD s []).contains r

/-- The taxonomy of the named classes. -/
def taxonomy : Taxonomy := .build k.namedClasses fun c => (k.subsumers c).toList

end Classification

end OwlEl
