import OwlEl.Data.Layers
import OwlEl.Entity
import Std.Data.TreeMap

/-!
# Taxonomies

The taxonomy of a set of classes groups those that include each other into nodes
and links every node to the nodes directly above and below it. It is built from
the subsumers of each class. These are meant to be closed: what subsumes a
subsumer of a class subsumes the class.
-/

namespace OwlEl

/-- Classes that include each other, and the positions of the neighbouring nodes. -/
structure TaxonomyNode where
  /-- In ascending order. -/
  members : List ClassId
  members_ne_nil : members ≠ []
  /-- The nodes directly above. -/
  parents : List Nat
  /-- The nodes directly below. -/
  children : List Nat

/-- The smallest class of the node. -/
def TaxonomyNode.representative (n : TaxonomyNode) : ClassId := n.members.head n.members_ne_nil

/-- Nodes, and the position of the node of each class. -/
structure Taxonomy where
  nodes : Array TaxonomyNode
  positions : Std.TreeMap ClassId Nat

namespace Taxonomy

/-! ## Construction -/

/-- The subsumers of each class among the classes themselves. -/
abbrev Subsumers := Std.TreeMap ClassId (OrderedSet ClassId)

/-- Every class is counted among its subsumers. -/
def subsumersWithin (classes : OrderedSet ClassId) (subsumersOf : ClassId → List ClassId) :
    Subsumers :=
  .ofList (classes.toList.map fun c =>
    (c, (Std.ExtTreeSet.ofList ((subsumersOf c).filter classes.contains) compare).insert c))
    compare

/-- The subsumers of a class. -/
def above (subsumers : Subsumers) (c : ClassId) : OrderedSet ClassId := subsumers.getD c ∅

/-- The class and those of its subsumers that it subsumes in turn. -/
def clique (subsumers : Subsumers) (c : ClassId) : OrderedSet ClassId :=
  ((above subsumers c).filter fun d => (above subsumers d).contains c).insert c

theorem clique_toList_ne_nil (subsumers : Subsumers) (c : ClassId) :
    (clique subsumers c).toList ≠ [] :=
  List.ne_nil_of_mem (Std.ExtTreeSet.mem_toList.2 Std.ExtTreeSet.mem_insert_self)

/-- Nodes without links, and the position of the node of each class. -/
def addNode (subsumers : Subsumers) (t : Taxonomy) (c : ClassId) : Taxonomy :=
  if t.positions.contains c then t
  else
    let members := (clique subsumers c).toList
    { nodes := t.nodes.push ⟨members, clique_toList_ne_nil subsumers c, [], []⟩
      positions := members.foldl (fun positions d => positions.insert d t.nodes.size) t.positions }

/-- The positions of the nodes above a node, as its representative sees them. -/
def positionsAbove (subsumers : Subsumers) (t : Taxonomy) (position : Nat) (n : TaxonomyNode) :
    OrderedSet Nat :=
  .ofList (((above subsumers n.representative).toList.filterMap (t.positions[·]?)).filter
    (· ≠ position)) compare

/-- Of the nodes above a node, those that are not above another of them. -/
def directlyAbove (strictlyAbove : Array (OrderedSet Nat)) (position : Nat) : List Nat :=
  let candidates := (strictlyAbove.getD position ∅).toList
  candidates.filter fun candidate =>
    !candidates.any fun other =>
      other ≠ candidate && (strictlyAbove.getD other ∅).contains candidate

/-- Link every node to its neighbours. -/
def link (subsumers : Subsumers) (t : Taxonomy) : Taxonomy :=
  let strictlyAbove := t.nodes.mapIdx (positionsAbove subsumers t)
  let parents := t.nodes.mapIdx fun position _ => directlyAbove strictlyAbove position
  let children (position : Nat) : List Nat :=
    (List.range parents.size).filter fun below => (parents.getD below []).contains position
  { t with
    nodes := t.nodes.mapIdx fun position n =>
      { n with parents := parents.getD position [], children := children position } }

/-- The taxonomy of the classes. Nodes are numbered by their smallest class that is not in
an earlier node; subsumers that are not among the classes are left out. -/
def build (classes : OrderedSet ClassId) (subsumersOf : ClassId → List ClassId) : Taxonomy :=
  let subsumers := subsumersWithin classes subsumersOf
  link subsumers (classes.toList.foldl (addNode subsumers) ⟨#[], ∅⟩)

/-! ## Questions -/

variable (t : Taxonomy)

/-- The node of a class. -/
def node? (c : ClassId) : Option TaxonomyNode := t.positions[c]?.bind (t.nodes[·]?)

/-- The classes that the class is equivalent to, itself included. -/
def equivalents (c : ClassId) : List ClassId :=
  match t.node? c with
  | some n => n.members
  | none => []

/-- The nodes at the given positions. -/
def nodesAt (positions : List Nat) : List TaxonomyNode := positions.filterMap (t.nodes[·]?)

/-- The nodes directly above the node of a class. -/
def directSupers (c : ClassId) : List TaxonomyNode :=
  match t.node? c with
  | some n => t.nodesAt n.parents
  | none => []

/-- The nodes directly below the node of a class. -/
def directSubs (c : ClassId) : List TaxonomyNode :=
  match t.node? c with
  | some n => t.nodesAt n.children
  | none => []

/-- The classes of the nodes that links lead to from the node of a class, without that node. -/
def linked (links : TaxonomyNode → List Nat) (c : ClassId) : OrderedSet ClassId :=
  match t.positions[c]? with
  | none => ∅
  | some start =>
      let next (position : Nat) : List Nat :=
        match t.nodes[position]? with
        | some n => links n
        | none => []
      let found := (Layers.reachable next t.nodes.size start).tail
      .ofList ((t.nodesAt found).flatMap TaxonomyNode.members) compare

/-- All classes above a class. -/
def supers (c : ClassId) : OrderedSet ClassId := t.linked TaxonomyNode.parents c

/-- All classes below a class. -/
def subs (c : ClassId) : OrderedSet ClassId := t.linked TaxonomyNode.children c

end Taxonomy

end OwlEl
