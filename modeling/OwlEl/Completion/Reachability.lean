import OwlEl.Data.Multimap
import OwlEl.Entity

/-!
# Reachability along derived edges

A class is reachable when edges of whatever properties lead to it, either from a
given class or from one of the nominal classes, which are reachable from
everywhere. The index grows by one edge at a time, and each time reports what
has become reachable by it.
-/

namespace OwlEl

/-- What is known to be reachable. -/
structure Reachability where
  /-- The classes that are reached from a nominal class, the nominal classes included. -/
  fromNominals : Std.TreeSet ClassId
  /-- The classes that are reached from a class by at least one edge. -/
  targets : Multimap ClassId ClassId
  /-- The classes that reach a class by at least one edge. -/
  sources : Multimap ClassId ClassId

/-- What has become reachable. -/
structure NewlyReachable where
  /-- Pairs whose first component now reaches the second. -/
  pairs : List (ClassId × ClassId)
  /-- Classes that are now reached from a nominal class. -/
  fromNominals : List ClassId

namespace Reachability

/-- The reachability before any edge is added. -/
def ofNominals (nominalClasses : Std.TreeSet ClassId) : Reachability := ⟨nominalClasses, ∅, ∅⟩

/-- Whether the second class is reached from the first or from a nominal class. -/
def reaches (r : Reachability) (x y : ClassId) : Bool :=
  x = y || r.fromNominals.contains y || r.targets.contains x y

/-- The unknown classes that the classes of the stack lead to, in the order of a depth-first
search that does not go on from known classes. Every step takes one class from the stack. -/
def search (successors : ClassId → List ClassId) :
    Nat → List ClassId → Std.TreeSet ClassId → List ClassId
  | 0, _, _ => []
  | _, [], _ => []
  | steps + 1, c :: stack, known =>
      if known.contains c then search successors steps stack known
      else c :: search successors steps ((successors c).reverse ++ stack) (known.insert c)

/-- Record the classes that are newly reached from `source`. -/
def record (r : Reachability) (source : ClassId) (found : List ClassId) : Reachability :=
  { r with
    targets := found.foldl (·.insert source ·) r.targets
    sources := found.foldl (·.insert · source) r.sources }

/-- Add the edge from `x` to `y`, given all edges by their `successors`. A search pops no
more than `steps` classes, which one more than the number of edges allows. -/
def extend (successors : ClassId → List ClassId) (steps : Nat) (r : Reachability)
    (x y : ClassId) : Reachability × NewlyReachable :=
  let fromNominals :=
    if r.fromNominals.contains x then search successors steps [y] r.fromNominals else []
  let r := { r with fromNominals := fromNominals.foldl .insert r.fromNominals }
  let (r, pairs) := (r.sources.values x ++ [x]).foldl
    (fun (r, pairs) source =>
      let found := search successors steps [y] (r.targets.get source)
      (r.record source found, pairs ++ found.map (source, ·)))
    (r, [])
  (r, { pairs, fromNominals })

end Reachability

end OwlEl
