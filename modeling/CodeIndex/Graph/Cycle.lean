import CodeIndex.Graph.Adjacency

/-!
Import cycles. A cycle is written as the list of its files from the smallest one on. The search
starts at every file in turn and follows only larger files, so each cycle is met from its smallest
file and no rotation of it is met again.
-/
namespace CodeIndex.Graph

/-- A closed walk: each file imports the next one and the last one imports the first. -/
structure Cycle where
  nodes : List String
  deriving DecidableEq, Repr

namespace Cycle

/-- The place of the first smallest element, given the best one so far. -/
def firstLeast (best : String) (bestAt : Nat) : Nat → List String → Nat
  | _, [] => bestAt
  | i, x :: xs =>
    if x < best then firstLeast x i (i + 1) xs else firstLeast best bestAt (i + 1) xs

/-- The same closed walk from its smallest file on. -/
def normalized (nodes : List String) : Cycle :=
  match nodes with
  | [] => ⟨[]⟩
  | x :: xs => ⟨nodes.rotateLeft (firstLeast x 0 1 xs)⟩

def contains (c : Cycle) (path : String) : Bool := c.nodes.contains path

/-- Inserts into an ascending list of cycles without repetition. -/
def insertSorted (c : Cycle) : List Cycle → List Cycle
  | [] => [c]
  | d :: ds =>
    if c.nodes < d.nodes then c :: d :: ds else if c = d then d :: ds else d :: insertSorted c ds

end Cycle

/-- The cycles found, and whether the bound cut a path off. -/
structure Detection where
  cycles : List Cycle
  depthLimited : Bool
  deriving DecidableEq, Repr

namespace Detection

def none : Detection := ⟨[], false⟩

def append (a b : Detection) : Detection := ⟨a.cycles ++ b.cycles, a.depthLimited || b.depthLimited⟩

end Detection

/-- The largest number of files in a reported cycle, unless a caller says otherwise. -/
def defaultCycleDepth : Nat := 5

mutual

/-- Follows the targets of the last file of a path. The path is kept in reverse; `room` says how
many more files it may hold. -/
def explore (g : Adjacency) (start : String) (path : List String) (room : Nat) (node : String) :
    Detection :=
  exploreTargets g start path room (g.targets node)
termination_by (room, (g.targets node).length + 1)

def exploreTargets (g : Adjacency) (start : String) (path : List String) (room : Nat)
    (targets : List String) : Detection :=
  match targets with
  | [] => Detection.none
  | next :: rest =>
    let found : Detection :=
      if next = start then ⟨[Cycle.normalized path.reverse], false⟩
      else if next < start || path.contains next then Detection.none
      else
        match room with
        | 0 => ⟨[], true⟩
        | room' + 1 => explore g start (next :: path) room' next
    found.append (exploreTargets g start path room rest)
termination_by (room, targets.length)

end

/-- All cycles of at most `maxDepth` files in ascending order; the bound is at least one. -/
def detectCycles (maxDepth : Nat) (g : Adjacency) : Detection :=
  let found := g.sources.foldl
    (fun acc start => acc.append (explore g start [start] (max maxDepth 1 - 1) start))
    Detection.none
  ⟨found.cycles.foldl (fun acc c => c.insertSorted acc) [], found.depthLimited⟩

end CodeIndex.Graph
