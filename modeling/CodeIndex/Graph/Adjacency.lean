import CodeIndex.Edge

/-!
Directed graphs of files. The sources of a graph and the targets of each source are kept in
ascending order without repetition.
-/
namespace CodeIndex.Graph

/-- Inserts into an ascending list without repetition. -/
def insertSorted (x : String) : List String → List String
  | [] => [x]
  | y :: ys => if x < y then x :: y :: ys else if x = y then y :: ys else y :: insertSorted x ys

/-- The elements of a list in ascending order without repetition. -/
def sortDistinct (xs : List String) : List String := xs.foldl (fun acc x => insertSorted x acc) []

structure Adjacency where
  entries : List (String × List String)
  deriving DecidableEq, Repr

namespace Adjacency

def empty : Adjacency := ⟨[]⟩

def insertEntry (source target : String) : List (String × List String) → List (String × List String)
  | [] => [(source, [target])]
  | (s, ts) :: rest =>
    if source < s then (source, [target]) :: (s, ts) :: rest
    else if source = s then (s, insertSorted target ts) :: rest
    else (s, ts) :: insertEntry source target rest

def insert (g : Adjacency) (source target : String) : Adjacency :=
  ⟨insertEntry source target g.entries⟩

def ofPairs (pairs : List (String × String)) : Adjacency :=
  pairs.foldl (fun g p => g.insert p.1 p.2) empty

def sources (g : Adjacency) : List String := g.entries.map Prod.fst

/-- The files that a file points to. -/
def targets (g : Adjacency) (source : String) : List String :=
  match g.entries.find? fun e => e.1 == source with
  | some (_, ts) => ts
  | none => []

def hasEdge (g : Adjacency) (source target : String) : Bool := (g.targets source).contains target

/-- The graph of the file imports among some edges. -/
def ofEdges (edges : List Edge) : Adjacency := ofPairs (edges.filterMap Edge.importPair?)

end Adjacency

end CodeIndex.Graph
