import CodeIndex.Graph.Adjacency
import CodeIndex.Path
import CodeIndex.Text.Pieces

/-!
Walks of bounded depth through a graph of files, level by level.
-/
namespace CodeIndex.Graph

def testDirectories : List String := ["__tests__", "test", "tests"]

/-- Test files are told by a mark in their name or by a directory above them. -/
def isTestFile (path : String) : Bool :=
  Text.Pieces.occursIn ".test." (Path.baseName path)
    || Text.Pieces.occursIn ".spec." (Path.baseName path)
    || (Text.Pieces.split '/' path).dropLast.any testDirectories.contains

/-- The files at one distance from the start. -/
structure Level where
  depth : Nat
  files : List String
  deriving DecidableEq, Repr

structure Traversal where
  levels : List Level
  /-- The edges that leave the expanded files, in the order of expansion. -/
  edges : List (String × String)
  /-- Whether a file lies one step beyond the last level. -/
  depthLimited : Bool
  deriving DecidableEq, Repr

/-- The edges that leave the files of a level, without those into left-out test files. -/
def leaving (g : Adjacency) (includeTests : Bool) (frontier : List String) :
    List (String × String) :=
  frontier.flatMap fun node =>
    ((g.targets node).filter fun t => includeTests || !isTestFile t).map fun t => (node, t)

/-- Expands a level; the second number is how many levels may still follow. -/
def expand (g : Adjacency) (includeTests : Bool) (level : Nat) :
    Nat → List String → List String → Traversal
  | 0, visited, frontier =>
    ⟨[], [], (leaving g includeTests frontier).any fun e => !visited.contains e.2⟩
  | left + 1, visited, frontier =>
    let edges := leaving g includeTests frontier
    let next := sortDistinct ((edges.map Prod.snd).filter fun t => !visited.contains t)
    if next.isEmpty then ⟨[], edges, false⟩
    else
      let rest := expand g includeTests (level + 1) left (visited ++ next) next
      ⟨⟨level, next⟩ :: rest.levels, edges ++ rest.edges, rest.depthLimited⟩

/-- The files within the given number of steps. A left-out test file is not walked through. -/
def traverse (g : Adjacency) (start : String) (depth : Nat) (includeTests : Bool) : Traversal :=
  expand g includeTests 1 depth [start] [start]

end CodeIndex.Graph
