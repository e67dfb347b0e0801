import CodeIndex.Files.Walk
import CodeIndex.Pipeline
import CodeIndex.Store.Run

/-!
Indexing a directory into a store. Files that cannot be read or parsed are counted and passed over;
the run takes the place of all that was stored for the repository before.
-/
namespace CodeIndex

structure IndexStats where
  files : Nat
  symbols : Nat
  references : Nat
  dependencies : Nat
  cycles : Nat
  readErrors : Nat
  failures : List Extract.Failure

namespace Indexing

/-- The files of a root as path and content, where they can be read. -/
def readSources (t : Files.Tree) (root : Files.Location) (paths : List String) (now : Int) :
    List (Except FileFault SourceFile) :=
  paths.map fun path => (t.readText root path).map fun text => SourceFile.of path text now

/-- The path aliases of a root; a configuration that cannot be read gives none. -/
def aliasesOf (t : Files.Tree) (root : Files.Location) : Resolve.Aliases :=
  match t.readText root "tsconfig.json" with
  | .error _ => .none
  | .ok text => ((Resolve.Aliases.ofText text).toOption).getD .none

/-- The id under which a repository is or will be stored. -/
def repositoryId (s : Store) (fullName : String) : Id × Store :=
  match s.repository? fullName with
  | some r => (r.id, s)
  | none => s.freshId

end Indexing

namespace Store

/-- Indexes the described repository. The files are those given, or all source files below its
root. -/
def index (s : Store) (t : Files.Tree) (config : IndexConfig) (d : Descriptor)
    (listed : Option (List String)) (now : Int) : Except Error (IndexStats × Store) :=
  match t.resolve [] d.root, t.isDirectory [] d.root with
  | .ok root, true => do
    let paths := listed.getD ((Files.walk t config root).map Files.Source.relative)
    let outcomes := Indexing.readSources t root paths now
    let sources := outcomes.filterMap Except.toOption
    let (id, s) := Indexing.repositoryId s d.fullName
    let run := Pipeline.run sources (Indexing.aliasesOf t root) id.text config.cycleDepth
    let (_, counts, s) ← s.storeRepository d id now
      ⟨run.files, run.symbols, run.references, run.build.edges⟩
    return ({ files := counts.filesStored
              symbols := run.symbols.length
              references := run.references.length
              dependencies := run.build.edges.length
              cycles := run.detection.cycles.length
              readErrors := outcomes.length - sources.length
              failures := run.failures }, s)
  | _, _ => .error (.invalidArgument (.notDirectory d.root))

end Store

end CodeIndex
