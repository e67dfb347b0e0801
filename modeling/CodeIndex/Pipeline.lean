import CodeIndex.Extract.Extractor
import CodeIndex.Graph.Build
import CodeIndex.Graph.Cycle
import CodeIndex.Resolve.Alias

/-!
One run over a set of files: extract each file, resolve the imports, link the references and look
for cycles. Files that fail to parse take no part in the later stages.
-/
namespace CodeIndex.Pipeline

structure Run where
  files : List SourceFile
  failures : List Extract.Failure
  symbols : List Symbol
  references : List Reference
  resolved : Nat
  build : Graph.Build
  detection : Graph.Detection

/-- Splits the files into those that parse, with what they hold, and the failures. -/
def split (outcomes : List (SourceFile × Except Extract.Failure Extract.Extraction)) :
    List (SourceFile × Extract.Extraction) × List Extract.Failure :=
  (outcomes.filterMap fun (f, o) =>
      match o with
      | .ok x => some (f, x)
      | .error _ => none,
    outcomes.filterMap fun (_, o) =>
      match o with
      | .ok _ => none
      | .error e => some e)

/-- A run over the files of some jobs, which are shared out among the extractors of a pool. -/
def runShared (pool : Extract.Extractors) (jobs : List (Nat × SourceFile)) (aliases : Resolve.Aliases)
    (repositoryId : String) (cycleDepth : Nat) : Run :=
  let (good, failures) := split (Extract.share pool jobs)
  let files := good.map Prod.fst
  let symbols := good.flatMap fun g => g.2.symbols
  let known := files.map SourceFile.path
  let references :=
    (good.flatMap fun g => g.2.references).map (Resolve.resolveReference known aliases)
  let build := Graph.build known symbols references repositoryId
  { files
    failures
    symbols
    references := build.references
    resolved := (references.filter Resolve.isResolvedImport).length
    build
    detection := Graph.detectCycles cycleDepth (Graph.Adjacency.ofEdges build.edges) }

/-- A run in which one extractor takes all files. -/
def run (sources : List SourceFile) (aliases : Resolve.Aliases) (repositoryId : String)
    (cycleDepth : Nat) : Run :=
  runShared (fun _ => .new) (sources.map fun f => (0, f)) aliases repositoryId cycleDepth

end CodeIndex.Pipeline
