import CodeIndex.Graph.Cycle
import CodeIndex.Graph.Direction
import CodeIndex.Graph.Traversal
import CodeIndex.Store.Basic

/-!
Questions that a store answers: what a repository holds, what was indexed last, what depends on a
file, and how much of everything there is.
-/
namespace CodeIndex.Store

def listRepositories (s : Store) : List RepositoryRow :=
  s.repositories.mergeSort fun a b => (compare a.fullName b.fullName).isLE

def requireRepository (s : Store) (fullName : String) : Except Error RepositoryRow :=
  match s.repository? fullName with
  | some r => .ok r
  | none => .error (.repositoryNotFound fullName)

/-- A symbol row as a symbol. -/
def symbolOf? (s : Store) (x : SymbolRow) : Option Symbol :=
  (s.fileById? x.fileId).map fun f =>
    { filePath := f.path, name := x.name, kind := x.kind, lineStart := x.lineStart,
      lineEnd := x.lineEnd, signature := x.signature, documentation := x.documentation,
      isExported := x.isExported }

def compareSymbols (a b : Symbol) : Ordering :=
  (compare a.filePath b.filePath).then
    ((compare a.lineStart b.lineStart).then (compare a.name b.name))

/-- A reference row as a reference. -/
def referenceOf? (s : Store) (r : ReferenceRow) : Option Reference :=
  (s.fileById? r.fileId).map fun f =>
    { filePath := f.path, name := r.name, kind := r.kind, line := r.line, column := r.column,
      targetFilePath := r.targetFilePath, targetSymbol := s.symbolKey? r.targetSymbolId,
      metadata := r.metadata }

def compareReferences (a b : Reference) : Ordering :=
  (compare a.filePath b.filePath).then
    ((compare a.line b.line).then
      ((compare a.column b.column).then
        ((compare a.kind.name b.kind.name).then (compare a.name b.name))))

/-- An edge row as an edge of the repository with the given id. -/
def edgeOf (s : Store) (repositoryId : String) (e : EdgeRow) : Edge :=
  { repositoryId, kind := e.kind, fromFile := s.filePath? e.fromFileId,
    toFile := s.filePath? e.toFileId, fromSymbol := s.symbolKey? e.fromSymbolId,
    toSymbol := s.symbolKey? e.toSymbolId }

def loadSymbols (s : Store) (fullName : String) : Except Error (List Symbol) := do
  let r ← s.requireRepository fullName
  return ((s.symbols.filter fun x => x.repositoryId == r.id).filterMap s.symbolOf?).mergeSort
    fun a b => (compareSymbols a b).isLE

def loadReferences (s : Store) (fullName : String) : Except Error (List Reference) := do
  let r ← s.requireRepository fullName
  return ((s.references.filter fun x => x.repositoryId == r.id).filterMap
    s.referenceOf?).mergeSort fun a b => (compareReferences a b).isLE

/-- The edges of a repository by their stored keys, with the repository. -/
def loadEdges (s : Store) (fullName : String) : Except Error (RepositoryRow × List Edge) := do
  let r ← s.requireRepository fullName
  let rows := (s.edges.filter fun e => e.repositoryId == r.id).mergeSort
    fun a b => (compare a.key b.key).isLE
  return (r, rows.map (s.edgeOf r.id.text))

/-- The first rows of a list; a count beyond the signed range of 64 bits means all of them. -/
def limited {α : Type} (limit : Nat) (rows : List α) : List α :=
  if limit % 0x10000000000000000 < 0x8000000000000000 then
    rows.take (limit % 0x10000000000000000)
  else rows

structure FileSummary where
  id : Id
  repository : String
  path : String
  language : Language
  size : Nat
  contentHash : String
  indexedAt : Int
  deriving DecidableEq, Repr

def compareRecent (a b : FileSummary) : Ordering :=
  (compare b.indexedAt a.indexedAt).then
    ((compare a.repository b.repository).then (compare a.path b.path))

/-- The files that were indexed last, newest first. -/
def recentFiles (s : Store) (limit : Nat) (repository : Option String) : List FileSummary :=
  let rows := s.files.filterMap fun f => do
    let r ← s.repositoryById? f.repositoryId
    if (repository.map (· == r.fullName)).getD true then
      return { id := f.id, repository := r.fullName, path := f.path, language := f.language,
               size := f.size, contentHash := f.contentHash, indexedAt := f.indexedAt }
    else none
  limited limit (rows.mergeSort fun a b => (compareRecent a b).isLE)

/-- The files that a file imports. -/
def importsOf (s : Store) (fileId : Id) : List String :=
  Graph.sortDistinct
    ((s.edges.filter fun e => e.kind == .fileImport && e.fromFileId == some fileId).filterMap
      fun e => s.filePath? e.toFileId)

/-- The pairs of importing and imported files of a repository. -/
def importPairs (s : Store) (repositoryId : Id) : List (String × String) :=
  (s.edges.filter fun e => e.repositoryId == repositoryId && e.kind == .fileImport).filterMap
    fun e => do return (← s.filePath? e.fromFileId, ← s.filePath? e.toFileId)

/-- A repository that was never indexed comes after all that were. -/
def compareNewest (a b : RepositoryRow) : Ordering :=
  let time : Ordering :=
    match a.lastIndexedAt, b.lastIndexedAt with
    | some x, some y => compare y x
    | some _, none => .lt
    | none, some _ => .gt
    | none, none => .eq
  time.then (compare a.fullName b.fullName)

/-- The repository that a path is looked up in: the named one, or the one indexed last among those
that hold the path. -/
def locate (s : Store) (path : String) (repository : Option String) :
    Except Error (Option RepositoryRow) :=
  match repository with
  | some fullName => do
    let r ← s.requireRepository fullName
    return if (s.file? r.id path).isSome then some r else none
  | none =>
    let holders := s.repositories.filter fun r => (s.file? r.id path).isSome
    .ok (holders.mergeSort fun a b => (compareNewest a b).isLE).head?

structure Dependencies where
  filePath : String
  repository : Option String
  direction : Graph.Direction
  depth : Nat
  dependents : List Graph.Level
  dependencies : List Graph.Level
  cycles : List Graph.Cycle
  depthLimited : Bool
  deriving DecidableEq, Repr

namespace Dependencies

/-- The files of the first level. -/
def direct (levels : List Graph.Level) : List String :=
  match levels.find? fun l => l.depth == 1 with
  | some l => l.files
  | none => []

/-- The files of all later levels. -/
def indirect (levels : List Graph.Level) : List String :=
  (levels.filter fun l => l.depth > 1).flatMap Graph.Level.files

end Dependencies

/-- The files around a file in the import graph, with the cycles among the edges met. -/
def queryDependencies (s : Store) (path : String) (direction : Graph.Direction) (depth : Nat)
    (includeTests : Bool) (repository : Option String) : Except Error Dependencies :=
  if depth < 1 || maxQueryDepth < depth then .error (.invalidArgument (.depth depth))
  else do
    let base : Dependencies :=
      { filePath := path, repository := none, direction, depth, dependents := [],
        dependencies := [], cycles := [], depthLimited := false }
    match ← s.locate path repository with
    | none => return base
    | some r =>
      let imports := s.importPairs r.id
      let none : Graph.Traversal := ⟨[], [], false⟩
      let down := if direction.includesDependencies then
        Graph.traverse (.ofPairs imports) path depth includeTests else none
      let up := if direction.includesDependents then
        Graph.traverse (.ofPairs (imports.map Prod.swap)) path depth includeTests else none
      let followed := down.edges ++ up.edges.map Prod.swap
      let found := Graph.detectCycles Graph.defaultCycleDepth (.ofPairs followed)
      return { base with
        repository := some r.fullName
        dependents := up.levels
        dependencies := down.levels
        cycles := found.cycles
        depthLimited := down.depthLimited || up.depthLimited || found.depthLimited }

structure Stats where
  repositories : Nat
  files : Nat
  symbols : Nat
  references : Nat
  edges : Nat
  languages : List (Language × Nat)
  symbolKinds : List (SymbolKind × Nat)

/-- How often each value occurs, the most frequent first and then by name. -/
def tally {α : Type} [DecidableEq α] (name : α → String) (all : List α) (xs : List α) :
    List (α × Nat) :=
  ((all.map fun a => (a, xs.count a)).filter fun p => p.2 > 0).mergeSort
    fun a b => ((compare b.2 a.2).then (compare (name a.1) (name b.1))).isLE

def stats (s : Store) : Stats :=
  { repositories := s.repositories.length
    files := s.files.length
    symbols := s.symbols.length
    references := s.references.length
    edges := s.edges.length
    languages := tally Language.name Language.all (s.files.map FileRow.language)
    symbolKinds := tally SymbolKind.name SymbolKind.all (s.symbols.map SymbolRow.kind) }

end CodeIndex.Store
