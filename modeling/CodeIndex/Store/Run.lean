import CodeIndex.Store.Basic

/-!
Storing one run of a repository. The run takes the place of all that was stored for the repository
before; files that stay keep their ids. What the run no longer has is queued for the next export.
Either all of the run is stored or nothing is.
-/
namespace CodeIndex.Store

structure Run where
  files : List SourceFile
  symbols : List Symbol
  references : List Reference
  edges : List Edge

structure RunCounts where
  filesStored : Nat
  filesRemoved : Nat
  symbolsStored : Nat
  referencesStored : Nat
  edgesStored : Nat
  deriving DecidableEq, Repr

/-- The keys of the symbols, references and edges stored for a repository. -/
def derivedKeys (s : Store) (r : RepositoryRow) : List Sync.Deletion :=
  let path (id : Id) : Option String := (s.fileById? id).map FileRow.path
  (s.symbols.filter fun x => x.repositoryId == r.id).filterMap
      (fun x => (path x.fileId).map fun p => .symbol r.fullName p x.name x.lineStart)
    ++ (s.references.filter fun x => x.repositoryId == r.id).filterMap
      (fun x => (path x.fileId).map fun p =>
        .reference r.fullName p x.line x.column x.kind.name x.name)
    ++ (s.edges.filter fun e => e.repositoryId == r.id).map (fun e => .edge r.fullName e.key)

/-- The ids that a run uses for its paths; the last entry of a path counts. -/
abbrev FileIds := List (String × Id)

def fileId? (ids : FileIds) (path : String) : Option Id :=
  (ids.find? fun e => e.1 == path).map Prod.snd

/-- Writes one file over the row of its path, or as a new row. -/
def putFile (s : Store) (repositoryId id : Id) (f : SourceFile) : Store :=
  match s.file? repositoryId f.path with
  | some _ =>
    { s with
      files := s.files.map fun row =>
        if row.repositoryId == repositoryId && row.path == f.path then
          { row with
            content := f.content, language := f.language, size := f.size,
            contentHash := f.contentHash, indexedAt := f.indexedAt }
        else row }
  | none =>
    { s with
      files := s.files ++
        [{ id, repositoryId, path := f.path, content := f.content, language := f.language,
           size := f.size, contentHash := f.contentHash, indexedAt := f.indexedAt }] }

/-- Writes the files of a run. `existing` are the ids of the paths that were stored before. -/
def putFiles (repositoryId : Id) (existing : FileIds) :
    Store → FileIds → List SourceFile → Store × FileIds
  | s, ids, [] => (s, ids)
  | s, ids, f :: rest =>
    let (id, s) := match fileId? existing f.path with
      | some id => (id, s)
      | none => s.freshId
    putFiles repositoryId existing (s.putFile repositoryId id f)
      ((f.path, id) :: ids.filter fun e => e.1 != f.path) rest

def requireFile (ids : FileIds) (path : String) : Except Error Id :=
  match fileId? ids path with
  | some id => .ok id
  | none => .error (.notInRun path)

/-- Whether the file that a row names is there. -/
def checkFile (s : Store) (id : Id) : Except Error Unit :=
  if (s.fileById? id).isSome then .ok () else .error (.storage .missingParent)

abbrev SymbolIds := List (SymbolKey × Id)

def symbolId? (ids : SymbolIds) (key : SymbolKey) : Option Id :=
  (ids.find? fun e => e.1 == key).map Prod.snd

/-- Writes the symbols of a run; of several with one key the first counts. -/
def putSymbols (repositoryId : Id) (files : FileIds) :
    Store → SymbolIds → List Symbol → Except Error (Store × SymbolIds)
  | s, ids, [] => .ok (s, ids)
  | s, ids, x :: rest => do
    let fileId ← requireFile files x.filePath
    if (s.symbol? fileId x.name x.lineStart).isSome then
      putSymbols repositoryId files s ids rest
    else
      checkFile s fileId
      let (id, s) := s.freshId
      let row : SymbolRow :=
        { id, fileId, repositoryId, name := x.name, kind := x.kind, lineStart := x.lineStart,
          lineEnd := x.lineEnd, signature := x.signature, documentation := x.documentation,
          isExported := x.isExported }
      putSymbols repositoryId files { s with symbols := s.symbols ++ [row] }
        (ids ++ [(x.key, id)]) rest

/-- Whether two reference rows stand for the same use. -/
def sameUse (a b : ReferenceRow) : Bool :=
  a.fileId == b.fileId && a.line == b.line && a.column == b.column && a.kind == b.kind
    && a.name == b.name

/-- Writes the references of a run and counts the new rows. -/
def putReferences (repositoryId : Id) (files : FileIds) (symbols : SymbolIds) :
    Store → Nat → List Reference → Except Error (Store × Nat)
  | s, n, [] => .ok (s, n)
  | s, n, r :: rest => do
    let fileId ← requireFile files r.filePath
    let row : ReferenceRow :=
      { fileId, repositoryId, name := r.name, kind := r.kind, line := r.line, column := r.column,
        targetFilePath := r.targetFilePath,
        targetSymbolId := r.targetSymbol.bind (symbolId? symbols), metadata := r.metadata }
    if s.references.any (sameUse row) then putReferences repositoryId files symbols s n rest
    else
      checkFile s fileId
      putReferences repositoryId files symbols { s with references := s.references ++ [row] }
        (n + 1) rest

def requireFile? (ids : FileIds) : Option String → Except Error (Option Id)
  | none => .ok none
  | some path => (requireFile ids path).map some

def checkFile? (s : Store) : Option Id → Except Error Unit
  | none => .ok ()
  | some id => checkFile s id

/-- Whether a row has both files or both symbols. -/
def EdgeRow.isComplete (e : EdgeRow) : Bool :=
  (e.fromFileId.isSome && e.toFileId.isSome) || (e.fromSymbolId.isSome && e.toSymbolId.isSome)

/-- Writes the edges of a run and counts the new rows. -/
def putEdges (repositoryId : Id) (files : FileIds) (symbols : SymbolIds) :
    Store → Nat → List Edge → Except Error (Store × Nat)
  | s, n, [] => .ok (s, n)
  | s, n, e :: rest => do
    if !e.isWellFormed then throw (.openEdge e.key)
    let row : EdgeRow :=
      { repositoryId, key := e.key, kind := e.kind,
        fromFileId := ← requireFile? files e.fromFile, toFileId := ← requireFile? files e.toFile,
        fromSymbolId := e.fromSymbol.bind (symbolId? symbols),
        toSymbolId := e.toSymbol.bind (symbolId? symbols) }
    if !EdgeRow.isComplete row then throw (.storage .incompleteEdge)
    if s.edges.any fun x => x.repositoryId == repositoryId && x.key == row.key then
      putEdges repositoryId files symbols s n rest
    else
      checkFile? s row.fromFileId
      checkFile? s row.toFileId
      putEdges repositoryId files symbols { s with edges := s.edges ++ [row] } (n + 1) rest

/-- Stores a run for the repository with the given id at the given time. -/
def storeRun (s : Store) (repositoryId : Id) (now : Int) (run : Run) :
    Except Error (RunCounts × Store) :=
  match s.repositoryById? repositoryId with
  | none => .error (.repositoryNotFound repositoryId.text)
  | some repository => do
    let previous := s.derivedKeys repository
    let existing : FileIds :=
      (s.files.filter fun f => f.repositoryId == repositoryId).map fun f => (f.path, f.id)
    let (s, files) := putFiles repositoryId existing (s.removeDerived repositoryId) [] run.files
    let gone := existing.filter fun e => (fileId? files e.1).isNone
    let s := (s.removeFiles fun f => (gone.map Prod.snd).contains f.id).enqueueAll
      (gone.map fun e => .file repository.fullName e.1)
    let (s, symbols) ← putSymbols repositoryId files s [] run.symbols
    let (s, referencesStored) ← putReferences repositoryId files symbols s 0 run.references
    let (s, edgesStored) ← putEdges repositoryId files symbols s 0 run.edges
    let current := s.derivedKeys repository
    let s := s.enqueueAll (previous.filter fun k => !current.contains k)
    let s :=
      { s with
        repositories := s.repositories.map fun r =>
          if r.id == repositoryId then { r with lastIndexedAt := some now } else r }
    return ({ filesStored := files.length, filesRemoved := gone.length,
              symbolsStored := symbols.length, referencesStored, edgesStored }, s)

/-- Inserts or updates a repository and stores a run for it. -/
def storeRepository (s : Store) (d : Descriptor) (id : Id) (now : Int) (run : Run) :
    Except Error (RepositoryRow × RunCounts × Store) := do
  let (repository, s) ← s.upsertRepositoryAs id d
  let (counts, s) ← s.storeRun repository.id now run
  return ({ repository with lastIndexedAt := some now }, counts, s)

end CodeIndex.Store
