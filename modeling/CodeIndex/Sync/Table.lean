import CodeIndex.Store.Project
import CodeIndex.Sync.Record

/-!
The exported tables: how each is read out of a store in the order of its natural keys, and how a
record is put into a store. A row that is there keeps its id.
-/
namespace CodeIndex.Sync

/-- Why a record is passed over. -/
inductive Rejection where
  | unreadable (f : Json.Fault)
  | hashMismatch (path : String)
  | noRepository (name : String)
  | noFile (path : String)
  | noSymbol (key : SymbolKey)
  | noProject (name : String)
  | openEdge

namespace Rejection

def message : Rejection → String
  | unreadable f => f.message
  | hashMismatch path => "content hash mismatch for " ++ path
  | noRepository name => "repository " ++ name ++ " not found"
  | noFile path => "file " ++ path ++ " not found"
  | noSymbol key =>
    "symbol " ++ key.name ++ "@" ++ toString key.lineStart ++ " in " ++ key.filePath
      ++ " not found"
  | noProject name => "project " ++ name ++ " not found"
  | openEdge => "edge has no complete endpoint pair"

end Rejection

abbrev Upsert := Except Rejection Store

def requireRepository (s : Store) (fullName : String) : Except Rejection RepositoryRow :=
  match s.repository? fullName with
  | some r => .ok r
  | none => .error (.noRepository fullName)

def file? (s : Store) (repository path : String) : Option FileRow :=
  (s.repository? repository).bind fun r => s.file? r.id path

def requireFile (s : Store) (repository path : String) : Except Rejection FileRow :=
  match file? s repository path with
  | some f => .ok f
  | none => .error (.noFile path)

def symbol? (s : Store) (repository : String) (key : SymbolKey) : Option SymbolRow :=
  (file? s repository key.filePath).bind fun f => s.symbol? f.id key.name key.lineStart

/-! Repositories -/

def loadRepositories (s : Store) : List RepositoryRecord :=
  s.listRepositories.map fun r => ⟨r.fullName, r.name, r.gitUrl, r.defaultBranch, r.lastIndexedAt⟩

def upsertRepository (s : Store) (r : RepositoryRecord) : Upsert :=
  match s.repository? r.fullName with
  | some _ =>
    .ok { s with
      repositories := s.repositories.map fun row =>
        if row.fullName == r.fullName then
          { row with
            name := r.name, gitUrl := r.gitUrl, defaultBranch := r.defaultBranch,
            lastIndexedAt := r.lastIndexedAt }
        else row }
  | none =>
    let (id, s) := s.freshId
    .ok { s with
      repositories := s.repositories ++
        [⟨id, r.name, r.fullName, r.gitUrl, r.defaultBranch, r.lastIndexedAt⟩] }

/-! Files -/

/-- The full name of the repository of a row. -/
def ownerOf (s : Store) (id : Id) : Option String :=
  (s.repositoryById? id).map RepositoryRow.fullName

def loadFiles (s : Store) : List FileRecord :=
  (s.files.filterMap fun f =>
    (ownerOf s f.repositoryId).map fun r =>
      (⟨r, f.path, f.language, f.size, f.contentHash, f.indexedAt, f.content⟩ : FileRecord)).mergeSort
    fun a b => ((compare a.repository b.repository).then (compare a.path b.path)).isLE

def upsertFile (s : Store) (f : FileRecord) : Upsert := do
  if Digest.Sha256.hex f.content != f.contentHash then throw (.hashMismatch f.path)
  let r ← requireRepository s f.repository
  match s.file? r.id f.path with
  | some _ =>
    return { s with
      files := s.files.map fun row =>
        if row.repositoryId == r.id && row.path == f.path then
          { row with
            content := if row.contentHash == f.contentHash then row.content else f.content
            contentHash := f.contentHash
            language := f.language, size := f.size, indexedAt := f.indexedAt }
        else row }
  | none =>
    let (id, s) := s.freshId
    return { s with
      files := s.files ++
        [⟨id, r.id, f.path, f.content, f.language, f.size, f.contentHash, f.indexedAt⟩] }

/-! Symbols -/

def compareSymbolRecords (a b : SymbolRecord) : Ordering :=
  (compare a.repository b.repository).then
    ((compare a.filePath b.filePath).then
      ((compare a.lineStart b.lineStart).then (compare a.name b.name)))

def loadSymbols (s : Store) : List SymbolRecord :=
  (s.symbols.filterMap fun x => do
    let f ← s.fileById? x.fileId
    let r ← ownerOf s f.repositoryId
    return ⟨r, f.path, x.name, x.kind, x.lineStart, x.lineEnd, x.signature, x.documentation,
      x.isExported⟩).mergeSort fun a b => (compareSymbolRecords a b).isLE

def upsertSymbol (s : Store) (x : SymbolRecord) : Upsert := do
  let f ← requireFile s x.repository x.filePath
  match s.symbol? f.id x.name x.lineStart with
  | some _ =>
    return { s with
      symbols := s.symbols.map fun row =>
        if row.fileId == f.id && row.name == x.name && row.lineStart == x.lineStart then
          { row with
            kind := x.kind, lineEnd := x.lineEnd, signature := x.signature,
            documentation := x.documentation, isExported := x.isExported }
        else row }
  | none =>
    let (id, s) := s.freshId
    return { s with
      symbols := s.symbols ++
        [⟨id, f.id, f.repositoryId, x.name, x.kind, x.lineStart, x.lineEnd, x.signature,
          x.documentation, x.isExported⟩] }

/-! References -/

def compareReferenceRecords (a b : ReferenceRecord) : Ordering :=
  (compare a.repository b.repository).then
    ((compare a.filePath b.filePath).then
      ((compare a.line b.line).then
        ((compare a.column b.column).then
          ((compare a.kind.name b.kind.name).then (compare a.name b.name)))))

def loadReferences (s : Store) : List ReferenceRecord :=
  (s.references.filterMap fun x => do
    let f ← s.fileById? x.fileId
    let r ← ownerOf s f.repositoryId
    return ⟨r, f.path, x.line, x.column, x.kind, x.name, x.targetFilePath,
      s.symbolKey? x.targetSymbolId, x.metadata⟩).mergeSort
    fun a b => (compareReferenceRecords a b).isLE

def upsertReference (s : Store) (x : ReferenceRecord) : Upsert := do
  let f ← requireFile s x.repository x.filePath
  let target := x.targetSymbol.bind fun k => (symbol? s x.repository k).map SymbolRow.id
  let matching (row : ReferenceRow) : Bool :=
    row.fileId == f.id && row.line == x.line && row.column == x.column && row.kind == x.kind
      && row.name == x.name
  if s.references.any matching then
    return { s with
      references := s.references.map fun row =>
        if matching row then
          { row with
            targetSymbolId := target, targetFilePath := x.targetFilePath, metadata := x.metadata }
        else row }
  else
    return { s with
      references := s.references ++
        [⟨f.id, f.repositoryId, x.name, x.kind, x.line, x.column, x.targetFilePath, target,
          x.metadata⟩] }

/-! Edges -/

/-- The edge of a record, which belongs to no repository by id. -/
def EdgeRecord.edge (e : EdgeRecord) : Edge :=
  { repositoryId := "", kind := e.kind, fromFile := e.fromFile, toFile := e.toFile,
    fromSymbol := e.fromSymbol, toSymbol := e.toSymbol }

def loadEdges (s : Store) : List EdgeRecord :=
  let rows := s.edges.filterMap fun e => (ownerOf s e.repositoryId).map fun r => (r, e)
  (rows.mergeSort fun a b => ((compare a.1 b.1).then (compare a.2.key b.2.key)).isLE).map
    fun (r, e) =>
      ⟨r, e.kind, s.filePath? e.fromFileId, s.filePath? e.toFileId, s.symbolKey? e.fromSymbolId,
        s.symbolKey? e.toSymbolId⟩

def requireFile? (s : Store) (repository : String) :
    Option String → Except Rejection (Option Id)
  | none => .ok none
  | some path => (requireFile s repository path).map fun f => some f.id

def requireSymbol? (s : Store) (repository : String) :
    Option SymbolKey → Except Rejection (Option Id)
  | none => .ok none
  | some key =>
    match symbol? s repository key with
    | some x => .ok (some x.id)
    | none => .error (.noSymbol key)

def upsertEdge (s : Store) (e : EdgeRecord) : Upsert := do
  if !e.edge.isWellFormed then throw .openEdge
  let r ← requireRepository s e.repository
  let fromFileId ← requireFile? s e.repository e.fromFile
  let toFileId ← requireFile? s e.repository e.toFile
  let fromSymbolId ← requireSymbol? s e.repository e.fromSymbol
  let toSymbolId ← requireSymbol? s e.repository e.toSymbol
  let key := e.edge.key
  let matching (row : EdgeRow) : Bool := row.repositoryId == r.id && row.key == key
  if s.edges.any matching then
    return { s with
      edges := s.edges.map fun row =>
        if matching row then { row with fromFileId, toFileId, fromSymbolId, toSymbolId } else row }
  else
    return { s with
      edges := s.edges ++ [⟨r.id, key, e.kind, fromFileId, toFileId, fromSymbolId, toSymbolId⟩] }

/-! Projects and memberships -/

def loadProjects (s : Store) : List ProjectRecord :=
  (s.projects.mergeSort fun a b => (compare a.name b.name).isLE).map fun p =>
    ⟨p.name, p.description, p.createdAt⟩

def upsertProject (s : Store) (p : ProjectRecord) : Upsert :=
  match s.project? p.name with
  | some _ =>
    .ok { s with
      projects := s.projects.map fun row =>
        if row.name == p.name then
          { row with description := p.description, createdAt := p.createdAt }
        else row }
  | none =>
    let (id, s) := s.freshId
    .ok { s with projects := s.projects ++ [⟨id, p.name, p.description, p.createdAt⟩] }

def loadMemberships (s : Store) : List MembershipRecord :=
  (s.memberships.filterMap fun m => do
    let p ← s.projects.find? fun p => p.id == m.projectId
    let r ← ownerOf s m.repositoryId
    return ⟨p.name, r⟩).mergeSort
      fun a b => ((compare a.project b.project).then (compare a.repository b.repository)).isLE

def upsertMembership (s : Store) (m : MembershipRecord) : Upsert :=
  match s.project? m.project with
  | none => .error (.noProject m.project)
  | some p =>
    (requireRepository s m.repository).map fun r => s.addMembership p.id r.id

/-- An exported table. -/
structure Table where
  name : String
  /-- The rows with their keys and their lines. -/
  dump : Store → List (Deletion × String)
  /-- Puts the record of a line into a store. -/
  apply : Store → String → Upsert

namespace Table

def of {α : Type} (name : String) (codec : Codec α) (load : Store → List α)
    (key : α → Deletion) (upsert : Store → α → Upsert) : Table :=
  { name
    dump := fun s => (load s).map fun a => (key a, codec.encode a)
    apply := fun s line =>
      match codec.decode line with
      | .ok a => upsert s a
      | .error f => .error (.unreadable f) }

/-- The tables in the order in which rows can name their parents. -/
def all : List Table :=
  [of "repositories" repositoryCodec loadRepositories (fun r => .repository r.fullName)
      upsertRepository,
    of "files" fileCodec loadFiles (fun f => .file f.repository f.path) upsertFile,
    of "symbols" symbolCodec loadSymbols
      (fun x => .symbol x.repository x.filePath x.name x.lineStart) upsertSymbol,
    of "references" referenceCodec loadReferences
      (fun x => .reference x.repository x.filePath x.line x.column x.kind.name x.name)
      upsertReference,
    of "dependency_edges" edgeCodec loadEdges (fun e => .edge e.repository e.edge.key) upsertEdge,
    of "projects" projectCodec loadProjects (fun p => .project p.name) upsertProject,
    of "project_repositories" membershipCodec loadMemberships
      (fun m => .membership m.project m.repository) upsertMembership]

def fileName (t : Table) : String := t.name ++ ".jsonl"

end Table

end CodeIndex.Sync
