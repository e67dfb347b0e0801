import CodeIndex.Edge
import CodeIndex.Error
import CodeIndex.Reference
import CodeIndex.Repository
import CodeIndex.SourceFile
import CodeIndex.Sync.Deletion

/-!
The tables of an index and the removal of rows. Rows name each other by ids that mean nothing
outside their store. Removing a row removes the rows below it; a reference whose target symbol goes
away stays and loses its target. New rows go to the end of their table.
-/
namespace CodeIndex

/-- An id that a store made, or one that a caller gave. Stores have different origins. -/
inductive Id where
  | made (origin serial : Nat)
  | given (text : String)
  deriving DecidableEq, Repr

/-- How an id is written in a message. -/
def Id.text : Id → String
  | made origin serial => toString origin ++ "-" ++ toString serial
  | given text => text

structure RepositoryRow where
  id : Id
  name : String
  fullName : String
  gitUrl : Option String
  defaultBranch : String
  lastIndexedAt : Option Int
  deriving DecidableEq, Repr

structure FileRow where
  id : Id
  repositoryId : Id
  path : String
  content : String
  language : Language
  size : Nat
  contentHash : String
  indexedAt : Int
  deriving DecidableEq, Repr

structure SymbolRow where
  id : Id
  fileId : Id
  repositoryId : Id
  name : String
  kind : SymbolKind
  lineStart : Nat
  lineEnd : Nat
  signature : Option String
  documentation : Option String
  isExported : Bool
  deriving DecidableEq, Repr

structure ReferenceRow where
  fileId : Id
  repositoryId : Id
  name : String
  kind : ReferenceKind
  line : Nat
  column : Nat
  targetFilePath : Option String
  targetSymbolId : Option Id
  metadata : Metadata
  deriving DecidableEq, Repr

structure EdgeRow where
  repositoryId : Id
  key : String
  kind : EdgeKind
  fromFileId : Option Id
  toFileId : Option Id
  fromSymbolId : Option Id
  toSymbolId : Option Id
  deriving DecidableEq, Repr

structure ProjectRow where
  id : Id
  name : String
  description : Option String
  createdAt : Int
  deriving DecidableEq, Repr

structure MembershipRow where
  projectId : Id
  repositoryId : Id
  deriving DecidableEq, Repr

/-- A deletion that waits for the next export. -/
structure Pending where
  serial : Nat
  key : Sync.Deletion
  deriving DecidableEq, Repr

structure Store where
  origin : Nat
  nextSerial : Nat := 0
  repositories : List RepositoryRow := []
  files : List FileRow := []
  symbols : List SymbolRow := []
  references : List ReferenceRow := []
  edges : List EdgeRow := []
  projects : List ProjectRow := []
  memberships : List MembershipRow := []
  pending : List Pending := []
  /-- The serial of the next waiting deletion; serials are not used twice. -/
  nextPending : Nat := 1
  deriving DecidableEq, Repr

namespace Store

def empty (origin : Nat) : Store := { origin }

/-- A new id, and the store that will not make it again. -/
def freshId (s : Store) : Id × Store :=
  (.made s.origin s.nextSerial, { s with nextSerial := s.nextSerial + 1 })

def repository? (s : Store) (fullName : String) : Option RepositoryRow :=
  s.repositories.find? fun r => r.fullName == fullName

def repositoryById? (s : Store) (id : Id) : Option RepositoryRow :=
  s.repositories.find? fun r => r.id == id

def file? (s : Store) (repositoryId : Id) (path : String) : Option FileRow :=
  s.files.find? fun f => f.repositoryId == repositoryId && f.path == path

def fileById? (s : Store) (id : Id) : Option FileRow := s.files.find? fun f => f.id == id

def symbolById? (s : Store) (id : Id) : Option SymbolRow := s.symbols.find? fun x => x.id == id

def symbol? (s : Store) (fileId : Id) (name : String) (lineStart : Nat) : Option SymbolRow :=
  s.symbols.find? fun x => x.fileId == fileId && x.name == name && x.lineStart == lineStart

def project? (s : Store) (name : String) : Option ProjectRow :=
  s.projects.find? fun p => p.name == name

/-- The key by which a symbol is known outside the store. -/
def symbolKey? (s : Store) (id : Option Id) : Option SymbolKey := do
  let symbol ← s.symbolById? (← id)
  let file ← s.fileById? symbol.fileId
  return ⟨file.path, symbol.name, symbol.lineStart⟩

/-- The path of a file by its id. -/
def filePath? (s : Store) (id : Option Id) : Option String := do
  return (← s.fileById? (← id)).path

/-- Whether an end of an edge is a row that goes away. -/
def endGone (gone : List Id) (id : Option Id) : Bool :=
  match id with
  | some i => gone.contains i
  | none => false

/-- Removes symbols with the edges that end in them. -/
def removeSymbols (s : Store) (test : SymbolRow → Bool) : Store :=
  let gone := (s.symbols.filter test).map SymbolRow.id
  { s with
    symbols := s.symbols.filter fun x => !test x
    references := s.references.map fun r =>
      if endGone gone r.targetSymbolId then { r with targetSymbolId := none } else r
    edges := s.edges.filter fun e => !endGone gone e.fromSymbolId && !endGone gone e.toSymbolId }

/-- Removes files with all that stands in them and the edges that end in them. -/
def removeFiles (s : Store) (test : FileRow → Bool) : Store :=
  let gone := (s.files.filter test).map FileRow.id
  let below := s.removeSymbols fun x => gone.contains x.fileId
  { below with
    files := s.files.filter fun f => !test f
    references := below.references.filter fun r => !gone.contains r.fileId
    edges := below.edges.filter fun e =>
      !endGone gone e.fromFileId && !endGone gone e.toFileId }

/-- Removes the symbols, references and edges of a repository. -/
def removeDerived (s : Store) (repositoryId : Id) : Store :=
  let below := s.removeSymbols fun x => x.repositoryId == repositoryId
  { below with
    references := below.references.filter fun r => r.repositoryId != repositoryId
    edges := below.edges.filter fun e => e.repositoryId != repositoryId }

/-- Removes a repository with all it owns and its memberships. -/
def removeRepository (s : Store) (fullName : String) : Store :=
  match s.repository? fullName with
  | none => s
  | some r =>
    let below := (s.removeDerived r.id).removeFiles fun f => f.repositoryId == r.id
    { below with
      repositories := s.repositories.filter fun x => x.fullName != fullName
      memberships := s.memberships.filter fun m => m.repositoryId != r.id }

def removeProject (s : Store) (name : String) : Store :=
  match s.project? name with
  | none => s
  | some p =>
    { s with
      projects := s.projects.filter fun x => x.name != name
      memberships := s.memberships.filter fun m => m.projectId != p.id }

/-- Queues a deletion for the next export. -/
def enqueue (s : Store) (key : Sync.Deletion) : Store :=
  { s with
    pending := s.pending ++ [⟨s.nextPending, key⟩]
    nextPending := s.nextPending + 1 }

def enqueueAll (s : Store) (keys : List Sync.Deletion) : Store := keys.foldl enqueue s

/-- Inserts or updates a repository by its full name. The id counts only for a new one; details
that the descriptor leaves open stay as they are. -/
def upsertRepositoryAs (s : Store) (id : Id) (d : Descriptor) :
    Except Error (RepositoryRow × Store) :=
  match s.repository? d.fullName with
  | some old =>
    let row : RepositoryRow :=
      { old with
        name := d.name
        gitUrl := d.gitUrl.or old.gitUrl
        defaultBranch := d.defaultBranch.getD old.defaultBranch }
    .ok (row,
      { s with
        repositories := s.repositories.map fun r => if r.fullName == d.fullName then row else r })
  | none =>
    if (s.repositoryById? id).isSome then .error (.storage .duplicateRepositoryId)
    else
      let row : RepositoryRow :=
        { id, name := d.name, fullName := d.fullName, gitUrl := d.gitUrl,
          defaultBranch := d.defaultBranch.getD "main", lastIndexedAt := none }
      .ok (row, { s with repositories := s.repositories ++ [row] })

def upsertRepository (s : Store) (d : Descriptor) : Except Error (RepositoryRow × Store) :=
  let (id, s) := s.freshId
  s.upsertRepositoryAs id d

/-- Deletes a repository and queues its key; tells whether there was one. -/
def deleteRepository (s : Store) (fullName : String) : Bool × Store :=
  match s.repository? fullName with
  | none => (false, s)
  | some _ => (true, (s.removeRepository fullName).enqueue (.repository fullName))

end Store

end CodeIndex
