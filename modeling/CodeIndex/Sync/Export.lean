import CodeIndex.Files.Tree
import CodeIndex.Sync.Manifest

/-!
Writing a store to a directory: one file of records for each table and the manifest of deletions.
An export reads the store once, writes files from what it read, and then takes the deletions it has
seen out of the queue. A file that holds the same text already is left alone.
-/
namespace CodeIndex.Sync

open Files (Tree)

structure ExportSummary where
  written : List String := []
  unchanged : List String := []
  /-- The rows of the written tables. -/
  rows : Nat := 0
  /-- The keys in the manifest. -/
  deletions : Nat := 0
  deriving DecidableEq, Repr

/-- A table as it is written: its name and one line for each row. -/
structure Dump where
  table : String
  lines : List String
  deriving DecidableEq, Repr

namespace Dump

def fileName (d : Dump) : String := d.table ++ ".jsonl"

end Dump

/-- All that an export takes from a store. -/
structure Snapshot where
  tables : List Dump
  /-- The keys of all rows. -/
  live : List Deletion
  /-- The queue of deletions. -/
  waiting : List Deletion
  /-- The serial of the last entry of the queue. -/
  lastWaiting : Option Nat
  deriving DecidableEq, Repr

/-- Writes a text unless the file holds it; nothing is returned when it does. The texts themselves
are compared and not their SHA-256 hashes: that two texts have one hash is left out. -/
def writeChanged (t : Tree) (path text : String) (force : Bool) :
    Except FileFault (Option Tree) :=
  let same : Bool :=
    match t.readText [] path with
    | .ok old => old == text
    | .error _ => false
  if same && !force then .ok none else (t.write [] path (.text text)).map some

/-- The text of the manifest of a directory; a missing one is empty. -/
def manifestText (t : Tree) (dir : String) : Except Error String :=
  let path := dir ++ "/" ++ Manifest.fileName
  if t.pathExists [] path then (t.readText [] path).mapError .io else .ok ""

namespace Snapshot

def of (s : Store) : Snapshot :=
  let tables := Table.all.map fun table => (table.name, table.dump s)
  { tables := tables.map fun (name, rows) => ⟨name, rows.map Prod.snd⟩
    live := tables.flatMap fun (_, rows) => rows.map Prod.fst
    waiting := s.pending.map Pending.key
    lastWaiting := s.pending.getLast?.map Pending.serial }

/-- Writes the tables in turn. What was written before a failure stays. -/
def writeTables (dir : String) (force : Bool) :
    List Dump → ExportSummary → Tree → Tree × Except Error ExportSummary
  | [], done, t => (t, .ok done)
  | d :: rest, done, t =>
    match writeChanged t (dir ++ "/" ++ d.fileName) (Manifest.linesText d.lines) force with
    | .error f => (t, .error (.io f))
    | .ok none =>
      writeTables dir force rest { done with unchanged := done.unchanged ++ [d.table] } t
    | .ok (some t) =>
      writeTables dir force rest
        { done with written := done.written ++ [d.table], rows := done.rows + d.lines.length } t

/-- Writes the manifest and counts its keys. -/
def writeManifest (x : Snapshot) (dir : String) (force : Bool) (t : Tree) :
    Except Error (Tree × Nat) := do
  let (previous, _) := Manifest.ofText (← manifestText t dir)
  let keys := Manifest.merge previous x.waiting x.live
  match writeChanged t (dir ++ "/" ++ Manifest.fileName) (Manifest.text keys) force with
  | .error f => throw (.io f)
  | .ok none => return (t, keys.length)
  | .ok (some t) => return (t, keys.length)

/-- Writes the tables and the manifest to a directory that is there. -/
def write (x : Snapshot) (dir : String) (force : Bool) (t : Tree) :
    Tree × Except Error ExportSummary :=
  match writeTables dir force x.tables {} t with
  | (t, .error e) => (t, .error e)
  | (t, .ok done) =>
    match x.writeManifest dir force t with
    | .error e => (t, .error e)
    | .ok (t, n) => (t, .ok { done with deletions := n })

/-- Takes the deletions that an export has seen out of the queue. -/
def clear (x : Snapshot) (s : Store) : Store :=
  match x.lastWaiting with
  | none => s
  | some last => { s with pending := s.pending.filter fun p => last < p.serial }

end Snapshot

/-- Exports a store to a directory, which is made if it is missing. -/
def exportTo (s : Store) (t : Tree) (dir : String) (force : Bool) :
    Tree × Except Error (ExportSummary × Store) :=
  match t.makeDirectories [] dir with
  | .error f => (t, .error (.io f))
  | .ok t =>
    let x := Snapshot.of s
    match x.write dir force t with
    | (t, .error e) => (t, .error e)
    | (t, .ok done) => (t, .ok (done, x.clear s))

end CodeIndex.Sync
