import CodeIndex.Sync.Export

/-!
Reading an export directory into a store: first the deletions of the manifest, then every table in
an order in which rows can name their parents. Bad records are passed over and reported; a file
that cannot be read leaves the store as it was.
-/
namespace CodeIndex.Sync

structure ImportSummary where
  tables : List String := []
  rows : Nat := 0
  deleted : Nat := 0
  skipped : List Skipped := []

/-- Puts the records of a table into a store, one line after the other. -/
def applyLines (table : Table) : List (Nat × String) → Store → ImportSummary → Store × ImportSummary
  | [], s, done => (s, done)
  | (n, line) :: rest, s, done =>
    match table.apply s line with
    | .ok s => applyLines table rest s { done with rows := done.rows + 1 }
    | .error reason =>
      applyLines table rest s { done with skipped := done.skipped ++ [⟨table.name, n, reason⟩] }

/-- Reads the tables in turn; a table without a file is left out. -/
def readTables (t : Files.Tree) (dir : String) :
    List Table → Store → ImportSummary → Except Error (Store × ImportSummary)
  | [], s, done => .ok (s, done)
  | table :: rest, s, done =>
    let path := dir ++ "/" ++ table.fileName
    if t.pathExists [] path then
      match t.readText [] path with
      | .error f => .error (.io f)
      | .ok text =>
        let (s, done) := applyLines table (recordLines text) s done
        readTables t dir rest s { done with tables := done.tables ++ [table.name] }
    else readTables t dir rest s done

/-- Applies the deletions of a manifest in turn and counts the rows they remove. -/
def applyDeletions (s : Store) (keys : List Deletion) : Store × Nat :=
  keys.foldl (fun (s, n) key =>
    let (s, removed) := key.apply s
    (s, n + removed)) (s, 0)

def importFrom (s : Store) (t : Files.Tree) (dir : String) :
    Except Error (ImportSummary × Store) :=
  if t.isDirectory [] dir then do
    let (keys, skipped) := Manifest.ofText (← manifestText t dir)
    let (s, deleted) := applyDeletions s keys
    let (s, done) ← readTables t dir Table.all s { deleted, skipped }
    return (done, s)
  else .error (.invalidArgument (.notDirectory dir))

end CodeIndex.Sync
