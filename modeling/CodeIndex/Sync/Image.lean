import CodeIndex.Sync.Manifest

/-!
A store as one text: a first line that tells what the text is, then the records of every table and
the waiting deletions, one to a line. Each part but the last ends with an empty line. Reading a text
back gives a store with the same rows under new ids.
-/
namespace CodeIndex.Sync.Image

def header : String := "codeatlas index"

def text (s : Store) : String :=
  let part (ls : List String) : String := Manifest.linesText (ls ++ [""])
  header ++ "\n"
    ++ String.join (Table.all.map fun table => part ((table.dump s).map Prod.snd))
    ++ Manifest.text (s.pending.map Pending.key)

/-- The parts of a list of lines, which empty lines divide. -/
def parts : List String → List (List String)
  | [] => [[]]
  | line :: rest =>
    if line.isEmpty then [] :: parts rest
    else
      match parts rest with
      | [] => [[line]]
      | p :: more => (line :: p) :: more

/-- Puts the records of a table into a store; none may be bad. -/
def load (s : Store) (table : Table) (records : List String) : Option Store :=
  records.foldlM (fun s r => (table.apply s r).toOption) s

/-- The store of a text, if it is the text of one. -/
def ofText? (origin : Nat) (s : String) : Option Store :=
  match Text.Pieces.lines s with
  | [] => none
  | first :: rest =>
    if first = header then do
      let parts := parts rest
      let filled ← (Table.all.zip parts).foldlM (fun s (table, records) => load s table records)
        (Store.empty origin)
      let waiting := (parts.drop Table.all.length).flatten
      return filled.enqueueAll (waiting.filterMap fun line => (Deletion.decode line).toOption)
    else none

end CodeIndex.Sync.Image
