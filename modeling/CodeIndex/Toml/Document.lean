import CodeIndex.Toml.Value

/-!
TOML documents: a text is a list of lines, and the lines build up one table. A header opens a table
or a new row of a list of tables; the pairs after it go there. No key is set twice and no table is
opened twice.
-/
namespace CodeIndex.Toml

inductive Line where
  | pair (key : List String) (value : Value)
  | header (path : List String)
  | row (path : List String)

/-- Reads one line that is not blank, up to the end of the line. -/
def readLine (cs : List Char) : Option (Line × List Char) :=
  match cs with
  | '[' :: '[' :: rest => do
    let (path, rest) ← readKey rest
    let rest ← Number.expect ']' (← Number.expect ']' rest)
    return (.row path, ← lineEnd? rest)
  | '[' :: rest => do
    let (path, rest) ← readKey rest
    let rest ← Number.expect ']' rest
    return (.header path, ← lineEnd? rest)
  | _ => do
    let (key, rest) ← readKey cs
    let (value, rest) ← readValue (depthLimit - 1) (skipBlanks (← Number.expect '=' rest))
    return (.pair key value, ← lineEnd? rest)

/-- The lines of a text that are not blank; the number bounds them. -/
def readLines : Nat → List Char → Option (List Line)
  | 0, _ => none
  | n + 1, cs =>
    match skipComment (skipBlanks cs) with
    | [] => some []
    | rest =>
      match newline? rest with
      | some rest => readLines n rest
      | none => do
        let (line, rest) ← readLine (skipBlanks cs)
        return line :: (← readLines n rest)

/-- Changes the table that a header leads to. Tables on the way that are missing are implied. -/
def alterTable (change : Entries → Option Entries) : List String → Entries → Option Entries
  | [], es => change es
  | part :: rest, es =>
    alter (fun
      | none => (alterTable change rest []).map (.table .implied)
      | some (.table opening inner) => (alterTable change rest inner).map (.table opening)
      | some (.tables rows) => (alterLast (alterTable change rest) rows).map .tables
      | some _ => none) part es

/-- Changes the entry that a header names. -/
def alterNamed (change : Option Value → Option Value) (path : List String) (root : Entries) :
    Option Entries :=
  match path.getLast? with
  | some last => alterTable (alter change last) path.dropLast root
  | none => none

def openTable : Option Value → Option Value
  | none => some (.table .header [])
  | some (.table .implied es) => some (.table .header es)
  | some _ => none

def openRow : Option Value → Option Value
  | none => some (.tables [[]])
  | some (.tables rows) => some (.tables (rows ++ [[]]))
  | some _ => none

/-- Applies lines to a table. `here` is the path of the last header. -/
def build : List String → Entries → List Line → Option Entries
  | _, root, [] => some root
  | here, root, .pair key value :: rest => do
    build here (← alterTable (put key value) here root) rest
  | _, root, .header path :: rest => do build path (← alterNamed openTable path root) rest
  | _, root, .row path :: rest => do build path (← alterNamed openRow path root) rest

/-- The table of a document; a byte order mark at its start is skipped. -/
def read (s : String) : Option Entries := do
  let cs := match s.toList with
    | '\uFEFF' :: rest => rest
    | cs => cs
  build [] [] (← readLines (cs.length + 1) cs)

end CodeIndex.Toml
