import CodeIndex.Toml.Number

/-!
Values of TOML and how they are written. Arrays and tables in braces may be nested to a fixed depth.
-/
namespace CodeIndex.Toml

/-- How a table came to be: by its own header, as a part of a longer header, or by dotted keys. -/
inductive Opening where
  | header
  | implied
  | dotted
  deriving DecidableEq, Repr

inductive Value where
  | text (s : String)
  | integer (n : Int)
  | real
  | boolean (b : Bool)
  | moment
  | array (items : List Value)
  /-- A table in braces, which cannot be added to. -/
  | closed (entries : List (String × Value))
  | table (opening : Opening) (entries : List (String × Value))
  /-- A list of tables that grows by headers. -/
  | tables (rows : List (List (String × Value)))

abbrev Entries := List (String × Value)

/-- How many parts a key or a nesting may have. -/
def depthLimit : Nat := 80

def isBare (c : Char) : Bool :=
  ('A' ≤ c && c ≤ 'Z') || ('a' ≤ c && c ≤ 'z') || Number.isDigit c || c == '-' || c == '_'

/-- One part of a key, with the blanks around it. -/
def readKeyPart (cs : List Char) : Option (String × List Char) := do
  let cs := skipBlanks cs
  let (part, rest) ← match cs with
    | '"' :: _ => Quoted.readLine cs
    | '\'' :: _ => Quoted.readLine cs
    | _ =>
      let name := cs.takeWhile isBare
      if name.isEmpty then none else some (String.ofList name, cs.drop name.length)
  return (part, skipBlanks rest)

/-- The parts of a key; the number bounds them. -/
def readKeyParts : Nat → Reader (List String)
  | 0, _ => none
  | n + 1, cs => do
    let (part, rest) ← readKeyPart cs
    match rest with
    | '.' :: rest => do
      let (more, rest) ← readKeyParts n rest
      return (part :: more, rest)
    | _ => return ([part], rest)

/-- A key with all its parts. -/
def readKey : Reader (List String) := readKeyParts (depthLimit - 1)

/-- Changes the value of a key, or makes one; fails when the change does. -/
def alter (change : Option Value → Option Value) (key : String) : Entries → Option Entries
  | [] => (change none).map fun v => [(key, v)]
  | (k, v) :: rest =>
    if k = key then (change (some v)).map fun v => (k, v) :: rest
    else (alter change key rest).map fun rest => (k, v) :: rest

/-- Changes the last row of a list of tables. -/
def alterLast (change : Entries → Option Entries) : List Entries → Option (List Entries)
  | [] => none
  | [row] => (change row).map fun row => [row]
  | row :: rest => (alterLast change rest).map fun rest => row :: rest

/-- Puts a value under a dotted key. The tables on the way are made or have no header of their own,
and the innermost one was made by a dotted key. -/
def putAt (value : Value) (last : String) : List String → Entries → Option Entries
  | [], es => alter (fun old => if old.isSome then none else some value) last es
  | part :: rest, es =>
    alter (fun
      | none => (putAt value last rest []).map (.table .dotted)
      | some (.table .dotted inner) => (putAt value last rest inner).map (.table .dotted)
      | some (.table .implied inner) =>
        if rest.isEmpty then none else (putAt value last rest inner).map (.table .implied)
      | some (.tables rows) =>
        if rest.isEmpty then none else (alterLast (putAt value last rest) rows).map .tables
      | some _ => none) part es

/-- Puts a value under a key given by its parts. -/
def put (key : List String) (value : Value) (es : Entries) : Option Entries :=
  match key.getLast? with
  | some last => putAt value last key.dropLast es
  | none => none

/-- Reads items with commas between them up to a closing character; the number bounds them. `gap`
skips what may stand around an item, and `trailing` allows a comma after the last one. -/
def readItems {α : Type} (item : Reader α) (gap : List Char → List Char) (trailing : Bool)
    (close : Char) : Nat → Bool → Reader (List α)
  | 0, _, _ => none
  | n + 1, mayClose, cs =>
    match gap cs with
    | [] => none
    | c :: rest =>
      if c = close then (if mayClose then some ([], rest) else none)
      else do
        let (a, rest) ← item (c :: rest)
        match gap rest with
        | [] => none
        | c :: rest =>
          if c = ',' then do
            let (more, rest) ← readItems item gap trailing close n trailing rest
            return (a :: more, rest)
          else if c = close then return ([a], rest)
          else none

/-- A value; the number bounds the nesting. -/
def readValue : Nat → Reader Value
  | depth, cs =>
    match cs with
    | [] => none
    | c :: rest =>
      if c = '"' || c = '\'' then (Quoted.read cs).map fun (s, r) => (.text s, r)
      else if c = '[' then
        match depth with
        | 0 => none
        | depth + 1 =>
          (readItems (readValue depth) skipGap true ']' (rest.length + 1) true rest).map
            fun (items, r) => (.array items, r)
      else if c = '{' then
        match depth with
        | 0 => none
        | depth + 1 => do
          let pair : Reader (List String × Value) := fun cs => do
            let (key, cs) ← readKey cs
            let (v, cs) ← readValue depth (skipBlanks (← Number.expect '=' cs))
            return ((key, v), cs)
          let (pairs, r) ← readItems pair skipBlanks false '}' (rest.length + 1) true rest
          let es ← pairs.foldlM (fun es (key, v) => put key v es) []
          return (.closed es, r)
      else
        match Number.readMoment cs with
        | some (_, r) => some (.moment, r)
        | none =>
          match Number.readReal cs with
          | some (_, r) => some (.real, r)
          | none =>
            match Number.readInteger cs with
            | some (n, r) => some (.integer n, r)
            | none =>
              match cs with
              | 't' :: 'r' :: 'u' :: 'e' :: r => some (.boolean true, r)
              | 'f' :: 'a' :: 'l' :: 's' :: 'e' :: r => some (.boolean false, r)
              | _ => none

end CodeIndex.Toml
