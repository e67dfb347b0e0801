import CodeIndex.Toml.Reader

/-!
Quoted texts of TOML. Texts in double quotes have escapes and texts in single quotes have none;
three quotes begin a text of several lines.
-/
namespace CodeIndex.Toml.Quoted

def hexValue? (c : Char) : Option Nat :=
  if '0' ≤ c && c ≤ '9' then some (c.toNat - 48)
  else if 'a' ≤ c && c ≤ 'f' then some (c.toNat - 87)
  else if 'A' ≤ c && c ≤ 'F' then some (c.toNat - 55)
  else none

/-- A character by its number, which must be the number of one. -/
def ofCode? (n : Nat) : Option Char :=
  if h : n.isValidChar then some (Char.ofNatAux n h) else none

/-- A character by a fixed number of hexadecimal digits. -/
def readCode (digits : Nat) (cs : List Char) : Option (Char × List Char) := do
  let values ← (cs.take digits).mapM hexValue?
  if values.length = digits then
    return (← ofCode? (values.foldl (fun n v => n * 16 + v) 0), cs.drop digits)
  else none

/-- The character of an escape, without its backslash. -/
def readEscape : Reader Char
  | 'b' :: rest => some ('\x08', rest)
  | 'f' :: rest => some ('\x0c', rest)
  | 'n' :: rest => some ('\n', rest)
  | 'r' :: rest => some ('\r', rest)
  | 't' :: rest => some ('\t', rest)
  | '"' :: rest => some ('"', rest)
  | '\\' :: rest => some ('\\', rest)
  | 'u' :: rest => readCode 4 rest
  | 'U' :: rest => readCode 8 rest
  | _ => none

/-- The rest of a text in double quotes; the number bounds its length. -/
def readBasic : Nat → Reader (List Char)
  | 0, _ => none
  | n + 1, cs =>
    match cs with
    | '"' :: rest => some ([], rest)
    | '\\' :: rest => do
      let (c, rest) ← readEscape rest
      let (more, rest) ← readBasic n rest
      return (c :: more, rest)
    | c :: rest =>
      if isPlain c then do
        let (more, rest) ← readBasic n rest
        return (c :: more, rest)
      else none
    | [] => none

/-- The rest of a text in single quotes. -/
def readLiteral (cs : List Char) : Option (List Char × List Char) :=
  let body := cs.takeWhile fun c => isPlain c && c != '\''
  match cs.drop body.length with
  | '\'' :: rest => some (body, rest)
  | _ => none

/-- The quotes that end a text of several lines: the last three close it and up to two more belong
to it. The number of quotes found is given. -/
def closing (quote : Char) (count : Nat) (cs : List Char) : Option (List Char × List Char) :=
  if count < 3 then none
  else
    let inside := min (count - 3) 2
    some (List.replicate inside quote, cs.drop (inside + 3))

/-- How many quotes a text starts with. -/
def quotes (quote : Char) (cs : List Char) : Nat := (cs.takeWhile fun c => c == quote).length

/-- Skips blanks and line ends; the number bounds the lines. -/
def skipWhite : Nat → List Char → List Char
  | 0, cs => cs
  | n + 1, cs =>
    match newline? (skipBlanks cs) with
    | some rest => skipWhite n rest
    | none => skipBlanks cs

/-- The text after a backslash at the end of a line, without the white space that follows. -/
def continued? (cs : List Char) : Option (List Char) :=
  (newline? (skipBlanks cs)).map fun rest => skipWhite (rest.length + 1) rest

/-- The rest of a text of several lines in double quotes; the number bounds its length. -/
def readLongBasic : Nat → Reader (List Char)
  | 0, _ => none
  | n + 1, cs =>
    match cs with
    | [] => none
    | '"' :: rest =>
      match closing '"' (quotes '"' cs) cs with
      | some ended => some ended
      | none => do
        let (more, rest) ← readLongBasic n rest
        return ('"' :: more, rest)
    | '\\' :: rest =>
      match continued? rest with
      | some rest => readLongBasic n rest
      | none => do
        let (c, rest) ← readEscape rest
        let (more, rest) ← readLongBasic n rest
        return (c :: more, rest)
    | c :: rest =>
      match newline? cs with
      | some rest => do
        let (more, rest) ← readLongBasic n rest
        return ('\n' :: more, rest)
      | none =>
        if isPlain c then do
          let (more, rest) ← readLongBasic n rest
          return (c :: more, rest)
        else none

/-- The rest of a text of several lines in single quotes; the number bounds its length. -/
def readLongLiteral : Nat → Reader (List Char)
  | 0, _ => none
  | n + 1, cs =>
    match cs with
    | [] => none
    | '\'' :: rest =>
      match closing '\'' (quotes '\'' cs) cs with
      | some ended => some ended
      | none => do
        let (more, rest) ← readLongLiteral n rest
        return ('\'' :: more, rest)
    | c :: rest =>
      match newline? cs with
      | some rest => do
        let (more, rest) ← readLongLiteral n rest
        return ('\n' :: more, rest)
      | none =>
        if isPlain c then do
          let (more, rest) ← readLongLiteral n rest
          return (c :: more, rest)
        else none

/-- Drops the line end directly after the opening quotes. -/
def dropFirstLine (cs : List Char) : List Char := (newline? cs).getD cs

/-- A quoted text of one line. -/
def readLine : Reader String
  | '"' :: rest => (readBasic (rest.length + 1) rest).map fun (s, r) => (String.ofList s, r)
  | '\'' :: rest => (readLiteral rest).map fun (s, r) => (String.ofList s, r)
  | _ => none

/-- Any quoted text. -/
def read (cs : List Char) : Option (String × List Char) :=
  match cs with
  | '"' :: '"' :: '"' :: rest =>
    let rest := dropFirstLine rest
    (readLongBasic (rest.length + 1) rest).map fun (s, r) => (String.ofList s, r)
  | '\'' :: '\'' :: '\'' :: rest =>
    let rest := dropFirstLine rest
    (readLongLiteral (rest.length + 1) rest).map fun (s, r) => (String.ofList s, r)
  | _ => readLine cs

end CodeIndex.Toml.Quoted
