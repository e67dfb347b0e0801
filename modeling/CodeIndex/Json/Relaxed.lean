import CodeIndex.Text.Blank

/-!
JSON with comments: line and block comments and commas before closing brackets are dropped, and
what is left is read as plain JSON. Texts between quotes are kept as they are.
-/
namespace CodeIndex.Json.Relaxed

/-- Where the reader stands. -/
inductive State where
  | plain
  | quoted
  | escaped
  | lineComment
  /-- Before the star that opens a block comment. -/
  | blockStart
  /-- Inside a block comment; the flag tells whether the character before was a star. -/
  | blockComment (star : Bool)
  deriving DecidableEq, Repr

/-- Drops a comma at the end of what was written, with the white space after it. The text is kept
in reverse. -/
def dropComma (written : List Char) : List Char :=
  match written.dropWhile Text.Blank.isBlank with
  | ',' :: rest => rest
  | _ => written

/-- Goes over the text; what was written so far is kept in reverse. -/
def stripFrom (state : State) (written : List Char) : List Char → List Char
  | [] => written.reverse
  | c :: rest =>
    match state with
    | .quoted =>
      if c = '\\' then stripFrom .escaped (c :: written) rest
      else if c = '"' then stripFrom .plain (c :: written) rest
      else stripFrom .quoted (c :: written) rest
    | .escaped => stripFrom .quoted (c :: written) rest
    | .lineComment =>
      if c = '\n' then stripFrom .plain (c :: written) rest
      else stripFrom .lineComment written rest
    | .blockStart => stripFrom (.blockComment false) written rest
    | .blockComment star =>
      if star && c = '/' then stripFrom .plain written rest
      else stripFrom (.blockComment (c = '*')) written rest
    | .plain =>
      if c = '"' then stripFrom .quoted (c :: written) rest
      else if c = '/' then
        if rest.head? = some '/' then stripFrom .lineComment written rest
        else if rest.head? = some '*' then stripFrom .blockStart written rest
        else stripFrom .plain (c :: written) rest
      else if c = '\x7d' || c = ']' then stripFrom .plain (c :: dropComma written) rest
      else stripFrom .plain (c :: written) rest

def strip (s : String) : String := String.ofList (stripFrom .plain [] s.toList)

end CodeIndex.Json.Relaxed
