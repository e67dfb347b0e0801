import CodeIndex.Files.Glob
import CodeIndex.Text.Blank
import CodeIndex.Text.Pieces

/-!
Rules that leave paths out. Each line of a rule file is a pattern; a line that starts with an
exclamation mark takes a path back in. The last line that fits decides.
-/
namespace CodeIndex.Files

structure IgnoreRule where
  pattern : List Glob
  /-- The rule takes a path back in. -/
  keeps : Bool
  onlyDirectories : Bool

inductive Verdict where
  | none
  | ignore
  | keep
  deriving DecidableEq, Repr

namespace Verdict

/-- The first verdict that says something. -/
def or (a b : Verdict) : Verdict := if a = none then b else a

end Verdict

namespace IgnoreRule

/-- Drops white space at the end, unless the line ends in an escaped space. -/
def trimmed (line : List Char) : List Char :=
  if ['\\', ' '].isSuffixOf line then line else Text.Blank.trimEndChars line

/-- Drops a slash at the end, with a backslash before it; tells whether there was one. -/
def dropSlash (line : List Char) : Bool × List Char :=
  match line.reverse with
  | '/' :: '\\' :: rest => (true, rest.reverse)
  | '/' :: rest => (true, rest.reverse)
  | _ => (false, line)

/-- The pattern that a line stands for: without a slash it fits at any depth, and one that ends in
two stars fits only what is below. -/
def completed (anchored : Bool) (line : List Char) : List Char :=
  let deep := ['*', '*', '/']
  let line :=
    if !anchored && !line.contains '/' && !(deep.isPrefixOf line || line == ['*', '*']) then
      deep ++ line
    else line
  if ['/', '*', '*'].isSuffixOf line then line ++ ['/', '*'] else line

/-- The rule of a line; comments, empty lines and malformed patterns are none. -/
def ofLine? (line : String) : Option IgnoreRule :=
  match trimmed line.toList with
  | [] => none
  | '#' :: _ => none
  | chars =>
    let (keeps, anchored, body) : Bool × Bool × List Char :=
      match chars with
      | '\\' :: '!' :: rest => (false, false, '!' :: rest)
      | '\\' :: '#' :: rest => (false, false, '#' :: rest)
      | '!' :: '/' :: rest => (true, true, rest)
      | '!' :: rest => (true, false, rest)
      | '/' :: rest => (false, true, rest)
      | _ => (false, false, chars)
    let (onlyDirectories, body) := dropSlash body
    (Glob.parse (String.ofList (completed anchored body))).map fun pattern =>
      { pattern, keeps, onlyDirectories }

/-- The rules of a file. A byte order mark at its start does not count. -/
def ofText (s : String) : List IgnoreRule :=
  let s := (Text.Pieces.stripStart "\uFEFF" s).getD s
  (Text.Pieces.lines s).filterMap ofLine?

end IgnoreRule

/-- What a list of rules says about a path relative to the directory of the rules. -/
def verdict (rules : List IgnoreRule) (path : String) (isDirectory : Bool) : Verdict :=
  match rules.reverse.find? fun r =>
      (!r.onlyDirectories || isDirectory) && Glob.fits r.pattern path with
  | some r => if r.keeps then .keep else .ignore
  | none => .none

end CodeIndex.Files
