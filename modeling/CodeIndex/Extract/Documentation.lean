import CodeIndex.Source.Parse
import CodeIndex.Text.Pieces

/-!
Documentation comments. The documentation of a declaration is the last comment before it, provided
that it is a block comment, ends at most five lines above, and that no earlier statement reaches
past its start.
-/
namespace CodeIndex.Extract.Documentation

open Source

/-- Where a declaration's statement starts, and where the nearest earlier sibling that is no
comment ends. -/
structure Anchor where
  start : Nat
  before : Option Nat
  deriving Repr

/-- How many lines may lie between a comment's end and the declaration. -/
def window : Nat := 5

/-- Drops a text from the front as often as it stands there; the number bounds the rounds. -/
def dropRepeated (head : List Char) : Nat → List Char → List Char
  | 0, cs => cs
  | n + 1, cs =>
    match Text.Pieces.stripStartChars head cs with
    | some rest => if head.isEmpty then cs else dropRepeated head n rest
    | none => cs

def dropLeading (head : String) (cs : List Char) : List Char :=
  dropRepeated head.toList cs.length cs

def dropTrailing (tail : String) (cs : List Char) : List Char :=
  (dropRepeated tail.toList.reverse cs.length cs.reverse).reverse

/-- One line of a comment without its marks. -/
def cleanLine (line : List Char) : List Char :=
  Text.Blank.trimChars
    (dropLeading "*"
      (dropTrailing "*/" (dropLeading "/*" (dropLeading "/**" (Text.Blank.trimChars line)))))

/-- The text of a comment without its marks and its empty lines. -/
def clean (text : String) : String :=
  "\n".intercalate
    (((Text.Pieces.lineChars text.toList).map cleanLine).filter (fun l => !l.isEmpty)
      |>.map String.ofList)

def isBlock (text : String) : Bool := text.startsWith "/*"

/-- The documentation that belongs to the statement at an anchor, given all comments in order. -/
def of? (p : Parsed) (comments : List Node) (a : Anchor) : Option String :=
  match comments.reverse.find? fun c => c.stop ≤ a.start with
  | none => none
  | some comment =>
    let text := p.text comment
    if !isBlock text || p.lineOf a.start - p.endLine comment > window then none
    else
      match a.before with
      | some stop => if comment.start < stop then none else nonEmpty (clean text)
      | none => nonEmpty (clean text)
where
  nonEmpty (s : String) : Option String := if s.isEmpty then none else some s

end CodeIndex.Extract.Documentation
