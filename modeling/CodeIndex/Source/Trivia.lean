import CodeIndex.Source.Input
import CodeIndex.Text.Blank

/-!
What may stand between two lexemes: white space and comments. A line comment ends before the line
terminator; a block comment that is not closed is no comment.
-/
namespace CodeIndex.Source.Trivia

/-- White space between lexemes, with the byte order mark and the zero-width spaces. -/
def isGap (c : Char) : Bool :=
  Text.Blank.isBlank c || c == '\uFEFF' || c == '\u2060' || c == '\u200B'

def endsLine (c : Char) : Bool := c == '\n' || c == '\r' || c == '\u2028' || c == '\u2029'

/-- The position after the next `*/`. -/
def blockEnd? (t : Input) (i : Nat) : Option Nat :=
  if h : i < t.chars.size then
    if t.chars[i] == '*' && t.peek (i + 1) == '/' then some (i + 2) else blockEnd? t (i + 1)
  else none
termination_by t.chars.size - i

/-- The end of the comment that starts at a position. -/
def commentEnd? (t : Input) (i : Nat) : Option Nat :=
  if t.peek i == '/' then
    if t.peek (i + 1) == '/' then some (t.scanWhile (fun c => !endsLine c) (i + 2))
    else if t.peek (i + 1) == '*' then blockEnd? t (i + 2)
    else none
  else none

/-- Skips white space and comments; the first argument bounds the number of comments. -/
def skipFrom (t : Input) : Nat → Nat → Nat
  | 0, i => i
  | n + 1, i =>
    let j := t.scanWhile isGap i
    match commentEnd? t j with
    | some k => skipFrom t n k
    | none => j

def skip (t : Input) (i : Nat) : Nat := skipFrom t (t.size + 1) i

/-- The comments between two positions that have nothing but trivia between them. -/
def commentsFrom (t : Input) : Nat → Nat → Nat → List (Nat × Nat)
  | 0, _, _ => []
  | n + 1, i, stop =>
    let j := t.scanWhile isGap i
    if j < stop then
      match commentEnd? t j with
      | some k => (j, k) :: commentsFrom t n k stop
      | none => []
    else []

def comments (t : Input) (start stop : Nat) : List (Nat × Nat) :=
  commentsFrom t (t.size + 1) start stop

/-- Whether a line ends between two positions. -/
def hasNewline (t : Input) (start stop : Nat) : Bool :=
  (t.chars.extract start stop).any fun c => c == '\n' || c == '\u2028' || c == '\u2029'

end CodeIndex.Source.Trivia
