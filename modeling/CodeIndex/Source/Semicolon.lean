import CodeIndex.Source.Dialect
import CodeIndex.Source.Trivia

/-!
Where a statement may end without a written semicolon: at the end of the text, before a closing
brace, and at a line end unless the next line clearly goes on with the statement. The two grammar
families differ in how comments before the line end count and in a few continuation characters.
-/
namespace CodeIndex.Source.Semicolon

def isSpace (c : Char) : Bool := c == ' ' || ('\t' ≤ c && c ≤ '\r')

def isLetter (c : Char) : Bool := c.isAlpha

/-- What the characters at the end of a statement tell. -/
inductive Verdict where
  | reject
  | noNewline
  | accept
  deriving DecidableEq

def endsJsLine (c : Char) : Bool := c == '\n' || c == '\u2028' || c == '\u2029'

/-- The position after a block comment's text, and whether it held a line end. An open comment
runs to the end of the text. -/
def blockStop (t : Input) (i : Nat) (sawNewline : Bool) : Nat × Bool × Bool :=
  if h : i < t.chars.size then
    if t.chars[i] == '*' then
      if t.peek (i + 1) == '/' then (i + 2, sawNewline, true)
      else blockStop t (i + 1) sawNewline
    else blockStop t (i + 1) (sawNewline || endsJsLine t.chars[i])
  else (i, sawNewline, false)
termination_by t.chars.size - i

/-- Passes over white space and comments. With `consume` unset it stops after a block comment that
no other comment follows at once and reports whether a line ended inside it. -/
def passComments (t : Input) (consume : Bool) : Nat → Bool → Nat → Verdict × Nat
  | 0, _, i => (.accept, i)
  | n + 1, sawNewline, i =>
    let j := t.scanWhile isSpace i
    if t.peek j == '/' then
      if t.peek (j + 1) == '/' then
        passComments t consume n sawNewline (t.scanWhile (fun c => !endsJsLine c) (j + 2))
      else if t.peek (j + 1) == '*' then
        let (k, saw, closed) := blockStop t (j + 2) sawNewline
        if closed && t.peek k != '/' && !consume then
          (if saw then .accept else .noNewline, k)
        else passComments t consume n saw k
      else (.reject, j + 1)
    else (.accept, j)

/-- Whether the word at a position is `in` or `instanceof`, which go on with an expression. -/
def isRelationWord (t : Input) (i : Nat) : Bool :=
  t.standsAt i ['i', 'n'] &&
    (!isLetter (t.peek (i + 2)) ||
      (t.standsAt (i + 2) "stanceof".toList && !isLetter (t.peek (i + 10))))

/-- Decides about a line end from the first character of the next line. -/
def endsBefore (d : Dialect) (afterExpression : Bool) (t : Input) (i : Nat) : Bool :=
  let c := t.peek i
  if "`,:;*%><=?^|&/".toList.contains c then false
  else if c == '[' || c == '(' then d.isTyped && !afterExpression
  else if c == '.' then !d.isTyped && (t.peek (i + 1)).isDigit
  else if c == '+' then t.peek (i + 1) == '+'
  else if c == '-' then t.peek (i + 1) == '-'
  else if c == '!' then t.peek (i + 1) != '='
  else if c == 'i' then !isRelationWord t i
  else true

/-- After a line end: skips to the next line's first lexeme and decides there. -/
def endsAtLine (d : Dialect) (afterExpression : Bool) (t : Input) (i : Nat) : Bool :=
  match passComments t true (t.size + 1) false i with
  | (.reject, _) => false
  | (_, j) => endsBefore d afterExpression t j

/-- Whether a statement may end at a position in the JavaScript grammar. -/
def endsScript (afterExpression : Bool) (t : Input) : Nat → Nat → Bool
  | 0, _ => true
  | n + 1, i =>
    if t.size ≤ i then true
    else
      let c := t.peek i
      if c == '/' then
        match passComments t false (t.size + 1) false i with
        | (.reject, _) => false
        | (verdict, j) =>
          if verdict == .accept && !afterExpression && t.peek j != ',' && t.peek j != '=' then true
          else if t.size ≤ j then false
          else endsScript afterExpression t n j
      else if c == '}' then true
      else if endsJsLine c then endsAtLine .javascript afterExpression t (i + 1)
      else if isSpace c then endsScript afterExpression t n (i + 1)
      else false

/-- Whether a statement may end at a position in the typed grammars. -/
def endsTyped (d : Dialect) (afterExpression : Bool) (t : Input) : Nat → Nat → Bool
  | 0, _ => true
  | n + 1, i =>
    if t.size ≤ i then true
    else
      let c := t.peek i
      if c == '}' then
        t.peek (t.scanWhile isSpace (i + 1)) != ':' || afterExpression
      else if c == '\n' then endsAtLine d afterExpression t (i + 1)
      else if isSpace c then endsTyped d afterExpression t n (i + 1)
      else false

def endsAt (d : Dialect) (afterExpression : Bool) (t : Input) (i : Nat) : Bool :=
  if d.isTyped then endsTyped d afterExpression t (t.size + 1) i
  else endsScript afterExpression t (t.size + 1) i

/-- The position at which a statement that has been read up to `i` ends by itself: there, or after
one of the comments that follow. -/
def autoFrom (d : Dialect) (afterExpression : Bool) (t : Input) : Nat → Nat → Option Nat
  | 0, _ => none
  | n + 1, i =>
    if endsAt d afterExpression t i then some i
    else
      match Trivia.commentEnd? t (t.scanWhile Trivia.isGap i) with
      | some k => autoFrom d afterExpression t n k
      | none => none

def auto? (d : Dialect) (afterExpression : Bool) (t : Input) (i : Nat) : Option Nat :=
  autoFrom d afterExpression t (t.size + 1) i

/-- The range of the semicolon that ends a statement, empty if it is not written. -/
def find? (d : Dialect) (afterExpression : Bool) (t : Input) (i : Nat) : Option (Nat × Nat) :=
  match auto? d afterExpression t i with
  | some k => some (k, k)
  | none =>
    let j := Trivia.skip t i
    if t.peek j == ';' then some (j, j + 1) else none

end CodeIndex.Source.Semicolon
