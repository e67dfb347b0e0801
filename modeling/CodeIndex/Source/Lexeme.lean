import CodeIndex.Source.Trivia

/-!
The lexemes of the grammars. Each scanner takes the position where a lexeme may start and gives the
position after it.
-/
namespace CodeIndex.Source.Lexeme

/-- Any character that is neither white space nor punctuation can be part of a name. -/
def isNameChar (c : Char) : Bool :=
  !(c.toNat < 0x20 || Trivia.isGap c ||
    ":;`\"'@#.,|^&<=>+-*/\\%?!~()[]\x7b\x7d".toList.contains c)

def isHex (c : Char) : Bool :=
  c.isDigit || ('a' ≤ c && c ≤ 'f') || ('A' ≤ c && c ≤ 'F')

/-- The end of a `\u` escape. -/
def unicodeEscapeEnd? (t : Input) (i : Nat) : Option Nat :=
  if t.peek i == '\\' && t.peek (i + 1) == 'u' then
    if t.peek (i + 2) == '\x7b' then
      let j := t.scanWhile isHex (i + 3)
      if i + 3 < j && t.peek j == '\x7d' then some (j + 1) else none
    else if [2, 3, 4, 5].all fun k => isHex (t.peek (i + k)) then some (i + 6)
    else none
  else none

/-- The rest of a name: name characters and escapes; the number bounds the escapes. -/
def nameRest (t : Input) : Nat → Nat → Nat
  | 0, i => i
  | n + 1, i =>
    let j := t.scanWhile isNameChar i
    match unicodeEscapeEnd? t j with
    | some k => nameRest t n k
    | none => j

def nameEnd? (t : Input) (i : Nat) : Option Nat :=
  if i < t.size && isNameChar (t.peek i) && !(t.peek i).isDigit then
    some (nameRest t (t.size + 1) i)
  else
    match unicodeEscapeEnd? t i with
    | some k => some (nameRest t (t.size + 1) k)
    | none => none

def privateNameEnd? (t : Input) (i : Nat) : Option Nat :=
  if t.peek i == '#' then nameEnd? t (i + 1) else none

/-- Digits with single underscores between them. -/
def digitsEnd (digit : Char → Bool) (t : Input) (i : Nat) : Nat :=
  t.scanWhile (fun c => digit c || c == '_') i

def exponentEnd (t : Input) (i : Nat) : Nat :=
  if t.peek i == 'e' || t.peek i == 'E' then
    let j := if t.peek (i + 1) == '+' || t.peek (i + 1) == '-' then i + 2 else i + 1
    if (t.peek j).isDigit then digitsEnd Char.isDigit t j else i
  else i

def numberEnd? (t : Input) (i : Nat) : Option Nat :=
  let radix (digit : Char → Bool) : Option Nat :=
    let j := digitsEnd digit t (i + 2)
    if i + 2 < j then some (if t.peek j == 'n' then j + 1 else j) else none
  if t.peek i == '0' && (t.peek (i + 1) == 'x' || t.peek (i + 1) == 'X') then radix isHex
  else if t.peek i == '0' && (t.peek (i + 1) == 'b' || t.peek (i + 1) == 'B') then
    radix fun c => c == '0' || c == '1'
  else if t.peek i == '0' && (t.peek (i + 1) == 'o' || t.peek (i + 1) == 'O') then
    radix fun c => '0' ≤ c && c ≤ '7'
  else if (t.peek i).isDigit then
    let j := digitsEnd Char.isDigit t i
    if t.peek j == 'n' then some (j + 1)
    else if t.peek j == '.' then some (exponentEnd t (digitsEnd Char.isDigit t (j + 1)))
    else some (exponentEnd t j)
  else if t.peek i == '.' && (t.peek (i + 1)).isDigit then
    some (exponentEnd t (digitsEnd Char.isDigit t (i + 1)))
  else none

/-- The end of an escape sequence inside a string or a template. -/
def escapeEnd? (t : Input) (i : Nat) : Option Nat :=
  if t.size ≤ i + 1 then none
  else
    match t.peek (i + 1) with
    | 'u' => unicodeEscapeEnd? t i
    | 'x' => if isHex (t.peek (i + 2)) && isHex (t.peek (i + 3)) then some (i + 4) else none
    | '\r' => some (if t.peek (i + 2) == '\n' then i + 3 else i + 2)
    | _ => some (i + 2)

/-- The end of a quoted text; the number bounds its escapes. -/
def quotedRest (quote : Char) (t : Input) : Nat → Nat → Option Nat
  | 0, _ => none
  | n + 1, i =>
    let j := t.scanWhile (fun c => c != quote && c != '\\' && c != '\n' && c != '\r') i
    if t.size ≤ j then none
    else if t.peek j == quote then some (j + 1)
    else if t.peek j == '\\' then
      match escapeEnd? t j with
      | some k => quotedRest quote t n k
      | none => none
    else none

def stringEnd? (t : Input) (i : Nat) : Option Nat :=
  if t.peek i == '"' || t.peek i == '\'' then quotedRest (t.peek i) t (t.size + 1) (i + 1)
  else none

/-- A quoted attribute value of markup has no escapes and may run over several lines. -/
def markupStringEnd? (t : Input) (i : Nat) : Option Nat :=
  if t.peek i == '"' || t.peek i == '\'' then
    let j := t.scanWhile (fun c => c != t.peek i) (i + 1)
    if j < t.size then some (j + 1) else none
  else none

/-- The end of a character class inside a regular expression. -/
def classRest (t : Input) : Nat → Nat → Option Nat
  | 0, _ => none
  | n + 1, i =>
    if t.size ≤ i then none
    else
      match t.peek i with
      | ']' => some (i + 1)
      | '\n' => none
      | '\\' => if t.peek (i + 1) == '\n' then none else classRest t n (i + 2)
      | _ => classRest t n (i + 1)

/-- The position of the slash that ends a regular expression's pattern. -/
def patternRest (t : Input) : Nat → Nat → Option Nat
  | 0, _ => none
  | n + 1, i =>
    if t.size ≤ i then none
    else
      match t.peek i with
      | '/' => some i
      | '\n' => none
      | '\\' => if t.peek (i + 1) == '\n' then none else patternRest t n (i + 2)
      | '[' =>
        match classRest t (t.size + 1) (i + 1) with
        | some k => patternRest t n k
        | none => none
      | _ => patternRest t n (i + 1)

def regexEnd? (t : Input) (i : Nat) : Option Nat :=
  if t.peek i == '/' then
    match patternRest t (t.size + 1) (i + 1) with
    | some j => if i + 1 < j then some (t.scanWhile Char.isLower (j + 1)) else none
    | none => none
  else none

/-- The text of a template up to the next substitution or the closing quote. -/
def templateTextRest (t : Input) : Nat → Nat → Option Nat
  | 0, _ => none
  | n + 1, i =>
    let j := t.scanWhile (fun c => c != '`' && c != '\\' && c != '$') i
    if t.size ≤ j then none
    else if t.peek j == '`' then some j
    else if t.peek j == '\\' then
      match escapeEnd? t j with
      | some k => templateTextRest t n k
      | none => none
    else if t.peek (j + 1) == '\x7b' then some j
    else templateTextRest t n (j + 1)

def templateTextEnd? (t : Input) (i : Nat) : Option Nat :=
  match templateTextRest t (t.size + 1) i with
  | some j => if i < j then some j else none
  | none => none

/-- The text between markup tags. Text that is only white space around line ends does not count. -/
def markupTextEnd? (t : Input) (i : Nat) : Option Nat :=
  let stops (c : Char) : Bool := c == '<' || c == '>' || c == '\x7b' || c == '\x7d'
  let j := t.scanWhile (fun c => !stops c) i
  let text := (t.chars.extract i j).toList
  let afterNewline := text.foldl
    (fun (state : Bool × Bool) c =>
      let (saw, atNewline) := state
      if c == '\n' then (saw, true)
      else
        let still := atNewline && Text.Blank.isBlank c
        (saw || !still, still))
    (false, false)
  if afterNewline.1 then some j else none

/-- A tag or attribute name of markup, which may hold hyphens. -/
def markupNameEnd? (t : Input) (i : Nat) : Option Nat :=
  match nameEnd? t i with
  | some j => some (t.scanWhile (fun c => isNameChar c || c == '-') j)
  | none => none

/-- All punctuation of expressions, longer ones first. -/
def punctuation : List String :=
  [">>>=", "...", "===", "!==", "**=", "<<=", ">>=", ">>>", "&&=", "||=", "??=",
    "=>", "==", "!=", "<=", ">=", "&&", "||", "??", "?.", "++", "--", "+=", "-=", "*=", "/=",
    "%=", "&=", "|=", "^=", "<<", ">>", "**",
    "\x7b", "\x7d", "(", ")", "[", "]", ";", ",", "<", ">", "+", "-", "*", "/", "%", "&", "|",
    "^", "!", "~", "?", ":", "=", ".", "@"]

/-- The longest punctuation at a position. An optional chain is no chain before a digit. -/
def punctuationAt? (t : Input) (i : Nat) : Option String :=
  match punctuation.find? fun p => t.standsAt i p.toList with
  | some "?." => if (t.peek (i + 2)).isDigit then some "?" else some "?."
  | found => found

end CodeIndex.Source.Lexeme
