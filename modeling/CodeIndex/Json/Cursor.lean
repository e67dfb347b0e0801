import CodeIndex.Decimal.Shortest
import CodeIndex.Json.Fault

/-!
Reading a JSON text from left to right: white space, words, numbers and strings. A fault is placed
either where the reader stands or, when it only looked at the next byte, one byte further.
-/
namespace CodeIndex.Json

structure Cursor where
  rest : List Char
  spot : Spot

/-- What reading yields: a result with the cursor after it, or a fault. -/
abbrev Reading (α : Type) := Except Fault (α × Cursor)

namespace Cursor

def start (s : String) : Cursor := ⟨s.toList, ⟨1, 0⟩⟩

def stepSpot (s : Spot) (c : Char) : Spot :=
  if c = '\n' then ⟨s.line + 1, 0⟩ else ⟨s.line, s.column + c.utf8Size⟩

def peek (c : Cursor) : Option Char := c.rest.head?

/-- The cursor after the next character. -/
def skip (c : Cursor) : Cursor :=
  match c.rest with
  | [] => c
  | x :: xs => ⟨xs, stepSpot c.spot x⟩

/-- The spot one byte further, if there is one. -/
def peekSpot (c : Cursor) : Spot :=
  match c.rest with
  | [] => c.spot
  | '\n' :: _ => ⟨c.spot.line + 1, 0⟩
  | _ :: _ => ⟨c.spot.line, c.spot.column + 1⟩

def fault (c : Cursor) (cause : Cause) : Fault := ⟨cause, some c.spot⟩

def peekFault (c : Cursor) (cause : Cause) : Fault := ⟨cause, some c.peekSpot⟩

def isSpace (c : Char) : Bool := c == ' ' || c == '\n' || c == '\t' || c == '\r'

def skipSpaceFrom (spot : Spot) : List Char → Cursor
  | [] => ⟨[], spot⟩
  | x :: xs => if isSpace x then skipSpaceFrom (stepSpot spot x) xs else ⟨x :: xs, spot⟩

def skipSpace (c : Cursor) : Cursor := skipSpaceFrom c.spot c.rest

/-- Reads the rest of a word whose first letter was read. -/
def word (c : Cursor) : List Char → Except Fault Cursor
  | [] => .ok c
  | w :: ws =>
    match c.rest with
    | [] => .error (c.fault .endOfValue)
    | x :: _ => if x = w then word c.skip ws else .error (c.skip.fault .expectedIdent)

/-- The digits that follow, and the cursor after them. -/
def digitsFrom (spot : Spot) : List Char → List Char × Cursor
  | [] => ([], ⟨[], spot⟩)
  | x :: xs =>
    if x.isDigit then
      let (ds, c) := digitsFrom (stepSpot spot x) xs
      (x :: ds, c)
    else ([], ⟨x :: xs, spot⟩)

def digits (c : Cursor) : List Char × Cursor := digitsFrom c.spot c.rest

end Cursor

def digitValue (c : Char) : Nat := c.toNat - 48

def maxWord : Nat := 0xffffffffffffffff

/-- Takes digits into a number as long as it fits 64 bits. The results are the number, how many
digits were taken and whether one was left over. -/
def takeDigits : Nat → Nat → List Char → Nat × Nat × Bool
  | n, k, [] => (n, k, false)
  | n, k, d :: ds =>
    let m := n * 10 + digitValue d
    if m > maxWord then (n, k, true) else takeDigits m (k + 1) ds

/-- A power of ten that a double holds. -/
def pow10 (n : Nat) : Float := Float.ofScientific 1 false n

/-- Scales by a negative power of ten in steps that a double can hold. -/
def scaleDown : Nat → Float → Nat → Float
  | 0, f, _ => f
  | n + 1, f, e =>
    if e ≤ 308 then f / pow10 e else if f == 0.0 then f else scaleDown n (f / pow10 308) (e - 308)

/-- The double `significand * 10 ^ exponent`, unless it is too large. -/
def realOf (significand : Nat) (exponent : Int) : Option Float :=
  let f := Float.ofNat significand
  if exponent ≥ 0 then
    if exponent.natAbs ≤ 308 then
      let g := f * pow10 exponent.natAbs
      if g.isInf then none else some g
    else if f == 0.0 then some f
    else none
  else some (scaleDown 8 f exponent.natAbs)

def finishReal (c : Cursor) (positive : Bool) (significand : Nat) (exponent : Int) :
    Reading Value :=
  match realOf significand exponent with
  | some f => .ok (.real (Decimal.text (if positive then f else -f)), c)
  | none => .error (c.fault .numberOutOfRange)

def maxExponent : Nat := 0x7fffffff

/-- Takes digits of an exponent as long as they fit 31 bits; `none` when one does not. -/
def takeExponent : Nat → Cursor → List Char → Option Nat × Cursor
  | n, c, [] => (some n, c)
  | n, c, d :: ds =>
    let m := n * 10 + digitValue d
    if m > maxExponent then (none, c.skip) else takeExponent m c.skip ds

/-- Reads an exponent from its letter on. -/
def exponent (c : Cursor) (positive : Bool) (significand : Nat) (base : Int) : Reading Value :=
  let c := c.skip
  let (up, c) := match c.peek with
    | some '+' => (true, c.skip)
    | some '-' => (false, c.skip)
    | _ => (true, c)
  match c.peek with
  | none => .error (c.fault .endOfValue)
  | some d =>
    if d.isDigit then
      let (ds, _) := c.digits
      match takeExponent 0 c ds with
      | (some e, c) =>
        finishReal c positive significand (if up then base + e else base - e)
      | (none, c) =>
        if significand != 0 && up then .error (c.fault .numberOutOfRange)
        else .ok (.real (if positive then "0.0" else "-0.0"), c.digits.2)
    else .error (c.skip.fault .invalidNumber)

def isExponentMark (c : Option Char) : Bool := c == some 'e' || c == some 'E'

/-- Reads the digits after a full stop, from the full stop on. -/
def fraction (c : Cursor) (positive : Bool) (significand : Nat) (base : Int) : Reading Value :=
  let c := c.skip
  let (ds, after) := c.digits
  match ds with
  | [] =>
    match c.peek with
    | some _ => .error (c.peekFault .invalidNumber)
    | none => .error (c.peekFault .endOfValue)
  | ds =>
    let (n, k, _) := takeDigits significand 0 ds
    if isExponentMark after.peek then exponent after positive n (base - k)
    else finishReal after positive n (base - k)

/-- What follows the digits before the full stop. -/
def numberTail (c : Cursor) (positive : Bool) (significand : Nat) : Reading Value :=
  if c.peek == some '.' then fraction c positive significand 0
  else if isExponentMark c.peek then exponent c positive significand 0
  else if positive then .ok (.int significand, c)
  else if significand = 0 || significand > 0x8000000000000000 then
    .ok (.real (Decimal.text (-(Float.ofNat significand))), c)
  else .ok (.int (-(significand : Int)), c)

/-- Reads a number whose sign was read. -/
def number (c : Cursor) (positive : Bool) : Reading Value :=
  match c.peek with
  | none => .error (c.fault .endOfValue)
  | some '0' =>
    let c := c.skip
    match c.peek with
    | some d => if d.isDigit then .error (c.peekFault .invalidNumber) else numberTail c positive 0
    | none => numberTail c positive 0
  | some d =>
    if d.isDigit then
      let (ds, after) := c.digits
      let (n, k, overflow) := takeDigits 0 0 ds
      if overflow then
        let extra : Int := ds.length - k
        if after.peek == some '.' then fraction after positive n extra
        else if isExponentMark after.peek then exponent after positive n extra
        else finishReal after positive n extra
      else numberTail after positive n
    else .error (c.skip.fault .invalidNumber)

def hexValue? (c : Char) : Option Nat :=
  if c.isDigit then some (c.toNat - 48)
  else if 'a' ≤ c && c ≤ 'f' then some (c.toNat - 87)
  else if 'A' ≤ c && c ≤ 'F' then some (c.toNat - 55)
  else none

/-- The cursor a number of bytes further; it may stand inside a character only to place a fault. -/
def Cursor.afterBytes : Nat → Cursor → Option Cursor
  | 0, c => some c
  | n + 1, c =>
    match c.rest with
    | [] => none
    | x :: xs =>
      if x.utf8Size ≤ n + 1 then afterBytes (n + 1 - x.utf8Size) ⟨xs, Cursor.stepSpot c.spot x⟩
      else some ⟨x :: xs, ⟨c.spot.line, c.spot.column + n + 1⟩⟩
termination_by n => n
decreasing_by
  have := x.utf8Size_pos
  omega

/-- The cursor at the end of the text. -/
def Cursor.atEnd (c : Cursor) : Cursor := ⟨[], c.rest.foldl Cursor.stepSpot c.spot⟩

/-- Reads the four digits of a Unicode escape. -/
def hexEscape (c : Cursor) : Reading Nat :=
  match c.rest with
  | a :: b :: d :: e :: _ =>
    match hexValue? a, hexValue? b, hexValue? d, hexValue? e with
    | some a, some b, some d, some e =>
      .ok (((a * 16 + b) * 16 + d) * 16 + e, c.skip.skip.skip.skip)
    | _, _, _, _ => invalid
  | _ => invalid
where
  invalid : Reading Nat :=
    match c.afterBytes 4 with
    | some after => .error (after.fault .invalidEscape)
    | none => .error (c.atEnd.fault .endOfText)

/-- Reads a Unicode escape after its letter; two surrogates stand for one character. -/
def unicodeEscape (c : Cursor) : Except Fault (Char × Cursor) := do
  let (n, c) ← hexEscape c
  if 0xDC00 ≤ n && n ≤ 0xDFFF then throw (c.fault .loneSurrogate)
  else if 0xD800 ≤ n && n ≤ 0xDBFF then
    let c ← follow c '\\'
    let c ← follow c 'u'
    let (m, c) ← hexEscape c
    if 0xDC00 ≤ m && m ≤ 0xDFFF then
      return (Char.ofNat (0x10000 + (n - 0xD800) * 0x400 + (m - 0xDC00)), c)
    else throw (c.fault .loneSurrogate)
  else return (Char.ofNat n, c)
where
  follow (c : Cursor) (x : Char) : Except Fault Cursor :=
    match c.peek with
    | none => .error (c.fault .endOfText)
    | some y => if x = y then .ok c.skip else .error ((c.afterBytes 1).getD c |>.fault .endOfHexEscape)

/-- The character of a one-letter escape. -/
def simpleEscape? : Char → Option Char
  | '"' => some '"'
  | '\\' => some '\\'
  | '/' => some '/'
  | 'b' => some '\x08'
  | 'f' => some '\x0c'
  | 'n' => some '\n'
  | 'r' => some '\r'
  | 't' => some '\t'
  | _ => none

/-- Reads an escape after its backslash. -/
def escape (c : Cursor) : Reading Char :=
  match c.peek with
  | none => .error (c.fault .endOfText)
  | some 'u' => unicodeEscape c.skip
  | some x =>
    match simpleEscape? x with
    | some y => .ok (y, c.skip)
    | none => .error ((c.afterBytes 1).getD c |>.fault .invalidEscape)

/-- Reads a string after its opening quote. The number bounds the characters, and the characters
read so far are kept in reverse. -/
def textFrom : Nat → List Char → Cursor → Reading String
  | 0, _, c => .error (c.fault .endOfText)
  | n + 1, read, c =>
    match c.rest with
    | [] => .error (c.fault .endOfText)
    | '"' :: _ => .ok (String.ofList read.reverse, c.skip)
    | '\\' :: _ =>
      match escape c.skip with
      | .ok (x, c) => textFrom n (x :: read) c
      | .error f => .error f
    | x :: _ =>
      if x.toNat < 32 then .error (c.skip.fault .controlCharacter)
      else textFrom n (x :: read) c.skip

def text (c : Cursor) : Reading String := textFrom (c.rest.length + 1) [] c

end CodeIndex.Json
