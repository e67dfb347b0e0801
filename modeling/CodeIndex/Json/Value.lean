/-!
JSON values and their compact text. The members of an object keep their order.
-/
namespace CodeIndex.Json

inductive Value where
  | null
  | bool (b : Bool)
  | int (n : Int)
  /-- A number that is no integer of 64 bits, by its shortest decimal form. -/
  | real (shown : String)
  | text (s : String)
  | list (items : List Value)
  | object (members : List (String × Value))
  deriving Repr

namespace Value

def ofOption {α : Type} (f : α → Value) : Option α → Value
  | none => null
  | some a => f a

/-- The first member of a name. -/
def get? (v : Value) (key : String) : Option Value :=
  match v with
  | object members => (members.find? fun m => m.1 == key).map Prod.snd
  | _ => none

def text? : Value → Option String
  | text s => some s
  | _ => none

def int? : Value → Option Int
  | int n => some n
  | _ => none

def nat? (v : Value) : Option Nat :=
  match v with
  | int n => if 0 ≤ n then some n.toNat else none
  | _ => none

def bool? : Value → Option Bool
  | bool b => some b
  | _ => none

def list? : Value → Option (List Value)
  | list xs => some xs
  | _ => none

/-- A value or nothing for null. -/
def optional {α : Type} (f : Value → Option α) (v : Value) : Option (Option α) :=
  match v with
  | null => some none
  | other => (f other).map some

end Value

/-- The hexadecimal digit of a number below sixteen. -/
def hexDigit (n : Nat) : Char := if n < 10 then Char.ofNat (48 + n) else Char.ofNat (87 + n)

/-- How a character is written inside quotes. -/
def escapeChar (c : Char) : List Char :=
  if c == '"' then ['\\', '"']
  else if c == '\\' then ['\\', '\\']
  else if c == '\x08' then ['\\', 'b']
  else if c == '\x0c' then ['\\', 'f']
  else if c == '\n' then ['\\', 'n']
  else if c == '\r' then ['\\', 'r']
  else if c == '\t' then ['\\', 't']
  else if c.toNat < 32 then ['\\', 'u', '0', '0', hexDigit (c.toNat / 16), hexDigit (c.toNat % 16)]
  else [c]

def encodeText (s : String) : List Char := '"' :: s.toList.flatMap escapeChar ++ ['"']

mutual

def encodeChars : Value → List Char
  | .null => "null".toList
  | .bool true => "true".toList
  | .bool false => "false".toList
  | .int n => (toString n).toList
  | .real shown => shown.toList
  | .text s => encodeText s
  | .list items => '[' :: encodeItems items ++ [']']
  | .object members => '\x7b' :: encodeMembers members ++ ['\x7d']

def encodeItems : List Value → List Char
  | [] => []
  | [v] => encodeChars v
  | v :: vs => encodeChars v ++ ',' :: encodeItems vs

def encodeMembers : List (String × Value) → List Char
  | [] => []
  | [(k, v)] => encodeText k ++ ':' :: encodeChars v
  | (k, v) :: ms => encodeText k ++ ':' :: encodeChars v ++ ',' :: encodeMembers ms

end

theorem encodeChars_int (n : Int) : encodeChars (.int n) = (toString n).toList := rfl

theorem encodeChars_text (s : String) : encodeChars (.text s) = encodeText s := rfl

theorem encodeChars_members (ms : List (String × Value)) :
    encodeChars (.object ms) = '\x7b' :: encodeMembers ms ++ ['\x7d'] := rfl

def encode (v : Value) : String := String.ofList (encodeChars v)

end CodeIndex.Json
