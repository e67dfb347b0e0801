import CodeIndex.Command.Failure

/-!
The arguments of a command: flags with a value, switches, and all others, which stand for
themselves.
-/
namespace CodeIndex.Command

/-- The flags that take the next argument as their value. -/
def valueFlags : List String :=
  ["--root", "--repo", "--name", "--limit", "--depth", "--direction"]

/-- The argument after the first occurrence of a flag. -/
def flagValue? (flag : String) : List String → Option String
  | [] => none
  | a :: rest => if a = flag then rest.head? else flagValue? flag rest

def hasFlag (flag : String) (args : List String) : Bool := args.contains flag

/-- The arguments that are neither flags nor values of flags. -/
def positional : List String → List String
  | [] => []
  | a :: rest =>
    if valueFlags.contains a then
      match rest with
      | [] => []
      | _ :: rest => positional rest
    else if a.startsWith "--" then positional rest
    else a :: positional rest

/-- Why a text is no number. -/
inductive NumberFault where
  | empty
  | invalidDigit
  | tooLarge
  deriving DecidableEq, Repr

namespace NumberFault

def message : NumberFault → String
  | empty => "cannot parse integer from empty string"
  | invalidDigit => "invalid digit found in string"
  | tooLarge => "number too large to fit in target type"

end NumberFault

/-- Reads digits from the left; the first digit that is none, or with which the number passes the
bound, decides. -/
def readDigits (bound : Nat) : Nat → List Char → Except NumberFault Nat
  | n, [] => .ok n
  | n, c :: rest =>
    if c.isDigit then
      let next := n * 10 + (c.toNat - 48)
      if next < bound then readDigits bound next rest else .error .tooLarge
    else .error .invalidDigit

/-- Reads a number below a bound; a plus sign may stand before it. -/
def readNumber (bound : Nat) (s : String) : Except NumberFault Nat :=
  match s.toList with
  | [] => .error .empty
  | ['+'] => .error .invalidDigit
  | '+' :: digits => readDigits bound 0 digits
  | digits => readDigits bound 0 digits

/-- The number that a flag gives, if it is there. -/
def numberFlag (bound : Nat) (flag : String) (args : List String) : Except Failure (Option Nat) :=
  match flagValue? flag args with
  | none => .ok none
  | some v =>
    match readNumber bound v with
    | .ok n => .ok (some n)
    | .error f => .error ⟨"Invalid value for " ++ flag ++ ": " ++ v, [f.message]⟩

end CodeIndex.Command
