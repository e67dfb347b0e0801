import CodeIndex.Error
import CodeIndex.Text.Pieces

/-!
How the command line reports that a command failed: what happened, and below it what lies behind it.
-/
namespace CodeIndex.Command

structure Failure where
  headline : String
  /-- What lies behind it, outermost first. -/
  causes : List String := []
  deriving DecidableEq, Repr

namespace Failure

def ofError (e : Error) : Failure := ⟨e.message, e.causes⟩

def ofFault (f : FileFault) : Failure := ⟨f.message, []⟩

/-- Puts a failure behind another one. -/
def within (headline : String) (f : Failure) : Failure := ⟨headline, f.headline :: f.causes⟩

/-- A cause with its number, if there is more than one. Later lines of a cause stand below its
first. -/
def causeText (number : Option Nat) (cause : String) : String :=
  let start := match number with
    | some n =>
      let digits := toString n
      String.ofList (List.replicate (5 - digits.length) ' ') ++ digits ++ ": "
    | none => "    "
  let next := if number.isSome then "\n       " else "\n    "
  start ++ next.intercalate (Text.Pieces.split '\n' cause)

def text (f : Failure) : String :=
  let numbered := f.causes.length > 1
  let causes := f.causes.zipIdx.map fun (c, n) => causeText (if numbered then some n else none) c
  "Error: " ++ f.headline
    ++ (if causes.isEmpty then "" else "\n\nCaused by:\n" ++ "\n".intercalate causes) ++ "\n"

end Failure

end CodeIndex.Command
