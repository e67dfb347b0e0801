import CodeIndex.Extract.References

/-!
Everything that is extracted from one file: its symbols, and its references with the innermost
symbol around each of them.
-/
namespace CodeIndex.Extract

open Source

/-- Why a file yields nothing. -/
inductive Failure where
  | unsupported (path : String)
  | malformed (path : String)
  deriving DecidableEq, Repr

namespace Failure

def path : Failure → String
  | unsupported p | malformed p => p

def message : Failure → String
  | unsupported p => "Unsupported language for " ++ p
  | malformed _ => "syntax error"

end Failure

structure Extraction where
  symbols : List Symbol
  references : List Reference
  deriving DecidableEq, Repr

/-- A symbol with fewer lines encloses more closely; of two with equally many the later one. -/
def encloses (a b : Symbol) : Bool :=
  let da := a.lineEnd - a.lineStart
  let db := b.lineEnd - b.lineStart
  da < db || (da == db && b.lineStart < a.lineStart)

/-- The closest symbol of a list, the first one on a tie. -/
def closest : Option Symbol → List Symbol → Option Symbol
  | best, [] => best
  | none, s :: rest => closest (some s) rest
  | some b, s :: rest => closest (some (if encloses s b then s else b)) rest

/-- The innermost symbol whose lines hold the line. -/
def enclosing? (symbols : List Symbol) (line : Nat) : Option Symbol :=
  closest none (symbols.filter fun s => s.covers line)

def withEnclosing (symbols : List Symbol) (r : Reference) : Reference :=
  { r with
    metadata :=
      { r.metadata with
        enclosing := (enclosing? symbols r.line).map fun s => ⟨s.name, s.lineStart⟩ } }

def parseFile (path content : String) : Except Failure Parsed :=
  match Dialect.ofLanguage? (Language.ofPath path) with
  | none => .error (.unsupported path)
  | some d =>
    match parse? d content with
    | some p => .ok p
    | none => .error (.malformed path)

/-- What a parsed file holds. -/
def contents (path : String) (p : Parsed) : Extraction :=
  let symbols := Symbols.extract path p
  ⟨symbols, (References.extract path p).map (withEnclosing symbols)⟩

def extractFile (path content : String) : Except Failure Extraction :=
  (parseFile path content).map (contents path)

end CodeIndex.Extract
