import CodeIndex.Extract.File
import CodeIndex.SourceFile

/-!
Extractors that are used for one file after the other. An extractor keeps the grammar of the last
language it met and sets another one only when the language changes. The files of a run are shared
out among several extractors.
-/
namespace CodeIndex.Extract

open Source

structure Extractor where
  /-- The language that the grammar was set for. -/
  current : Option Language
  grammar : Option Dialect
  deriving DecidableEq, Repr

namespace Extractor

def new : Extractor := ⟨none, none⟩

/-- The extractor with the grammar of a language, if there is one. -/
def prepare? (x : Extractor) (language : Language) : Option Extractor :=
  if x.current = some language then some x
  else (Dialect.ofLanguage? language).map fun d => ⟨some language, some d⟩

/-- Parses a file with the grammar that is set. -/
def parse (x : Extractor) (path content : String) : Except Failure Parsed × Extractor :=
  match x.prepare? (Language.ofPath path) with
  | none => (.error (.unsupported path), x)
  | some ready =>
    match ready.grammar.bind fun d => parse? d content with
    | some p => (.ok p, ready)
    | none => (.error (.malformed path), ready)

def extractFile (x : Extractor) (path content : String) : Except Failure Extraction × Extractor :=
  let (parsed, x) := x.parse path content
  (parsed.map (contents path), x)

end Extractor

/-- The extractors of a run by their numbers. -/
abbrev Extractors := Nat → Extractor

/-- Extracts the files in order; each job names the extractor that takes the file. -/
def share : Extractors → List (Nat × SourceFile) → List (SourceFile × Except Failure Extraction)
  | _, [] => []
  | pool, (worker, f) :: rest =>
    let (outcome, x) := (pool worker).extractFile f.path f.content
    (f, outcome) :: share (fun i => if i = worker then x else pool i) rest

end CodeIndex.Extract
