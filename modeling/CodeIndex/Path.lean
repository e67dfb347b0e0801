import CodeIndex.Text.Pieces

/-!
Paths of a file system. A path is read as a list of steps: empty segments and single full stops
count for nothing, except that a full stop at the very start is a step of its own.
-/
namespace CodeIndex.Path

inductive Step where
  | root
  | here
  | up
  | name (s : String)
  deriving DecidableEq, Repr

namespace Step

def text : Step → String
  | root => "/"
  | here => "."
  | up => ".."
  | name s => s

end Step

/-- The step of a segment that does not start a path. -/
def stepOf? : String → Option Step
  | "" | "." => none
  | ".." => some .up
  | s => some (.name s)

def steps (path : String) : List Step :=
  match Text.Pieces.split '/' path with
  | [] => []
  | first :: rest =>
    let head : List Step :=
      if first == "" then (if path.isEmpty then [] else [.root])
      else if first == "." then [.here]
      else (stepOf? first).toList
    head ++ rest.filterMap stepOf?

/-- The steps that follow a given beginning. -/
def stripSteps : List Step → List Step → Option (List Step)
  | [], path => some path
  | _ :: _, [] => none
  | r :: root, p :: path => if r = p then stripSteps root path else none

/-- The way from a root to a path below it, with slashes between its steps. -/
def relative? (root path : String) : Option String :=
  match stripSteps (steps root) (steps path) with
  | none => none
  | some [] => none
  | some way => some ("/".intercalate (way.map Step.text))

/-- Steps as a path. -/
def ofSteps : List Step → String
  | .root :: rest => "/" ++ "/".intercalate (rest.map Step.text)
  | way => "/".intercalate (way.map Step.text)

/-- The path without its last step; a path without steps and the root alone have none. -/
def parent? (path : String) : Option String :=
  match steps path with
  | [] => none
  | [.root] => none
  | way => some (ofSteps way.dropLast)

/-- What stands before the last slash; nothing if there is none. -/
def directory (path : String) : String :=
  match Text.Pieces.cutLast '/' path with
  | some (dir, _) => dir
  | none => ""

/-- What stands after the last slash. -/
def baseName (path : String) : String :=
  match Text.Pieces.cutLast '/' path with
  | some (_, base) => base
  | none => path

end CodeIndex.Path
