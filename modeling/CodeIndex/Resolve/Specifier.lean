import CodeIndex.Path

/-!
Import specifiers and the paths they lead to. Paths are relative to the root of the repository and
have their single and double full stops folded away.
-/
namespace CodeIndex.Resolve

def isRelative (specifier : String) : Bool :=
  specifier.startsWith "./" || specifier.startsWith "../" || specifier == "." || specifier == ".."

def segments (path : String) : List String :=
  (Text.Pieces.split '/' path).filter fun s => !s.isEmpty

/-- Folds the segments of a specifier into those of a directory, kept in reverse. -/
def fold : List String → List String → Option (List String)
  | dir, [] => some dir
  | dir, "" :: rest => fold dir rest
  | dir, "." :: rest => fold dir rest
  | [], ".." :: _ => none
  | _ :: dir, ".." :: rest => fold dir rest
  | dir, s :: rest => fold (s :: dir) rest

/-- The path that a specifier leads to from a directory, unless it leaves the root. -/
def join? (dir specifier : String) : Option String :=
  (fold (segments dir).reverse (Text.Pieces.split '/' specifier)).map fun s =>
    "/".intercalate s.reverse

/-- What is left of two lists after their common beginning. -/
def dropCommon : List String → List String → List String × List String
  | a :: as, b :: bs => if a = b then dropCommon as bs else (a :: as, b :: bs)
  | as, bs => (as, bs)

/-- The relative specifier that leads from the directory of a file to a target. -/
def specifierTo (fromFile target : String) : String :=
  let (ups, downs) := dropCommon (segments (Path.directory fromFile)) (segments target)
  let start := if ups.isEmpty then ["."] else ups.map fun _ => ".."
  "/".intercalate (start ++ downs)

end CodeIndex.Resolve
