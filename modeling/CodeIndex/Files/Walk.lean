import CodeIndex.Config
import CodeIndex.Files.Ignore
import CodeIndex.Files.Tree
import CodeIndex.Language

/-!
Listing the source files below a directory. Rule files of a directory hold for all below it, the
nearer ones first; links are not followed.
-/
namespace CodeIndex.Files

structure Source where
  relative : String
  location : Location
  size : Nat

/-- The rules of one directory, by the kind of file that they stand in. -/
structure Rules where
  directory : Location
  plain : List IgnoreRule
  versioned : List IgnoreRule
  excluded : List IgnoreRule

def rulesIn (t : Tree) (l : Location) (path : String) : List IgnoreRule :=
  match t.readText l path with
  | .ok s => IgnoreRule.ofText s
  | .error _ => []

def rulesOf (t : Tree) (respectGitignore : Bool) (l : Location) : Rules :=
  { directory := l
    plain := rulesIn t l ".ignore"
    versioned := if respectGitignore then rulesIn t l ".gitignore" else []
    excluded := if respectGitignore then rulesIn t l ".git/info/exclude" else [] }

/-- What one kind of rules says, the nearest directory first. -/
def nearest (kind : Rules → List IgnoreRule) (l : Location) (isDirectory : Bool) :
    List Rules → Verdict
  | [] => .none
  | r :: above =>
    (verdict (kind r) (pathOf (l.drop r.directory.length)) isDirectory).or
      (nearest kind l isDirectory above)

/-- Whether the rules, the nearest first, leave a place out. -/
def isIgnored (rules : List Rules) (l : Location) (isDirectory : Bool) : Bool :=
  ((nearest Rules.plain l isDirectory rules).or
    ((nearest Rules.versioned l isDirectory rules).or
      (nearest Rules.excluded l isDirectory rules))) = .ignore

/-- The extension of a file name; a name that only starts with a full stop has none. -/
def extensionOf (name : String) : String :=
  match Text.Pieces.cutLast '.' name with
  | some (stem, ext) => if stem.isEmpty then "" else ext
  | none => ""

def accepts (config : IndexConfig) (relative name : String) (size : Nat) : Bool :=
  let ext := extensionOf name
  Language.isSupportedExtension ext
    && (config.extensions.isEmpty || config.extensions.contains ext)
    && !((Text.Pieces.split '/' relative).any config.excludeDirs.contains)
    && size ≤ config.maxFileSize

/-- The files below a directory; the number bounds the depth. -/
def walkFrom (t : Tree) (config : IndexConfig) (root : Location) :
    Nat → List Rules → Location → List Source
  | 0, _, _ => []
  | n + 1, above, here =>
    let rules := rulesOf t config.respectGitignore here :: above
    (t.children here).flatMap fun (name, entry) =>
      let place := here ++ [name]
      match entry with
      | .directory => if isIgnored rules place true then [] else walkFrom t config root n rules place
      | .link _ => []
      | .file content =>
        let relative := pathOf (place.drop root.length)
        if !isIgnored rules place false && accepts config relative name content.size then
          [⟨relative, place, content.size⟩]
        else []

/-- The source files below a root, in order of their paths. -/
def walk (t : Tree) (config : IndexConfig) (root : Location) : List Source :=
  match t.entry? root with
  | some .directory =>
    let above := ((List.range root.length).reverse).map fun n =>
      rulesOf t config.respectGitignore (root.take n)
    (walkFrom t config root (t.entries.length + 1) above root).mergeSort
      fun a b => (compare a.relative b.relative).isLE
  | _ => []

end CodeIndex.Files
