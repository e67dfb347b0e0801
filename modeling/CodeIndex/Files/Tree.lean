import CodeIndex.Error
import CodeIndex.Path
import CodeIndex.Store.Basic

/-!
File trees: directories, files and symbolic links below one base directory. Places in the tree are
lists of names; paths are texts that lead to places, possibly through links. A path is relative to
some directory of the tree or starts with the path of the base. Nothing outside the base exists.
-/
namespace CodeIndex.Files

/-- What a file holds: a text, bytes that are no text, or the database of an index. -/
inductive Content where
  | text (s : String)
  | bytes (b : List UInt8)
  | database (s : Store)
  deriving DecidableEq

namespace Content

def size : Content → Nat
  | text s => s.utf8ByteSize
  | bytes b => b.length
  | database _ => 0

/-- Bytes as a text where they are one. -/
def ofBytes (b : List UInt8) : Content :=
  match String.fromUTF8? ⟨b.toArray⟩ with
  | some s => text s
  | none => bytes b

end Content

inductive Entry where
  | file (content : Content)
  | link (target : String)
  | directory
  deriving DecidableEq

/-- The names that lead from the base to a place. -/
abbrev Location := List String

/-- Every directory above an entry is an entry too; the base itself is not listed. -/
structure Tree where
  /-- The absolute path of the base. -/
  base : String
  entries : List (Location × Entry)

namespace Tree

def empty (base : String) : Tree := ⟨base, []⟩

def entry? (t : Tree) (l : Location) : Option Entry :=
  if l.isEmpty then some .directory else (t.entries.find? fun e => e.1 == l).map Prod.snd

/-- Puts an entry at a place, over one that is there. -/
def set (t : Tree) (l : Location) (e : Entry) : Tree :=
  if t.entries.any fun x => x.1 == l then
    { t with entries := t.entries.map fun x => if x.1 == l then (l, e) else x }
  else { t with entries := t.entries ++ [(l, e)] }

/-- Removes an entry and all below it. -/
def remove (t : Tree) (l : Location) : Tree :=
  { t with entries := t.entries.filter fun x => !l.isPrefixOf x.1 }

/-- The entries directly below a place. -/
def children (t : Tree) (l : Location) : List (String × Entry) :=
  t.entries.filterMap fun (place, e) =>
    match place.getLast? with
    | some name => if place.dropLast == l then some (name, e) else none
    | none => none

/-- The names of a path. -/
def names (path : String) : List String := Text.Pieces.split '/' path

/-- Where a path starts and the names that follow; nothing for a path that starts outside. -/
def origin? (t : Tree) (start : Location) (path : String) : Option (Location × List String) :=
  if path.isEmpty then some (start, [])
  else if path == t.base then some ([], [])
  else
    match Text.Pieces.stripStart (t.base ++ "/") path with
    | some rest => some ([], names rest)
    | none => if path.startsWith "/" then none else some (start, names path)

/-- How many links may be met on one path. -/
def maxLinks : Nat := 40

/-- Follows names from a directory. The last name may be allowed to be missing. The first number
bounds the steps, the second one the links. -/
def follow (t : Tree) (mayMiss : Bool) :
    Nat → Nat → Location → List String → Except FileFault Location
  | 0, _, _, _ => .error .tooManyLinks
  | _, _, here, [] => .ok here
  | n + 1, links, here, name :: rest =>
    if name == "" || name == "." then follow t mayMiss n links here rest
    else if name == ".." then
      if here.isEmpty then .error .notFound else follow t mayMiss n links here.dropLast rest
    else
      match t.entry? (here ++ [name]) with
      | none => if mayMiss && rest.isEmpty then .ok (here ++ [name]) else .error .notFound
      | some .directory => follow t mayMiss n links (here ++ [name]) rest
      | some (.file _) => if rest.isEmpty then .ok (here ++ [name]) else .error .notDirectory
      | some (.link target) =>
        match links, t.origin? here target with
        | 0, _ => .error .tooManyLinks
        | _, none => .error .notFound
        | links + 1, some (there, way) => follow t mayMiss n links there (way ++ rest)

/-- Steps enough for every path that meets few links. -/
def stepsFor (t : Tree) (path : String) : Nat :=
  t.entries.foldl (fun n e => n + match e.2 with
    | .link target => maxLinks * (target.length + 1)
    | _ => 0) (path.length + 2)

/-- The place that a path leads to from a directory. -/
def resolve (t : Tree) (start : Location) (path : String) : Except FileFault Location :=
  match t.origin? start path with
  | some (here, way) => t.follow false (t.stepsFor path) maxLinks here way
  | none => .error .notFound

/-- The place that a file is written to, which is there or missing in a directory that is there. -/
def resolveNew (t : Tree) (start : Location) (path : String) : Except FileFault Location :=
  match t.origin? start path with
  | some (here, way) => t.follow true (t.stepsFor path) maxLinks here way
  | none => .error .notFound

def isDirectory (t : Tree) (start : Location) (path : String) : Bool :=
  match t.resolve start path with
  | .ok l =>
    match t.entry? l with
    | some .directory => true
    | _ => false
  | .error _ => false

def isFile (t : Tree) (start : Location) (path : String) : Bool :=
  match t.resolve start path with
  | .ok l =>
    match t.entry? l with
    | some (.file _) => true
    | _ => false
  | .error _ => false

def pathExists (t : Tree) (start : Location) (path : String) : Bool :=
  match t.resolve start path with
  | .ok _ => true
  | .error _ => false

def readContent (t : Tree) (start : Location) (path : String) : Except FileFault Content := do
  let l ← t.resolve start path
  match t.entry? l with
  | some (.file c) => return c
  | some _ => throw .isDirectory
  | none => throw .notFound

def readText (t : Tree) (start : Location) (path : String) : Except FileFault String := do
  match ← t.readContent start path with
  | .text s => return s
  | _ => throw .notText

/-- Makes the directories of a path that are missing, name by name. -/
def makeNames (start : Location) : List String → Tree → Except FileFault Tree
  | [], t => .ok t
  | name :: rest, t =>
    if name == "" || name == "." then makeNames start rest t
    else
      match t.resolve start name with
      | .ok l =>
        match t.entry? l with
        | some .directory => makeNames l rest t
        | _ => .error (if rest.isEmpty then .exists else .notDirectory)
      | .error _ =>
        if name == ".." then .error .notFound
        else
          match t.entry? (start ++ [name]) with
          | some _ => .error .exists
          | none => makeNames (start ++ [name]) rest (t.set (start ++ [name]) .directory)

def makeDirectories (t : Tree) (start : Location) (path : String) : Except FileFault Tree :=
  match t.origin? start path with
  | some (here, way) => makeNames here way t
  | none => .error .notFound

/-- Writes a file; its directory must be there. A link is written through. -/
def write (t : Tree) (start : Location) (path : String) (content : Content) :
    Except FileFault Tree := do
  let l ← t.resolveNew start path
  match t.entry? l with
  | some .directory => throw .isDirectory
  | _ => return t.set l (.file content)

/-- Puts an entry at a path, making the directories above it. -/
def plant (t : Tree) (path : String) (e : Entry) : Tree :=
  match (names path).filter (fun n => n != "" && n != ".") with
  | [] => t
  | place =>
    let above := (List.range place.length).filterMap fun n =>
      if n == 0 then none else some (place.take n)
    let t := above.foldl
      (fun t l => if (t.entry? l).isSome then t else t.set l .directory) t
    t.set place e

/-- The entries of a later tree that an earlier one has not. -/
def changes (earlier later : Tree) : List (Location × Entry) :=
  later.entries.filter fun (l, e) => earlier.entry? l != some e

end Tree

/-- A place as a path below the base. -/
def pathOf (l : Location) : String := "/".intercalate l

/-- The absolute path of a place. -/
def Tree.absolute (t : Tree) (l : Location) : String :=
  if l.isEmpty then t.base else t.base ++ "/" ++ pathOf l

end CodeIndex.Files
