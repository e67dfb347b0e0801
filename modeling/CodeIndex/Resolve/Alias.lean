import CodeIndex.Json.Relaxed
import CodeIndex.Json.Schema
import CodeIndex.Reference
import CodeIndex.Resolve.Import

/-!
Path aliases: patterns with at most one star that stand for lists of paths, and a base directory
for all other names. Aliases turn a specifier that is not relative into relative ones.
-/
namespace CodeIndex.Resolve

/-- A pattern around its first star, if it has one. -/
structure AliasPattern where
  start : String
  rest : Option String
  targets : List String
  deriving DecidableEq, Repr

namespace AliasPattern

def of (pattern : String) (targets : List String) : AliasPattern :=
  match Text.Pieces.cut '*' pattern with
  | some (start, rest) => ⟨start, some rest, targets⟩
  | none => ⟨pattern, none, targets⟩

/-- What the star stands for in a specifier; nothing for a pattern without a star. -/
def match? (p : AliasPattern) (specifier : String) : Option String :=
  match p.rest with
  | none => if specifier == p.start then some "" else none
  | some rest => (Text.Pieces.stripStart p.start specifier).bind (Text.Pieces.stripEnd rest)

end AliasPattern

structure Aliases where
  base : Option String
  patterns : List AliasPattern
  deriving DecidableEq, Repr

namespace Aliases

def none : Aliases := ⟨Option.none, []⟩

def isEmpty (a : Aliases) : Bool := a.base.isNone && a.patterns.isEmpty

/-- The parts of a project configuration that aliases come from. -/
def schema : Json.Schema :=
  .record "TsConfig"
    [("compilerOptions", .default .null,
      .optional (.record "CompilerOptions"
        [("baseUrl", .null, .optional .text),
          ("paths", .default (.object []), .dict (.list .text))]))]

/-- Inserts a pattern into a list by its text; a later pattern of the same text takes the place of
the earlier one. -/
def insertPattern (pattern : String) (targets : List String) :
    List (String × List String) → List (String × List String)
  | [] => [(pattern, targets)]
  | (p, ts) :: rest =>
    if pattern < p then (pattern, targets) :: (p, ts) :: rest
    else if pattern = p then (p, targets) :: rest
    else (p, ts) :: insertPattern pattern targets rest

def texts (v : Json.Value) : List String := (v.list?.getD []).filterMap Json.Value.text?

/-- The pattern with the longest start comes first; equal lengths keep the order of the texts. -/
def ordered (paths : List (String × List String)) : List AliasPattern :=
  let sorted := paths.foldl (fun acc p => insertPattern p.1 p.2 acc) []
  (sorted.map fun p => AliasPattern.of p.1 p.2).mergeSort
    fun a b => b.start.utf8ByteSize ≤ a.start.utf8ByteSize

def ofValue (config : Json.Value) : Aliases :=
  match config.get? "compilerOptions" with
  | some (.object members) =>
    let options := Json.Value.object members
    let paths := match options.get? "paths" with
      | some (.object entries) => entries.map fun (k, v) => (k, texts v)
      | _ => []
    { base := ((options.get? "baseUrl").bind Json.Value.text?).bind (join? "")
      patterns := ordered paths }
  | _ => none

/-- The aliases of a configuration text, in which comments are allowed. -/
def ofText (s : String) : Except Json.Fault Aliases :=
  (Json.decode schema (Json.Relaxed.strip s)).map ofValue

/-- Puts a text in the place of the first star. -/
def substitute (target matched : String) : String :=
  match Text.Pieces.cut '*' target with
  | some (before, after) => before ++ matched ++ after
  | Option.none => target

/-- The first pattern that matches, with what its star stands for. -/
def select (a : Aliases) (specifier : String) : Option (AliasPattern × String) :=
  a.patterns.findSome? fun p => (p.match? specifier).map fun m => (p, m)

/-- The paths that a specifier may stand for, best first. -/
def candidatePaths (a : Aliases) (specifier : String) : List String :=
  let base := a.base.getD ""
  let aliased := match a.select specifier with
    | some (p, matched) => p.targets.filterMap fun t => join? base (substitute t matched)
    | Option.none => []
  aliased ++ if a.base.isSome then (join? base specifier).toList else []

/-- The relative specifiers that a specifier may stand for, best first. -/
def rewrite (a : Aliases) (specifier fromFile : String) : List String :=
  (a.candidatePaths specifier).map (specifierTo fromFile)

end Aliases

/-- Finds the file of any specifier. -/
def resolve (known : List String) (aliases : Aliases) (specifier fromFile : String) :
    Option String :=
  if isRelative specifier then resolveImport known specifier fromFile
  else
    (aliases.rewrite specifier fromFile).findSome? fun s => resolveImport known s fromFile

/-- A static import with the file that it leads to; other references stay as they are. -/
def resolveReference (known : List String) (aliases : Aliases) (r : Reference) : Reference :=
  if r.kind = .import && !r.metadata.dynamic then
    match r.metadata.importSource with
    | some specifier => { r with targetFilePath := resolve known aliases specifier r.filePath }
    | none => r
  else r

/-- Whether a reference counts as resolved. -/
def isResolvedImport (r : Reference) : Bool :=
  r.kind = .import && !r.metadata.dynamic && r.metadata.importSource.isSome
    && r.targetFilePath.isSome

end CodeIndex.Resolve
