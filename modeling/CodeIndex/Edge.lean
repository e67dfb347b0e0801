import CodeIndex.Symbol

/-!
Dependency edges between files and between symbols. The key of an edge joins its kind and its four
ends with bars; within a repository edges with equal keys count as one edge.
-/
namespace CodeIndex

inductive EdgeKind where
  | fileImport
  | symbolUsage
  deriving DecidableEq, Repr

namespace EdgeKind

def all : List EdgeKind := [fileImport, symbolUsage]

def name : EdgeKind → String
  | fileImport => "file_import"
  | symbolUsage => "symbol_usage"

def ofName? (s : String) : Option EdgeKind := all.find? fun k => k.name == s

end EdgeKind

structure Edge where
  repositoryId : String
  kind : EdgeKind
  fromFile : Option String
  toFile : Option String
  fromSymbol : Option SymbolKey
  toSymbol : Option SymbolKey
  deriving DecidableEq, Repr

namespace Edge

def fileImport (repositoryId source target : String) : Edge :=
  { repositoryId, kind := .fileImport, fromFile := some source, toFile := some target,
    fromSymbol := none, toSymbol := none }

/-- Both files or both symbols are named. -/
def isWellFormed (e : Edge) : Bool :=
  (e.fromFile.isSome && e.toFile.isSome) || (e.fromSymbol.isSome && e.toSymbol.isSome)

/-- An end that is a symbol, as it is written in a key. -/
def symbolText : Option SymbolKey → String
  | none => ""
  | some k => k.filePath ++ "#" ++ k.name ++ "@" ++ toString k.lineStart

def key (e : Edge) : String :=
  "|".intercalate
    [e.kind.name, e.fromFile.getD "", e.toFile.getD "", symbolText e.fromSymbol,
      symbolText e.toSymbol]

/-- The pair of files of a file import. -/
def importPair? (e : Edge) : Option (String × String) :=
  match e.kind, e.fromFile, e.toFile with
  | .fileImport, some source, some target => some (source, target)
  | _, _, _ => none

end Edge

end CodeIndex
