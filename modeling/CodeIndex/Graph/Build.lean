import CodeIndex.Edge
import CodeIndex.Reference
import CodeIndex.SourceFile

/-!
Dependency edges from references. A name is looked up in the file that uses it first; otherwise
it counts only if exactly one symbol of the whole run has it.
-/
namespace CodeIndex.Graph

inductive Match where
  | unique (s : Symbol)
  /-- Several symbols of other files have the name. -/
  | ambiguous (count : Nat)
  | missing
  deriving DecidableEq, Repr

/-- The first symbol of a name in a file, exported ones first. -/
def inFile? (symbols : List Symbol) (file name : String) : Option Symbol :=
  let candidates := symbols.filter fun s => s.filePath == file && s.name == name
  (candidates.find? fun s => s.isExported).or candidates.head?

def lookup (symbols : List Symbol) (name file : String) : Match :=
  match inFile? symbols file name with
  | some s => .unique s
  | none =>
    match symbols.filter fun s => s.name == name with
    | [] => .missing
    | [s] => .unique s
    | candidates => .ambiguous candidates.length

def symbolUsage (repositoryId : String) (r : Reference) (target : SymbolKey) : Edge :=
  { repositoryId, kind := .symbolUsage, fromFile := some r.filePath,
    toFile := some target.filePath, fromSymbol := r.enclosingKey, toSymbol := some target }

/-- What a single reference contributes. -/
inductive Link where
  | none
  | fileImport (edge : Edge) (target : Option SymbolKey)
  | usage (edge : Edge) (target : SymbolKey)
  | ambiguous
  | unmatched
  deriving DecidableEq, Repr

/-- Whether an import names a single binding of the imported file. -/
def bindsName (r : Reference) : Bool :=
  match r.metadata.importStyle with
  | some .named | some .aliased => true
  | _ => false

def linkOf (known : List String) (symbols : List Symbol) (repositoryId : String) (r : Reference) :
    Link :=
  if !known.contains r.filePath then .none
  else if r.kind = .import then
    match r.targetFilePath with
    | Option.none => .none
    | some target =>
      if !known.contains target then .none
      else
        .fileImport (Edge.fileImport repositoryId r.filePath target)
          (if bindsName r then (inFile? symbols target r.name).map Symbol.key else Option.none)
  else if r.kind.linksSymbols then
    match lookup symbols r.name r.filePath with
    | .unique s => .usage (symbolUsage repositoryId r s.key) s.key
    | .ambiguous _ => .ambiguous
    | .missing => .unmatched
  else .none

namespace Link

def edge? : Link → Option Edge
  | fileImport e _ | usage e _ => some e
  | _ => Option.none

def target? : Link → Option SymbolKey
  | fileImport _ t => t
  | usage _ t => some t
  | _ => Option.none

def linksImport : Link → Bool
  | fileImport _ t => t.isSome
  | _ => false

end Link

/-- The first edge of every key. -/
def distinctEdges (seen : List String) : List Edge → List Edge
  | [] => []
  | e :: rest =>
    if seen.contains e.key then distinctEdges seen rest
    else e :: distinctEdges (e.key :: seen) rest

structure Build where
  edges : List Edge
  /-- The references, each with the symbol that it was linked to. -/
  references : List Reference
  linkedImports : Nat
  ambiguous : Nat
  unmatched : Nat
  deriving DecidableEq, Repr

def setTarget (r : Reference) (link : Link) : Reference :=
  match link.target? with
  | some t => { r with targetSymbol := some t }
  | none => r

/-- The edges that the references of a run ask for. -/
def build (known : List String) (symbols : List Symbol) (references : List Reference)
    (repositoryId : String) : Build :=
  let links := references.map (linkOf known symbols repositoryId)
  { edges := distinctEdges [] (links.filterMap Link.edge?)
    references := references.zipWith setTarget links
    linkedImports := (links.filter Link.linksImport).length
    ambiguous := (links.filter (· = .ambiguous)).length
    unmatched := (links.filter (· = .unmatched)).length }

end CodeIndex.Graph
