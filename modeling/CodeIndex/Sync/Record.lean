import CodeIndex.Json.Schema
import CodeIndex.Reference
import CodeIndex.Edge
import CodeIndex.Language

/-!
The records that tables are exported as. A record names its parents by their natural keys, so it
can be applied to a store with other ids. Each record has a schema, a written form and a reading of
what the schema accepts.
-/
namespace CodeIndex.Sync

open Json (Value Schema)

structure RepositoryRecord where
  fullName : String
  name : String
  gitUrl : Option String
  defaultBranch : String
  lastIndexedAt : Option Int
  deriving DecidableEq, Repr

structure FileRecord where
  repository : String
  path : String
  language : Language
  size : Nat
  contentHash : String
  indexedAt : Int
  content : String
  deriving DecidableEq, Repr

structure SymbolRecord where
  repository : String
  filePath : String
  name : String
  kind : SymbolKind
  lineStart : Nat
  lineEnd : Nat
  signature : Option String
  documentation : Option String
  isExported : Bool
  deriving DecidableEq, Repr

structure ReferenceRecord where
  repository : String
  filePath : String
  line : Nat
  column : Nat
  kind : ReferenceKind
  name : String
  targetFilePath : Option String
  targetSymbol : Option SymbolKey
  metadata : Metadata
  deriving DecidableEq, Repr

structure EdgeRecord where
  repository : String
  kind : EdgeKind
  fromFile : Option String
  toFile : Option String
  fromSymbol : Option SymbolKey
  toSymbol : Option SymbolKey
  deriving DecidableEq, Repr

structure ProjectRecord where
  name : String
  description : Option String
  createdAt : Int
  deriving DecidableEq, Repr

structure MembershipRecord where
  project : String
  repository : String
  deriving DecidableEq, Repr

def optionalText : Option String → Value := Value.ofOption Value.text

/-- A field that must be written. -/
def required (name : String) (s : Schema) : String × Json.Absence × Schema := (name, .fault, s)

/-- A field that is null when it is not written. -/
def orNull (name : String) (s : Schema) : String × Json.Absence × Schema :=
  (name, .default .null, .optional s)

def orFalse (name : String) : String × Json.Absence × Schema := (name, .default (.bool false), .bool)

/-- The member of a record that the schema has put there. -/
def member {α : Type} (v : Value) (name : String) (f : Value → Option α) : Option α :=
  (v.get? name).bind f

def memberOr {α : Type} (v : Value) (name : String) (f : Value → Option α) : Option (Option α) :=
  (v.get? name).bind (Value.optional f)

def symbolKeySchema : Schema :=
  .record "SymbolKey"
    [required "file_path" .text, required "name" .text, required "line_start" .u32]

def symbolKeyValue (k : SymbolKey) : Value :=
  .object [("file_path", .text k.filePath), ("name", .text k.name),
    ("line_start", .int k.lineStart)]

def symbolKeyOf (v : Value) : Option SymbolKey := do
  return ⟨← member v "file_path" Value.text?, ← member v "name" Value.text?,
    ← member v "line_start" Value.nat?⟩

def enclosingSchema : Schema :=
  .record "EnclosingSymbol" [required "name" .text, required "line" .u32]

def enclosingOf (v : Value) : Option Enclosing := do
  return ⟨← member v "name" Value.text?, ← member v "line" Value.nat?⟩

def metadataSchema : Schema :=
  .record "ReferenceMetadata"
    [orNull "import_source" .text, orNull "import_style" (.choice (ImportStyle.all.map (·.name))),
      orNull "alias" .text, orFalse "is_method_call", orNull "receiver" .text,
      orFalse "optional_chain", orFalse "constructor", orFalse "dynamic",
      orNull "enclosing" enclosingSchema]

/-- What is known of a reference; what is not known is not written. -/
def metadataValue (m : Metadata) : Value :=
  let text (name : String) (o : Option String) : List (String × Value) :=
    (o.map fun s => (name, Value.text s)).toList
  let flag (name : String) (b : Bool) : List (String × Value) :=
    if b then [(name, .bool true)] else []
  .object (text "import_source" m.importSource
    ++ text "import_style" (m.importStyle.map ImportStyle.name)
    ++ text "alias" m.alias
    ++ flag "is_method_call" m.isMethodCall
    ++ text "receiver" m.receiver
    ++ flag "optional_chain" m.optionalChain
    ++ flag "constructor" m.constructor
    ++ flag "dynamic" m.dynamic
    ++ (m.enclosing.map fun e =>
        ("enclosing", Value.object [("name", .text e.name), ("line", .int e.line)])).toList)

def metadataOf (v : Value) : Option Metadata := do
  return {
    importSource := ← memberOr v "import_source" Value.text?
    importStyle := ← memberOr v "import_style" fun x => x.text?.bind ImportStyle.ofName?
    «alias» := ← memberOr v "alias" Value.text?
    isMethodCall := ← member v "is_method_call" Value.bool?
    receiver := ← memberOr v "receiver" Value.text?
    optionalChain := ← member v "optional_chain" Value.bool?
    constructor := ← member v "constructor" Value.bool?
    dynamic := ← member v "dynamic" Value.bool?
    enclosing := ← memberOr v "enclosing" enclosingOf }

/-- The written form of a type of records. -/
structure Codec (α : Type) where
  schema : Schema
  toValue : α → Value
  ofValue : Value → Option α

namespace Codec

def encode {α : Type} (c : Codec α) (a : α) : String := Json.encode (c.toValue a)

/-- Reads one line. What the schema accepts can always be read. -/
def decode {α : Type} (c : Codec α) (line : String) : Except Json.Fault α :=
  match Json.decode c.schema line with
  | .error f => .error f
  | .ok v =>
    match c.ofValue v with
    | some a => .ok a
    | none => .error ⟨.expectedValue, none⟩

end Codec

def repositoryCodec : Codec RepositoryRecord where
  schema := .record "RepositoryRecord"
    [required "full_name" .text, required "name" .text, orNull "git_url" .text,
      required "default_branch" .text, orNull "last_indexed_at" .i64]
  toValue r := .object
    [("full_name", .text r.fullName), ("name", .text r.name), ("git_url", optionalText r.gitUrl),
      ("default_branch", .text r.defaultBranch),
      ("last_indexed_at", Value.ofOption Value.int r.lastIndexedAt)]
  ofValue v := do
    return ⟨← member v "full_name" Value.text?, ← member v "name" Value.text?,
      ← memberOr v "git_url" Value.text?, ← member v "default_branch" Value.text?,
      ← memberOr v "last_indexed_at" Value.int?⟩

def fileCodec : Codec FileRecord where
  schema := .record "FileRecord"
    [required "repository" .text, required "path" .text,
      required "language" (.choice (Language.all.map (·.name))), required "size" .u64,
      required "content_hash" .text, required "indexed_at" .i64, required "content" .text]
  toValue f := .object
    [("repository", .text f.repository), ("path", .text f.path),
      ("language", .text f.language.name), ("size", .int f.size),
      ("content_hash", .text f.contentHash), ("indexed_at", .int f.indexedAt),
      ("content", .text f.content)]
  ofValue v := do
    return ⟨← member v "repository" Value.text?, ← member v "path" Value.text?,
      ← member v "language" (fun x => x.text?.map Language.ofName), ← member v "size" Value.nat?,
      ← member v "content_hash" Value.text?, ← member v "indexed_at" Value.int?,
      ← member v "content" Value.text?⟩

def symbolCodec : Codec SymbolRecord where
  schema := .record "SymbolRecord"
    [required "repository" .text, required "file_path" .text, required "name" .text,
      required "kind" (.choice (SymbolKind.all.map (·.name))), required "line_start" .u32,
      required "line_end" .u32, orNull "signature" .text, orNull "documentation" .text,
      orFalse "is_exported"]
  toValue s := .object
    [("repository", .text s.repository), ("file_path", .text s.filePath), ("name", .text s.name),
      ("kind", .text s.kind.name), ("line_start", .int s.lineStart), ("line_end", .int s.lineEnd),
      ("signature", optionalText s.signature), ("documentation", optionalText s.documentation),
      ("is_exported", .bool s.isExported)]
  ofValue v := do
    return ⟨← member v "repository" Value.text?, ← member v "file_path" Value.text?,
      ← member v "name" Value.text?, ← member v "kind" (fun x => x.text?.bind SymbolKind.ofName?),
      ← member v "line_start" Value.nat?, ← member v "line_end" Value.nat?,
      ← memberOr v "signature" Value.text?, ← memberOr v "documentation" Value.text?,
      ← member v "is_exported" Value.bool?⟩

def referenceCodec : Codec ReferenceRecord where
  schema := .record "ReferenceRecord"
    [required "repository" .text, required "file_path" .text, required "line" .u32,
      required "column" .u32, required "kind" (.choice (ReferenceKind.all.map (·.name))),
      required "name" .text, orNull "target_file_path" .text,
      orNull "target_symbol" symbolKeySchema,
      ("metadata",
        .default (.object
          [("import_source", .null), ("import_style", .null), ("alias", .null),
            ("is_method_call", .bool false), ("receiver", .null), ("optional_chain", .bool false),
            ("constructor", .bool false), ("dynamic", .bool false), ("enclosing", .null)]),
        metadataSchema)]
  toValue r := .object
    [("repository", .text r.repository), ("file_path", .text r.filePath), ("line", .int r.line),
      ("column", .int r.column), ("kind", .text r.kind.name), ("name", .text r.name),
      ("target_file_path", optionalText r.targetFilePath),
      ("target_symbol", Value.ofOption symbolKeyValue r.targetSymbol),
      ("metadata", metadataValue r.metadata)]
  ofValue v := do
    return ⟨← member v "repository" Value.text?, ← member v "file_path" Value.text?,
      ← member v "line" Value.nat?, ← member v "column" Value.nat?,
      ← member v "kind" (fun x => x.text?.bind ReferenceKind.ofName?),
      ← member v "name" Value.text?, ← memberOr v "target_file_path" Value.text?,
      ← memberOr v "target_symbol" symbolKeyOf, ← member v "metadata" metadataOf⟩

def edgeCodec : Codec EdgeRecord where
  schema := .record "EdgeRecord"
    [required "repository" .text, required "kind" (.choice (EdgeKind.all.map (·.name))),
      orNull "from_file" .text, orNull "to_file" .text, orNull "from_symbol" symbolKeySchema,
      orNull "to_symbol" symbolKeySchema]
  toValue e := .object
    [("repository", .text e.repository), ("kind", .text e.kind.name),
      ("from_file", optionalText e.fromFile), ("to_file", optionalText e.toFile),
      ("from_symbol", Value.ofOption symbolKeyValue e.fromSymbol),
      ("to_symbol", Value.ofOption symbolKeyValue e.toSymbol)]
  ofValue v := do
    return ⟨← member v "repository" Value.text?,
      ← member v "kind" (fun x => x.text?.bind EdgeKind.ofName?),
      ← memberOr v "from_file" Value.text?, ← memberOr v "to_file" Value.text?,
      ← memberOr v "from_symbol" symbolKeyOf, ← memberOr v "to_symbol" symbolKeyOf⟩

def projectCodec : Codec ProjectRecord where
  schema := .record "ProjectRecord"
    [required "name" .text, orNull "description" .text, required "created_at" .i64]
  toValue p := .object
    [("name", .text p.name), ("description", optionalText p.description),
      ("created_at", .int p.createdAt)]
  ofValue v := do
    return ⟨← member v "name" Value.text?, ← memberOr v "description" Value.text?,
      ← member v "created_at" Value.int?⟩

def membershipCodec : Codec MembershipRecord where
  schema := .record "ProjectRepositoryRecord"
    [required "project" .text, required "repository" .text]
  toValue m := .object [("project", .text m.project), ("repository", .text m.repository)]
  ofValue v := do
    return ⟨← member v "project" Value.text?, ← member v "repository" Value.text?⟩

end CodeIndex.Sync
