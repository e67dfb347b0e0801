import CodeIndex.Json.Tagged

/-!
Natural keys of deleted rows. A key names its table and holds what identifies the row in any store,
so it can be carried from one store to another.
-/
namespace CodeIndex.Sync

inductive Deletion where
  | repository (fullName : String)
  | file (repository path : String)
  | symbol (repository filePath name : String) (lineStart : Nat)
  | reference (repository filePath : String) (line column : Nat) (kind name : String)
  | edge (repository edgeKey : String)
  | project (name : String)
  | membership (project repository : String)
  deriving DecidableEq, Repr

namespace Deletion

/-- The exported table that a key belongs to. -/
def table : Deletion → String
  | repository .. => "repositories"
  | file .. => "files"
  | symbol .. => "symbols"
  | reference .. => "references"
  | edge .. => "dependency_edges"
  | project .. => "projects"
  | membership .. => "project_repositories"

def format : Json.Tagged :=
  { name := "Deletion"
    tagField := "table"
    variants :=
      [⟨"repository", "struct variant Deletion::Repository", [("full_name", .text)]⟩,
        ⟨"file", "struct variant Deletion::File", [("repository", .text), ("path", .text)]⟩,
        ⟨"symbol", "struct variant Deletion::Symbol",
          [("repository", .text), ("file_path", .text), ("name", .text), ("line_start", .u32)]⟩,
        ⟨"reference", "struct variant Deletion::Reference",
          [("repository", .text), ("file_path", .text), ("line", .u32), ("column", .u32),
            ("kind", .text), ("name", .text)]⟩,
        ⟨"dependency_edge", "struct variant Deletion::DependencyEdge",
          [("repository", .text), ("edge_key", .text)]⟩,
        ⟨"project", "struct variant Deletion::Project", [("name", .text)]⟩,
        ⟨"project_repository", "struct variant Deletion::ProjectRepository",
          [("project", .text), ("repository", .text)]⟩] }

def toValue : Deletion → Json.Value
  | repository fullName => .object [("table", .text "repository"), ("full_name", .text fullName)]
  | file repo path =>
    .object [("table", .text "file"), ("repository", .text repo), ("path", .text path)]
  | symbol repo filePath name lineStart =>
    .object [("table", .text "symbol"), ("repository", .text repo),
      ("file_path", .text filePath), ("name", .text name), ("line_start", .int lineStart)]
  | reference repo filePath line column kind name =>
    .object [("table", .text "reference"), ("repository", .text repo),
      ("file_path", .text filePath), ("line", .int line), ("column", .int column),
      ("kind", .text kind), ("name", .text name)]
  | edge repo edgeKey =>
    .object [("table", .text "dependency_edge"), ("repository", .text repo),
      ("edge_key", .text edgeKey)]
  | project name => .object [("table", .text "project"), ("name", .text name)]
  | membership proj repo =>
    .object [("table", .text "project_repository"), ("project", .text proj),
      ("repository", .text repo)]

/-- The line of a manifest that holds the key. -/
def encode (d : Deletion) : String := Json.encode d.toValue

/-- The key of a tag and its fields in order. -/
def ofFields (tag : String) (fields : List (String × Json.Value)) : Option Deletion :=
  match tag, fields.map Prod.snd with
  | "repository", [.text n] => some (repository n)
  | "file", [.text r, .text p] => some (file r p)
  | "symbol", [.text r, .text f, .text n, .int l] => some (symbol r f n l.toNat)
  | "reference", [.text r, .text f, .int l, .int c, .text k, .text n] =>
    some (reference r f l.toNat c.toNat k n)
  | "dependency_edge", [.text r, .text k] => some (edge r k)
  | "project", [.text n] => some (project n)
  | "project_repository", [.text p, .text r] => some (membership p r)
  | _, _ => none

def decode (line : String) : Except Json.Fault Deletion :=
  match format.decode line with
  | .error f => .error f
  | .ok (tag, fields) =>
    match ofFields tag fields with
    | some d => .ok d
    | none => .error ⟨.missingField format.tagField, none⟩

end Deletion

end CodeIndex.Sync
