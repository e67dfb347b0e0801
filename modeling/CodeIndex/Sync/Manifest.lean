import CodeIndex.Sync.Table
import CodeIndex.Text.Blank

/-!
The manifest of an export directory: the keys of rows that were deleted since they were exported,
one to a line. A key that is live again leaves the manifest, and no key stands in it twice.
-/
namespace CodeIndex.Sync

/-- The lines of a text that are not blank, each with its number. -/
def recordLines (text : String) : List (Nat × String) :=
  ((Text.Pieces.lines text).zipIdx 1).filterMap fun (line, n) =>
    if Text.Blank.isBlankText line then none else some (n, line)

/-- A line of an export directory that was passed over. -/
structure Skipped where
  table : String
  line : Nat
  reason : Rejection

namespace Manifest

def fileName : String := "deletions.jsonl"

/-- The table name under which bad lines of a manifest are reported. -/
def tableName : String := "deletions"

/-- The keys of a manifest and the lines that hold none. -/
def ofText (text : String) : List Deletion × List Skipped :=
  let outcomes := (recordLines text).map fun (n, line) => (n, Deletion.decode line)
  (outcomes.filterMap fun (_, o) => o.toOption,
    outcomes.filterMap fun (n, o) =>
      match o with
      | .ok _ => none
      | .error f => some ⟨tableName, n, .unreadable f⟩)

/-- The manifest after an export: what it held and what waited, without the keys of live rows. -/
def merge (previous waiting live : List Deletion) : List Deletion :=
  ((previous ++ waiting).filter fun k => !live.contains k).eraseDups

/-- Records as a text, one to a line. -/
def linesText (records : List String) : String :=
  String.join (records.map fun r => r ++ "\n")

def text (keys : List Deletion) : String := linesText (keys.map Deletion.encode)

end Manifest

namespace Deletion

/-- Removes the row that a key names, and counts it. -/
def apply (s : Store) : Deletion → Store × Nat
  | repository fullName =>
    match s.repository? fullName with
    | some _ => (s.removeRepository fullName, 1)
    | none => (s, 0)
  | file repo path =>
    match file? s repo path with
    | some f => (s.removeFiles fun x => x.id == f.id, 1)
    | none => (s, 0)
  | symbol repo filePath name lineStart =>
    match symbol? s repo ⟨filePath, name, lineStart⟩ with
    | some x => (s.removeSymbols fun y => y.id == x.id, 1)
    | none => (s, 0)
  | reference repo filePath line column kind name =>
    match file? s repo filePath with
    | none => (s, 0)
    | some f =>
      let named (r : ReferenceRow) : Bool :=
        r.fileId == f.id && r.line == line && r.column == column && r.kind.name == kind
          && r.name == name
      ({ s with references := s.references.filter fun r => !named r },
        (s.references.filter named).length)
  | edge repo key =>
    match s.repository? repo with
    | none => (s, 0)
    | some r =>
      let named (e : EdgeRow) : Bool := e.repositoryId == r.id && e.key == key
      ({ s with edges := s.edges.filter fun e => !named e }, (s.edges.filter named).length)
  | project name =>
    match s.project? name with
    | some _ => (s.removeProject name, 1)
    | none => (s, 0)
  | membership proj repo =>
    match s.project? proj, s.repository? repo with
    | some p, some r =>
      let named (m : MembershipRow) : Bool := m.projectId == p.id && m.repositoryId == r.id
      ({ s with memberships := s.memberships.filter fun m => !named m },
        (s.memberships.filter named).length)
    | _, _ => (s, 0)

end Deletion

end CodeIndex.Sync
