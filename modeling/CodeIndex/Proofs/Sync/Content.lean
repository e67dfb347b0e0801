import CodeIndex.Proofs.Sync.Names

/-!
The content of a store: its rows as records, which name other rows by natural keys and not by ids.
A change of one table changes the records of that table alone, as long as the rows that others name
keep their marks.
-/
namespace CodeIndex.Sync

/-- A row of any table as it is exported. -/
inductive Record where
  | repository (r : RepositoryRecord)
  | file (f : FileRecord)
  | symbol (x : SymbolRecord)
  | reference (x : ReferenceRecord)
  | edge (e : EdgeRecord)
  | project (p : ProjectRecord)
  | membership (m : MembershipRecord)
  deriving DecidableEq

namespace Record

/-- The natural key of a record. -/
def key : Record → Deletion
  | repository r => .repository r.fullName
  | file f => .file f.repository f.path
  | symbol x => .symbol x.repository x.filePath x.name x.lineStart
  | reference x => .reference x.repository x.filePath x.line x.column x.kind.name x.name
  | edge e => .edge e.repository e.edge.key
  | project p => .project p.name
  | membership m => .membership m.project m.repository

/-- Puts a record into a store. -/
def put (s : Store) : Record → Upsert
  | repository r => upsertRepository s r
  | file f => upsertFile s f
  | symbol x => upsertSymbol s x
  | reference x => upsertReference s x
  | edge e => upsertEdge s e
  | project p => upsertProject s p
  | membership m => upsertMembership s m

end Record

/-- All records of a store, in the order in which they are exported. -/
def records (s : Store) : List Record :=
  (loadRepositories s).map .repository ++ (loadFiles s).map .file ++ (loadSymbols s).map .symbol ++
    (loadReferences s).map .reference ++ (loadEdges s).map .edge ++ (loadProjects s).map .project ++
    (loadMemberships s).map .membership

/-! The records of single rows -/

def repositoryRecord (r : RepositoryRow) : RepositoryRecord :=
  ⟨r.fullName, r.name, r.gitUrl, r.defaultBranch, r.lastIndexedAt⟩

def fileRecord? (s : Store) (f : FileRow) : Option FileRecord :=
  (ownerOf s f.repositoryId).map fun r =>
    ⟨r, f.path, f.language, f.size, f.contentHash, f.indexedAt, f.content⟩

def symbolRecord? (s : Store) (x : SymbolRow) : Option SymbolRecord :=
  (fileHome? s x.fileId).map fun home =>
    ⟨home.1, home.2, x.name, x.kind, x.lineStart, x.lineEnd, x.signature, x.documentation,
      x.isExported⟩

def referenceRecord? (s : Store) (x : ReferenceRow) : Option ReferenceRecord :=
  (fileHome? s x.fileId).map fun home =>
    ⟨home.1, home.2, x.line, x.column, x.kind, x.name, x.targetFilePath,
      s.symbolKey? x.targetSymbolId, x.metadata⟩

def edgeRecord? (s : Store) (e : EdgeRow) : Option EdgeRecord :=
  (ownerOf s e.repositoryId).map fun r =>
    ⟨r, e.kind, s.filePath? e.fromFileId, s.filePath? e.toFileId, s.symbolKey? e.fromSymbolId,
      s.symbolKey? e.toSymbolId⟩

def projectRecord (p : ProjectRow) : ProjectRecord := ⟨p.name, p.description, p.createdAt⟩

def membershipRecord? (s : Store) (m : MembershipRow) : Option MembershipRecord := do
  let p ← projectName? s m.projectId
  let r ← ownerOf s m.repositoryId
  return ⟨p, r⟩

theorem membershipRecord?_eq_some {s : Store} {m : MembershipRow} {y : MembershipRecord} :
    membershipRecord? s m = some y ↔
      projectName? s m.projectId = some y.project ∧
        ownerOf s m.repositoryId = some y.repository := by
  simp only [membershipRecord?, Option.bind_eq_bind, Option.pure_def, Option.bind_eq_some_iff,
    Option.some.injEq]
  constructor
  · rintro ⟨n, hn, r, hr, rfl⟩
    exact ⟨hn, hr⟩
  · rintro ⟨hn, hr⟩
    exact ⟨_, hn, _, hr, rfl⟩

/-! The exported tables are the records of the rows in some order -/

theorem loadRepositories_perm (s : Store) :
    (loadRepositories s).Perm (s.repositories.map repositoryRecord) :=
  (List.mergeSort_perm ..).map repositoryRecord

theorem loadFiles_perm (s : Store) : (loadFiles s).Perm (s.files.filterMap (fileRecord? s)) :=
  List.mergeSort_perm ..

theorem loadSymbols_perm (s : Store) :
    (loadSymbols s).Perm (s.symbols.filterMap (symbolRecord? s)) := by
  refine (List.mergeSort_perm ..).trans (List.Perm.of_eq ?_)
  congr 1
  funext x
  rw [symbolRecord?, fileHome?]
  cases s.fileById? x.fileId with
  | none => rfl
  | some f => cases hr : ownerOf s f.repositoryId <;> simp [hr]

theorem loadReferences_perm (s : Store) :
    (loadReferences s).Perm (s.references.filterMap (referenceRecord? s)) := by
  refine (List.mergeSort_perm ..).trans (List.Perm.of_eq ?_)
  congr 1
  funext x
  rw [referenceRecord?, fileHome?]
  cases s.fileById? x.fileId with
  | none => rfl
  | some f => cases hr : ownerOf s f.repositoryId <;> simp [hr]

theorem loadEdges_perm (s : Store) : (loadEdges s).Perm (s.edges.filterMap (edgeRecord? s)) := by
  have hsort := List.mergeSort_perm
    (s.edges.filterMap fun e => (ownerOf s e.repositoryId).map fun r => (r, e))
    fun a b => ((compare a.1 b.1).then (compare a.2.key b.2.key)).isLE
  refine (hsort.map _).trans (List.Perm.of_eq ?_)
  rw [List.map_filterMap]
  congr 1
  funext e
  rw [edgeRecord?]
  cases ownerOf s e.repositoryId <;> rfl

theorem loadProjects_perm (s : Store) : (loadProjects s).Perm (s.projects.map projectRecord) :=
  (List.mergeSort_perm ..).map projectRecord

theorem loadMemberships_perm (s : Store) :
    (loadMemberships s).Perm (s.memberships.filterMap (membershipRecord? s)) := by
  refine (List.mergeSort_perm ..).trans (List.Perm.of_eq ?_)
  congr 1
  funext m
  rw [membershipRecord?, projectName?]
  cases s.projects.find? fun p => p.id == m.projectId <;> rfl

/-- The records of a store are those of its rows. -/
theorem mem_records {s : Store} {x : Record} :
    x ∈ records s ↔
      match x with
      | .repository y => ∃ r ∈ s.repositories, repositoryRecord r = y
      | .file y => ∃ f ∈ s.files, fileRecord? s f = some y
      | .symbol y => ∃ row ∈ s.symbols, symbolRecord? s row = some y
      | .reference y => ∃ row ∈ s.references, referenceRecord? s row = some y
      | .edge y => ∃ e ∈ s.edges, edgeRecord? s e = some y
      | .project y => ∃ p ∈ s.projects, projectRecord p = y
      | .membership y => ∃ m ∈ s.memberships, membershipRecord? s m = some y := by
  cases x with
  | repository y => simp [records, (loadRepositories_perm s).mem_iff]
  | file y => simp [records, (loadFiles_perm s).mem_iff]
  | symbol y => simp [records, (loadSymbols_perm s).mem_iff]
  | reference y => simp [records, (loadReferences_perm s).mem_iff]
  | edge y => simp [records, (loadEdges_perm s).mem_iff]
  | project y => simp [records, (loadProjects_perm s).mem_iff]
  | membership y => simp [records, (loadMemberships_perm s).mem_iff]

theorem records_empty (origin : Nat) : records (.empty origin) = [] := by
  simp [records, loadRepositories, loadFiles, loadSymbols, loadReferences, loadEdges, loadProjects,
    loadMemberships, Store.listRepositories, Store.empty]

/-! Records that stay the same -/

namespace Agrees

variable {s s' : Store} (ha : Agrees s s') (h : s.Sound) (h' : s'.Sound)
include ha h h'

theorem fileRecord? {f : FileRow} (hf : f ∈ s.files) : fileRecord? s' f = fileRecord? s f := by
  unfold Sync.fileRecord?
  rw [ha.ownerOf h h' (h.file_owner f hf)]

theorem symbolRecord? {x : SymbolRow} (hx : x ∈ s.symbols) :
    symbolRecord? s' x = symbolRecord? s x := by
  unfold Sync.symbolRecord?
  rw [ha.fileHome? h h' (h.symbol_file x hx)]

theorem referenceRecord? {x : ReferenceRow} (hx : x ∈ s.references) :
    referenceRecord? s' x = referenceRecord? s x := by
  unfold Sync.referenceRecord?
  rw [ha.fileHome? h h' (h.reference_file x hx),
    ha.symbolKey? h h' fun i hi => ⟨_, h.reference_target x hx i hi⟩]

theorem edgeEnds {e : EdgeRow} (he : e ∈ s.edges) : s'.edgeOf "" e = s.edgeOf "" e := by
  have hfits := h.edge_fits e he
  unfold Store.edgeOf
  rw [ha.filePath? h h' fun i hi => ⟨_, hfits.files i (.inl hi)⟩,
    ha.filePath? h h' fun i hi => ⟨_, hfits.files i (.inr hi)⟩,
    ha.symbolKey? h h' fun i hi => ⟨_, hfits.symbols i (.inl hi)⟩,
    ha.symbolKey? h h' fun i hi => ⟨_, hfits.symbols i (.inr hi)⟩]

theorem edgeRecord? {e : EdgeRow} (he : e ∈ s.edges) : edgeRecord? s' e = edgeRecord? s e := by
  have hends := ha.edgeEnds h h' he
  simp only [Store.edgeOf, Edge.mk.injEq, true_and] at hends
  unfold Sync.edgeRecord?
  rw [ha.ownerOf h h' (h.edge_fits e he).owner, hends.1, hends.2.1, hends.2.2.1, hends.2.2.2]

theorem membershipRecord? {m : MembershipRow} (hm : m ∈ s.memberships) :
    membershipRecord? s' m = membershipRecord? s m := by
  unfold Sync.membershipRecord?
  rw [ha.projectName? h h' (h.membership_project m hm),
    ha.ownerOf h h' (h.membership_repository m hm)]

end Agrees

/-- The table of a record has the same rows in both stores. -/
def SameRows (s s' : Store) : Record → Prop
  | .repository _ => s'.repositories = s.repositories
  | .file _ => s'.files = s.files
  | .symbol _ => s'.symbols = s.symbols
  | .reference _ => s'.references = s.references
  | .edge _ => s'.edges = s.edges
  | .project _ => s'.projects = s.projects
  | .membership _ => s'.memberships = s.memberships

theorem exists_record_congr {ρ α : Type} {rows : List ρ} {r r' : ρ → Option α} {y : α}
    (hsame : ∀ row ∈ rows, r' row = r row) :
    (∃ row ∈ rows, r' row = some y) ↔ ∃ row ∈ rows, r row = some y :=
  exists_congr fun row => and_congr_right fun hrow => by rw [hsame row hrow]

/-- Rows that stay and whose names stay have the same records. -/
theorem mem_records_of_sameRows {s s' : Store} (ha : Agrees s s') (h : s.Sound) (h' : s'.Sound)
    {x : Record} (hrows : SameRows s s' x) : x ∈ records s' ↔ x ∈ records s := by
  rw [mem_records, mem_records]
  cases x with
  | repository y => rw [show s'.repositories = s.repositories from hrows]
  | file y =>
    dsimp only
    rw [show s'.files = s.files from hrows]
    exact exists_record_congr fun f hf => ha.fileRecord? h h' hf
  | symbol y =>
    dsimp only
    rw [show s'.symbols = s.symbols from hrows]
    exact exists_record_congr fun x hx => ha.symbolRecord? h h' hx
  | reference y =>
    dsimp only
    rw [show s'.references = s.references from hrows]
    exact exists_record_congr fun x hx => ha.referenceRecord? h h' hx
  | edge y =>
    dsimp only
    rw [show s'.edges = s.edges from hrows]
    exact exists_record_congr fun e he => ha.edgeRecord? h h' he
  | project y => rw [show s'.projects = s.projects from hrows]
  | membership y =>
    dsimp only
    rw [show s'.memberships = s.memberships from hrows]
    exact exists_record_congr fun m hm => ha.membershipRecord? h h' hm

/-! Records of a table that changes -/

/-- The rows after one was put: changed where the test holds, or with a new one at the end. -/
def Puts {ρ : Type} (rows rows' : List ρ) (p : ρ → Bool) (g : ρ → ρ) (new : ρ) : Prop :=
  ((∃ row ∈ rows, p row = true) ∧ rows' = rows.map fun row => if p row then g row else row) ∨
    ((∀ row ∈ rows, p row = false) ∧ rows' = rows ++ [new])

/-- Rows keep their marks when one is put. -/
theorem Puts.marks {ρ κ : Type} {rows rows' : List ρ} {p : ρ → Bool} {g : ρ → ρ} {new : ρ}
    (h : Puts rows rows' p g new) {mark : ρ → κ} (hg : ∀ row, mark (g row) = mark row) :
    rows.map mark ⊆ rows'.map mark := by
  rcases h with ⟨-, rfl⟩ | ⟨-, rfl⟩
  · rw [Store.map_key_map]
    · exact List.Subset.refl _
    · intro row _
      split
      · exact hg row
      · rfl
  · rw [List.map_append]
    exact List.subset_append_left _ _

/-- The record of a row that was put is there, and the records with other keys are as before. -/
theorem Puts.exists_record {ρ α κ : Type} {rows rows' : List ρ} {p : ρ → Bool} {g : ρ → ρ}
    {new : ρ} (h : Puts rows rows' p g new) {r r' : ρ → Option α} (key : α → κ) {x y : α}
    (hkey : ∀ row ∈ rows, ∀ z, r row = some z → (key z = key x ↔ p row = true))
    (hset : ∀ row ∈ rows, p row = true → r' (g row) = some x)
    (hnew : (∀ row ∈ rows, p row = false) → r' new = some x)
    (hsame : ∀ row ∈ rows, r' row = r row) :
    (∃ row ∈ rows', r' row = some y) ↔
      y = x ∨ ((∃ row ∈ rows, r row = some y) ∧ key y ≠ key x) := by
  have hother : ∀ row ∈ rows, r row = some y → key y ≠ key x → p row = false := by
    intro row hrow hy hne
    exact Bool.eq_false_iff.mpr fun hp => hne ((hkey row hrow y hy).mpr hp)
  rcases h with ⟨hsome, rfl⟩ | ⟨hnone, rfl⟩
  · constructor
    · rintro ⟨row', hrow', hy⟩
      obtain ⟨row, hrow, rfl⟩ := List.mem_map.mp hrow'
      split at hy
      · next hp =>
        rw [hset row hrow hp] at hy
        exact .inl (Option.some.inj hy).symm
      · next hp =>
        rw [hsame row hrow] at hy
        exact .inr ⟨⟨row, hrow, hy⟩, fun heq => hp ((hkey row hrow y hy).mp heq)⟩
    · rintro (rfl | ⟨⟨row, hrow, hy⟩, hne⟩)
      · obtain ⟨row, hrow, hp⟩ := hsome
        exact ⟨g row, List.mem_map.mpr ⟨row, hrow, if_pos hp⟩, hset row hrow hp⟩
      · have hp := hother row hrow hy hne
        exact ⟨row, List.mem_map.mpr ⟨row, hrow, by simp [hp]⟩, (hsame row hrow).trans hy⟩
  · constructor
    · rintro ⟨row, hrow, hy⟩
      rcases List.mem_append.mp hrow with hrow | hrow
      · rw [hsame row hrow] at hy
        refine .inr ⟨⟨row, hrow, hy⟩, fun heq => ?_⟩
        have hp := (hkey row hrow y hy).mp heq
        rw [hnone row hrow] at hp
        simp at hp
      · rw [List.mem_singleton.mp hrow, hnew hnone] at hy
        exact .inl (Option.some.inj hy).symm
    · rintro (rfl | ⟨⟨row, hrow, hy⟩, -⟩)
      · exact ⟨new, List.mem_append_right _ (List.mem_singleton_self _), hnew hnone⟩
      · exact ⟨row, List.mem_append_left _ hrow, (hsame row hrow).trans hy⟩

end CodeIndex.Sync
