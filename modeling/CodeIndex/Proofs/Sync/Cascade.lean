import CodeIndex.Proofs.Sync.Deletions

/-!
Which rows go away with the keys of a manifest: the rows that the keys name, and every row that
names a row that goes away, but for references, which can lose their targets. A row goes away
exactly when a listed key is its own or that of a row above it.
-/
namespace CodeIndex.Sync

open Store (eq_of_key)

/-- A row of one of the tables. -/
inductive Row where
  | repository (r : RepositoryRow)
  | file (f : FileRow)
  | symbol (x : SymbolRow)
  | reference (x : ReferenceRow)
  | edge (e : EdgeRow)
  | project (p : ProjectRow)
  | membership (m : MembershipRow)

namespace Row

/-- The row stands in its table. -/
def In (s : Store) : Row → Prop
  | repository r => r ∈ s.repositories
  | file f => f ∈ s.files
  | symbol x => x ∈ s.symbols
  | reference x => x ∈ s.references
  | edge e => e ∈ s.edges
  | project p => p ∈ s.projects
  | membership m => m ∈ s.memberships

def record? (s : Store) : Row → Option Record
  | repository r => some (.repository (repositoryRecord r))
  | file f => (fileRecord? s f).map .file
  | symbol x => (symbolRecord? s x).map .symbol
  | reference x => (referenceRecord? s x).map .reference
  | edge e => (edgeRecord? s e).map .edge
  | project p => some (.project (projectRecord p))
  | membership m => (membershipRecord? s m).map .membership

/-- The key of a row with the given record: an edge row holds its key. -/
def keyWith : Row → Record → Deletion
  | edge e, .edge y => .edge y.repository e.key
  | _, y => y.key

/-- The natural key of a row. -/
def key? (s : Store) (row : Row) : Option Deletion := (row.record? s).map row.keyWith

/-- The row names the other one and goes away with it. -/
def Under : Row → Row → Prop
  | file f, repository r => f.repositoryId = r.id
  | symbol x, repository r => x.repositoryId = r.id
  | symbol x, file f => x.fileId = f.id
  | reference x, repository r => x.repositoryId = r.id
  | reference x, file f => x.fileId = f.id
  | edge e, repository r => e.repositoryId = r.id
  | edge e, file f => e.fromFileId = some f.id ∨ e.toFileId = some f.id
  | edge e, symbol x => e.fromSymbolId = some x.id ∨ e.toSymbolId = some x.id
  | membership m, project p => m.projectId = p.id
  | membership m, repository r => m.repositoryId = r.id
  | _, _ => False

/-- How far a row can lie below others. -/
def depth : Row → Nat
  | repository _ | project _ => 0
  | file _ => 1
  | symbol _ => 2
  | reference _ | edge _ | membership _ => 3

theorem Under.depth_lt {row parent : Row} (h : row.Under parent) : parent.depth < row.depth := by
  cases row <;> cases parent <;> first | exact h.elim | simp [depth]

end Row

/-- The rows that go away: those that the keys name and, in turn, those that name a row that goes
away. -/
inductive Gone (s : Store) (keys : List Deletion) : Row → Prop
  | listed {row : Row} {k : Deletion} (hkey : row.key? s = some k) (hmem : k ∈ keys) :
      Gone s keys row
  | follows {row parent : Row} (hin : parent.In s) (hunder : row.Under parent)
      (hgone : Gone s keys parent) : Gone s keys row

variable {s : Store}

/-! Rows by the lines of their keys -/

/-- The key is that of the row or of a row above it. -/
def Hits (s : Store) (d : Deletion) (row : Row) : Prop :=
  ∃ y, row.record? s = some y ∧ d ∈ row.keyWith y :: y.above

section Lines

variable {d : Deletion}

/-- A key hits a row with the given record. -/
theorem hits_of_record? {row : Row} {y : Record} (hy : row.record? s = some y) :
    Hits s d row ↔ d ∈ row.keyWith y :: y.above := by
  rw [Hits, hy]
  simp

theorem hits_repository {r : RepositoryRow} :
    Hits s d (.repository r) ↔ d = .repository r.fullName := by
  simp [Hits, Row.record?, Row.keyWith, Record.key, Record.above, repositoryRecord]

theorem hits_project {p : ProjectRow} : Hits s d (.project p) ↔ d = .project p.name := by
  simp [Hits, Row.record?, Row.keyWith, Record.key, Record.above, projectRecord]

theorem hits_file {f : FileRow} {n : String} (hname : ownerOf s f.repositoryId = some n) :
    Hits s d (.file f) ↔ d ∈ Record.fileLine n f.path := by
  simp [Hits, Row.record?, fileRecord?, hname, Row.keyWith, Record.key, Record.above,
    Record.fileLine]

theorem hits_symbol {x : SymbolRow} {n p : String} (hhome : fileHome? s x.fileId = some (n, p)) :
    Hits s d (.symbol x) ↔ d ∈ Record.symbolLine n ⟨p, x.name, x.lineStart⟩ := by
  simp [Hits, Row.record?, symbolRecord?, hhome, Row.keyWith, Record.key, Record.above,
    Record.symbolLine, Record.symbolParent]

theorem hits_reference {x : ReferenceRow} {n p : String}
    (hhome : fileHome? s x.fileId = some (n, p)) :
    Hits s d (.reference x) ↔
      d ∈ .reference n p x.line x.column x.kind.name x.name :: Record.fileLine n p := by
  simp [Hits, Row.record?, referenceRecord?, hhome, Row.keyWith, Record.key, Record.above]

theorem hits_edge {e : EdgeRow} {y : EdgeRecord} (hy : edgeRecord? s e = some y) :
    Hits s d (.edge e) ↔ d ∈ .edge y.repository e.key :: (Record.edge y).above := by
  simp [Hits, Row.record?, hy, Row.keyWith]

theorem hits_membership {m : MembershipRow} {y : MembershipRecord}
    (hy : membershipRecord? s m = some y) :
    Hits s d (.membership m) ↔ d ∈ (Record.membership y).key :: (Record.membership y).above := by
  simp [Hits, Row.record?, hy, Row.keyWith]

end Lines

/-! The rows above a row -/

/-- What lies in a file lies in its repository. -/
theorem repository_or_fileLine {d : Deletion} {n p : String} :
    .repository n = d ∨ d ∈ Record.fileLine n p ↔ d ∈ Record.fileLine n p :=
  or_iff_right_of_imp fun heq => by simp [Record.fileLine, heq]

section Above

variable (h : s.Sound) {d : Deletion}
include h

theorem hits_owner {i : Id} {n : String} (hname : ownerOf s i = some n) :
    (∃ r ∈ s.repositories, i = r.id ∧ Hits s d (.repository r)) ↔ d = .repository n := by
  obtain ⟨r, hr, hid⟩ := repository?_of_ownerOf h hname
  obtain ⟨hmem, rfl⟩ := h.repository?_eq_some.mp hr
  constructor
  · rintro ⟨r', hr', rfl, hhits⟩
    rw [eq_of_key h.repository_ids hmem hr' hid]
    exact hits_repository.mp hhits
  · rintro rfl
    exact ⟨r, hmem, hid.symm, hits_repository.mpr rfl⟩

theorem hits_projectOf {i : Id} {n : String} (hname : projectName? s i = some n) :
    (∃ p ∈ s.projects, i = p.id ∧ Hits s d (.project p)) ↔ d = .project n := by
  obtain ⟨p, hp, hid⟩ := project?_of_projectName? h hname
  obtain ⟨hmem, rfl⟩ := h.project?_eq_some.mp hp
  constructor
  · rintro ⟨p', hp', rfl, hhits⟩
    rw [eq_of_key h.project_ids hmem hp' hid]
    exact hits_project.mp hhits
  · rintro rfl
    exact ⟨p, hmem, hid.symm, hits_project.mpr rfl⟩

theorem hits_home {i : Id} {n p : String} (hhome : fileHome? s i = some (n, p)) :
    (∃ f ∈ s.files, i = f.id ∧ Hits s d (.file f)) ↔ d ∈ Record.fileLine n p := by
  obtain ⟨f, hf, rfl⟩ := file?_of_fileHome? h hhome
  obtain ⟨r, hr, rfl, hmem, hown, rfl⟩ := (file?_spec h).mp hf
  have hname : ownerOf s f.repositoryId = some r.fullName :=
    (ownerOf_iff h (h.repository?_eq_some.mpr ⟨hr, rfl⟩)).mpr hown
  rw [← hits_file hname]
  constructor
  · rintro ⟨f', hf', hid, hhits⟩
    rwa [eq_of_key h.file_ids hmem hf' hid]
  · intro hhits
    exact ⟨f, hmem, rfl, hhits⟩

theorem hits_fileEnd {owner : Id} {n : String} (hname : ownerOf s owner = some n) {id : Option Id}
    (hid : ∀ i, id = some i → s.HasFile i owner) :
    (∃ f ∈ s.files, id = some f.id ∧ Hits s d (.file f)) ↔
      ∃ p, s.filePath? id = some p ∧ d ∈ Record.fileLine n p := by
  cases id with
  | none => simp [Store.filePath?]
  | some i =>
    obtain ⟨p, hp⟩ := exists_filePath? h (hid i rfl)
    obtain ⟨f, hf, rfl⟩ := file?_of_hasFile h hname (hid i rfl) hp
    have hhome : fileHome? s f.id = some (n, p) := (fileHome?_iff h hf).mpr rfl
    simp [hp, ← hits_home h hhome]

theorem hits_symbolEnd {owner : Id} {n : String} (hname : ownerOf s owner = some n)
    {id : Option Id} (hid : ∀ i, id = some i → s.HasSymbol i owner) :
    (∃ x ∈ s.symbols, id = some x.id ∧ Hits s d (.symbol x)) ↔
      ∃ k, s.symbolKey? id = some k ∧ d ∈ Record.symbolLine n k := by
  cases id with
  | none => simp [Store.symbolKey?]
  | some i =>
    obtain ⟨k, hk⟩ := exists_symbolKey? h (hid i rfl)
    obtain ⟨x, hx, rfl⟩ := symbol?_of_hasSymbol h hname (hid i rfl) hk
    obtain ⟨f, hf, hmem, hfile, hsymbol, hline⟩ := (symbol?_spec h).mp hx
    have hhome : fileHome? s x.fileId = some (n, k.filePath) := (fileHome?_iff h hf).mpr hfile
    have hhits : Hits s d (.symbol x) ↔ d ∈ Record.symbolLine n k := by
      rw [hits_symbol hhome, hsymbol, hline]
    simp only [hk, Option.some.injEq, exists_eq_left', ← hhits]
    constructor
    · rintro ⟨x', hx', heq, hhits'⟩
      rwa [eq_of_key h.symbol_ids hmem hx' heq]
    · intro hhits'
      exact ⟨x, hmem, rfl, hhits'⟩

end Above

omit s in
theorem Row.exists_iff {P : Row → Prop} :
    (∃ row, P row) ↔ (∃ r, P (.repository r)) ∨ (∃ f, P (.file f)) ∨ (∃ x, P (.symbol x)) ∨
      (∃ x, P (.reference x)) ∨ (∃ e, P (.edge e)) ∨ (∃ p, P (.project p)) ∨
      ∃ m, P (.membership m) := by
  constructor
  · rintro ⟨row, hrow⟩
    cases row with
    | repository r => exact .inl ⟨r, hrow⟩
    | file f => exact .inr (.inl ⟨f, hrow⟩)
    | symbol x => exact .inr (.inr (.inl ⟨x, hrow⟩))
    | reference x => exact .inr (.inr (.inr (.inl ⟨x, hrow⟩)))
    | edge e => exact .inr (.inr (.inr (.inr (.inl ⟨e, hrow⟩))))
    | project p => exact .inr (.inr (.inr (.inr (.inr (.inl ⟨p, hrow⟩)))))
    | membership m => exact .inr (.inr (.inr (.inr (.inr (.inr ⟨m, hrow⟩)))))
  · rintro (⟨_, h⟩ | ⟨_, h⟩ | ⟨_, h⟩ | ⟨_, h⟩ | ⟨_, h⟩ | ⟨_, h⟩ | ⟨_, h⟩) <;> exact ⟨_, h⟩

/-- A key hits the row that it names and what lies right below a row that it hits. -/
theorem hits_iff (h : s.Sound) {d : Deletion} {row : Row} (hrow : row.In s) :
    Hits s d row ↔
      row.key? s = some d ∨ ∃ parent : Row, parent.In s ∧ row.Under parent ∧ Hits s d parent := by
  rw [Row.exists_iff]
  cases row with
  | repository r =>
    simp [hits_repository, Row.Under, Row.key?, Row.record?, Row.keyWith, Record.key,
      repositoryRecord, eq_comm]
  | project p =>
    simp [hits_project, Row.Under, Row.key?, Row.record?, Row.keyWith, Record.key, projectRecord,
      eq_comm]
  | file f =>
    obtain ⟨n, hname⟩ := exists_ownerOf h (h.file_owner f hrow)
    have howner := hits_owner h (d := d) hname
    simp [Row.Under, Row.In, Row.key?, Row.record?, fileRecord?, hname, Row.keyWith, Record.key,
      hits_file hname, howner, Record.fileLine, eq_comm (a := d)]
  | symbol x =>
    obtain ⟨⟨n, p⟩, hhome⟩ := exists_fileHome? h (h.symbol_file x hrow)
    have howner := hits_owner h (d := d) (ownerOf_of_fileHome? h (h.symbol_file x hrow) hhome)
    have hfile := hits_home h (d := d) hhome
    simp only [hits_symbol hhome, Record.symbolLine, Record.symbolParent, List.mem_cons, Row.key?,
      Row.record?, symbolRecord?, hhome, Option.map_some, Row.keyWith, Record.key,
      Option.some.injEq, Row.Under, Row.In, howner, hfile, false_and, and_false, exists_false,
      or_false, eq_comm (a := d), repository_or_fileLine]
  | reference x =>
    obtain ⟨⟨n, p⟩, hhome⟩ := exists_fileHome? h (h.reference_file x hrow)
    have howner := hits_owner h (d := d) (ownerOf_of_fileHome? h (h.reference_file x hrow) hhome)
    have hfile := hits_home h (d := d) hhome
    simp only [hits_reference hhome, List.mem_cons, Row.key?, Row.record?, referenceRecord?, hhome,
      Option.map_some, Row.keyWith, Record.key, Option.some.injEq, Row.Under, Row.In, howner, hfile,
      false_and, and_false, exists_false, or_false, eq_comm (a := d), repository_or_fileLine]
  | edge e =>
    obtain ⟨y, hy⟩ := exists_edgeRecord? h hrow
    obtain ⟨hname, hedge⟩ := edgeRecord?_eq_some.mp hy
    simp only [Store.edgeOf, EdgeRecord.edge, Edge.mk.injEq, true_and] at hedge
    obtain ⟨-, hfromFile, htoFile, hfromSymbol, htoSymbol⟩ := hedge
    have hfits := h.edge_fits e hrow
    have howner := hits_owner h (d := d) hname
    have hfrom := hits_fileEnd h (d := d) hname fun i hi => hfits.files i (.inl hi)
    have hto := hits_fileEnd h (d := d) hname fun i hi => hfits.files i (.inr hi)
    have hfrom' := hits_symbolEnd h (d := d) hname fun i hi => hfits.symbols i (.inl hi)
    have hto' := hits_symbolEnd h (d := d) hname fun i hi => hfits.symbols i (.inr hi)
    rw [hfromFile] at hfrom
    rw [htoFile] at hto
    rw [hfromSymbol] at hfrom'
    rw [htoSymbol] at hto'
    simp only [hits_edge hy, Record.above, List.mem_cons, List.mem_append, List.mem_flatMap,
      Option.mem_toList, or_and_right, exists_or, or_assoc, Row.key?, Row.record?, hy,
      Option.map_some, Row.keyWith, Option.some.injEq, Row.Under, Row.In, howner, hfrom, hto,
      hfrom', hto', false_and, and_false, exists_false, or_false, and_or_left, eq_comm (a := d)]
  | membership m =>
    obtain ⟨y, hy⟩ := exists_membershipRecord? h hrow
    obtain ⟨hproject, hname⟩ := membershipRecord?_eq_some.mp hy
    have howner := hits_owner h (d := d) hname
    have hprojectOf := hits_projectOf h (d := d) hproject
    simp only [hits_membership hy, Record.above, List.mem_cons, List.not_mem_nil, Row.key?,
      Row.record?, hy, Option.map_some, Row.keyWith, Option.some.injEq, Row.Under, Row.In, howner,
      hprojectOf, false_and, and_false, exists_false, or_false, false_or, eq_comm (a := d)]
    rw [or_comm (a := Deletion.project y.project = d)]

/-- The rows that go away are those that one of the keys hits. -/
theorem gone_iff_hits (h : s.Sound) {keys : List Deletion} {row : Row} (hrow : row.In s) :
    Gone s keys row ↔ ∃ d ∈ keys, Hits s d row := by
  constructor
  · intro hgone
    induction hgone with
    | listed hkey hmem => exact ⟨_, hmem, (hits_iff h hrow).mpr (.inl hkey)⟩
    | follows hin hunder _ ih =>
      obtain ⟨d, hd, hhits⟩ := ih hin
      exact ⟨d, hd, (hits_iff h hrow).mpr (.inr ⟨_, hin, hunder, hhits⟩)⟩
  · rintro ⟨d, hd, hhits⟩
    -- The rows above a row have a smaller depth.
    induction hn : row.depth using Nat.strongRecOn generalizing row with
    | ind n ih =>
      rcases (hits_iff h hrow).mp hhits with hkey | ⟨parent, hin, hunder, hhits⟩
      · exact .listed hkey hd
      · exact .follows hin hunder (ih _ (hn ▸ hunder.depth_lt) hin hhits rfl)

end CodeIndex.Sync
