import CodeIndex.Proofs.Store.RunSteps
import CodeIndex.Sync.Import

/-!
What it means that a record was put into a store. A record whose key is stored changes the row of
that key, and every other record adds a row under a new id; the rows that it names as its parents
are there.
-/
namespace CodeIndex.Sync

open Store (bind_eq_ok throw_bind_ne_ok)

variable {s s' : Store}

theorem requireRepository_eq_ok {name : String} {r : RepositoryRow} :
    requireRepository s name = .ok r ↔ s.repository? name = some r := by
  unfold requireRepository
  split <;> simp_all

theorem requireFile_eq_ok {repository path : String} {f : FileRow} :
    requireFile s repository path = .ok f ↔ file? s repository path = some f := by
  unfold requireFile
  split <;> simp_all

theorem file?_eq_some {repository path : String} {f : FileRow} :
    file? s repository path = some f ↔
      ∃ r, s.repository? repository = some r ∧ s.file? r.id path = some f :=
  Option.bind_eq_some_iff

theorem symbol?_eq_some {repository : String} {key : SymbolKey} {x : SymbolRow} :
    symbol? s repository key = some x ↔
      ∃ f, file? s repository key.filePath = some f ∧
        s.symbol? f.id key.name key.lineStart = some x :=
  Option.bind_eq_some_iff

/-! Repositories -/

/-- The row of a repository after its record. -/
def setRepository (r : RepositoryRecord) (row : RepositoryRow) : RepositoryRow :=
  { row with
    name := r.name, gitUrl := r.gitUrl, defaultBranch := r.defaultBranch,
    lastIndexedAt := r.lastIndexedAt }

def newRepository (id : Id) (r : RepositoryRecord) : RepositoryRow :=
  ⟨id, r.name, r.fullName, r.gitUrl, r.defaultBranch, r.lastIndexedAt⟩

theorem upsertRepository_cases {r : RepositoryRecord} (hok : upsertRepository s r = .ok s') :
    ((s.repository? r.fullName).isSome = true ∧
      s' = { s with
        repositories := s.repositories.map fun row =>
          if row.fullName == r.fullName then setRepository r row else row }) ∨
    (s.repository? r.fullName = none ∧
      s' = { s.freshId.2 with
        repositories := s.repositories ++ [newRepository s.freshId.1 r] }) := by
  unfold upsertRepository at hok
  split at hok
  · next old hold => exact .inl ⟨by simp [hold], (Except.ok.inj hok).symm⟩
  · next hnone => exact .inr ⟨hnone, (Except.ok.inj hok).symm⟩

/-! Files -/

/-- The row of a file after its record; a content with the same hash stays. -/
def setFile (f : FileRecord) (row : FileRow) : FileRow :=
  { row with
    content := if row.contentHash == f.contentHash then row.content else f.content
    contentHash := f.contentHash
    language := f.language, size := f.size, indexedAt := f.indexedAt }

def newFile (id owner : Id) (f : FileRecord) : FileRow :=
  ⟨id, owner, f.path, f.content, f.language, f.size, f.contentHash, f.indexedAt⟩

theorem upsertFile_cases {f : FileRecord} (hok : upsertFile s f = .ok s') :
    Digest.Sha256.hex f.content = f.contentHash ∧
      ∃ r, s.repository? f.repository = some r ∧
        (((s.file? r.id f.path).isSome = true ∧
          s' = { s with
            files := s.files.map fun row =>
              if row.repositoryId == r.id && row.path == f.path then setFile f row else row }) ∨
        (s.file? r.id f.path = none ∧
          s' = { s.freshId.2 with files := s.files ++ [newFile s.freshId.1 r.id f] })) := by
  unfold upsertFile at hok
  dsimp only at hok
  split at hok
  · exact absurd hok throw_bind_ne_ok
  · next hhash =>
    obtain ⟨r, hr, hok⟩ := bind_eq_ok.mp hok
    refine ⟨by simpa using hhash, r, requireRepository_eq_ok.mp hr, ?_⟩
    split at hok
    · next old hold => exact .inl ⟨by simp [hold], (Except.ok.inj hok).symm⟩
    · next hnone => exact .inr ⟨hnone, (Except.ok.inj hok).symm⟩

/-! Symbols -/

/-- The row of a symbol after its record. -/
def setSymbol (x : SymbolRecord) (row : SymbolRow) : SymbolRow :=
  { row with
    kind := x.kind, lineEnd := x.lineEnd, signature := x.signature,
    documentation := x.documentation, isExported := x.isExported }

def newSymbol (id : Id) (f : FileRow) (x : SymbolRecord) : SymbolRow :=
  ⟨id, f.id, f.repositoryId, x.name, x.kind, x.lineStart, x.lineEnd, x.signature, x.documentation,
    x.isExported⟩

theorem upsertSymbol_cases {x : SymbolRecord} (hok : upsertSymbol s x = .ok s') :
    ∃ f, file? s x.repository x.filePath = some f ∧
      (((s.symbol? f.id x.name x.lineStart).isSome = true ∧
        s' = { s with
          symbols := s.symbols.map fun row =>
            if row.fileId == f.id && row.name == x.name && row.lineStart == x.lineStart then
              setSymbol x row
            else row }) ∨
      (s.symbol? f.id x.name x.lineStart = none ∧
        s' = { s.freshId.2 with symbols := s.symbols ++ [newSymbol s.freshId.1 f x] })) := by
  unfold upsertSymbol at hok
  obtain ⟨f, hf, hok⟩ := bind_eq_ok.mp hok
  refine ⟨f, requireFile_eq_ok.mp hf, ?_⟩
  split at hok
  · next old hold => exact .inl ⟨by simp [hold], (Except.ok.inj hok).symm⟩
  · next hnone => exact .inr ⟨hnone, (Except.ok.inj hok).symm⟩

/-! References -/

/-- The id of the target of a reference, if it is stored. -/
def targetId? (s : Store) (x : ReferenceRecord) : Option Id :=
  x.targetSymbol.bind fun k => (symbol? s x.repository k).map SymbolRow.id

/-- The row of a reference after its record. -/
def setReference (target : Option Id) (x : ReferenceRecord) (row : ReferenceRow) : ReferenceRow :=
  { row with
    targetSymbolId := target, targetFilePath := x.targetFilePath, metadata := x.metadata }

def newReference (target : Option Id) (f : FileRow) (x : ReferenceRecord) : ReferenceRow :=
  ⟨f.id, f.repositoryId, x.name, x.kind, x.line, x.column, x.targetFilePath, target, x.metadata⟩

/-- Whether the row has the place of the record in the file. -/
def atUse (fileId : Id) (x : ReferenceRecord) (row : ReferenceRow) : Bool :=
  row.fileId == fileId && row.line == x.line && row.column == x.column && row.kind == x.kind
    && row.name == x.name

theorem atUse_iff {fileId : Id} {x : ReferenceRecord} {row : ReferenceRow} :
    atUse fileId x row = true ↔
      Store.usePlace row = (fileId, x.line, x.column, x.kind, x.name) := by
  simp [atUse, Store.usePlace, and_assoc]

theorem upsertReference_cases {x : ReferenceRecord} (hok : upsertReference s x = .ok s') :
    ∃ f, file? s x.repository x.filePath = some f ∧
      (((∃ row ∈ s.references, atUse f.id x row = true) ∧
        s' = { s with
          references := s.references.map fun row =>
            if atUse f.id x row then setReference (targetId? s x) x row else row }) ∨
      ((∀ row ∈ s.references, atUse f.id x row = false) ∧
        s' = { s with references := s.references ++ [newReference (targetId? s x) f x] })) := by
  unfold upsertReference at hok
  obtain ⟨f, hf, hok⟩ := bind_eq_ok.mp hok
  refine ⟨f, requireFile_eq_ok.mp hf, ?_⟩
  dsimp only at hok
  split at hok
  · next hany =>
    obtain ⟨row, hrow, hplace⟩ := List.any_eq_true.mp hany
    exact .inl ⟨⟨row, hrow, hplace⟩, (Except.ok.inj hok).symm⟩
  · next hnone =>
    refine .inr ⟨?_, (Except.ok.inj hok).symm⟩
    intro row hrow
    exact Bool.eq_false_iff.mpr fun hplace => hnone (List.any_eq_true.mpr ⟨row, hrow, hplace⟩)

/-! Edges -/

/-- The file of the repository that an end of an edge may name. -/
def FileEndIs (s : Store) (repository : String) (path : Option String) (id : Option Id) : Prop :=
  match path with
  | none => id = none
  | some p => ∃ f, file? s repository p = some f ∧ id = some f.id

/-- The symbol of the repository that an end of an edge may name. -/
def SymbolEndIs (s : Store) (repository : String) (key : Option SymbolKey) (id : Option Id) :
    Prop :=
  match key with
  | none => id = none
  | some k => ∃ x, symbol? s repository k = some x ∧ id = some x.id

theorem requireFile?_eq_ok {repository : String} {path : Option String} {id : Option Id} :
    requireFile? s repository path = .ok id ↔ FileEndIs s repository path id := by
  cases path with
  | none => simp [requireFile?, FileEndIs, eq_comm]
  | some p =>
    simp only [requireFile?, requireFile, FileEndIs]
    split
    · next f hf => simp [hf, Except.map, eq_comm]
    · next hf => simp [hf, Except.map]

theorem requireSymbol?_eq_ok {repository : String} {key : Option SymbolKey} {id : Option Id} :
    requireSymbol? s repository key = .ok id ↔ SymbolEndIs s repository key id := by
  cases key with
  | none => simp [requireSymbol?, SymbolEndIs, eq_comm]
  | some k =>
    simp only [requireSymbol?, SymbolEndIs]
    split
    · next x hx => simp [hx, eq_comm]
    · next hx => simp [hx]

/-- The ids of the ends of an edge. -/
structure Ends where
  fromFile : Option Id
  toFile : Option Id
  fromSymbol : Option Id
  toSymbol : Option Id

/-- The ends are the rows that the record names. -/
structure EndsAre (s : Store) (e : EdgeRecord) (ends : Ends) : Prop where
  fromFile : FileEndIs s e.repository e.fromFile ends.fromFile
  toFile : FileEndIs s e.repository e.toFile ends.toFile
  fromSymbol : SymbolEndIs s e.repository e.fromSymbol ends.fromSymbol
  toSymbol : SymbolEndIs s e.repository e.toSymbol ends.toSymbol

/-- The row of an edge after its record. -/
def setEdge (ends : Ends) (row : EdgeRow) : EdgeRow :=
  { row with
    fromFileId := ends.fromFile, toFileId := ends.toFile, fromSymbolId := ends.fromSymbol,
    toSymbolId := ends.toSymbol }

def newEdge (owner : Id) (ends : Ends) (e : EdgeRecord) : EdgeRow :=
  ⟨owner, e.edge.key, e.kind, ends.fromFile, ends.toFile, ends.fromSymbol, ends.toSymbol⟩

theorem upsertEdge_cases {e : EdgeRecord} (hok : upsertEdge s e = .ok s') :
    e.edge.isWellFormed = true ∧
      ∃ r ends, s.repository? e.repository = some r ∧ EndsAre s e ends ∧
        (((∃ row ∈ s.edges, Store.edgePlace row = (r.id, e.edge.key)) ∧
          s' = { s with
            edges := s.edges.map fun row =>
              if row.repositoryId == r.id && row.key == e.edge.key then setEdge ends row
              else row }) ∨
        ((∀ row ∈ s.edges, Store.edgePlace row ≠ (r.id, e.edge.key)) ∧
          s' = { s with edges := s.edges ++ [newEdge r.id ends e] })) := by
  unfold upsertEdge at hok
  split at hok
  · exact absurd hok throw_bind_ne_ok
  · next hformed =>
    obtain ⟨r, hr, hok⟩ := bind_eq_ok.mp hok
    obtain ⟨fromFile, hfromFile, hok⟩ := bind_eq_ok.mp hok
    obtain ⟨toFile, htoFile, hok⟩ := bind_eq_ok.mp hok
    obtain ⟨fromSymbol, hfromSymbol, hok⟩ := bind_eq_ok.mp hok
    obtain ⟨toSymbol, htoSymbol, hok⟩ := bind_eq_ok.mp hok
    have hends : EndsAre s e ⟨fromFile, toFile, fromSymbol, toSymbol⟩ :=
      ⟨requireFile?_eq_ok.mp hfromFile, requireFile?_eq_ok.mp htoFile,
        requireSymbol?_eq_ok.mp hfromSymbol, requireSymbol?_eq_ok.mp htoSymbol⟩
    refine ⟨by simpa using hformed, r, _, requireRepository_eq_ok.mp hr, hends, ?_⟩
    dsimp only at hok
    split at hok
    · next hany =>
      obtain ⟨row, hrow, hplace⟩ := List.any_eq_true.mp hany
      refine .inl ⟨⟨row, hrow, by simpa [Store.edgePlace] using hplace⟩,
        (Except.ok.inj hok).symm⟩
    · next hnone =>
      refine .inr ⟨?_, (Except.ok.inj hok).symm⟩
      intro row hrow hplace
      exact hnone (List.any_eq_true.mpr ⟨row, hrow, by simpa [Store.edgePlace] using hplace⟩)

/-! Projects and memberships -/

/-- The row of a project after its record. -/
def setProject (p : ProjectRecord) (row : ProjectRow) : ProjectRow :=
  { row with description := p.description, createdAt := p.createdAt }

def newProject (id : Id) (p : ProjectRecord) : ProjectRow :=
  ⟨id, p.name, p.description, p.createdAt⟩

theorem upsertProject_cases {p : ProjectRecord} (hok : upsertProject s p = .ok s') :
    ((s.project? p.name).isSome = true ∧
      s' = { s with
        projects := s.projects.map fun row =>
          if row.name == p.name then setProject p row else row }) ∨
    (s.project? p.name = none ∧
      s' = { s.freshId.2 with projects := s.projects ++ [newProject s.freshId.1 p] }) := by
  unfold upsertProject at hok
  split at hok
  · next old hold => exact .inl ⟨by simp [hold], (Except.ok.inj hok).symm⟩
  · next hnone => exact .inr ⟨hnone, (Except.ok.inj hok).symm⟩

theorem upsertMembership_cases {m : MembershipRecord} (hok : upsertMembership s m = .ok s') :
    ∃ p r, s.project? m.project = some p ∧ s.repository? m.repository = some r ∧
      s' = s.addMembership p.id r.id := by
  unfold upsertMembership at hok
  split at hok
  · simp at hok
  · next p hp =>
    cases hr : requireRepository s m.repository with
    | error e => simp [hr, Except.map] at hok
    | ok r =>
      rw [hr] at hok
      exact ⟨p, r, hp, requireRepository_eq_ok.mp hr, (Except.ok.inj hok).symm⟩

end CodeIndex.Sync
