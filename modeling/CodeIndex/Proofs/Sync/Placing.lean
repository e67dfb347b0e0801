import CodeIndex.Proofs.Sync.Refusal
import Mathlib.Logic.Function.Basic

/-!
Putting a record into a store. What the store holds under the key of the record changes, and what it
holds under other keys stays as it was. A file keeps a text that it has under the same hash, and a
reference loses a target that is not held. A store that is faithful stays so: the key of an edge is
the one its ends have, and the hash of a file is that of its content.
-/
namespace CodeIndex.Sync

open Store (fileMark eq_of_key)

/-- What is held of a record that is put. -/
def Content.settle (c : Content) : Record → Record
  | .file f =>
    match c (.file f.repository f.path) with
    | some (.file old) =>
      .file { f with content := if old.contentHash = f.contentHash then old.content else f.content }
    | _ => .file f
  | .reference x =>
    .reference { x with
      targetSymbol := x.targetSymbol.filter fun k =>
        (c (Record.symbolParent x.repository k)).isSome }
  | r => r

/-- The content after a record, which may be passed over. -/
def Content.put (c : Content) (r : Record) : Content :=
  if (c.refusal? r).isSome then c else Function.update c r.key (some (c.settle r))

/-- The key of an edge row tells its kind. -/
def Kinded (s : Store) : Prop := ∀ e ∈ s.edges, ∀ x : Edge, x.key = e.key → x.kind = e.kind

theorem Faithful.kinded {s : Store} (h : Faithful s) : Kinded s := fun e he _ hkey =>
  edge_kind_of_key (hkey.trans (h.edge_keys e he).symm)

theorem key_settle (c : Content) (r : Record) : (c.settle r).key = r.key := by
  cases r with
  | file f =>
    simp only [Content.settle]
    split <;> rfl
  | _ => rfl

variable {s s' : Store}

/-! Rows and keys of other tables -/

theorem HasRow.table {k : Deletion} {x : Record} (h : HasRow s k x) : k.table = x.key.table := by
  cases x with
  | edge y =>
    obtain ⟨e, -, -, rfl⟩ := h
    rfl
  | _ => exact congrArg Deletion.table h.2

/-- A record is one of the store when a row has it. -/
theorem mem_records_iff_hasRow {x : Record} : x ∈ records s ↔ ∃ k, HasRow s k x := by
  cases x with
  | edge y =>
    rw [mem_records]
    constructor
    · rintro ⟨e, he, hy⟩
      exact ⟨_, e, he, hy, rfl⟩
    · rintro ⟨-, e, he, hy, -⟩
      exact ⟨e, he, hy⟩
  | _ => exact ⟨fun hx => ⟨_, hx, rfl⟩, fun ⟨_, hx, _⟩ => hx⟩

/-- The rows of a faithful store stand under the keys of their records. -/
theorem Faithful.hasRow_iff (h : Faithful s) {k : Deletion} {x : Record} :
    HasRow s k x ↔ x ∈ records s ∧ k = x.key := by
  cases x with
  | edge y =>
    rw [mem_records]
    constructor
    · rintro ⟨e, he, hy, rfl⟩
      refine ⟨⟨e, he, hy⟩, ?_⟩
      rw [Record.key, ← (edgeRecord?_eq_some.mp hy).2, h.edge_keys e he]
    · rintro ⟨⟨e, he, hy⟩, rfl⟩
      refine ⟨e, he, hy, ?_⟩
      rw [Record.key, ← (edgeRecord?_eq_some.mp hy).2, h.edge_keys e he]
  | _ => exact Iff.rfl

/-- The keys of a faithful store are those under which it holds something. -/
theorem Faithful.live_iff (h : Faithful s) {k : Deletion} :
    Live s k ↔ (content s k).isSome = true := by
  rw [Option.isSome_iff_exists]
  simp only [content_eq_some h.toSound, h.hasRow_iff]
  constructor
  · rintro ⟨x, hx, hk⟩
    exact ⟨x, hx, hk.symm⟩
  · rintro ⟨x, hx, hk⟩
    exact ⟨x, hx, hk.symm⟩

/-- Rows that stay and whose names stay have the same records under the same keys. -/
theorem hasRow_of_sameRows (ha : Agrees s s') (h : s.Sound) (h' : s'.Sound) {x : Record}
    (hrows : SameRows s s' x) (k : Deletion) : HasRow s' k x ↔ HasRow s k x := by
  cases x with
  | edge y =>
    have hedges : s'.edges = s.edges := hrows
    rw [HasRow, hedges]
    exact exists_congr fun e => and_congr_right fun he => by rw [ha.edgeRecord? h h' he]
  | _ => exact and_congr_left fun _ => mem_records_of_sameRows ha h h' hrows

/-- The second store is the first one with a record under its key. -/
structure Placed (s s' : Store) (key : Deletion) (y : Record) : Prop where
  kinded : Kinded s → Kinded s'
  hasRow_iff : ∀ k x, HasRow s' k x ↔ (k = key ∧ x = y) ∨ (k ≠ key ∧ HasRow s k x)

/-- Only rows of the table of the record change. -/
theorem Placed.of_table {key : Deletion} {y : Record} (h : s.Sound) (h' : s'.Sound)
    (ha : Agrees s s') (hkinded : Kinded s → Kinded s') (hy : y.key.table = key.table)
    (hother : ∀ x : Record, x.key.table ≠ key.table → SameRows s s' x)
    (hown : ∀ k x, x.key.table = key.table →
      (HasRow s' k x ↔ (k = key ∧ x = y) ∨ (k ≠ key ∧ HasRow s k x))) : Placed s s' key y := by
  refine ⟨hkinded, fun k x => ?_⟩
  by_cases htable : x.key.table = key.table
  · exact hown k x htable
  · rw [hasRow_of_sameRows ha h h' (hother x htable)]
    constructor
    · intro hx
      exact .inr ⟨fun heq => htable (heq ▸ hx.table.symm), hx⟩
    · rintro (⟨-, rfl⟩ | ⟨-, hx⟩)
      · exact absurd hy htable
      · exact hx

/-- Records that stand under their own keys. -/
theorem hasRow_iff_of_records {key k : Deletion} {x y : Record} (hy : y.key = key)
    (hrow : HasRow s k x ↔ x ∈ records s ∧ k = x.key)
    (hrow' : HasRow s' k x ↔ x ∈ records s' ∧ k = x.key)
    (hmem : x ∈ records s' ↔ x = y ∨ (x ∈ records s ∧ x.key ≠ key)) :
    HasRow s' k x ↔ (k = key ∧ x = y) ∨ (k ≠ key ∧ HasRow s k x) := by
  rw [hrow, hrow', hmem]
  constructor
  · rintro ⟨rfl | ⟨hx, hne⟩, rfl⟩
    · exact .inl ⟨hy, rfl⟩
    · exact .inr ⟨hne, hx, rfl⟩
  · rintro (⟨rfl, rfl⟩ | ⟨hne, hx, rfl⟩)
    · exact ⟨.inl rfl, hy.symm⟩
    · exact ⟨.inr ⟨hx, hne⟩, rfl⟩

/-! Repositories and projects -/

theorem placed_repository (h : s.Sound) {r : RepositoryRecord}
    (hok : upsertRepository s r = .ok s') :
    Placed s s' (Record.repository r).key (.repository r) := by
  have h' := Sound.upsertRepository h hok
  obtain ⟨rows, n, rfl, hputs⟩ := upsertRepository_puts hok
  have ha : Agrees s { s with repositories := rows, nextSerial := n } :=
    { Agrees.refl s with repositories := hputs.marks fun _ => rfl }
  refine .of_table h h' ha id rfl ?_ ?_
  · intro x hx
    cases x with
    | repository _ => exact absurd rfl hx
    | _ => rfl
  · intro k x hx
    cases x with
    | repository y =>
      refine hasRow_iff_of_records rfl Iff.rfl Iff.rfl ?_
      have hrecord : (∃ row ∈ rows, some (repositoryRecord row) = some y) ↔ y = r ∨
          ((∃ row ∈ s.repositories, some (repositoryRecord row) = some y) ∧
            (Record.repository y).key ≠ (Record.repository r).key) := by
        apply hputs.exists_record fun y => (Record.repository y).key
        · intro row _ z hz
          rw [← Option.some.inj hz, beq_iff_eq]
          simp [Record.key, repositoryRecord]
        · intro row _ hp
          simp [repositoryRecord, setRepository, beq_iff_eq.mp hp]
        · exact fun _ => rfl
        · exact fun _ _ => rfl
      simpa [mem_records] using hrecord
    | _ => simp [Record.key, Deletion.table] at hx

theorem placed_project (h : s.Sound) {p : ProjectRecord} (hok : upsertProject s p = .ok s') :
    Placed s s' (Record.project p).key (.project p) := by
  have h' := Sound.upsertProject h hok
  obtain ⟨rows, n, rfl, hputs⟩ := upsertProject_puts hok
  have ha : Agrees s { s with projects := rows, nextSerial := n } :=
    { Agrees.refl s with projects := hputs.marks fun _ => rfl }
  refine .of_table h h' ha id rfl ?_ ?_
  · intro x hx
    cases x with
    | project _ => exact absurd rfl hx
    | _ => rfl
  · intro k x hx
    cases x with
    | project y =>
      refine hasRow_iff_of_records rfl Iff.rfl Iff.rfl ?_
      have hrecord : (∃ row ∈ rows, some (projectRecord row) = some y) ↔ y = p ∨
          ((∃ row ∈ s.projects, some (projectRecord row) = some y) ∧
            (Record.project y).key ≠ (Record.project p).key) := by
        apply hputs.exists_record fun y => (Record.project y).key
        · intro row _ z hz
          rw [← Option.some.inj hz, beq_iff_eq]
          simp [Record.key, projectRecord]
        · intro row _ hp
          simp [projectRecord, setProject, beq_iff_eq.mp hp]
        · exact fun _ => rfl
        · exact fun _ _ => rfl
      simpa [mem_records] using hrecord
    | _ => simp [Record.key, Deletion.table] at hx

/-! Files -/

/-- The record of a file of the repository with the given name. -/
theorem fileRecord?_of_owner {row : FileRow} {name : String}
    (hname : ownerOf s row.repositoryId = some name) :
    fileRecord? s row = some ⟨name, row.path, row.language, row.size, row.contentHash,
      row.indexedAt, row.content⟩ := by
  rw [fileRecord?, hname]
  rfl

/-- The record of a file row is found under its key. -/
theorem content_of_fileRecord? (h : s.Sound) {row : FileRow} {y : FileRecord} (hrow : row ∈ s.files)
    (hy : fileRecord? s row = some y) : content s (.file y.repository y.path) = some (.file y) :=
  (content_file h).mpr (hasRow_file hrow hy)

/-- The row under the key of a file decides on the text that stays. -/
theorem settle_file_of_row (h : s.Sound) {f : FileRecord} {r : RepositoryRow}
    (hr : s.repository? f.repository = some r) {row : FileRow} (hrow : row ∈ s.files)
    (howner : row.repositoryId = r.id) (hpath : row.path = f.path) :
    (content s).settle (.file f) = .file { f with
      content := if row.contentHash = f.contentHash then row.content else f.content } := by
  have hname : ownerOf s row.repositoryId = some f.repository := (ownerOf_iff h hr).mpr howner
  have hheld := content_of_fileRecord? h hrow (fileRecord?_of_owner hname)
  rw [hpath] at hheld
  rw [Content.settle, hheld]

theorem settle_file_of_free (h : s.Sound) {f : FileRecord} {r : RepositoryRow}
    (hr : s.repository? f.repository = some r)
    (hfree : ∀ row ∈ s.files, (row.repositoryId == r.id && row.path == f.path) = false) :
    (content s).settle (.file f) = .file f := by
  have hempty : content s (.file f.repository f.path) = none := by
    rw [← Option.not_isSome_iff_eq_none, isSome_content_file h, Option.not_isSome_iff_eq_none,
      file?, hr, Option.bind_some, Store.file?, List.find?_eq_none]
    exact fun row hrow => Bool.eq_false_iff.mp (hfree row hrow)
  rw [Content.settle, hempty]

theorem placed_file (h : s.Sound) {f : FileRecord} (hok : upsertFile s f = .ok s') :
    Placed s s' (Record.file f).key ((content s).settle (.file f)) := by
  have h' := Sound.upsertFile h hok
  obtain ⟨-, r, hr, rows, n, rfl, hputs⟩ := upsertFile_puts hok
  have ha : Agrees s { s with files := rows, nextSerial := n } :=
    { Agrees.refl s with files := hputs.marks fun _ => rfl }
  have howner : ownerOf s r.id = some f.repository := (ownerOf_iff h hr).mpr rfl
  refine .of_table h h' ha id (congrArg Deletion.table (key_settle _ _)) ?_ ?_
  · intro x hx
    cases x with
    | file _ => exact absurd rfl hx
    | _ => rfl
  · intro k x hx
    cases x with
    | file y =>
      refine hasRow_iff_of_records (key_settle _ _) Iff.rfl Iff.rfl ?_
      have hrecord : (∃ row ∈ rows, (fileRecord? s row).map Record.file = some (.file y)) ↔
          Record.file y = (content s).settle (.file f) ∨
            ((∃ row ∈ s.files, (fileRecord? s row).map Record.file = some (.file y)) ∧
              (Record.file y).key ≠ ((content s).settle (.file f)).key) := by
        apply hputs.exists_record Record.key
        · intro row _ z hz
          obtain ⟨g, hg, rfl⟩ := Option.map_eq_some_iff.mp hz
          obtain ⟨name, hname, rfl⟩ := Option.map_eq_some_iff.mp hg
          rw [key_settle]
          simp only [Record.key, Deletion.file.injEq, Bool.and_eq_true, beq_iff_eq]
          apply and_congr_left
          intro _
          rw [← ownerOf_iff h hr, hname, Option.some.injEq]
        · intro row hrow hp
          simp only [Bool.and_eq_true, beq_iff_eq] at hp
          rw [settle_file_of_row h hr hrow hp.1 hp.2]
          simp [fileRecord?, setFile, hp.1, howner, hp.2]
        · intro hnone
          rw [settle_file_of_free h hr hnone]
          simp [fileRecord?, newFile, howner]
        · exact fun _ _ => rfl
      have hsame : ∀ row, fileRecord? { s with files := rows, nextSerial := n } row =
          fileRecord? s row := fun _ => rfl
      rw [key_settle] at hrecord
      simpa [mem_records, hsame] using hrecord
    | _ => simp [Record.key, Deletion.table] at hx

/-! Symbols and references -/

theorem placed_symbol (h : s.Sound) {x : SymbolRecord} (hok : upsertSymbol s x = .ok s') :
    Placed s s' (Record.symbol x).key (.symbol x) := by
  have h' := Sound.upsertSymbol h hok
  obtain ⟨f, hf, rows, n, rfl, hputs⟩ := upsertSymbol_puts hok
  have ha : Agrees s { s with symbols := rows, nextSerial := n } :=
    { Agrees.refl s with symbols := hputs.marks fun _ => rfl }
  have hhome : fileHome? s f.id = some (x.repository, x.filePath) := (fileHome?_iff h hf).mpr rfl
  refine .of_table h h' ha id rfl ?_ ?_
  · intro y hy
    cases y with
    | symbol _ => exact absurd rfl hy
    | _ => rfl
  · intro k y hy
    cases y with
    | symbol y =>
      refine hasRow_iff_of_records rfl Iff.rfl Iff.rfl ?_
      have hrecord : (∃ row ∈ rows, symbolRecord? s row = some y) ↔ y = x ∨
          ((∃ row ∈ s.symbols, symbolRecord? s row = some y) ∧
            (Record.symbol y).key ≠ (Record.symbol x).key) := by
        apply hputs.exists_record fun y => (Record.symbol y).key
        · intro row _ z hz
          obtain ⟨home, hname, rfl⟩ := Option.map_eq_some_iff.mp hz
          have hfile : home.1 = x.repository ∧ home.2 = x.filePath ↔ row.fileId = f.id := by
            rw [← fileHome?_iff h hf, hname, Option.some.injEq, Prod.ext_iff]
          simp only [Record.key, Deletion.symbol.injEq, Bool.and_eq_true, beq_iff_eq, and_assoc,
            ← hfile]
        · intro row _ hp
          simp only [Bool.and_eq_true, beq_iff_eq] at hp
          simp [symbolRecord?, setSymbol, hp, hhome]
        · intro _
          simp [symbolRecord?, newSymbol, hhome]
        · exact fun _ _ => rfl
      have hsame : ∀ row, symbolRecord? { s with symbols := rows, nextSerial := n } row =
          symbolRecord? s row := fun _ => rfl
      simpa [mem_records, hsame] using hrecord
    | _ => simp [Record.key, Deletion.table] at hy

/-- A target is read back when it is held. -/
theorem symbolKey?_targetId? (h : s.Sound) (x : ReferenceRecord) :
    s.symbolKey? (targetId? s x) =
      x.targetSymbol.filter fun k => (content s (Record.symbolParent x.repository k)).isSome := by
  rcases hk : x.targetSymbol with _ | ⟨path, name, line⟩
  · rw [targetId?, hk]
    rfl
  · rw [targetId?, hk, Option.bind_some, Option.filter_some, Record.symbolParent,
      isSome_content_symbol h]
    cases hrow : symbol? s x.repository ⟨path, name, line⟩ with
    | none => rfl
    | some row => exact symbolKey?_of_symbol? h hrow

theorem placed_reference (h : s.Sound) {x : ReferenceRecord} (hok : upsertReference s x = .ok s') :
    Placed s s' (Record.reference x).key ((content s).settle (.reference x)) := by
  have h' := Sound.upsertReference h hok
  obtain ⟨f, hf, rows, rfl, hputs⟩ := upsertReference_puts hok
  have ha : Agrees s { s with references := rows } := { Agrees.refl s with }
  have hhome : fileHome? s f.id = some (x.repository, x.filePath) := (fileHome?_iff h hf).mpr rfl
  refine .of_table h h' ha id rfl ?_ ?_
  · intro y hy
    cases y with
    | reference _ => exact absurd rfl hy
    | _ => rfl
  · intro k y hy
    cases y with
    | reference y =>
      refine hasRow_iff_of_records rfl Iff.rfl Iff.rfl ?_
      rw [Content.settle, ← symbolKey?_targetId? h x]
      have hrecord : (∃ row ∈ rows, referenceRecord? s row = some y) ↔
          y = { x with targetSymbol := s.symbolKey? (targetId? s x) } ∨
          ((∃ row ∈ s.references, referenceRecord? s row = some y) ∧
            (Record.reference y).key ≠ (Record.reference x).key) := by
        apply hputs.exists_record fun y => (Record.reference y).key
        · intro row _ z hz
          obtain ⟨home, hname, rfl⟩ := Option.map_eq_some_iff.mp hz
          have hfile : home.1 = x.repository ∧ home.2 = x.filePath ↔ row.fileId = f.id := by
            rw [← fileHome?_iff h hf, hname, Option.some.injEq, Prod.ext_iff]
          simp only [Record.key, Deletion.reference.injEq, atUse, Bool.and_eq_true, beq_iff_eq,
            and_assoc, ReferenceKind.name_inj, ← hfile]
        · intro row _ hp
          simp only [atUse, Bool.and_eq_true, beq_iff_eq] at hp
          simp [referenceRecord?, setReference, hp, hhome]
        · intro _
          simp [referenceRecord?, newReference, hhome]
        · exact fun _ _ => rfl
      have hsame : ∀ row, referenceRecord? { s with references := rows } row =
          referenceRecord? s row := fun _ => rfl
      simpa [mem_records, hsame] using hrecord
    | _ => simp [Record.key, Deletion.table] at hy

/-! Edges -/

/-- The key and the record of an edge row. -/
def edgeWithKey? (s : Store) (row : EdgeRow) : Option (Deletion × EdgeRecord) :=
  (edgeRecord? s row).map fun y => (.edge y.repository row.key, y)

theorem edgeWithKey?_eq_some {row : EdgeRow} {k : Deletion} {y : EdgeRecord} :
    edgeWithKey? s row = some (k, y) ↔
      edgeRecord? s row = some y ∧ k = .edge y.repository row.key := by
  simp only [edgeWithKey?, Option.map_eq_some_iff, Prod.mk.injEq]
  constructor
  · rintro ⟨y, hy, hk, rfl⟩
    exact ⟨hy, hk.symm⟩
  · rintro ⟨hy, hk⟩
    exact ⟨y, hy, hk.symm, rfl⟩

theorem placed_edge (h : s.Sound) (hkinded : Kinded s) {e : EdgeRecord}
    (hok : upsertEdge s e = .ok s') :
    Placed s s' (Record.edge e).key (.edge e) := by
  have h' := Sound.upsertEdge h hok
  obtain ⟨r, ends, hr, hends, rows, rfl, hputs⟩ := upsertEdge_puts hok
  have ha : Agrees s { s with edges := rows } := { Agrees.refl s with }
  have howner : ownerOf s r.id = some e.repository := (ownerOf_iff h hr).mpr rfl
  have hkinds : ∀ row ∈ rows, ∀ x : Edge, x.key = row.key → x.kind = row.kind := by
    rcases hputs with ⟨-, rfl⟩ | ⟨-, rfl⟩
    · apply Store.forall_mem_map
      intro row hrow
      split
      · exact hkinded row hrow
      · exact hkinded row hrow
    · exact Store.forall_mem_append_one hkinded fun x hx => edge_kind_of_key hx
  refine .of_table h h' ha (fun _ => hkinds) rfl ?_ ?_
  · intro y hy
    cases y with
    | edge _ => exact absurd rfl hy
    | _ => rfl
  · intro k y hy
    cases y with
    | edge y =>
      have hrecord : (∃ row ∈ rows, edgeWithKey? s row = some (k, y)) ↔
          (k, y) = ((Record.edge e).key, e) ∨
          ((∃ row ∈ s.edges, edgeWithKey? s row = some (k, y)) ∧
            (k, y).1 ≠ ((Record.edge e).key, e).1) := by
        apply hputs.exists_record Prod.fst
        · intro row hrow z hz
          obtain ⟨y, hy, rfl⟩ := Option.map_eq_some_iff.mp hz
          simp only [Record.key, Deletion.edge.injEq, Bool.and_eq_true, beq_iff_eq]
          apply and_congr_left
          intro _
          rw [← ownerOf_iff h hr, (edgeRecord?_eq_some.mp hy).1, Option.some.injEq]
        · intro row hrow hp
          simp only [Bool.and_eq_true, beq_iff_eq] at hp
          have hkind : row.kind = e.kind := (hkinded row hrow e.edge hp.2.symm).symm
          have hset : edgeRecord? s (setEdge ends row) = some e :=
            edgeRecord?_eq_some.mpr
              ⟨(congrArg (ownerOf s) hp.1).trans howner, hends.edgeOf h hkind⟩
          exact edgeWithKey?_eq_some.mpr ⟨hset, congrArg (Deletion.edge e.repository) hp.2.symm⟩
        · intro _
          have hkind : (newEdge r.id ends e).kind = e.kind := rfl
          have hedge : s.edgeOf "" (newEdge r.id ends e) = e.edge := hends.edgeOf h hkind
          have hnew : edgeRecord? s (newEdge r.id ends e) = some e :=
            edgeRecord?_eq_some.mpr ⟨howner, hedge⟩
          exact edgeWithKey?_eq_some.mpr ⟨hnew, rfl⟩
        · exact fun _ _ => rfl
      have hsame : ∀ row, edgeRecord? { s with edges := rows } row = edgeRecord? s row :=
        fun _ => rfl
      simp only [edgeWithKey?_eq_some, Prod.mk.injEq] at hrecord
      simp only [HasRow, hsame, hrecord, Record.edge.injEq]
      rw [and_comm (a := k ≠ (Record.edge e).key)]
    | _ => simp [Record.key, Deletion.table] at hy

/-! Memberships -/

theorem addMembership_puts (s : Store) (project repository : Id) :
    ∃ rows, s.addMembership project repository = { s with memberships := rows } ∧
      Puts s.memberships rows (fun m => m == (⟨project, repository⟩ : MembershipRow)) id
        ⟨project, repository⟩ := by
  unfold Store.addMembership
  split
  · next hmem =>
    refine ⟨s.memberships, rfl, .inl ⟨⟨_, List.contains_iff_mem.mp hmem, beq_self_eq_true _⟩, ?_⟩⟩
    simp
  · next hmem =>
    refine ⟨_, rfl, .inr ⟨?_, rfl⟩⟩
    intro m hm
    refine Bool.eq_false_iff.mpr fun heq => hmem ?_
    exact List.contains_iff_mem.mpr (beq_iff_eq.mp heq ▸ hm)

theorem placed_membership (h : s.Sound) {m : MembershipRecord}
    (hok : upsertMembership s m = .ok s') :
    Placed s s' (Record.membership m).key (.membership m) := by
  have h' := Sound.upsertMembership h hok
  obtain ⟨p, r, hp, hr, heq⟩ := upsertMembership_cases hok
  obtain ⟨rows, hrows, hputs⟩ := addMembership_puts s p.id r.id
  obtain rfl := heq.trans hrows
  have ha : Agrees s { s with memberships := rows } := { Agrees.refl s with }
  have hproject : projectName? s p.id = some m.project := (project?_iff h hp).mpr rfl
  have howner : ownerOf s r.id = some m.repository := (ownerOf_iff h hr).mpr rfl
  have hnew : membershipRecord? s ⟨p.id, r.id⟩ = some m := by
    simp [membershipRecord?, hproject, howner]
  refine .of_table h h' ha id rfl ?_ ?_
  · intro y hy
    cases y with
    | membership _ => exact absurd rfl hy
    | _ => rfl
  · intro k y hy
    cases y with
    | membership y =>
      refine hasRow_iff_of_records rfl Iff.rfl Iff.rfl ?_
      have hrecord : (∃ row ∈ rows, membershipRecord? s row = some y) ↔ y = m ∨
          ((∃ row ∈ s.memberships, membershipRecord? s row = some y) ∧
            (Record.membership y).key ≠ (Record.membership m).key) := by
        apply hputs.exists_record fun y => (Record.membership y).key
        · intro row _ z hz
          obtain ⟨hpn, hrn⟩ := membershipRecord?_eq_some.mp hz
          simp only [Record.key, Deletion.membership.injEq, beq_iff_eq]
          have hids : z.project = m.project ∧ z.repository = m.repository ↔
              row.projectId = p.id ∧ row.repositoryId = r.id := by
            rw [← project?_iff h hp, ← ownerOf_iff h hr, hpn, hrn, Option.some.injEq,
              Option.some.injEq]
          rw [hids]
          constructor
          · rintro ⟨h1, h2⟩
            rw [← h1, ← h2]
          · rintro rfl
            exact ⟨rfl, rfl⟩
        · intro row _ hp
          rw [beq_iff_eq.mp hp]
          exact hnew
        · exact fun _ => hnew
        · exact fun _ _ => rfl
      have hsame : ∀ row, membershipRecord? { s with memberships := rows } row =
          membershipRecord? s row := fun _ => rfl
      simpa [mem_records, hsame] using hrecord
    | _ => simp [Record.key, Deletion.table] at hy

/-! Records -/

theorem placed_put (h : s.Sound) (hkinded : Kinded s) {r : Record} (hok : r.put s = .ok s') :
    Placed s s' r.key ((content s).settle r) := by
  cases r with
  | repository r => exact placed_repository h hok
  | file f => exact placed_file h hok
  | symbol x => exact placed_symbol h hok
  | reference x => exact placed_reference h hok
  | edge e => exact placed_edge h hkinded hok
  | project p => exact placed_project h hok
  | membership m => exact placed_membership h hok

theorem Sound.put (h : s.Sound) {r : Record} (hok : r.put s = .ok s') : s'.Sound := by
  cases r with
  | repository r => exact Sound.upsertRepository h hok
  | file f => exact Sound.upsertFile h hok
  | symbol x => exact Sound.upsertSymbol h hok
  | reference x => exact Sound.upsertReference h hok
  | edge e => exact Sound.upsertEdge h hok
  | project p => exact Sound.upsertProject h hok
  | membership m => exact Sound.upsertMembership h hok

/-- A record that is put changes the content under its own key, and nothing else. -/
theorem content_put (h : s.Sound) (hkinded : Kinded s) {r : Record} (hok : r.put s = .ok s') :
    content s' = (content s).put r := by
  have htaken := (put_failsFor h r).exists_ok_iff.mp ⟨s', hok⟩
  rw [Content.put, htaken, Option.isSome_none, if_neg Bool.false_ne_true]
  funext k
  refine Option.ext fun x => ?_
  rw [content_eq_some (Sound.put h hok), (placed_put h hkinded hok).hasRow_iff]
  by_cases hk : k = r.key
  · rw [hk, Function.update_self]
    simp [eq_comm]
  · rw [Function.update_of_ne hk, content_eq_some h]
    simp [hk]

/-- A store that puts edges as their records say: the key of each row tells its kind. -/
structure Regular (s : Store) : Prop extends s.Sound where
  kinded : Kinded s

theorem Regular.put (h : Regular s) {r : Record} (hok : r.put s = .ok s') : Regular s' :=
  ⟨Sound.put h.toSound hok, (placed_put h.toSound h.kinded hok).kinded h.kinded⟩

/-! Faithful stores -/

/-- A sound store is faithful when its rows stand under the keys of their records, which are
intact. -/
theorem faithful_of_rows (h : s.Sound) (hrows : ∀ k x, HasRow s k x → k = x.key ∧ x.Intact) :
    Faithful s := by
  refine { h with edge_keys := ?_, hashes := ?_ }
  · intro e he
    obtain ⟨name, hname⟩ := exists_ownerOf h (h.edge_fits e he).owner
    have hrecord : edgeRecord? s e = some ⟨name, e.kind, s.filePath? e.fromFileId,
        s.filePath? e.toFileId, s.symbolKey? e.fromSymbolId, s.symbolKey? e.toSymbolId⟩ :=
      edgeRecord?_eq_some.mpr ⟨hname, rfl⟩
    obtain ⟨hkey, -⟩ := hrows _ _ (hasRow_edge he hrecord)
    exact (Deletion.edge.inj hkey).2.symm
  · intro f hf
    obtain ⟨y, hy⟩ := exists_fileRecord? h hf
    obtain ⟨-, hintact⟩ := hrows _ _ (hasRow_file hf hy)
    obtain ⟨name, -, rfl⟩ := Option.map_eq_some_iff.mp hy
    exact hintact

/-- A faithful store holds intact records only. -/
theorem Faithful.intact_settle (h : Faithful s) {r : Record} (hr : r.Intact) :
    ((content s).settle r).Intact := by
  cases r with
  | file f =>
    rw [Content.settle]
    split
    · next old hold =>
      have hmem := (h.hasRow_iff.mp ((content_eq_some h.toSound).mp hold)).1
      have hhash : Digest.Sha256.hex old.content = old.contentHash := h.intact hmem
      rw [Record.Intact]
      dsimp only
      split
      · next heq => rw [hhash, heq]
      · exact hr
    · exact hr
  | _ => exact hr

/-- What a store must hold for a record to be put into it without loss. -/
def Welcomes (s : Store) : Record → Prop
  | .file f => ∀ g, .file g ∈ records s → (Record.file g).key = (Record.file f).key →
      g.contentHash = f.contentHash → g.content = f.content
  | .reference x => ∀ k, x.targetSymbol = some k → (symbol? s x.repository k).isSome = true
  | _ => True

theorem Welcomes.settle_eq (h : Faithful s) {r : Record} (hr : Welcomes s r) :
    (content s).settle r = r := by
  cases r with
  | file f =>
    rw [Content.settle]
    split
    · next old hold =>
      obtain ⟨hmem, hkey⟩ := h.hasRow_iff.mp ((content_eq_some h.toSound).mp hold)
      split
      · next heq => rw [hr old hmem hkey.symm heq]
      · rfl
    · rfl
  | reference x =>
    have htarget : x.targetSymbol.filter (fun k =>
        (content s (Record.symbolParent x.repository k)).isSome) = x.targetSymbol := by
      rcases hk : x.targetSymbol with _ | k
      · rfl
      · rw [Option.filter_some, Record.symbolParent, isSome_content_symbol h.toSound, hr k hk]
        rfl
    rw [Content.settle, htarget]
  | _ => rfl

/-- The second store is the first one with a record put into it. -/
structure Merged (s s' : Store) (r : Record) : Prop where
  faithful : Faithful s'
  records_iff : Welcomes s r →
    ∀ x : Record, x ∈ records s' ↔ x = r ∨ (x ∈ records s ∧ x.key ≠ r.key)

/-- A record that was put into a faithful store that welcomes it is there, next to the records with
other keys. -/
theorem merged_put {r : Record} (h : Faithful s) (hok : r.put s = .ok s') : Merged s s' r := by
  have hplaced := placed_put h.toSound h.kinded hok
  have htaken := (put_failsFor h.toSound r).exists_ok_iff.mp ⟨s', hok⟩
  have hintact : r.Intact := (Content.refusal?_eq_none.mp htaken).1
  have h' : Faithful s' := by
    apply faithful_of_rows (Sound.put h.toSound hok)
    intro k x hx
    rcases (hplaced.hasRow_iff k x).mp hx with ⟨rfl, rfl⟩ | ⟨-, hx⟩
    · exact ⟨(key_settle _ r).symm, h.intact_settle hintact⟩
    · obtain ⟨hmem, hkey⟩ := h.hasRow_iff.mp hx
      exact ⟨hkey, h.intact hmem⟩
  refine ⟨h', fun hwelcome x => ?_⟩
  have hrow := hplaced.hasRow_iff x.key x
  rw [h'.hasRow_iff, h.hasRow_iff, hwelcome.settle_eq h] at hrow
  simp only [and_true] at hrow
  rw [hrow]
  constructor
  · rintro (⟨-, heq⟩ | ⟨hne, hx⟩)
    · exact .inl heq
    · exact .inr ⟨hx, hne⟩
  · rintro (rfl | ⟨hx, hne⟩)
    · exact .inl ⟨rfl, rfl⟩
    · exact .inr ⟨hne, hx⟩

end CodeIndex.Sync
