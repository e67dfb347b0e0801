import CodeIndex.Proofs.Sync.Content

/-!
Stores that are faithful: the key of an edge is the one its ends have, and the hash of a file is
that of its content. And the rows that a record is put into: those of its table change where they
have its key, or a new one comes to their end.
-/
namespace CodeIndex.Sync

open Store (fileMark eq_of_key)

/-- A sound store whose edges have the keys of their ends and whose hashes are those of the
contents. -/
structure Faithful (s : Store) : Prop extends s.Sound where
  edge_keys : ∀ e ∈ s.edges, (s.edgeOf "" e).key = e.key
  hashes : ∀ f ∈ s.files, Digest.Sha256.hex f.content = f.contentHash

theorem faithful_empty (origin : Nat) : Faithful (.empty origin) :=
  { Store.sound_empty origin with
    edge_keys := fun _ he => absurd he List.not_mem_nil
    hashes := fun _ hf => absurd hf List.not_mem_nil }

variable {s s' : Store}

theorem Faithful.of_agrees (h : Faithful s) (ha : Agrees s s') (h' : s'.Sound)
    (hedges : s'.edges = s.edges)
    (hfiles : ∀ f ∈ s'.files, Digest.Sha256.hex f.content = f.contentHash) : Faithful s' := by
  refine { h' with edge_keys := ?_, hashes := hfiles }
  intro e he
  rw [hedges] at he
  rw [ha.edgeEnds h.toSound h' he]
  exact h.edge_keys e he

/-! Names and the rows that have them -/

section Rows

variable (h : s.Sound)
include h

theorem ownerOf_iff {name : String} {r : RepositoryRow} (hr : s.repository? name = some r)
    {id : Id} : ownerOf s id = some name ↔ id = r.id := by
  obtain ⟨hmem, rfl⟩ := h.repository?_eq_some.mp hr
  rw [ownerOf_eq_some h]
  constructor
  · intro hmark
    obtain ⟨r', hr', heq⟩ := List.mem_map.mp hmark
    simp only [repositoryMark, Prod.mk.injEq] at heq
    rw [← heq.1, eq_of_key h.repository_names hr' hmem heq.2]
  · rintro rfl
    exact List.mem_map_of_mem hmem

theorem fileHome?_iff {repository path : String} {f : FileRow}
    (hf : file? s repository path = some f) {id : Id} :
    fileHome? s id = some (repository, path) ↔ id = f.id := by
  obtain ⟨r, hr, rfl, hmem, hown, rfl⟩ := (file?_spec h).mp hf
  rw [fileHome?_eq_some h]
  constructor
  · rintro ⟨owner, hfile, howner⟩
    have hid : owner = r.id := by
      have hname := (ownerOf_eq_some h).mpr howner
      exact (ownerOf_iff h (h.repository?_eq_some.mpr ⟨hr, rfl⟩)).mp hname
    have hmark : (f.id, owner, f.path) ∈ s.files.map fileMark := by
      rw [hid, ← hown]
      exact List.mem_map_of_mem hmem
    exact h.mark_id hfile hmark
  · rintro rfl
    refine ⟨f.repositoryId, List.mem_map_of_mem hmem, ?_⟩
    rw [hown]
    exact List.mem_map_of_mem hr

theorem filePath?_of_file? {repository path : String} {f : FileRow}
    (hf : file? s repository path = some f) : s.filePath? (some f.id) = some path := by
  obtain ⟨r, -, -, hmem, -, rfl⟩ := (file?_spec h).mp hf
  exact (filePath?_eq_some h).mpr ⟨f.repositoryId, List.mem_map_of_mem hmem⟩

theorem symbolKey?_of_symbol? {repository : String} {key : SymbolKey} {x : SymbolRow}
    (hx : symbol? s repository key = some x) : s.symbolKey? (some x.id) = some key := by
  obtain ⟨f, hf, hmem, hfile, hname, hline⟩ := (symbol?_spec h).mp hx
  obtain ⟨r, -, -, hfmem, -, hpath⟩ := (file?_spec h).mp hf
  refine (symbolKey?_eq_some h).mpr ⟨f.id, f.repositoryId, ?_, ?_⟩
  · rw [← hfile, ← hname, ← hline]
    exact List.mem_map_of_mem hmem
  · rw [← hpath]
    exact List.mem_map_of_mem hfmem

theorem project?_iff {name : String} {p : ProjectRow} (hp : s.project? name = some p) {id : Id} :
    projectName? s id = some name ↔ id = p.id := by
  obtain ⟨hmem, rfl⟩ := h.project?_eq_some.mp hp
  rw [projectName?_eq_some h]
  constructor
  · intro hmark
    obtain ⟨p', hp', heq⟩ := List.mem_map.mp hmark
    simp only [projectMark, Prod.mk.injEq] at heq
    rw [← heq.1, eq_of_key h.project_names hp' hmem heq.2]
  · rintro rfl
    exact List.mem_map_of_mem hmem

end Rows

/-! Repositories and projects -/

theorem upsertRepository_puts {r : RepositoryRecord} (hok : upsertRepository s r = .ok s') :
    ∃ rows n, s' = { s with repositories := rows, nextSerial := n } ∧
      Puts s.repositories rows (fun row => row.fullName == r.fullName) (setRepository r)
        (newRepository s.freshId.1 r) := by
  obtain ⟨hsome, rfl⟩ | ⟨hnone, rfl⟩ := upsertRepository_cases hok
  · exact ⟨_, s.nextSerial, rfl, .inl ⟨List.find?_isSome.mp hsome, rfl⟩⟩
  · exact ⟨_, _, rfl,
      .inr ⟨fun row hrow => by simpa using List.find?_eq_none.mp hnone row hrow, rfl⟩⟩

theorem upsertProject_puts {p : ProjectRecord} (hok : upsertProject s p = .ok s') :
    ∃ rows n, s' = { s with projects := rows, nextSerial := n } ∧
      Puts s.projects rows (fun row => row.name == p.name) (setProject p)
        (newProject s.freshId.1 p) := by
  obtain ⟨hsome, rfl⟩ | ⟨hnone, rfl⟩ := upsertProject_cases hok
  · exact ⟨_, s.nextSerial, rfl, .inl ⟨List.find?_isSome.mp hsome, rfl⟩⟩
  · exact ⟨_, _, rfl,
      .inr ⟨fun row hrow => by simpa using List.find?_eq_none.mp hnone row hrow, rfl⟩⟩

/-! Files -/

theorem upsertFile_puts {f : FileRecord} (hok : upsertFile s f = .ok s') :
    Digest.Sha256.hex f.content = f.contentHash ∧
      ∃ r, s.repository? f.repository = some r ∧
        ∃ rows n, s' = { s with files := rows, nextSerial := n } ∧
          Puts s.files rows (fun row => row.repositoryId == r.id && row.path == f.path) (setFile f)
            (newFile s.freshId.1 r.id f) := by
  obtain ⟨hhash, r, hr, ⟨hsome, rfl⟩ | ⟨hnone, rfl⟩⟩ := upsertFile_cases hok
  · exact ⟨hhash, r, hr, _, s.nextSerial, rfl, .inl ⟨List.find?_isSome.mp hsome, rfl⟩⟩
  · refine ⟨hhash, r, hr, _, _, rfl, .inr ⟨fun row hrow => ?_, rfl⟩⟩
    simpa only [Bool.not_eq_true] using List.find?_eq_none.mp hnone row hrow

/-! Symbols -/

theorem upsertSymbol_puts {x : SymbolRecord} (hok : upsertSymbol s x = .ok s') :
    ∃ f, file? s x.repository x.filePath = some f ∧
      ∃ rows n, s' = { s with symbols := rows, nextSerial := n } ∧
        Puts s.symbols rows
          (fun row => row.fileId == f.id && row.name == x.name && row.lineStart == x.lineStart)
          (setSymbol x) (newSymbol s.freshId.1 f x) := by
  obtain ⟨f, hf, ⟨hsome, rfl⟩ | ⟨hnone, rfl⟩⟩ := upsertSymbol_cases hok
  · exact ⟨f, hf, _, s.nextSerial, rfl, .inl ⟨List.find?_isSome.mp hsome, rfl⟩⟩
  · refine ⟨f, hf, _, _, rfl, .inr ⟨fun row hrow => ?_, rfl⟩⟩
    simpa only [Bool.not_eq_true] using List.find?_eq_none.mp hnone row hrow

end CodeIndex.Sync
