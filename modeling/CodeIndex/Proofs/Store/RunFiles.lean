import CodeIndex.Proofs.Store.RunSteps

/-!
Writing the files of a run. The map from paths to ids that a run keeps names rows of its repository:
an id of the map that belongs to a stored row belongs to the row of that path.
-/
namespace CodeIndex.Store

/-- What identifies a file row: its id, its repository and its path. -/
def fileMark (f : FileRow) : Id × Id × String := (f.id, f.repositoryId, f.path)

/-- The row of a file of a run over the row that has its path. -/
def overwrite (f : SourceFile) (row : FileRow) : FileRow :=
  { row with
    content := f.content, language := f.language, size := f.size,
    contentHash := f.contentHash, indexedAt := f.indexedAt }

/-- The row of a file of a run under a new path. -/
def fileRow (repositoryId id : Id) (f : SourceFile) : FileRow :=
  { id, repositoryId, path := f.path, content := f.content, language := f.language,
    size := f.size, contentHash := f.contentHash, indexedAt := f.indexedAt }

theorem putFile_eq (s : Store) (repositoryId id : Id) (f : SourceFile) :
    s.putFile repositoryId id f =
      match s.file? repositoryId f.path with
      | some _ =>
        { s with
          files := s.files.map fun row =>
            if row.repositoryId == repositoryId && row.path == f.path then overwrite f row
            else row }
      | none => { s with files := s.files ++ [fileRow repositoryId id f] } := rfl

/-- Overwriting a row keeps what identifies it. -/
theorem map_overwrite_mark (rows : List FileRow) (test : FileRow → Bool) (f : SourceFile) :
    (rows.map fun row => if test row then overwrite f row else row).map fileMark =
      rows.map fileMark := by
  apply map_key_map
  intro row _
  split <;> rfl

/-- The marks of the files grow by the new row, if there is one. -/
theorem putFile_marks (s : Store) (repositoryId id : Id) (f : SourceFile) :
    (s.putFile repositoryId id f).files.map fileMark =
      if (s.file? repositoryId f.path).isSome then s.files.map fileMark
      else s.files.map fileMark ++ [(id, repositoryId, f.path)] := by
  rw [putFile_eq]
  cases s.file? repositoryId f.path with
  | none => simp [fileMark, fileRow]
  | some row => exact map_overwrite_mark _ _ f

theorem mem_putFile_marks {s : Store} {repositoryId id : Id} {f : SourceFile}
    {m : Id × Id × String} (hm : m ∈ (s.putFile repositoryId id f).files.map fileMark) :
    m ∈ s.files.map fileMark ∨ m = (id, repositoryId, f.path) := by
  rw [putFile_marks] at hm
  split at hm
  · exact .inl hm
  · exact (List.mem_append.mp hm).imp_right List.mem_singleton.mp

theorem marks_subset_putFile (s : Store) (repositoryId id : Id) (f : SourceFile) :
    s.files.map fileMark ⊆ (s.putFile repositoryId id f).files.map fileMark := by
  rw [putFile_marks]
  split
  · exact List.Subset.refl _
  · exact List.subset_append_left _ _

/-- The id of a row tells its mark. -/
theorem Sound.eq_of_mark {s : Store} (h : s.Sound) {m m' : Id × Id × String}
    (hm : m ∈ s.files.map fileMark) (hm' : m' ∈ s.files.map fileMark) (hid : m.1 = m'.1) :
    m = m' := by
  obtain ⟨f, hf, rfl⟩ := List.mem_map.mp hm
  obtain ⟨g, hg, rfl⟩ := List.mem_map.mp hm'
  rw [eq_of_key h.file_ids hf hg hid]

/-- Writing a file touches no other table. -/
theorem putFile_frame (s : Store) (repositoryId id : Id) (f : SourceFile) :
    s.putFile repositoryId id f =
      { s with files := (s.putFile repositoryId id f).files } := by
  rw [putFile_eq]
  split <;> rfl

theorem Sound.putFile {s : Store} (h : s.Sound) {repositoryId id : Id} {f : SourceFile}
    (howner : s.HasRepository repositoryId) (hold : s.Old id)
    (hnew : s.file? repositoryId f.path = none → ∀ row ∈ s.files, row.id ≠ id) :
    (s.putFile repositoryId id f).Sound := by
  rw [putFile_eq]
  split
  · apply h.mapFiles
    · intro row _
      split <;> rfl
    · intro row _
      split <;> rfl
  · next hnone =>
    apply h.addFile _ (hnew hnone) hold howner
    intro row hrow heq
    simp only [filePlace, fileRow, Prod.mk.injEq] at heq
    have hsome := h.file?_eq_some.mpr ⟨hrow, heq.1, heq.2⟩
    rw [hnone] at hsome
    simp at hsome

/-- The id that a run uses for a path, and the store after making it. -/
def runId (s : Store) (existing : FileIds) (path : String) : Id × Store :=
  match fileId? existing path with
  | some id => (id, s)
  | none => s.freshId

theorem putFiles_cons (repositoryId : Id) (existing : FileIds) (s : Store) (ids : FileIds)
    (f : SourceFile) (rest : List SourceFile) :
    putFiles repositoryId existing s ids (f :: rest) =
      putFiles repositoryId existing
        ((s.runId existing f.path).2.putFile repositoryId (s.runId existing f.path).1 f)
        ((f.path, (s.runId existing f.path).1) :: ids.filter fun e => e.1 != f.path) rest := by
  rw [putFiles]
  rfl

/-- What holds while a run writes its files. The marks of the rows say where an id stands. -/
structure FilesWritten (repositoryId : Id) (existing : FileIds) (s : Store) (ids : FileIds) :
    Prop where
  sound : s.Sound
  owner : s.HasRepository repositoryId
  old : ∀ path id, (path, id) ∈ ids → s.Old id
  named : ∀ path id, (path, id) ∈ ids → ∀ m ∈ s.files.map fileMark, m.1 = id →
    m.2 = (repositoryId, path)
  kept : ∀ path id, fileId? existing path = some id →
    (id, repositoryId, path) ∈ s.files.map fileMark

/-- Making the id of a path leaves all rows alone. -/
theorem runId_files (s : Store) (existing : FileIds) (path : String) :
    (s.runId existing path).2.files = s.files := by
  unfold runId
  split <;> rfl

theorem Sound.runId {s : Store} (h : s.Sound) (existing : FileIds) (path : String) :
    (s.runId existing path).2.Sound := by
  unfold Store.runId
  split
  · exact h
  · exact h.freshId

theorem Old.runId {s : Store} {id : Id} (h : s.Old id) (existing : FileIds) (path : String) :
    (s.runId existing path).2.Old id := by
  unfold Store.runId
  split
  · exact h
  · exact h.freshId

theorem HasRepository.runId {s : Store} {id : Id} (h : s.HasRepository id) (existing : FileIds)
    (path : String) : (s.runId existing path).2.HasRepository id := by
  unfold Store.runId
  split
  · exact h
  · exact h

namespace FilesWritten

variable {repositoryId : Id} {existing : FileIds} {s : Store} {ids : FileIds}

/-- The id of a path belongs to the row of that path, or to no row yet. -/
theorem runId_cases (h : FilesWritten repositoryId existing s ids) (path : String) :
    ((s.runId existing path).1, repositoryId, path) ∈ s.files.map fileMark ∨
      ((∀ f ∈ s.files, f.id ≠ (s.runId existing path).1) ∧
        ∀ p i, (p, i) ∈ ids → i ≠ (s.runId existing path).1) := by
  unfold Store.runId
  split
  · next id hid => exact .inl (h.kept path id hid)
  · refine .inr ⟨?_, ?_⟩
    · intro f hf
      exact ne_freshId (h.sound.file_old f hf)
    · intro p i hi
      exact ne_freshId (h.old p i hi)

theorem runId_old (h : FilesWritten repositoryId existing s ids) (path : String) :
    (s.runId existing path).2.Old (s.runId existing path).1 := by
  unfold Store.runId
  split
  · next id hid =>
    obtain ⟨f, hf, hmark⟩ := List.mem_map.mp (h.kept path id hid)
    have hid : f.id = id := congrArg Prod.fst hmark
    exact hid ▸ h.sound.file_old f hf
  · exact old_freshId s

/-- The store and the map after one more file. -/
theorem step (h : FilesWritten repositoryId existing s ids) (f : SourceFile) :
    FilesWritten repositoryId existing
      ((s.runId existing f.path).2.putFile repositoryId (s.runId existing f.path).1 f)
      ((f.path, (s.runId existing f.path).1) :: ids.filter fun e => e.1 != f.path) := by
  have hcases := h.runId_cases f.path
  have hold := h.runId_old f.path
  have hs := h.sound.runId existing f.path
  have hfiles := runId_files s existing f.path
  have holds := fun i (hi : s.Old i) => hi.runId existing f.path
  have howner := h.owner.runId existing f.path
  generalize (s.runId existing f.path).1 = id at *
  generalize (s.runId existing f.path).2 = t at *
  rw [← hfiles] at hcases
  have hkept := hfiles ▸ h.kept
  have hnamed := hfiles ▸ h.named
  -- The row of a path that is not stored yet gets an id that no row has.
  have hnew : t.file? repositoryId f.path = none → ∀ row ∈ t.files, row.id ≠ id := by
    intro hnone
    rcases hcases with hmark | ⟨hfresh, -⟩
    · obtain ⟨row, hrow, hmark⟩ := List.mem_map.mp hmark
      simp only [fileMark, Prod.mk.injEq] at hmark
      have hsome := hs.file?_eq_some.mpr ⟨hrow, hmark.2⟩
      rw [hnone] at hsome
      simp at hsome
    · exact hfresh
  exact
    { sound := hs.putFile howner hold hnew
      owner := by
        rw [putFile_frame]
        exact howner
      old := by
        intro path i hi
        rw [putFile_frame]
        rcases List.mem_cons.mp hi with heq | hi
        · exact (Prod.mk.inj heq).2 ▸ hold
        · exact holds i (h.old path i (List.mem_of_mem_filter hi))
      named := by
        -- either of the pair and the row may be the one that is written
        intro path i hi m hm hid
        rcases List.mem_cons.mp hi with heq | hi
        · obtain ⟨rfl, rfl⟩ := Prod.mk.inj heq
          rcases mem_putFile_marks hm with hm | rfl
          · rcases hcases with hmark | ⟨hfresh, -⟩
            · rw [hs.eq_of_mark hm hmark hid]
            · obtain ⟨row, hrow, rfl⟩ := List.mem_map.mp hm
              exact absurd hid (hfresh row hrow)
          · rfl
        · have hi := List.mem_of_mem_filter hi
          rcases mem_putFile_marks hm with hm | rfl
          · exact hnamed path i hi m hm hid
          · rcases hcases with hmark | ⟨-, hfresh⟩
            · exact hnamed path i hi _ hmark hid
            · exact absurd hid.symm (hfresh path i hi)
      kept := fun path i hi => marks_subset_putFile t repositoryId id f (hkept path i hi) }

end FilesWritten

/-- The whole list of files is written by steps. -/
theorem putFiles_written {repositoryId : Id} {existing : FileIds} {s : Store} {ids : FileIds}
    (h : FilesWritten repositoryId existing s ids) (files : List SourceFile) :
    FilesWritten repositoryId existing (putFiles repositoryId existing s ids files).1
      (putFiles repositoryId existing s ids files).2 := by
  induction files generalizing s ids with
  | nil => exact h
  | cons f rest ih =>
    rw [putFiles_cons]
    exact ih (h.step f)

/-- Writing files touches no other table. -/
theorem putFiles_frame (repositoryId : Id) (existing : FileIds) (s : Store) (ids : FileIds)
    (files : List SourceFile) :
    (putFiles repositoryId existing s ids files).1 =
      { s with
        files := (putFiles repositoryId existing s ids files).1.files
        nextSerial := (putFiles repositoryId existing s ids files).1.nextSerial } := by
  induction files generalizing s ids with
  | nil => rfl
  | cons f rest ih =>
    rw [putFiles_cons, ih, putFile_frame]
    unfold runId
    split <;> rfl

/-! The rows after the files -/

/-- A file row as the file that it was written from. -/
def sourceOf (row : FileRow) : SourceFile :=
  ⟨row.path, row.content, row.language, row.size, row.contentHash, row.indexedAt⟩

/-- Rows of other places stay as they are. -/
theorem mem_putFile_of_ne {s : Store} {repositoryId id : Id} {f : SourceFile} {row : FileRow}
    (hrow : row ∈ s.files) (hne : filePlace row ≠ (repositoryId, f.path)) :
    row ∈ (s.putFile repositoryId id f).files := by
  rw [putFile_eq]
  split
  · refine List.mem_map.mpr ⟨row, hrow, if_neg ?_⟩
    simpa [filePlace] using hne
  · exact List.mem_append_left _ hrow

/-- The place of a file holds the file after it was written. -/
theorem exists_mem_putFile (s : Store) (repositoryId id : Id) (f : SourceFile) :
    ∃ row ∈ (s.putFile repositoryId id f).files, row.repositoryId = repositoryId ∧
      sourceOf row = f := by
  rw [putFile_eq]
  split
  · next old hold =>
    have hplace := List.find?_some hold
    simp only [Bool.and_eq_true, beq_iff_eq] at hplace
    refine ⟨overwrite f old, List.mem_map.mpr ⟨old, List.mem_of_find?_eq_some hold, ?_⟩,
      hplace.1, ?_⟩
    · simp [hplace]
    · simp [sourceOf, overwrite, hplace]
  · exact ⟨_, List.mem_append_right _ (List.mem_singleton_self _), rfl, rfl⟩

theorem mem_putFiles_of_ne {repositoryId : Id} {existing : FileIds} {s : Store} {ids : FileIds}
    {files : List SourceFile} {row : FileRow} (hrow : row ∈ s.files)
    (hne : ∀ f ∈ files, filePlace row ≠ (repositoryId, f.path)) :
    row ∈ (putFiles repositoryId existing s ids files).1.files := by
  induction files generalizing s ids with
  | nil => exact hrow
  | cons f rest ih =>
    rw [putFiles_cons]
    apply ih
    · apply mem_putFile_of_ne
      · rw [runId_files]
        exact hrow
      · exact hne f List.mem_cons_self
    · exact fun g hg => hne g (List.mem_cons_of_mem _ hg)

/-- The files of a list whose path no later file has. -/
def lastFiles : List SourceFile → List SourceFile
  | [] => []
  | f :: rest => if f.path ∈ rest.map SourceFile.path then lastFiles rest else f :: lastFiles rest

theorem lastFiles_cons_of_mem {f : SourceFile} {rest : List SourceFile}
    (h : f.path ∈ rest.map SourceFile.path) : lastFiles (f :: rest) = lastFiles rest := if_pos h

theorem lastFiles_cons_of_not_mem {f : SourceFile} {rest : List SourceFile}
    (h : f.path ∉ rest.map SourceFile.path) : lastFiles (f :: rest) = f :: lastFiles rest :=
  if_neg h

/-- The last files have all paths of the list. -/
theorem mem_map_lastFiles {files : List SourceFile} {path : String} :
    path ∈ (lastFiles files).map SourceFile.path ↔ path ∈ files.map SourceFile.path := by
  induction files with
  | nil => rfl
  | cons f rest ih =>
    by_cases hlater : f.path ∈ rest.map SourceFile.path
    · rw [lastFiles_cons_of_mem hlater, ih, List.map_cons, List.mem_cons]
      constructor
      · exact .inr
      · rintro (rfl | hpath)
        · exact hlater
        · exact hpath
    · rw [lastFiles_cons_of_not_mem hlater, List.map_cons, List.map_cons, List.mem_cons,
        List.mem_cons, ih]

/-- No two of the last files have the same path. -/
theorem nodup_lastFiles (files : List SourceFile) :
    ((lastFiles files).map SourceFile.path).Nodup := by
  induction files with
  | nil => exact .nil
  | cons f rest ih =>
    by_cases hlater : f.path ∈ rest.map SourceFile.path
    · rw [lastFiles_cons_of_mem hlater]
      exact ih
    · rw [lastFiles_cons_of_not_mem hlater, List.map_cons, List.nodup_cons]
      exact ⟨mt mem_map_lastFiles.mp hlater, ih⟩

/-- Files with distinct paths are all last ones. -/
theorem lastFiles_eq_self {files : List SourceFile} (h : (files.map SourceFile.path).Nodup) :
    lastFiles files = files := by
  induction files with
  | nil => rfl
  | cons f rest ih =>
    rw [List.map_cons, List.nodup_cons] at h
    rw [lastFiles_cons_of_not_mem h.1, ih h.2]

/-- The last file of every path stands in the table. -/
theorem exists_mem_putFiles_of_last {repositoryId : Id} {existing : FileIds} {s : Store}
    {ids : FileIds} {files : List SourceFile} {f : SourceFile} (hf : f ∈ lastFiles files) :
    ∃ row ∈ (putFiles repositoryId existing s ids files).1.files,
      row.repositoryId = repositoryId ∧ sourceOf row = f := by
  induction files generalizing s ids with
  | nil => exact absurd hf List.not_mem_nil
  | cons g rest ih =>
    rw [putFiles_cons]
    by_cases hlater : g.path ∈ rest.map SourceFile.path
    · rw [lastFiles_cons_of_mem hlater] at hf
      exact ih hf
    · rw [lastFiles_cons_of_not_mem hlater] at hf
      rcases List.mem_cons.mp hf with rfl | hf
      · obtain ⟨row, hrow, hown, hsource⟩ := exists_mem_putFile (s.runId existing f.path).2
          repositoryId (s.runId existing f.path).1 f
        refine ⟨row, mem_putFiles_of_ne hrow ?_, hown, hsource⟩
        -- No later file is written over the row.
        intro g hg heq
        apply hlater
        have hpath : row.path = f.path := congrArg SourceFile.path hsource
        rw [← hpath, show row.path = g.path from congrArg Prod.snd heq]
        exact List.mem_map_of_mem hg
      · exact ih hf

/-- The map of a run has one entry for each of its paths besides those from before. -/
theorem length_putFiles_last (repositoryId : Id) (existing : FileIds) (s : Store) (ids : FileIds)
    (files : List SourceFile) :
    (putFiles repositoryId existing s ids files).2.length =
      (ids.filter fun e => !decide (e.1 ∈ files.map SourceFile.path)).length +
        (lastFiles files).length := by
  induction files generalizing s ids with
  | nil => simp [putFiles, lastFiles]
  | cons f rest ih =>
    have hboth : (ids.filter fun e => e.1 != f.path).filter
        (fun e => !decide (e.1 ∈ rest.map SourceFile.path)) =
        ids.filter fun e => !decide (e.1 ∈ (f :: rest).map SourceFile.path) := by
      rw [List.filter_filter]
      apply List.filter_congr
      intro e _
      simp [Bool.and_comm, bne, beq_eq_decide]
    rw [putFiles_cons, ih]
    by_cases hlater : f.path ∈ rest.map SourceFile.path
    · rw [List.filter_cons_of_neg (by simpa using hlater), hboth, lastFiles_cons_of_mem hlater]
    · rw [List.filter_cons_of_pos (by simpa using hlater), hboth, lastFiles_cons_of_not_mem hlater,
        List.length_cons, List.length_cons]
      omega

/-- The marks after the files are those from before and those of the run. -/
theorem mem_putFiles_marks {repositoryId : Id} {existing : FileIds} {s : Store} {ids : FileIds}
    {files : List SourceFile} {m : Id × Id × String}
    (hm : m ∈ (putFiles repositoryId existing s ids files).1.files.map fileMark) :
    m ∈ s.files.map fileMark ∨ ∃ f ∈ files, m.2 = (repositoryId, f.path) := by
  induction files generalizing s ids with
  | nil => exact .inl hm
  | cons f rest ih =>
    rw [putFiles_cons] at hm
    rcases ih hm with hm | ⟨g, hg, hplace⟩
    · rw [putFile_marks, runId_files] at hm
      split at hm
      · exact .inl hm
      · rcases List.mem_append.mp hm with hm | hm
        · exact .inl hm
        · exact .inr ⟨f, List.mem_cons_self, by rw [List.mem_singleton.mp hm]⟩
    · exact .inr ⟨g, List.mem_cons_of_mem _ hg, hplace⟩

theorem mem_putFiles_marks_of_mem {repositoryId : Id} {existing : FileIds} {s : Store}
    {ids : FileIds} {files : List SourceFile} {m : Id × Id × String}
    (hm : m ∈ s.files.map fileMark) :
    m ∈ (putFiles repositoryId existing s ids files).1.files.map fileMark := by
  induction files generalizing s ids with
  | nil => exact hm
  | cons f rest ih =>
    rw [putFiles_cons]
    apply ih
    rw [putFile_marks, runId_files]
    split
    · exact hm
    · exact List.mem_append_left _ hm

/-- The map of a run has the paths of its files. -/
theorem mem_putFiles_paths {repositoryId : Id} {existing : FileIds} {s : Store} {ids : FileIds}
    {files : List SourceFile} {path : String} :
    path ∈ (putFiles repositoryId existing s ids files).2.map Prod.fst ↔
      path ∈ ids.map Prod.fst ∨ path ∈ files.map SourceFile.path := by
  induction files generalizing s ids with
  | nil => simp [putFiles]
  | cons f rest ih =>
    rw [putFiles_cons, ih]
    by_cases hpath : path = f.path
    · simp [hpath]
    · have hkept : path ∈ (ids.filter fun e => e.1 != f.path).map Prod.fst ↔
          path ∈ ids.map Prod.fst := by
        simp only [List.mem_map, List.mem_filter, bne_iff_ne, ne_eq]
        constructor
        · rintro ⟨e, ⟨he, -⟩, rfl⟩
          exact ⟨e, he, rfl⟩
        · rintro ⟨e, he, rfl⟩
          exact ⟨e, ⟨he, hpath⟩, rfl⟩
      simp only [List.map_cons, List.mem_cons, hpath, false_or, hkept]

/-! What the marks of a sound store tell -/

theorem Sound.mark_id {s : Store} (h : s.Sound) {i j owner : Id} {path : String}
    (hi : (i, owner, path) ∈ s.files.map fileMark) (hj : (j, owner, path) ∈ s.files.map fileMark) :
    i = j := by
  obtain ⟨f, hf, hfm⟩ := List.mem_map.mp hi
  obtain ⟨g, hg, hgm⟩ := List.mem_map.mp hj
  have hfg : f = g := eq_of_key h.file_places hf hg
    ((congrArg Prod.snd hfm).trans (congrArg Prod.snd hgm).symm)
  have hmarks : (i, owner, path) = (j, owner, path) := by rw [← hfm, ← hgm, hfg]
  exact congrArg Prod.fst hmarks

theorem Sound.mark_place {s : Store} (h : s.Sound) {i : Id} {a b : Id × String}
    (ha : (i, a) ∈ s.files.map fileMark) (hb : (i, b) ∈ s.files.map fileMark) : a = b :=
  congrArg Prod.snd (h.eq_of_mark ha hb rfl)

theorem Sound.fileById?_of_mark {s : Store} (h : s.Sound) {i owner : Id} {path : String}
    (hi : (i, owner, path) ∈ s.files.map fileMark) :
    ∃ f, s.fileById? i = some f ∧ f.repositoryId = owner ∧ f.path = path := by
  obtain ⟨f, hf, hmark⟩ := List.mem_map.mp hi
  simp only [fileMark, Prod.mk.injEq] at hmark
  exact ⟨f, h.fileById?_eq_some.mpr ⟨hf, hmark.1⟩, hmark.2⟩

theorem hasFile_of_mark {s : Store} {id owner : Id} {path : String}
    (h : (id, owner, path) ∈ s.files.map fileMark) : s.HasFile id owner := by
  obtain ⟨f, hf, hmark⟩ := List.mem_map.mp h
  simp only [fileMark, Prod.mk.injEq] at hmark
  exact ⟨f, hf, hmark.1, hmark.2.1⟩

/-- The ids of a file map stand, where they are stored, under their paths. -/
def NamesFiles (s : Store) (repositoryId : Id) (files : FileIds) : Prop :=
  ∀ path id, (path, id) ∈ files → ∀ m ∈ s.files.map fileMark, m.1 = id → m.2 = (repositoryId, path)

/-- A stored id of a file map marks the row of its path. -/
theorem NamesFiles.mark {s : Store} {repositoryId id : Id} {files : FileIds} {path : String}
    (h : s.NamesFiles repositoryId files) (hpath : fileId? files path = some id)
    (hstored : (s.fileById? id).isSome = true) :
    (id, repositoryId, path) ∈ s.files.map fileMark := by
  obtain ⟨f, hf⟩ := Option.isSome_iff_exists.mp hstored
  have hid : f.id = id := by simpa using List.find?_some hf
  have hmem := List.mem_map_of_mem (f := fileMark) (List.mem_of_find?_eq_some hf)
  have hrest := h path id (mem_of_fileId? hpath) _ hmem hid
  rwa [show fileMark f = (id, repositoryId, path) from Prod.ext hid hrest] at hmem

end CodeIndex.Store
