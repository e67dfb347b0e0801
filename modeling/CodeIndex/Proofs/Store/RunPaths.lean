import CodeIndex.Proofs.Store.Run

/-!
The ids that a run uses for its paths. A path that was stored before keeps the id of its row. A new
path gets an id each time that it is listed: its row keeps the first one, the map of the run the
last. So a new path that is listed more than once is stray: no row has the id that stands for it.
-/
namespace CodeIndex.Store

/-- The paths of the files of a run. -/
def Run.paths (run : Run) : List String := run.files.map SourceFile.path

theorem mem_withFiles_paths {s : Store} {repositoryId : Id} {run : Run} {path : String} :
    path ∈ (s.withFiles repositoryId run).2.map Prod.fst ↔ path ∈ run.paths := by
  rw [withFiles, mem_putFiles_paths]
  simp [Run.paths]

/-! The last id of a path -/

/-- A path that no later file of the run has keeps its id. -/
theorem fileId?_putFiles {repositoryId : Id} {existing : FileIds} {s : Store} {ids : FileIds}
    {files : List SourceFile} {path : String} (hpath : path ∉ files.map SourceFile.path) :
    fileId? (putFiles repositoryId existing s ids files).2 path = fileId? ids path := by
  induction files generalizing s ids with
  | nil => rfl
  | cons f rest ih =>
    rw [List.map_cons, List.mem_cons, not_or] at hpath
    obtain ⟨hne, hrest⟩ := hpath
    rw [putFiles_cons, ih hrest, fileId?, fileId?,
      List.find?_cons_of_neg (by simpa using Ne.symm hne), List.find?_filter]
    congr 2
    funext e
    by_cases he : e.1 = path
    · simp [he, hne]
    · simp [he]

/-- A path of the run that was stored before keeps its id. -/
theorem fileId?_putFiles_existing {repositoryId id : Id} {existing : FileIds} {s : Store}
    {ids : FileIds} {files : List SourceFile} {path : String}
    (hid : fileId? existing path = some id) (hpath : path ∈ files.map SourceFile.path) :
    fileId? (putFiles repositoryId existing s ids files).2 path = some id := by
  induction files generalizing s ids with
  | nil => exact absurd hpath List.not_mem_nil
  | cons f rest ih =>
    rw [putFiles_cons]
    by_cases hrest : path ∈ rest.map SourceFile.path
    · exact ih hrest
    · obtain rfl : path = f.path := (List.mem_cons.mp hpath).resolve_right hrest
      have hrun : (s.runId existing f.path).1 = id := by simp [runId, hid]
      rw [fileId?_putFiles hrest]
      simp [fileId?, hrun]

/-! Whether it is the id of a row -/

/-- A path has no row where no mark has it. -/
theorem file?_eq_none {s : Store} {repositoryId : Id} {path : String} :
    s.file? repositoryId path = none ↔
      ∀ id, (id, repositoryId, path) ∉ s.files.map fileMark := by
  simp only [Store.file?, List.find?_eq_none, Bool.and_eq_true, beq_iff_eq, List.mem_map, fileMark,
    Prod.mk.injEq, not_exists, not_and]
  constructor
  · intro h id row hrow _ hown hpath
    exact h row hrow hown hpath
  · intro h row hrow hown hpath
    exact h row.id row hrow rfl hown hpath

/-- The row of a path has the id that its mark has. -/
theorem Sound.map_file?_eq_some {s : Store} (h : s.Sound) {repositoryId id : Id} {path : String} :
    (s.file? repositoryId path).map FileRow.id = some id ↔
      (id, repositoryId, path) ∈ s.files.map fileMark := by
  simp only [Option.map_eq_some_iff, h.file?_eq_some, List.mem_map, fileMark, Prod.mk.injEq]
  constructor
  · rintro ⟨row, ⟨hrow, hown, hpath⟩, hid⟩
    exact ⟨row, hrow, hid, hown, hpath⟩
  · rintro ⟨row, hrow, hid, hown, hpath⟩
    exact ⟨row, ⟨hrow, hown, hpath⟩, hid⟩

theorem runId_file? (s : Store) (existing : FileIds) (path : String) (repositoryId : Id)
    (path' : String) :
    (s.runId existing path).2.file? repositoryId path' = s.file? repositoryId path' := by
  rw [file?, runId_files, file?]

/-- After a file is written its path has a row. -/
theorem file?_putFile {s : Store} {repositoryId id : Id} {f : SourceFile} {path : String} :
    (s.putFile repositoryId id f).file? repositoryId path = none ↔
      s.file? repositoryId path = none ∧ f.path ≠ path := by
  simp only [file?_eq_none, putFile_marks]
  split
  · next hsome =>
    refine ⟨fun h => ⟨h, ?_⟩, And.left⟩
    rintro rfl
    rw [Option.isSome_iff_ne_none, ne_eq, file?_eq_none] at hsome
    exact hsome h
  · simp only [List.mem_append, List.mem_singleton, Prod.mk.injEq, not_or, forall_and,
      true_and, and_congr_right_iff]
    intro _
    constructor
    · intro h heq
      exact h id ⟨rfl, heq.symm⟩
    · rintro h _ ⟨-, heq⟩
      exact h heq.symm

/-- The id of a path that is not stored yet is that of its row when the path is listed once. -/
theorem mark_putFiles_iff {repositoryId : Id} {existing : FileIds} {s : Store} {ids : FileIds}
    {files : List SourceFile} {path : String} (h : FilesWritten repositoryId existing s ids)
    (hnew : fileId? existing path = none) (hpath : path ∈ files.map SourceFile.path) :
    (∃ id, fileId? (putFiles repositoryId existing s ids files).2 path = some id ∧
      (id, repositoryId, path) ∈
        (putFiles repositoryId existing s ids files).1.files.map fileMark) ↔
      s.file? repositoryId path = none ∧ (files.map SourceFile.path).count path = 1 := by
  induction files generalizing s ids with
  | nil => exact absurd hpath List.not_mem_nil
  | cons f rest ih =>
    have hwritten := putFiles_written (h.step f) rest
    rw [putFiles_cons, List.map_cons]
    by_cases hrest : path ∈ rest.map SourceFile.path
    · have hcount : 0 < (rest.map SourceFile.path).count path := List.count_pos_iff.mpr hrest
      rw [ih (h.step f) hrest, file?_putFile, runId_file?]
      by_cases hsame : f.path = path
      · rw [hsame, List.count_cons_self]
        refine iff_of_false (fun hfree => hfree.1.2 rfl) fun honce => ?_
        omega
      · rw [List.count_cons_of_ne hsame]
        simp [hsame]
    · obtain rfl : path = f.path := (List.mem_cons.mp hpath).resolve_right hrest
      have hid : fileId? (putFiles repositoryId existing
          ((s.runId existing f.path).2.putFile repositoryId (s.runId existing f.path).1 f)
          ((f.path, (s.runId existing f.path).1) :: ids.filter fun e => e.1 != f.path) rest).2
            f.path = some (s.runId existing f.path).1 := by
        rw [fileId?_putFiles hrest]
        simp [fileId?]
      rw [List.count_cons_self, List.count_eq_zero.mpr hrest, hid]
      simp only [Option.some.injEq, exists_eq_left', Nat.zero_add, and_true]
      have hmarks := putFile_marks (s.runId existing f.path).2 repositoryId
        (s.runId existing f.path).1 f
      rw [runId_file?, runId_files] at hmarks
      constructor
      · intro hmark
        rw [file?_eq_none]
        intro old hold
        -- A row from before would have the new id.
        have hsame : old = (s.runId existing f.path).1 := by
          refine hwritten.sound.mark_id (mem_putFiles_marks_of_mem ?_) hmark
          exact marks_subset_putFile _ _ _ _ (by rwa [runId_files])
        obtain ⟨row, hrow, hrowMark⟩ := List.mem_map.mp hold
        have hfresh : row.id ≠ (s.runId existing f.path).1 := by
          rw [runId, hnew]
          exact ne_freshId (h.sound.file_old row hrow)
        exact hfresh ((congrArg Prod.fst hrowMark).trans hsame)
      · intro hfree
        apply mem_putFiles_marks_of_mem
        rw [hmarks, hfree]
        exact List.mem_append_right _ (List.mem_singleton_self _)

/-- The paths of a run that are not stored yet and that it lists more than once. -/
def strayPaths (s : Store) (repositoryId : Id) (run : Run) : List String :=
  run.paths.filter fun p => (s.file? repositoryId p).isNone && decide (1 < run.paths.count p)

theorem not_mem_strayPaths_iff {s : Store} {repositoryId : Id} {run : Run} {path : String}
    (hpath : path ∈ run.paths) :
    path ∉ s.strayPaths repositoryId run ↔
      (s.file? repositoryId path).isSome = true ∨ run.paths.count path = 1 := by
  have hcount : 0 < run.paths.count path := List.count_pos_iff.mpr hpath
  rw [strayPaths, List.mem_filter]
  cases s.file? repositoryId path with
  | some row => simp
  | none =>
    simp only [hpath, Option.isNone_none, Bool.true_and, decide_eq_true_eq, true_and,
      Option.isSome_none, Bool.false_eq_true, false_or]
    omega

/-- A run with distinct paths has no stray ones. -/
theorem strayPaths_eq_nil {s : Store} {repositoryId : Id} {run : Run} (h : run.paths.Nodup) :
    s.strayPaths repositoryId run = [] := by
  rw [strayPaths, List.filter_eq_nil_iff]
  intro p _
  have hcount := List.nodup_iff_count_le_one.mp h p
  simp only [Bool.and_eq_true, decide_eq_true_eq, not_and]
  omega

/-- A path with an id in the file map whose row is stored. -/
def HoldsFile (s : Store) (files : FileIds) (path : String) : Prop :=
  ∃ id, fileId? files path = some id ∧ (s.fileById? id).isSome = true

/-- A file of the run whose row has its id stands when the derived rows are written. -/
theorem Sound.holdsFile_of_mark {s : Store} (h : s.Sound) {repositoryId id : Id} {run : Run}
    (howner : s.HasRepository repositoryId) (repository : RepositoryRow) {path : String}
    (hid : fileId? (s.withFiles repositoryId run).2 path = some id)
    (hmark : (id, repositoryId, path) ∈ (s.withFiles repositoryId run).1.files.map fileMark) :
    (s.cleared repository repositoryId run).HoldsFile (s.withFiles repositoryId run).2 path := by
  refine ⟨id, hid, ?_⟩
  obtain ⟨row, hrow, hrowMark⟩ := List.mem_map.mp hmark
  simp only [fileMark, Prod.mk.injEq] at hrowMark
  obtain ⟨rfl, -, hrowPath⟩ := hrowMark
  obtain ⟨_, _, _, hcleared⟩ := h.cleared_eq howner run repository
  have hs := h.cleared howner run repository
  refine Option.isSome_iff_exists.mpr ⟨row, hs.fileById?_eq_some.mpr ⟨?_, rfl⟩⟩
  rw [hcleared]
  refine List.mem_filter.mpr ⟨hrow, ?_⟩
  -- A lost file has no id in the map.
  simp only [Bool.not_eq_true', ← Bool.not_eq_true, List.contains_iff_mem]
  intro hlost
  have hnone := (List.mem_filter.mp (h.mark_of_lost howner run hrow hlost).1).2
  rw [hrowPath, hid] at hnone
  simp at hnone

section Cleared

variable {s : Store} (h : s.Sound) {repositoryId : Id} {run : Run}
  (howner : s.HasRepository repositoryId)
include h howner

/-- The id that a run uses for a path is that of its row exactly if the path is not stray. -/
theorem Sound.mark_withFiles_iff {path : String} (hpath : path ∈ run.paths) :
    (∃ id, fileId? (s.withFiles repositoryId run).2 path = some id ∧
      (id, repositoryId, path) ∈ (s.withFiles repositoryId run).1.files.map fileMark) ↔
      path ∉ s.strayPaths repositoryId run := by
  rw [not_mem_strayPaths_iff hpath]
  cases hstored : s.file? repositoryId path with
  | some row =>
    obtain ⟨hrow, hown, rfl⟩ := h.file?_eq_some.mp hstored
    have hmark : (row.id, repositoryId, row.path) ∈ s.files.map fileMark :=
      hown ▸ List.mem_map_of_mem (f := fileMark) hrow
    have hid := h.fileId?_storedIds.mpr hmark
    refine iff_of_true ⟨row.id, fileId?_putFiles_existing hid hpath, ?_⟩ (.inl rfl)
    exact (h.withFiles_written howner run).kept row.path row.id hid
  | none =>
    have hnew : fileId? (s.storedIds repositoryId) path = none := by
      rw [Option.eq_none_iff_forall_not_mem]
      intro id hid
      exact file?_eq_none.mp hstored id (h.fileId?_storedIds.mp hid)
    have hfree : (s.removeDerived repositoryId).file? repositoryId path = none := hstored
    have hstart : FilesWritten repositoryId (s.storedIds repositoryId)
        (s.removeDerived repositoryId) [] :=
      ⟨h.removeDerived repositoryId, howner, by simp, by simp,
        fun path id hid => h.fileId?_storedIds.mp hid⟩
    rw [withFiles, mark_putFiles_iff hstart hnew hpath, Run.paths]
    simp [hfree]

/-- The row of a path stands when the derived rows are written, unless the path is stray. -/
theorem Sound.holdsFile_iff (repository : RepositoryRow) {path : String} (hpath : path ∈ run.paths) :
    (s.cleared repository repositoryId run).HoldsFile (s.withFiles repositoryId run).2 path ↔
      path ∉ s.strayPaths repositoryId run := by
  rw [← h.mark_withFiles_iff howner hpath]
  constructor
  · rintro ⟨id, hid, hstored⟩
    have hmark := (h.cleared_written howner run repository).files_named.mark hid hstored
    obtain ⟨_, _, _, hcleared⟩ := h.cleared_eq howner run repository
    rw [hcleared] at hmark
    obtain ⟨row, hrow, hrowMark⟩ := List.mem_map.mp hmark
    exact ⟨id, hid, hrowMark ▸ List.mem_map_of_mem (List.mem_of_mem_filter hrow)⟩
  · rintro ⟨id, hid, hmark⟩
    exact h.holdsFile_of_mark howner repository hid hmark

/-- The rows of the run's own files stand if all of them were stored before, once or not. -/
theorem Sound.holdsFile_of_stored (repository : RepositoryRow) {id : Id} {path : String}
    (hmark : (id, repositoryId, path) ∈ s.files.map fileMark) (hpath : path ∈ run.paths) :
    (s.cleared repository repositoryId run).HoldsFile (s.withFiles repositoryId run).2 path := by
  rw [h.holdsFile_iff howner repository hpath]
  intro hstray
  have hfree := (List.mem_filter.mp hstray).2
  simp only [Bool.and_eq_true, Option.isNone_iff_eq_none, file?_eq_none] at hfree
  exact hfree.1 id hmark

end Cleared

end CodeIndex.Store
