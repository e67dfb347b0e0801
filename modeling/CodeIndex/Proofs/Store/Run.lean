import CodeIndex.Proofs.Store.Ownership
import CodeIndex.Proofs.Store.RunRows

/-!
The run as a whole. What a repository had before a run goes first, and nothing of any other
repository goes with it; then the loops write the rows of the run.
-/
namespace CodeIndex.Store

/-- The ids of the paths that are stored for a repository. -/
def storedIds (s : Store) (repositoryId : Id) : FileIds :=
  (s.files.filter fun f => f.repositoryId == repositoryId).map fun f => (f.path, f.id)

/-- The store and the map of ids after a run has written its files. -/
def withFiles (s : Store) (repositoryId : Id) (run : Run) : Store × FileIds :=
  putFiles repositoryId (s.storedIds repositoryId) (s.removeDerived repositoryId) [] run.files

/-- The stored paths that a run no longer has. -/
def lostFiles (s : Store) (repositoryId : Id) (run : Run) : FileIds :=
  (s.storedIds repositoryId).filter fun e => (fileId? (s.withFiles repositoryId run).2 e.1).isNone

/-- The store that a run writes its derived rows to. -/
def cleared (s : Store) (repository : RepositoryRow) (repositoryId : Id) (run : Run) : Store :=
  ((s.withFiles repositoryId run).1.removeFiles fun f =>
      ((s.lostFiles repositoryId run).map Prod.snd).contains f.id).enqueueAll
    ((s.lostFiles repositoryId run).map fun e => .file repository.fullName e.1)

/-- The store after a run: what is gone is queued and the time is noted. -/
def finished (s : Store) (previous : List Sync.Deletion) (repository : RepositoryRow)
    (repositoryId : Id) (now : Int) : Store :=
  let queued := s.enqueueAll (previous.filter fun k => !(s.derivedKeys repository).contains k)
  { queued with
    repositories := queued.repositories.map fun r =>
      if r.id == repositoryId then { r with lastIndexedAt := some now } else r }

/-- The stages of a run that was stored. -/
structure Stages (s : Store) (repositoryId : Id) (now : Int) (run : Run) (s' : Store) where
  repository : RepositoryRow
  found : s.repositoryById? repositoryId = some repository
  withSymbols : Store
  symbols : SymbolIds
  symbols_put : putSymbols repositoryId (s.withFiles repositoryId run).2
    (s.cleared repository repositoryId run) [] run.symbols = .ok (withSymbols, symbols)
  withReferences : Store
  references : Nat
  references_put : putReferences repositoryId (s.withFiles repositoryId run).2 symbols withSymbols 0
    run.references = .ok (withReferences, references)
  withEdges : Store
  edges : Nat
  edges_put : putEdges repositoryId (s.withFiles repositoryId run).2 symbols withReferences 0
    run.edges = .ok (withEdges, edges)
  result : s' = withEdges.finished (s.derivedKeys repository) repository repositoryId now

/-- A run that was stored went through all stages. -/
theorem storeRun_stages {s s' : Store} {repositoryId : Id} {now : Int} {run : Run}
    {counts : RunCounts} (h : s.storeRun repositoryId now run = .ok (counts, s')) :
    Nonempty (Stages s repositoryId now run s') := by
  rw [storeRun] at h
  split at h
  · simp at h
  · next repository hfound =>
    dsimp only at h
    obtain ⟨⟨s3, symbols⟩, hsymbols, h⟩ := bind_eq_ok.mp h
    obtain ⟨⟨s4, n⟩, hreferences, h⟩ := bind_eq_ok.mp h
    obtain ⟨⟨s5, m⟩, hedges, h⟩ := bind_eq_ok.mp h
    have hresult := (congrArg Prod.snd (Except.ok.inj h)).symm
    exact ⟨⟨repository, hfound, s3, symbols, hsymbols, s4, n, hreferences, s5, m, hedges,
      hresult⟩⟩

/-! The store that the derived rows are written to -/

theorem enqueueAll_frame (s : Store) (keys : List Sync.Deletion) :
    s.enqueueAll keys =
      { s with
        pending := (s.enqueueAll keys).pending
        nextPending := (s.enqueueAll keys).nextPending } := by
  induction keys generalizing s with
  | nil => rfl
  | cons key rest ih => exact ih (s.enqueue key)

theorem enqueueAll_keys (s : Store) (keys : List Sync.Deletion) :
    (s.enqueueAll keys).pending.map Pending.key = s.pending.map Pending.key ++ keys := by
  induction keys generalizing s with
  | nil => simp [enqueueAll]
  | cons key rest ih =>
    have hrest := ih (s.enqueue key)
    simpa [enqueue, enqueueAll] using hrest

theorem mem_storedIds {s : Store} {repositoryId id : Id} {path : String} :
    (path, id) ∈ s.storedIds repositoryId ↔ (id, repositoryId, path) ∈ s.files.map fileMark := by
  simp only [storedIds, List.mem_map, List.mem_filter, beq_iff_eq, fileMark, Prod.mk.injEq]
  constructor
  · rintro ⟨f, ⟨hf, hown⟩, hpath, hid⟩
    exact ⟨f, hf, hid, hown, hpath⟩
  · rintro ⟨f, hf, hid, hown, hpath⟩
    exact ⟨f, ⟨hf, hown⟩, hpath, hid⟩

/-- The paths of one repository are stored once. -/
theorem Sound.fileId?_storedIds {s : Store} (h : s.Sound) {repositoryId id : Id} {path : String} :
    fileId? (s.storedIds repositoryId) path = some id ↔
      (id, repositoryId, path) ∈ s.files.map fileMark := by
  constructor
  · intro hid
    exact mem_storedIds.mp (mem_of_fileId? hid)
  · intro hmark
    have hmem := mem_storedIds.mpr hmark
    cases hid : fileId? (s.storedIds repositoryId) path with
    | none =>
      have hnone := List.find?_eq_none.mp (Option.map_eq_none_iff.mp hid) _ hmem
      simp at hnone
    | some j => rw [h.mark_id (mem_storedIds.mp (mem_of_fileId? hid)) hmark]

/-- The lost files are queued. -/
theorem cleared_keys (s : Store) (repository : RepositoryRow) (repositoryId : Id) (run : Run) :
    (s.cleared repository repositoryId run).pending.map Pending.key =
      s.pending.map Pending.key ++
        (s.lostFiles repositoryId run).map fun e => .file repository.fullName e.1 := by
  have hpending : (s.withFiles repositoryId run).1.pending = s.pending := by
    rw [withFiles, putFiles_frame]
    rfl
  rw [cleared, enqueueAll_keys]
  congr 2

section Cleared

variable {s : Store} {repositoryId : Id} (h : s.Sound) (howner : s.HasRepository repositoryId)
  (run : Run)
include h howner

theorem Sound.withFiles_written :
    FilesWritten repositoryId (s.storedIds repositoryId) (s.withFiles repositoryId run).1
      (s.withFiles repositoryId run).2 := by
  apply putFiles_written
  refine ⟨h.removeDerived repositoryId, howner, by simp, by simp, ?_⟩
  intro path id hid
  exact h.fileId?_storedIds.mp hid

/-- A file that a run no longer has is one of its repository. -/
theorem Sound.mark_of_lost {f : FileRow} (hf : f ∈ (s.withFiles repositoryId run).1.files)
    (hlost : f.id ∈ (s.lostFiles repositoryId run).map Prod.snd) :
    (f.path, f.id) ∈ s.lostFiles repositoryId run ∧ f.repositoryId = repositoryId := by
  have hw := h.withFiles_written howner run
  obtain ⟨⟨path, id⟩, he, hid⟩ := List.mem_map.mp hlost
  obtain rfl : id = f.id := hid
  have hmark := mem_storedIds.mp (List.mem_of_mem_filter he)
  have hkept := hw.kept path f.id (h.fileId?_storedIds.mpr hmark)
  have hplace := hw.sound.mark_place hkept (List.mem_map_of_mem (f := fileMark) hf)
  obtain ⟨hown, hpath⟩ := Prod.mk.inj hplace
  rw [← hpath]
  exact ⟨he, hown.symm⟩

/-- The run starts from the files it keeps and writes, with nothing derived of its repository and
all that is derived of the others. -/
theorem Sound.cleared_eq (repository : RepositoryRow) :
    ∃ next pending nextPending, s.cleared repository repositoryId run =
      { s with
        nextSerial := next
        files := (s.withFiles repositoryId run).1.files.filter fun f =>
          !((s.lostFiles repositoryId run).map Prod.snd).contains f.id
        symbols := s.symbols.filter fun x => x.repositoryId != repositoryId
        references := s.references.filter fun r => r.repositoryId != repositoryId
        edges := s.edges.filter fun e => e.repositoryId != repositoryId
        pending, nextPending } := by
  have hw := h.withFiles_written howner run
  have hframe : (s.withFiles repositoryId run).1 =
      { s.removeDerived repositoryId with
        files := (s.withFiles repositoryId run).1.files
        nextSerial := (s.withFiles repositoryId run).1.nextSerial } := putFiles_frame ..
  have hremove : ((s.withFiles repositoryId run).1.removeFiles fun f =>
      ((s.lostFiles repositoryId run).map Prod.snd).contains f.id) =
      { (s.withFiles repositoryId run).1 with
        files := (s.withFiles repositoryId run).1.files.filter fun f =>
          !((s.lostFiles repositoryId run).map Prod.snd).contains f.id } := by
    refine hw.sound.removeFiles_eq_of_owner (fun f hf hlost =>
      (h.mark_of_lost howner run hf (by simpa using hlost)).2) ?_ ?_ ?_
    · intro x hx
      rw [hframe, h.removeDerived_eq] at hx
      simpa using (List.mem_filter.mp hx).2
    · intro r hr
      rw [hframe, h.removeDerived_eq] at hr
      simpa using (List.mem_filter.mp hr).2
    · intro e he
      rw [hframe, h.removeDerived_eq] at he
      simpa using (List.mem_filter.mp he).2
  rw [cleared, enqueueAll_frame, hremove, hframe, h.removeDerived_eq]
  exact ⟨_, _, _, rfl⟩

theorem Sound.cleared (repository : RepositoryRow) :
    (s.cleared repository repositoryId run).Sound :=
  ((h.withFiles_written howner run).sound.removeFiles _).enqueueAll _

/-- The derived rows of a run are written to a store that has none of its repository. -/
theorem Sound.cleared_written (repository : RepositoryRow) :
    SymbolsWritten repositoryId (s.withFiles repositoryId run).2
      (s.cleared repository repositoryId run) [] := by
  have hw := h.withFiles_written howner run
  have hs := h.cleared howner run repository
  obtain ⟨next, pending, nextPending, heq⟩ := h.cleared_eq howner run repository
  refine ⟨hs, ?_, by simp, ?_⟩
  · intro path id hid m hm hmid
    rw [heq] at hm
    obtain ⟨f, hf, rfl⟩ := List.mem_map.mp hm
    exact hw.named path id hid _ (List.mem_map_of_mem (List.mem_of_mem_filter hf)) hmid
  · intro x hx hown
    rw [heq] at hx
    exact absurd hown (by simpa using (List.mem_filter.mp hx).2)

end Cleared

/-! What is left behind -/

/-- The repositories after a run of one of them. -/
def noteTime (repositoryId : Id) (now : Int) (r : RepositoryRow) : RepositoryRow :=
  if r.id == repositoryId then { r with lastIndexedAt := some now } else r

/-- What a stored run leaves behind: the rows of other repositories as they were, and the rows that
stand for the values of the run. -/
structure Outcome (s : Store) (repositoryId : Id) (now : Int) (run : Run) (s' : Store) where
  repository : RepositoryRow
  found : s.repositoryById? repositoryId = some repository
  ids : SymbolIds
  symbolRows : List SymbolRow
  referenceRows : List ReferenceRow
  edgeRows : List EdgeRow
  written : SymbolsWritten repositoryId (s.withFiles repositoryId run).2 s' ids
  keys : ids.map Prod.fst = (firstsBy Symbol.key [] run.symbols).map Symbol.key
  repositories_eq : s'.repositories = s.repositories.map (noteTime repositoryId now)
  files_eq : s'.files = (s.withFiles repositoryId run).1.files.filter fun f =>
    !((s.lostFiles repositoryId run).map Prod.snd).contains f.id
  symbols_eq : s'.symbols = (s.symbols.filter fun x => x.repositoryId != repositoryId) ++ symbolRows
  references_eq : s'.references =
    (s.references.filter fun r => r.repositoryId != repositoryId) ++ referenceRows
  edges_eq : s'.edges = (s.edges.filter fun e => e.repositoryId != repositoryId) ++ edgeRows
  projects_eq : s'.projects = s.projects
  memberships_eq : s'.memberships = s.memberships
  pending_eq : s'.pending.map Pending.key = s.pending.map Pending.key ++
    (s.lostFiles repositoryId run).map (fun e => .file repository.fullName e.1) ++
    (s.derivedKeys repository).filter fun k => !(s'.derivedKeys repository).contains k
  symbols_stand : List.Forall₂ (s'.StandsForSymbol repositoryId) symbolRows
    (firstsBy Symbol.key [] run.symbols)
  references_stand : List.Forall₂ (s'.StandsForReference repositoryId ids) referenceRows
    (firstsBy useKey [] run.references)
  edges_stand : List.Forall₂
    (s'.StandsForEdge repositoryId (s.withFiles repositoryId run).2 ids) edgeRows
    (firstsBy Edge.key [] run.edges)

/-! Facts that depend on some of the tables only -/

section Same

variable {s s' : Store} {repositoryId : Id} {files : FileIds} {ids : SymbolIds}

theorem SymbolsWritten.same (h : SymbolsWritten repositoryId files s ids) (hs : s'.Sound)
    (hfiles : s'.files = s.files) (hsymbols : s'.symbols = s.symbols) :
    SymbolsWritten repositoryId files s' ids := by
  refine ⟨hs, ?_, ?_, ?_⟩
  · rw [NamesFiles, hfiles]
    exact h.files_named
  · intro key id hid
    rw [SymbolNamed, hfiles, hsymbols]
    exact h.named key id hid
  · rw [hfiles, hsymbols]
    exact h.listed

theorem standsForSymbol_same (hfiles : s'.files = s.files) :
    s'.StandsForSymbol repositoryId = s.StandsForSymbol repositoryId := by
  unfold StandsForSymbol
  rw [hfiles]

theorem standsForReference_same (hfiles : s'.files = s.files) :
    s'.StandsForReference repositoryId ids = s.StandsForReference repositoryId ids := by
  unfold StandsForReference
  rw [hfiles]

theorem standsForEdge_same (hfiles : s'.files = s.files) :
    s'.StandsForEdge repositoryId files ids = s.StandsForEdge repositoryId files ids := by
  unfold StandsForEdge fileById?
  rw [hfiles]

theorem derivedKeys_same (hfiles : s'.files = s.files) (hsymbols : s'.symbols = s.symbols)
    (hreferences : s'.references = s.references) (hedges : s'.edges = s.edges)
    (r : RepositoryRow) : s'.derivedKeys r = s.derivedKeys r := by
  unfold derivedKeys fileById?
  rw [hfiles, hsymbols, hreferences, hedges]

end Same

theorem finished_frame (s : Store) (previous : List Sync.Deletion) (repository : RepositoryRow)
    (repositoryId : Id) (now : Int) :
    s.finished previous repository repositoryId now =
      { s with
        repositories := s.repositories.map (noteTime repositoryId now)
        pending := (s.finished previous repository repositoryId now).pending
        nextPending := (s.finished previous repository repositoryId now).nextPending } := by
  unfold finished
  rw [enqueueAll_frame]
  rfl

theorem Sound.finished {s : Store} (h : s.Sound) (previous : List Sync.Deletion)
    (repository : RepositoryRow) (repositoryId : Id) (now : Int) :
    (s.finished previous repository repositoryId now).Sound := by
  apply (h.enqueueAll _).mapRepositories
  · intro r _
    split <;> rfl
  · intro r _
    split <;> rfl

theorem finished_keys (s : Store) (previous : List Sync.Deletion) (repository : RepositoryRow)
    (repositoryId : Id) (now : Int) :
    (s.finished previous repository repositoryId now).pending.map Pending.key =
      s.pending.map Pending.key ++
        previous.filter fun k => !(s.derivedKeys repository).contains k :=
  enqueueAll_keys ..

section Starts

variable {s t : Store} {repositoryId : Id} {repository : RepositoryRow} {run : Run}

/-- No reference of another repository stands in a file of this one. -/
theorem Sound.references_start (h : s.Sound) (howner : s.HasRepository repositoryId)
    {ids : SymbolIds} (hw : SymbolsWritten repositoryId (s.withFiles repositoryId run).2 t ids)
    (hreferences : t.references = (s.cleared repository repositoryId run).references) :
    ReferencesWritten repositoryId (s.withFiles repositoryId run).2 ids t [] := by
  obtain ⟨_, _, _, hcleared⟩ := h.cleared_eq howner run repository
  refine ⟨hw, ?_⟩
  intro path place
  refine iff_of_false List.not_mem_nil ?_
  rintro ⟨row, hrow, hmark, -⟩
  have hfile := hw.sound.reference_file row hrow
  rw [hreferences, hcleared] at hrow
  have hown : row.repositoryId ≠ repositoryId := by simpa using (List.mem_filter.mp hrow).2
  exact hw.sound.not_hasFile_of_ne hfile hown (hasFile_of_mark hmark)

theorem Sound.edges_start (h : s.Sound) (howner : s.HasRepository repositoryId)
    (hedges : t.edges = (s.cleared repository repositoryId run).edges) (k : String) :
    k ∈ ([] : List String) ↔ ∃ x ∈ t.edges, edgePlace x = (repositoryId, k) := by
  obtain ⟨_, _, _, hcleared⟩ := h.cleared_eq howner run repository
  refine iff_of_false List.not_mem_nil ?_
  rintro ⟨x, hx, hplace⟩
  rw [hedges, hcleared] at hx
  have hown : x.repositoryId ≠ repositoryId := by simpa using (List.mem_filter.mp hx).2
  exact hown (congrArg Prod.fst hplace)

end Starts

/-- A run that was stored leaves behind what it should. -/
theorem Sound.storeRun_outcome {s s' : Store} {repositoryId : Id} {now : Int} {run : Run}
    {counts : RunCounts} (h : s.Sound)
    (hok : s.storeRun repositoryId now run = .ok (counts, s')) :
    Nonempty (Outcome s repositoryId now run s') := by
  obtain ⟨⟨repository, hfound, t3, ids, hput3, t4, n4, hput4, t5, n5, hput5, rfl⟩⟩ :=
    storeRun_stages hok
  have howner : s.HasRepository repositoryId :=
    ⟨repository, List.mem_of_find?_eq_some hfound, by simpa using List.find?_some hfound⟩
  obtain ⟨next, pending, nextPending, hcleared⟩ := h.cleared_eq howner run repository
  obtain ⟨hsymbols, hkeys, symbolRows, n3, hframe3, hrows3⟩ :=
    putSymbols_written (h.cleared_written howner run repository) hput3
  have hreferences3 : t3.references = (s.cleared repository repositoryId run).references := by
    rw [hframe3]
  have hstart := h.references_start howner hsymbols hreferences3
  obtain ⟨hreferences, -, referenceRows, hframe4, hrows4⟩ := putReferences_written hstart hput4
  have howner4 : t4.HasRepository repositoryId := by
    rw [hframe4, hframe3, hcleared]
    exact howner
  have hedges4 : t4.edges = (s.cleared repository repositoryId run).edges := by
    rw [hframe4, hframe3]
  obtain ⟨hedges, -, edgeRows, hframe5, hrows5⟩ :=
    putEdges_written hreferences howner4 (h.edges_start howner hedges4) hput5
  have hend := finished_frame t5 (s.derivedKeys repository) repository repositoryId now
  have hkeysEnd := finished_keys t5 (s.derivedKeys repository) repository repositoryId now
  have hsound := hedges.sound.finished (s.derivedKeys repository) repository repositoryId now
  generalize t5.finished (s.derivedKeys repository) repository repositoryId now = s' at *
  have hfiles5 : s'.files = t5.files := by rw [hend]
  have hfiles4 : s'.files = t4.files := by rw [hfiles5, hframe5]
  have hfiles3 : s'.files = t3.files := by rw [hfiles4, hframe4]
  have hfiles : s'.files = (s.cleared repository repositoryId run).files := by
    rw [hfiles3, hframe3]
  have hcurrent : s'.derivedKeys repository = t5.derivedKeys repository := by
    apply derivedKeys_same <;> rw [hend]
  have hqueued : t5.pending.map Pending.key = s.pending.map Pending.key ++
      (s.lostFiles repositoryId run).map (fun e => .file repository.fullName e.1) := by
    rw [hframe5, hframe4, hframe3]
    exact cleared_keys s repository repositoryId run
  exact ⟨{
    repository := repository
    found := hfound
    ids := ids
    symbolRows := symbolRows
    referenceRows := referenceRows
    edgeRows := edgeRows
    written := hedges.same hsound hfiles5 (by rw [hend])
    keys := by simpa using hkeys
    repositories_eq := by rw [hend, hframe5, hframe4, hframe3, hcleared]
    files_eq := by rw [hfiles, hcleared]
    symbols_eq := by rw [hend, hframe5, hframe4, hframe3, hcleared]
    references_eq := by rw [hend, hframe5, hframe4, hframe3, hcleared]
    edges_eq := by rw [hend, hframe5, hframe4, hframe3, hcleared]
    projects_eq := by rw [hend, hframe5, hframe4, hframe3, hcleared]
    memberships_eq := by rw [hend, hframe5, hframe4, hframe3, hcleared]
    pending_eq := by rw [hkeysEnd, hqueued, hcurrent]
    symbols_stand := by
      rw [standsForSymbol_same hfiles]
      exact hrows3
    references_stand := by
      rw [standsForReference_same hfiles3]
      exact hrows4
    edges_stand := by
      rw [standsForEdge_same hfiles4]
      exact hrows5 }⟩

theorem Sound.storeRun {s s' : Store} {repositoryId : Id} {now : Int} {run : Run}
    {counts : RunCounts} (h : s.Sound)
    (hok : s.storeRun repositoryId now run = .ok (counts, s')) : s'.Sound := by
  obtain ⟨outcome⟩ := h.storeRun_outcome hok
  exact outcome.written.sound

end CodeIndex.Store
