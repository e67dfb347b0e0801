import CodeIndex.Proofs.Store.Acceptance

/-!
Runs that list a path more than once. The last file of every path is what is stored, and where every
path was stored before, or is listed once, the run comes to the same end as the one with its last
files alone. A stray path has no row under the id that the run uses for it, so a run with a value in
its file is refused.
-/
namespace CodeIndex.Store

/-- The run with the last file of every path alone. -/
def Run.last (run : Run) : Run := { run with files := lastFiles run.files }

namespace Run

variable (run : Run)

theorem nodup_paths_last : run.last.paths.Nodup := nodup_lastFiles run.files

theorem lastFiles_last : lastFiles run.last.files = lastFiles run.files :=
  lastFiles_eq_self run.nodup_paths_last

variable {run}

theorem mem_paths_last {path : String} : path ∈ run.last.paths ↔ path ∈ run.paths :=
  mem_map_lastFiles

/-- The same is asked for a run and its last files. -/
theorem checks_last : run.last.checks = run.checks := by
  have hpath : pathFlaw? run.last.paths = pathFlaw? run.paths := by
    funext path
    simp only [pathFlaw?, mem_paths_last]
  have hedge : edgeFlaw? run.last.paths = edgeFlaw? run.paths := by
    funext keys e
    simp only [edgeFlaw?, hpath]
  unfold Run.checks pathChecks
  rw [hpath, hedge]
  rfl

end Run

/-! What is counted -/

/-- The same stored paths are missing from a run and from its last files. -/
theorem lostFiles_last (s : Store) (repositoryId : Id) (run : Run) :
    s.lostFiles repositoryId run.last = s.lostFiles repositoryId run := by
  have hmissing : ∀ (run : Run) (path : String),
      (fileId? (s.withFiles repositoryId run).2 path).isNone = !decide (path ∈ run.paths) := by
    intro run path
    have hknown : path ∈ (s.withFiles repositoryId run).2.map Prod.fst ↔ path ∈ run.paths :=
      mem_withFiles_paths
    rw [← isSome_fileId?] at hknown
    simp [← hknown]
  unfold lostFiles
  simp only [hmissing, Run.mem_paths_last]

/-- A stored run counts its paths, the stored paths that it does not have and the first values of
every key. -/
theorem Sound.counts_of_storeRun {s s' : Store} (h : s.Sound) {repositoryId : Id} {now : Int}
    {run : Run} {counts : RunCounts} (hok : s.storeRun repositoryId now run = .ok (counts, s')) :
    counts =
      { filesStored := (lastFiles run.files).length
        filesRemoved := (s.lostFiles repositoryId run).length
        symbolsStored := (firstsBy Symbol.key [] run.symbols).length
        referencesStored := (firstsBy useKey [] run.references).length
        edgesStored := (firstsBy Edge.key [] run.edges).length } := by
  obtain ⟨o⟩ := h.storeRun_outcome hok
  have howner := o.owner
  rw [Store.storeRun, o.found] at hok
  obtain ⟨⟨t3, ids⟩, hput3, hok⟩ := bind_eq_ok.mp hok
  obtain ⟨⟨t4, n4⟩, hput4, hok⟩ := bind_eq_ok.mp hok
  obtain ⟨⟨t5, n5⟩, hput5, hok⟩ := bind_eq_ok.mp hok
  obtain ⟨hsymbols, hkeys, _, _, hframe3, -⟩ :=
    putSymbols_written (h.cleared_written howner run o.repository) hput3
  have hreferences3 : t3.references = (s.cleared o.repository repositoryId run).references := by
    rw [hframe3]
  obtain ⟨hreferences, hcount4, _, hframe4, -⟩ :=
    putReferences_written (h.references_start howner hsymbols hreferences3) hput4
  have hedges4 : t4.edges = (s.cleared o.repository repositoryId run).edges := by
    rw [hframe4, hframe3]
  have howner4 : t4.HasRepository repositoryId := by
    obtain ⟨_, _, _, hcleared⟩ := h.cleared_eq howner run o.repository
    rw [hframe4, hframe3, hcleared]
    exact howner
  obtain ⟨-, hcount5, -⟩ :=
    putEdges_written hreferences howner4 (h.edges_start howner hedges4) hput5
  have hfiles : (s.withFiles repositoryId run).2.length = (lastFiles run.files).length := by
    rw [withFiles, length_putFiles_last]
    simp
  have hcount3 := congrArg List.length hkeys
  simp only [List.map_nil, List.nil_append, List.length_map] at hcount3
  rw [Nat.zero_add] at hcount4 hcount5
  rw [← (Prod.mk.inj (Except.ok.inj hok)).1, hcount3, hcount4, hcount5, ← hfiles]
  rfl

/-! What is left -/

/-- The repository has the same content in both stores. -/
structure SameContent (s u : Store) (r : RepositoryRow) : Prop where
  files : ((s.files.filter fun f => f.repositoryId == r.id).map sourceOf).Perm
    ((u.files.filter fun f => f.repositoryId == r.id).map sourceOf)
  symbols : s.loadSymbols r.fullName = u.loadSymbols r.fullName
  references : s.loadReferences r.fullName = u.loadReferences r.fullName
  edges : s.loadEdges r.fullName = u.loadEdges r.fullName

/-- Two runs of a repository fail with one error, or both are stored with the same counts and leave
the same content. -/
inductive SameResult (r : RepositoryRow) :
    Except Error (RunCounts × Store) → Except Error (RunCounts × Store) → Prop
  | stored {counts : RunCounts} {s u : Store} (h : SameContent s u r) :
      SameResult r (.ok (counts, s)) (.ok (counts, u))
  | refused (e : Error) : SameResult r (.error e) (.error e)

section Result

variable {s : Store} (h : s.Sound) {r : RepositoryRow} (hr : r ∈ s.repositories) {now : Int}
  {run : Run}
include h hr

/-- A run and its last files leave the same content. -/
theorem Sound.sameContent_last {s' u' : Store} (o : Outcome s r.id now run s')
    (o' : Outcome s r.id now run.last u') : SameContent s' u' r := by
  have hleft := o.requireRepository hr
  have hright := o'.requireRepository hr
  have hkeep : run.last.keep = run.keep := rfl
  have hsymbols := o.symbols_read.trans o'.symbols_read.symm
  have hreferences := o.references_read.trans o'.references_read.symm
  have hedges := map_mergeSort_of_map_eq (o.edges_read.trans o'.edges_read.symm)
  refine ⟨?_, ?_, ?_, ?_⟩
  · have hlast := o'.files_read_last h
    rw [run.lastFiles_last] at hlast
    exact (o.files_read_last h).trans hlast.symm
  · rw [loadSymbols, loadSymbols, hleft, hright]
    exact congrArg (fun xs => Except.ok (xs.mergeSort fun a b => (compareSymbols a b).isLE)) hsymbols
  · rw [loadReferences, loadReferences, hleft, hright]
    exact congrArg (fun xs => Except.ok (xs.mergeSort fun a b => (compareReferences a b).isLE))
      hreferences
  · rw [loadEdges, loadEdges, hleft, hright]
    exact congrArg (fun edges => Except.ok (_, edges)) hedges

/-- A run with no value in the file of a stray path comes to the same end as its last files. -/
theorem Sound.sameResult_last (hstray : ¬run.Names (s.strayPaths r.id run)) :
    SameResult r (s.storeRun r.id now run) (s.storeRun r.id now run.last) := by
  have howner : s.HasRepository r.id := ⟨r, hr, rfl⟩
  have hflaw : failure? (s.storeRun r.id now run) = failure? (s.storeRun r.id now run.last) := by
    rw [h.failure?_storeRun howner, h.failure?_storeRun howner,
      strayPaths_eq_nil run.nodup_paths_last, Run.flaw?, Run.flaw?, Run.checks_last]
    rw [Run.names_iff] at hstray
    exact flaw_eq_of_not_mem fun p hp hrow => hstray ⟨p, hp, hrow⟩
  cases hout : s.storeRun r.id now run with
  | error e =>
    rw [hout] at hflaw
    rw [failure?_eq_some.mp hflaw.symm]
    exact .refused e
  | ok out =>
    obtain ⟨counts, s'⟩ := out
    rw [hout] at hflaw
    obtain ⟨⟨counts', u'⟩, hout'⟩ := failure?_eq_none.mp hflaw.symm
    obtain ⟨o⟩ := h.storeRun_outcome hout
    obtain ⟨o'⟩ := h.storeRun_outcome hout'
    have hcounts : counts = counts' := by
      rw [h.counts_of_storeRun hout, h.counts_of_storeRun hout', run.lastFiles_last,
        lostFiles_last]
      rfl
    rw [hout', ← hcounts]
    exact .stored (h.sameContent_last hr o o')

/-- A run with a value in the file of a stray path is refused, for that or for what is wrong with
its last files as well. -/
theorem Sound.refused_of_stray (hstray : run.Names (s.strayPaths r.id run)) :
    ∃ e, s.storeRun r.id now run = .error e ∧
      (e = .storage .missingParent ∨ s.storeRun r.id now run.last = .error e) := by
  have howner : s.HasRepository r.id := ⟨r, hr, rfl⟩
  have hflaw : failure? (s.storeRun r.id now run) = run.flaw? (s.strayPaths r.id run) :=
    h.failure?_storeRun howner now run
  have hlast : failure? (s.storeRun r.id now run.last) = run.flaw? [] := by
    rw [h.failure?_storeRun howner, strayPaths_eq_nil run.nodup_paths_last, Run.flaw?,
      Run.checks_last, Run.flaw?]
  obtain ⟨p, hp, hrow⟩ := Run.names_iff.mp hstray
  obtain ⟨e, he⟩ := Option.ne_none_iff_exists'.mp (flaw_ne_none_of_mem hp hrow)
  refine ⟨e, failure?_eq_some.mp (hflaw.trans he), ?_⟩
  rcases flaw_cases run.checks (s.strayPaths r.id run) with hsame | hmissing
  · exact .inr (failure?_eq_some.mp (hlast.trans (hsame.symm.trans he)))
  · exact .inl (Option.some.inj (he.symm.trans hmissing))

end Result

/-- Runs that list paths more than once. The id that such a run uses for a path is that of the row
of the path if the path was stored before or is listed once. If no symbol, no reference and no first
edge of a key stands in the file of another path, the run comes to the same end as the one with the
last file of every path alone: the same error, or the same counts and the same content. Otherwise it
is refused, also where the last files alone are stored. -/
theorem storeRun_repeated {s : Store} (h : Reachable s) {r : RepositoryRow}
    (hr : r ∈ s.repositories) (now : Int) (run : Run) :
    (∀ path ∈ run.paths,
      (fileId? (s.withFiles r.id run).2 path =
          ((s.withFiles r.id run).1.file? r.id path).map FileRow.id ↔
        (s.file? r.id path).isSome = true ∨ run.paths.count path = 1)) ∧
      (¬run.Names (s.strayPaths r.id run) →
        SameResult r (s.storeRun r.id now run) (s.storeRun r.id now run.last)) ∧
      (run.Names (s.strayPaths r.id run) →
        ∃ e, s.storeRun r.id now run = .error e ∧
          (e = .storage .missingParent ∨ s.storeRun r.id now run.last = .error e)) := by
  have hs := h.sound
  refine ⟨fun path hpath => ?_, hs.sameResult_last hr, hs.refused_of_stray hr⟩
  have howner : s.HasRepository r.id := ⟨r, hr, rfl⟩
  rw [← not_mem_strayPaths_iff hpath, ← hs.mark_withFiles_iff howner hpath]
  simp only [← (hs.withFiles_written howner run).sound.map_file?_eq_some]
  have hknown : path ∈ (s.withFiles r.id run).2.map Prod.fst := mem_withFiles_paths.mpr hpath
  obtain ⟨id, hid⟩ := Option.isSome_iff_exists.mp (isSome_fileId?.mpr hknown)
  rw [hid]
  constructor
  · intro hsame
    exact ⟨id, rfl, hsame.symm⟩
  · rintro ⟨_, heq, hsame⟩
    rw [heq, hsame]

/-- A run that lists its file twice. -/
def doubledRun : Run where
  files := [⟨"a.ts", "", .typescript, 0, "", 0⟩, ⟨"a.ts", "f()", .typescript, 3, "", 1⟩]
  symbols := [⟨"a.ts", "f", .function, 1, 1, none, none, true⟩]
  references := []
  edges := []

/-- The run is refused until its last file has been stored alone; then it is stored as well. -/
theorem storeRun_repeated_doubledRun : ∃ (s t : Store) (r r' : RepositoryRow), Reachable s ∧
    Reachable t ∧ r ∈ s.repositories ∧ r' ∈ t.repositories ∧
    doubledRun.Names (s.strayPaths r.id doubledRun) ∧
    s.storeRun r.id 0 doubledRun = .error (.storage .missingParent) ∧
    (∃ counts, s.storeRun r.id 0 doubledRun.last = .ok (counts, t)) ∧
    ¬doubledRun.Names (t.strayPaths r'.id doubledRun) ∧
    (∃ out, t.storeRun r'.id 1 doubledRun = .ok out) ∧
    SameResult r' (t.storeRun r'.id 1 doubledRun) (t.storeRun r'.id 1 doubledRun.last) := by
  let r : RepositoryRow := ⟨.made 0 0, "r", "r", none, "main", none⟩
  let r' : RepositoryRow := ⟨.made 0 0, "r", "r", none, "main", some 0⟩
  let s : Store := { origin := 0, nextSerial := 1, repositories := [r] }
  let t : Store :=
    { origin := 0, nextSerial := 3, repositories := [r']
      files := [⟨.made 0 1, .made 0 0, "a.ts", "f()", .typescript, 3, "", 1⟩]
      symbols := [⟨.made 0 2, .made 0 1, .made 0 0, "f", .function, 1, 1, none, none, true⟩] }
  have h : Reachable s := .step (.upsertRepository (.ofFullName "r" "")) (.empty 0) trivial rfl
  have h' : Reachable t := .step (.storeRun (.made 0 0) 0 doubledRun.last) h trivial rfl
  have hnames : doubledRun.Names (s.strayPaths r.id doubledRun) :=
    .inl ⟨_, List.mem_cons_self, List.mem_cons_self⟩
  have hstray : t.strayPaths r'.id doubledRun = [] := rfl
  have hno : ¬doubledRun.Names (t.strayPaths r'.id doubledRun) := by
    rw [hstray, Run.names_iff]
    simp
  obtain ⟨counts, hlast⟩ : ∃ counts, s.storeRun r.id 0 doubledRun.last = .ok (counts, t) := ⟨_, rfl⟩
  obtain ⟨-, -, hrefused⟩ := storeRun_repeated h List.mem_cons_self 0 doubledRun
  obtain ⟨e, he, hcase⟩ := hrefused hnames
  obtain rfl : e = .storage .missingParent :=
    hcase.resolve_right fun hsame => by cases hlast.symm.trans hsame
  exact ⟨s, t, r, r', h, h', List.mem_cons_self, List.mem_cons_self, hnames, he, ⟨counts, hlast⟩,
    hno, ⟨_, rfl⟩, (storeRun_repeated h' List.mem_cons_self 1 doubledRun).2.1 hno⟩

end CodeIndex.Store
