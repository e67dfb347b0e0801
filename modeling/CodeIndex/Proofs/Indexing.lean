import CodeIndex.Proofs.Pipeline.Linking

/-!
Indexing a directory always succeeds. What the pipeline makes of files with distinct paths meets
every check of the store, so the run is stored whole: no edge and no reference loses a symbol on
the way.
-/
namespace CodeIndex

namespace Indexing

/-- The paths of an index run: those given, or the source files below the root. -/
def listing (t : Files.Tree) (config : IndexConfig) (root : Files.Location)
    (listed : Option (List String)) : List String :=
  listed.getD ((Files.walk t config root).map Files.Source.relative)

/-- The files of a listing that can be read. -/
def sourcesOf (t : Files.Tree) (root : Files.Location) (paths : List String) (now : Int) :
    List SourceFile :=
  (readSources t root paths now).filterMap Except.toOption

/-- What the pipeline makes of the files of an index run. -/
def runOf (s : Store) (t : Files.Tree) (config : IndexConfig) (d : Descriptor)
    (root : Files.Location) (listed : Option (List String)) (now : Int) : Pipeline.Run :=
  Pipeline.run (sourcesOf t root (listing t config root listed) now) (aliasesOf t root)
    (Indexing.repositoryId s d.fullName).1.text config.cycleDepth

theorem sourcesOf_cons (t : Files.Tree) (root : Files.Location) (path : String)
    (rest : List String) (now : Int) :
    sourcesOf t root (path :: rest) now =
      match t.readText root path with
      | .ok text => .of path text now :: sourcesOf t root rest now
      | .error _ => sourcesOf t root rest now := by
  unfold sourcesOf readSources
  rw [List.map_cons]
  cases t.readText root path <;> rfl

/-- Files are read under their listed paths. -/
theorem paths_sourcesOf (t : Files.Tree) (root : Files.Location) (paths : List String) (now : Int) :
    List.Sublist ((sourcesOf t root paths now).map SourceFile.path) paths := by
  induction paths with
  | nil => exact .slnil
  | cons path rest ih =>
    rw [sourcesOf_cons]
    split
    · exact ih.cons_cons path
    · exact ih.cons path

end Indexing

namespace Store

open Indexing

variable {s : Store}

/-- What an index run reports. -/
def statsOf (s : Store) (t : Files.Tree) (config : IndexConfig) (d : Descriptor)
    (root : Files.Location) (listed : Option (List String)) (now : Int) (counts : RunCounts) :
    IndexStats :=
  let run := runOf s t config d root listed now
  let paths := listing t config root listed
  { files := counts.filesStored
    symbols := run.symbols.length
    references := run.references.length
    dependencies := run.build.edges.length
    cycles := run.detection.cycles.length
    readErrors := (readSources t root paths now).length - (sourcesOf t root paths now).length
    failures := run.failures }

/-- An index run of a directory stores what the pipeline made. -/
theorem index_eq (s : Store) {t : Files.Tree} (config : IndexConfig) {d : Descriptor}
    (listed : Option (List String)) (now : Int) {root : Files.Location}
    (hroot : t.resolve [] d.root = .ok root) (hdir : t.isDirectory [] d.root = true) :
    s.index t config d listed now =
      ((Indexing.repositoryId s d.fullName).2.storeRepository d
        (Indexing.repositoryId s d.fullName).1 now
        (runOf s t config d root listed now).stored).map fun out =>
        (statsOf s t config d root listed now out.2.1, out.2.2) := by
  unfold Store.index
  rw [hroot, hdir]
  dsimp only
  change (storeRepository _ _ _ _ (runOf s t config d root listed now).stored).bind _ = _
  cases storeRepository (Indexing.repositoryId s d.fullName).2 d
    (Indexing.repositoryId s d.fullName).1 now
    (runOf s t config d root listed now).stored <;> rfl

/-- The repository of an index run is stored under the id that the run was made for. -/
theorem Sound.upsertRepositoryAs_isOk (h : s.Sound) (d : Descriptor) :
    ∃ row s', (Indexing.repositoryId s d.fullName).2.upsertRepositoryAs
        (Indexing.repositoryId s d.fullName).1 d = .ok (row, s') ∧
      row ∈ s'.repositories ∧ row.id = (Indexing.repositoryId s d.fullName).1 ∧
      row.fullName = d.fullName := by
  unfold Store.upsertRepositoryAs Indexing.repositoryId
  cases hfound : s.repository? d.fullName with
  | some old =>
    obtain ⟨hold, hname⟩ := h.repository?_eq_some.mp hfound
    simp only [hfound]
    exact ⟨_, _, rfl, List.mem_map.mpr ⟨old, hold, if_pos (by simpa using hname)⟩, rfl, hname⟩
  | none =>
    have hfree : (s.freshId.2.repositoryById? s.freshId.1).isSome = false := by
      rw [Bool.eq_false_iff]
      intro hsome
      obtain ⟨r, hr⟩ := Option.isSome_iff_exists.mp hsome
      obtain ⟨hmem, hid⟩ := h.repositoryById?_eq_some.mp hr
      exact ne_freshId (h.repository_old r hmem) hid
    have hnone : s.freshId.2.repository? d.fullName = none := hfound
    simp only [hnone, hfree, Bool.false_eq_true, if_false]
    exact ⟨_, _, rfl, List.mem_append_right _ (List.mem_singleton_self _), rfl, rfl⟩

/-- The files of an index run have distinct paths if the listing has none twice. -/
theorem nodup_runOf_paths {t : Files.Tree} {config : IndexConfig} {d : Descriptor}
    {listed : Option (List String)} {now : Int} {root : Files.Location}
    (hpaths : (listing t config root listed).Nodup) :
    (runOf s t config d root listed now).stored.paths.Nodup := by
  rw [runOf, Pipeline.run_stored]
  exact Pipeline.nodup_known (hpaths.sublist (paths_sourcesOf ..))

/-- An index run of a directory whose listing has no path twice. -/
structure IndexRun (s : Store) (t : Files.Tree) (config : IndexConfig) (d : Descriptor)
    (root : Files.Location) (listed : Option (List String)) (now : Int) where
  /-- The store with the repository, before the run is stored. -/
  before : Store
  repository : RepositoryRow
  counts : RunCounts
  after : Store
  accepted : (runOf s t config d root listed now).stored.Accepted
  sound : before.Sound
  mem_repositories : repository ∈ before.repositories
  id_eq : repository.id = (Indexing.repositoryId s d.fullName).1
  fullName_eq : repository.fullName = d.fullName
  upserted : (Indexing.repositoryId s d.fullName).2.upsertRepositoryAs
    (Indexing.repositoryId s d.fullName).1 d = .ok (repository, before)
  stored : before.storeRun repository.id now (runOf s t config d root listed now).stored =
    .ok (counts, after)
  index_eq : s.index t config d listed now =
    .ok (statsOf s t config d root listed now counts, after)

/-- Indexing a directory succeeds. -/
theorem Sound.indexRun (h : s.Sound) {t : Files.Tree} {config : IndexConfig} {d : Descriptor}
    {listed : Option (List String)} {now : Int} {root : Files.Location}
    (hroot : t.resolve [] d.root = .ok root) (hdir : t.isDirectory [] d.root = true)
    (hpaths : (listing t config root listed).Nodup) :
    Nonempty (IndexRun s t config d root listed now) := by
  have hrun : (runOf s t config d root listed now).stored.Accepted :=
    Pipeline.run_accepted (hpaths.sublist (paths_sourcesOf ..))
  obtain ⟨hs, hold⟩ := h.repositoryId d.fullName
  obtain ⟨row, s1, hupsert, hmem, hid, hname⟩ := h.upsertRepositoryAs_isOk d
  have hs1 := hs.upsertRepositoryAs hold hupsert
  obtain ⟨⟨counts, s'⟩, hstored⟩ :=
    hs1.storeRun_isOk now ⟨row, hmem, rfl⟩ (nodup_runOf_paths hpaths) hrun
  have hindex := index_eq s config listed now hroot hdir
  have hrepository : (Indexing.repositoryId s d.fullName).2.storeRepository d
      (Indexing.repositoryId s d.fullName).1 now (runOf s t config d root listed now).stored =
      .ok ({ row with lastIndexedAt := some now }, counts, s') :=
    bind_eq_ok.mpr ⟨_, hupsert, bind_eq_ok.mpr ⟨_, hstored, rfl⟩⟩
  rw [hrepository] at hindex
  exact ⟨⟨s1, row, counts, s', hrun, hs1, hmem, hid, hname, hupsert, hstored, hindex⟩⟩

namespace Outcome

variable {s' : Store} {r : RepositoryRow} {now : Int} {run : Run}

/-- An accepted run without repeated edges gives its edges back in order of their keys. -/
theorem loadEdges_eq (o : Outcome s r.id now run s') (hr : r ∈ s.repositories)
    (hrun : run.Accepted) (hkeys : (run.edges.map Edge.key).Nodup)
    (hid : ∀ e ∈ run.edges, e.repositoryId = r.id.text) :
    s'.loadEdges r.fullName = .ok ({ r with lastIndexedAt := some now },
      run.edges.mergeSort fun a b => (compare a.key b.key).isLE) := by
  have hread := o.edges_read
  rw [firstsBy_eq_self hkeys] at hread
  have hsorted := map_mergeSort_of_map_eq hread
  have hsame : ∀ e ∈ run.edges.mergeSort fun a b => (compare a.key b.key).isLE,
      run.storedEdge r.id.text e = e := by
    intro e he
    rw [← hid e (List.mem_mergeSort.mp he)]
    exact hrun.storedEdge_eq (List.mem_mergeSort.mp he)
  rw [List.map_congr_left hsame, List.map_id'] at hsorted
  rw [loadEdges, o.requireRepository hr]
  exact congrArg (fun edges => Except.ok (_, edges)) hsorted

/-- An accepted run gives the first reference of every place back with its target. -/
theorem loadReferences_eq (o : Outcome s r.id now run s') (hr : r ∈ s.repositories)
    (hrun : run.Accepted) :
    s'.loadReferences r.fullName =
      .ok ((firstsBy useKey [] run.references).mergeSort
        fun a b => (compareReferences a b).isLE) := by
  have hsame : ∀ x ∈ firstsBy useKey [] run.references, run.storedReference x = x :=
    fun x hx => hrun.storedReference_eq (mem_of_mem_firstsBy hx)
  have hread := o.references_read
  rw [List.map_congr_left hsame, List.map_id'] at hread
  rw [loadReferences, o.requireRepository hr, ← hread]
  rfl

end Outcome

namespace IndexRun

variable {t : Files.Tree} {config : IndexConfig} {d : Descriptor} {root : Files.Location}
  {listed : Option (List String)} {now : Int} (i : IndexRun s t config d root listed now)
include i

omit i in
theorem nodup_edges : ((runOf s t config d root listed now).stored.edges.map Edge.key).Nodup := by
  rw [runOf, Pipeline.run_stored]
  exact Graph.nodup_build_edges

/-- The edges of an index run are given back as they were made. -/
theorem loadEdges_eq :
    i.after.loadEdges d.fullName = .ok ({ i.repository with lastIndexedAt := some now },
      (runOf s t config d root listed now).stored.edges.mergeSort
        fun a b => (compare a.key b.key).isLE) := by
  obtain ⟨o⟩ := i.sound.storeRun_outcome i.stored
  have howner : ∀ e ∈ (runOf s t config d root listed now).stored.edges,
      e.repositoryId = i.repository.id.text := by
    intro e he
    rw [runOf, Pipeline.run_stored] at he
    rw [i.id_eq]
    exact (Pipeline.edge_of_run he).1
  rw [← i.fullName_eq]
  exact o.loadEdges_eq i.mem_repositories i.accepted nodup_edges howner

end IndexRun

/-- An index run that succeeds has a directory for its root. -/
theorem directory_of_index {s' : Store} {t : Files.Tree} {config : IndexConfig} {d : Descriptor}
    {listed : Option (List String)} {now : Int} {stats : IndexStats}
    (hok : s.index t config d listed now = .ok (stats, s')) :
    ∃ root, t.resolve [] d.root = .ok root ∧ t.isDirectory [] d.root = true := by
  unfold Store.index at hok
  split at hok
  · next root hroot hdir => exact ⟨root, hroot, hdir⟩
  · simp at hok

/-- Indexing fails only where the root is no directory. Otherwise the run that the pipeline made
meets all that the store asks of it, and it is stored: every edge is given back as it was made, and
every reference with its target. -/
theorem index_accepted (h : Reachable s) (t : Files.Tree) (config : IndexConfig) (d : Descriptor)
    (listed : Option (List String)) (now : Int)
    (hpaths : ∀ root, t.resolve [] d.root = .ok root →
      (listing t config root listed).Nodup) :
    (t.isDirectory [] d.root = false ∧
        s.index t config d listed now = .error (.invalidArgument (.notDirectory d.root))) ∨
      ∃ root, t.resolve [] d.root = .ok root ∧
        let run := (runOf s t config d root listed now).stored
        run.Accepted ∧ ∃ stats s' row, s.index t config d listed now = .ok (stats, s') ∧
          s'.loadEdges d.fullName =
            .ok (row, run.edges.mergeSort fun a b => (compare a.key b.key).isLE) ∧
          s'.loadReferences d.fullName =
            .ok ((run.references.eraseDupsBy fun a b => useKey a == useKey b).mergeSort
              fun a b => (compareReferences a b).isLE) := by
  cases hdir : t.isDirectory [] d.root with
  | false =>
    refine .inl ⟨rfl, ?_⟩
    unfold Store.index
    rw [hdir]
    cases t.resolve [] d.root <;> rfl
  | true =>
    obtain ⟨root, hroot⟩ : ∃ root, t.resolve [] d.root = .ok root := by
      unfold Files.Tree.isDirectory at hdir
      split at hdir
      · next root hroot => exact ⟨root, hroot⟩
      · simp at hdir
    obtain ⟨i⟩ : Nonempty (IndexRun s t config d root listed now) :=
      h.sound.indexRun hroot hdir (hpaths root hroot)
    obtain ⟨o⟩ := i.sound.storeRun_outcome i.stored
    have hread := o.loadReferences_eq i.mem_repositories i.accepted
    rw [i.fullName_eq] at hread
    refine .inr ⟨root, hroot, i.accepted, _, i.after, _, i.index_eq, i.loadEdges_eq, ?_⟩
    rw [hread, firstsBy_eq_eraseDupsBy]
    simp

/-- A tree with an import, a broken file and a file that is no text. -/
def sampleTree : Files.Tree where
  base := "/w"
  entries := [(["a.ts"], .file (.text "import { f } from './b';\nf();")),
    (["b.ts"], .file (.text "export function f() {}")), (["c.ts"], .file (.text "function (")),
    (["d.ts"], .file (.bytes [255]))]

theorem index_accepted_sample : Reachable (.empty 0) ∧
    (listing sampleTree {} [] (some ["a.ts", "c.ts", "b.ts", "d.ts"])).Nodup ∧
    (runOf (.empty 0) sampleTree {} (.ofFullName "r" "") []
      (some ["a.ts", "c.ts", "b.ts", "d.ts"]) 0).stored.Accepted ∧
    ∃ stats s', (Store.empty 0).index sampleTree {} (.ofFullName "r" "")
      (some ["a.ts", "c.ts", "b.ts", "d.ts"]) 0 = .ok (stats, s') := by
  have hpaths : (listing sampleTree {} [] (some ["a.ts", "c.ts", "b.ts", "d.ts"])).Nodup := by
    decide
  refine ⟨.empty 0, hpaths, ?_⟩
  rcases index_accepted (.empty 0) sampleTree {} (.ofFullName "r" "")
      (some ["a.ts", "c.ts", "b.ts", "d.ts"]) 0 fun _ _ => hpaths with
    ⟨hdir, -⟩ | ⟨root, hroot, hrun⟩
  · exact absurd hdir (by decide)
  · obtain rfl : [] = root := Except.ok.inj hroot
    obtain ⟨haccepted, stats, s', -, hok, -⟩ := hrun
    exact ⟨haccepted, stats, s', hok⟩

end Store

end CodeIndex
