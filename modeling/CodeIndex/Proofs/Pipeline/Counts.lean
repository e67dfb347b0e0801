import CodeIndex.Proofs.Extract.Distinct
import CodeIndex.Proofs.Graph.Adjacency
import CodeIndex.Proofs.Indexing

/-!
The numbers that an index run reports. Every listed file is indexed, unreadable or a failure, and
every symbol, reference and edge of the run becomes a row of its own: no two of them have the same
key.
-/
namespace CodeIndex

namespace Pipeline

open Extract

variable {sources : List SourceFile} {aliases : Resolve.Aliases} {repositoryId : String}

/-- Distinct files have no use-site in common. -/
theorem nodup_extracted (h : (sources.map SourceFile.path).Nodup) :
    (((good sources).flatMap fun g => g.2.references).map Store.useKey).Nodup := by
  refine nodup_keys h Extraction.references Store.useKey Prod.fst (fun g hg => ?_) ?_
  · have hsites := extractFile_sites (mem_good.mp hg).2
    have hplace : References.site =
        (fun k : String × Nat × Nat × ReferenceKind × String => (k.2.1, k.2.2.1)) ∘ Store.useKey :=
      rfl
    rw [hplace, ← List.map_map] at hsites
    exact hsites.of_map _
  · exact fun g hg => (extractFile_belongsTo (mem_good.mp hg).2).reference_path

/-- Resolving and linking leave the use-sites alone. -/
theorem useKey_references :
    (buildOf sources aliases repositoryId).references.map Store.useKey =
      ((good sources).flatMap fun g => g.2.references).map Store.useKey := by
  have htarget : ∀ (r : Reference) (link : Graph.Link),
      Store.useKey (Graph.setTarget r link) = Store.useKey r := by
    intro r link
    unfold Graph.setTarget
    split <;> rfl
  have hresolve : ∀ r : Reference,
      Store.useKey (Resolve.resolveReference (known sources) aliases r) = Store.useKey r := by
    intro r
    rw [Resolve.resolveReference_eq]
    rfl
  rw [buildOf, Graph.build_references, resolvedOf, List.map_map, List.map_map]
  simp only [Function.comp_def, htarget, hresolve]

theorem length_good_add_failures (sources : List SourceFile) :
    (good sources).length + (failures sources).length = sources.length := by
  induction sources with
  | nil => rfl
  | cons f rest ih =>
    cases hfile : extractFile f.path f.content with
    | ok x =>
      have hgood : good (f :: rest) = (f, x) :: good rest := by
        simp [good, goodOf, hfile, Except.toOption]
      have hfailures : failures (f :: rest) = failures rest := by
        simp [failures, split, hfile]
      rw [hgood, hfailures, List.length_cons, List.length_cons]
      omega
    | error e =>
      have hgood : good (f :: rest) = good rest := by
        simp [good, goodOf, hfile, Except.toOption]
      have hfailures : failures (f :: rest) = e :: failures rest := by
        simp [failures, split, hfile]
      rw [hgood, hfailures, List.length_cons, List.length_cons]
      omega

end Pipeline

namespace Store

open Indexing

/-! The rows of a stored run -/

theorem length_putFiles {repositoryId : Id} {existing : FileIds} {s : Store} {ids : FileIds}
    {files : List SourceFile} (hpaths : (files.map SourceFile.path).Nodup)
    (hnew : ∀ f ∈ files, f.path ∉ ids.map Prod.fst) :
    (putFiles repositoryId existing s ids files).2.length = ids.length + files.length := by
  rw [length_putFiles_last, lastFiles_eq_self hpaths, List.filter_eq_self.mpr]
  intro e he
  have hother : e.1 ∉ files.map SourceFile.path := by
    intro hmem
    obtain ⟨f, hf, hpath⟩ := List.mem_map.mp hmem
    exact hnew f hf (hpath ▸ List.mem_map_of_mem he)
  simpa using hother

/-- A stored run counts the files of its map. -/
theorem filesStored_of_storeRun {s s' : Store} {repositoryId : Id} {now : Int} {run : Run}
    {counts : RunCounts} (h : s.storeRun repositoryId now run = .ok (counts, s')) :
    counts.filesStored = (s.withFiles repositoryId run).2.length := by
  rw [storeRun] at h
  split at h
  · simp at h
  · dsimp only at h
    obtain ⟨_, -, h⟩ := bind_eq_ok.mp h
    obtain ⟨_, -, h⟩ := bind_eq_ok.mp h
    obtain ⟨_, -, h⟩ := bind_eq_ok.mp h
    have hcounts := congrArg (fun out => out.1.filesStored) (Except.ok.inj h)
    exact hcounts.symm

namespace Outcome

variable {s s' : Store} {repositoryId : Id} {now : Int} {run : Run}
  (o : Outcome s repositoryId now run s')
include o

theorem length_symbols (hkeys : (run.symbols.map Symbol.key).Nodup) :
    (s'.symbols.filter fun x => x.repositoryId == repositoryId).length = run.symbols.length := by
  have hown : ∀ row ∈ o.symbolRows, row.repositoryId = repositoryId := by
    apply forall_left_of_forall₂ (P := fun row => row.repositoryId = _) o.symbols_stand
    rintro row x ⟨hrow, -⟩
    rw [hrow]
    rfl
  rw [o.symbols_eq, filter_own_append hown, o.symbols_stand.length_eq, firstsBy_eq_self hkeys]

theorem length_references (hkeys : (run.references.map useKey).Nodup) :
    (s'.references.filter fun x => x.repositoryId == repositoryId).length =
      run.references.length := by
  have hown : ∀ row ∈ o.referenceRows, row.repositoryId = repositoryId := by
    apply forall_left_of_forall₂ (P := fun row => row.repositoryId = _) o.references_stand
    rintro row x ⟨hrow, -⟩
    rw [hrow]
    rfl
  rw [o.references_eq, filter_own_append hown, o.references_stand.length_eq,
    firstsBy_eq_self hkeys]

theorem length_edges (hkeys : (run.edges.map Edge.key).Nodup) :
    (s'.edges.filter fun e => e.repositoryId == repositoryId).length = run.edges.length := by
  have hown : ∀ row ∈ o.edgeRows, row.repositoryId = repositoryId := by
    apply forall_left_of_forall₂ (P := fun row => row.repositoryId = _) o.edges_stand
    rintro row x ⟨hrow, -⟩
    rw [hrow]
    rfl
  rw [o.edges_eq, filter_own_append hown, o.edges_stand.length_eq, firstsBy_eq_self hkeys]

end Outcome

/-- The good files of an index run and its failures are the files that could be read. -/
theorem length_runOf (s : Store) (t : Files.Tree) (config : IndexConfig) (d : Descriptor)
    (root : Files.Location) (listed : Option (List String)) (now : Int) :
    (runOf s t config d root listed now).files.length +
        (runOf s t config d root listed now).failures.length =
      (sourcesOf t root (listing t config root listed) now).length := by
  rw [runOf, Pipeline.run_eq, List.length_map]
  exact Pipeline.length_good_add_failures _

/-- An index run loses nothing. Every listed file is counted once, as indexed, unreadable or failed;
the files, symbols, references and edges of the run are as many rows of the repository; and the
stored edges have as many cycles as were reported. All this rests on the keys: within a file, no
two symbols and no two references have the same one. -/
theorem index_counts {s s' : Store} (h : Reachable s) {t : Files.Tree} {config : IndexConfig}
    {d : Descriptor} {listed : Option (List String)} {now : Int} {stats : IndexStats}
    (hok : s.index t config d listed now = .ok (stats, s'))
    (hpaths : ∀ root, t.resolve [] d.root = .ok root → (listing t config root listed).Nodup) :
    (∃ root, t.resolve [] d.root = .ok root ∧
      (listing t config root listed).length =
        stats.files + stats.readErrors + stats.failures.length) ∧
    (∃ row edges, s'.loadEdges d.fullName = .ok (row, edges) ∧
      stats.files = (s'.files.filter fun f => f.repositoryId == row.id).length ∧
      stats.symbols = (s'.symbols.filter fun x => x.repositoryId == row.id).length ∧
      stats.references = (s'.references.filter fun r => r.repositoryId == row.id).length ∧
      stats.dependencies = (s'.edges.filter fun e => e.repositoryId == row.id).length ∧
      stats.cycles =
        (Graph.detectCycles config.cycleDepth (.ofEdges edges)).cycles.length) ∧
    ∀ path content x, Extract.extractFile path content = .ok x →
      (x.symbols.map fun s => (s.name, s.lineStart)).Nodup ∧
      (x.references.map fun r => (r.line, r.column, r.kind, r.name)).Nodup := by
  obtain ⟨root, hroot, hdir⟩ := directory_of_index hok
  obtain ⟨i⟩ : Nonempty (IndexRun s t config d root listed now) :=
    h.sound.indexRun hroot hdir (hpaths root hroot)
  obtain ⟨rfl, rfl⟩ := Prod.mk.inj (Except.ok.inj (i.index_eq.symm.trans hok))
  obtain ⟨o⟩ := i.sound.storeRun_outcome i.stored
  have hsources := (hpaths root hroot).sublist (paths_sourcesOf t root _ now)
  have hnodup : (runOf s t config d root listed now).stored.paths.Nodup :=
    nodup_runOf_paths (hpaths root hroot)
  have hfiles : i.counts.filesStored = (runOf s t config d root listed now).files.length := by
    rw [filesStored_of_storeRun i.stored, withFiles, length_putFiles hnodup (by simp)]
    exact Nat.zero_add _
  have hrows := (o.files_read i.sound hnodup).length_eq
  rw [List.length_map] at hrows
  have hsymbols : ((runOf s t config d root listed now).stored.symbols.map Symbol.key).Nodup := by
    rw [runOf, Pipeline.run_stored]
    exact Pipeline.nodup_symbolsOf hsources
  have hreferences :
      ((runOf s t config d root listed now).stored.references.map useKey).Nodup := by
    rw [runOf, Pipeline.run_stored, Pipeline.useKey_references]
    exact Pipeline.nodup_extracted hsources
  refine ⟨⟨root, hroot, ?_⟩, ⟨_, _, i.loadEdges_eq, ?_, ?_, ?_, ?_, ?_⟩, ?_⟩
  · have hread : (readSources t root (listing t config root listed) now).length =
        (listing t config root listed).length := List.length_map _
    have hsome : (sourcesOf t root (listing t config root listed) now).length ≤
        (readSources t root (listing t config root listed) now).length :=
      List.length_filterMap_le _ _
    have hparts := length_runOf s t config d root listed now
    simp only [statsOf, hfiles]
    omega
  · exact hfiles.trans hrows.symm
  · exact (o.length_symbols hsymbols).symm
  · exact (o.length_references hreferences).symm
  · exact (o.length_edges IndexRun.nodup_edges).symm
  · have hdetection : (runOf s t config d root listed now).detection =
        Graph.detectCycles config.cycleDepth
          (.ofEdges (runOf s t config d root listed now).stored.edges) := by
      rw [runOf, Pipeline.run_eq]
      rfl
    rw [statsOf, hdetection]
    unfold Graph.Adjacency.ofEdges
    rw [Graph.Adjacency.ofPairs_congr]
    intro p
    simp only [List.mem_filterMap, List.mem_mergeSort]
  · intro path content x hx
    obtain ⟨p, hp, hextracted, -⟩ := Extract.extractFile_eq_ok hx
    refine ⟨hextracted ▸ Extract.Symbols.nodup_marks path p, ?_⟩
    have hsites := Extract.extractFile_sites hx
    have hplace : Extract.References.site =
        (fun k : Nat × Nat × ReferenceKind × String => (k.1, k.2.1)) ∘
          fun r : Reference => (r.line, r.column, r.kind, r.name) := rfl
    rw [hplace, ← List.map_map] at hsites
    exact hsites.of_map _

theorem index_counts_sample : Reachable (.empty 0) ∧
    (listing sampleTree {} [] (some ["a.ts", "c.ts", "b.ts", "d.ts"])).Nodup ∧
    ∃ stats s', (Store.empty 0).index sampleTree {} (.ofFullName "r" "")
        (some ["a.ts", "c.ts", "b.ts", "d.ts"]) 0 = .ok (stats, s') ∧
      4 = stats.files + stats.readErrors + stats.failures.length ∧
      ∃ row edges, s'.loadEdges "r" = .ok (row, edges) ∧
        stats.references = (s'.references.filter fun r => r.repositoryId == row.id).length := by
  have hpaths : (listing sampleTree {} [] (some ["a.ts", "c.ts", "b.ts", "d.ts"])).Nodup := by
    decide
  obtain ⟨i⟩ : Nonempty (IndexRun (.empty 0) sampleTree {} (.ofFullName "r" "") []
      (some ["a.ts", "c.ts", "b.ts", "d.ts"]) 0) :=
    (Reachable.empty 0).sound.indexRun rfl (by decide) hpaths
  obtain ⟨⟨root, -, hlisted⟩, ⟨row, edges, hedges, -, -, hreferences, -⟩, -⟩ :=
    index_counts (.empty 0) i.index_eq fun _ _ => hpaths
  exact ⟨.empty 0, hpaths, _, _, i.index_eq, hlisted, row, edges, hedges, hreferences⟩

end Store

end CodeIndex
