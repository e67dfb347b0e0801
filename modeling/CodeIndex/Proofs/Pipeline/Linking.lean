import CodeIndex.Pipeline
import CodeIndex.Proofs.Extract.Extraction
import CodeIndex.Proofs.Extract.Sharing
import CodeIndex.Proofs.Graph.Links
import CodeIndex.Proofs.Store.Acceptance

/-!
What a run of the pipeline hands to the store. Symbols and references come from the files that
parse; a link leads from such a file to a known file or to a symbol of the run. So the run meets
all that the store asks of it.
-/
namespace CodeIndex

namespace Resolve

/-- Resolving an import changes the file that a reference leads to and nothing else. -/
theorem resolveReference_eq (known : List String) (aliases : Aliases) (r : Reference) :
    resolveReference known aliases r =
      { r with targetFilePath := (resolveReference known aliases r).targetFilePath } := by
  unfold resolveReference
  split
  · split <;> rfl
  · rfl

theorem resolveReference_enclosingKey (known : List String) (aliases : Aliases) (r : Reference) :
    (resolveReference known aliases r).enclosingKey = r.enclosingKey := by
  rw [resolveReference_eq]
  rfl

end Resolve

namespace Pipeline

open Extract

/-- A file that parses, with what it holds. -/
def goodOf (f : SourceFile) : Option (SourceFile × Extraction) :=
  (extractFile f.path f.content).toOption.map fun x => (f, x)

/-- The files of a listing that parse. -/
def good (sources : List SourceFile) : List (SourceFile × Extraction) := sources.filterMap goodOf

theorem goodOf_eq_some {f : SourceFile} {g : SourceFile × Extraction} :
    goodOf f = some g ↔ g.1 = f ∧ extractFile f.path f.content = .ok g.2 := by
  unfold goodOf
  cases extractFile f.path f.content with
  | error e => simp [Except.toOption]
  | ok x => simp [Except.toOption, Prod.ext_iff, eq_comm]

theorem split_good (sources : List SourceFile) :
    (split (sources.map fun f => (f, extractFile f.path f.content))).1 = good sources := by
  rw [split, good, List.filterMap_map]
  apply List.filterMap_congr
  intro f _
  simp only [Function.comp_apply, goodOf]
  cases extractFile f.path f.content <;> rfl

/-- The files of a listing that fail to parse. -/
def failures (sources : List SourceFile) : List Failure :=
  (split (sources.map fun f => (f, extractFile f.path f.content))).2

theorem mem_failures {sources : List SourceFile} {e : Failure} :
    e ∈ failures sources ↔ ∃ f ∈ sources, extractFile f.path f.content = .error e := by
  simp only [failures, split, List.mem_filterMap, List.mem_map, exists_exists_and_eq_and]
  constructor
  · rintro ⟨f, hf, he⟩
    split at he
    · cases he
    · next e' hfile => exact ⟨f, hf, hfile.trans (congrArg _ (Option.some.inj he))⟩
  · rintro ⟨f, hf, hfile⟩
    exact ⟨f, hf, by rw [hfile]⟩

theorem mem_good {sources : List SourceFile} {g : SourceFile × Extraction} :
    g ∈ good sources ↔ g.1 ∈ sources ∧ extractFile g.1.path g.1.content = .ok g.2 := by
  simp only [good, List.mem_filterMap, goodOf_eq_some]
  constructor
  · rintro ⟨f, hf, rfl, hok⟩
    exact ⟨hf, hok⟩
  · rintro ⟨hmem, hok⟩
    exact ⟨g.1, hmem, rfl, hok⟩

theorem good_files_sublist (sources : List SourceFile) :
    List.Sublist ((good sources).map Prod.fst) sources := by
  induction sources with
  | nil => exact .slnil
  | cons f rest ih =>
    rw [good, List.filterMap_cons]
    split
    · exact ih.cons f
    · next g hg =>
      rw [List.map_cons, (goodOf_eq_some.mp hg).1]
      exact ih.cons_cons f

section Run

variable (sources : List SourceFile) (aliases : Resolve.Aliases) (repositoryId : String)
  (cycleDepth : Nat)

/-- The paths that imports can lead to. -/
def known : List String := ((good sources).map Prod.fst).map SourceFile.path

/-- The symbols of a run. -/
def symbolsOf : List Symbol := (good sources).flatMap fun g => g.2.symbols

/-- The references of a run with the files that imports lead to. -/
def resolvedOf : List Reference :=
  ((good sources).flatMap fun g => g.2.references).map
    (Resolve.resolveReference (known sources) aliases)

/-- The links of a run. -/
def buildOf : Graph.Build :=
  Graph.build (known sources) (symbolsOf sources) (resolvedOf sources aliases) repositoryId

/-- A run from its parts. It does not matter how the files are shared out. -/
theorem runShared_eq {pool : Extractors} (hpool : ∀ i, (pool i).Used)
    {jobs : List (Nat × SourceFile)}
    (hjobs : jobs.map Prod.snd = sources) :
    runShared pool jobs aliases repositoryId cycleDepth =
      { files := (good sources).map Prod.fst
        failures := failures sources
        symbols := symbolsOf sources
        references := (buildOf sources aliases repositoryId).references
        resolved := ((resolvedOf sources aliases).filter Resolve.isResolvedImport).length
        build := buildOf sources aliases repositoryId
        detection := Graph.detectCycles cycleDepth
          (.ofEdges (buildOf sources aliases repositoryId).edges) } := by
  subst hjobs
  have hshare : share pool jobs =
      (jobs.map Prod.snd).map fun f => (f, extractFile f.path f.content) := by
    rw [share_eq hpool, List.map_map]
    rfl
  simp only [buildOf, known, symbolsOf, resolvedOf, failures, ← split_good]
  rw [runShared, hshare]

theorem run_eq :
    run sources aliases repositoryId cycleDepth =
      { files := (good sources).map Prod.fst
        failures := failures sources
        symbols := symbolsOf sources
        references := (buildOf sources aliases repositoryId).references
        resolved := ((resolvedOf sources aliases).filter Resolve.isResolvedImport).length
        build := buildOf sources aliases repositoryId
        detection := Graph.detectCycles cycleDepth
          (.ofEdges (buildOf sources aliases repositoryId).edges) } := by
  rw [run]
  apply runShared_eq
  · exact fun _ => .new
  · simp [Function.comp_def]

/-- What a run hands to the store. -/
def Run.stored (run : Run) : Store.Run := ⟨run.files, run.symbols, run.references, run.build.edges⟩

theorem run_stored :
    (run sources aliases repositoryId cycleDepth).stored =
      { files := (good sources).map Prod.fst
        symbols := symbolsOf sources
        references := (buildOf sources aliases repositoryId).references
        edges := (buildOf sources aliases repositoryId).edges } := by
  rw [run_eq]
  rfl

end Run

variable {sources : List SourceFile} {aliases : Resolve.Aliases} {repositoryId : String}
  {cycleDepth : Nat}

theorem mem_known {path : String} :
    path ∈ known sources ↔ ∃ g ∈ good sources, g.1.path = path := by
  simp [known]

theorem nodup_known (h : (sources.map SourceFile.path).Nodup) : (known sources).Nodup :=
  h.sublist ((good_files_sublist sources).map _)

/-- A symbol of a run is in a file of the run. -/
theorem path_of_mem_symbolsOf {s : Symbol} (h : s ∈ symbolsOf sources) :
    s.filePath ∈ known sources := by
  obtain ⟨g, hg, hs⟩ := List.mem_flatMap.mp h
  have hpath := (extractFile_belongsTo (mem_good.mp hg).2).symbol_path s hs
  exact mem_known.mpr ⟨g, hg, hpath.symm⟩

/-- Keys that name their file are told apart by the files, if they differ within each file. -/
theorem nodup_keys {α κ : Type} (h : (sources.map SourceFile.path).Nodup)
    (items : Extraction → List α) (key : α → κ) (file : κ → String)
    (hkeys : ∀ g ∈ good sources, ((items g.2).map key).Nodup)
    (hfile : ∀ g ∈ good sources, ∀ x ∈ items g.2, file (key x) = g.1.path) :
    (((good sources).flatMap fun g => items g.2).map key).Nodup := by
  rw [List.map_flatMap, List.nodup_flatMap]
  refine ⟨hkeys, ?_⟩
  have hpaths := nodup_known h
  rw [known, List.map_map, List.Nodup, List.pairwise_map] at hpaths
  apply hpaths.imp_of_mem
  intro a b ha hb hne k hka hkb
  obtain ⟨x, hx, rfl⟩ := List.mem_map.mp hka
  obtain ⟨y, hy, hkey⟩ := List.mem_map.mp hkb
  refine hne (?_ : a.1.path = b.1.path)
  rw [← hfile a ha x hx, ← hfile b hb y hy, hkey]

/-- Distinct files have distinct symbol keys. -/
theorem nodup_symbolsOf (h : (sources.map SourceFile.path).Nodup) :
    ((symbolsOf sources).map Symbol.key).Nodup := by
  refine nodup_keys h Extraction.symbols Symbol.key SymbolKey.filePath (fun g hg => ?_) ?_
  · exact (extractFile_belongsTo (mem_good.mp hg).2).symbol_keys
  · exact fun g hg => (extractFile_belongsTo (mem_good.mp hg).2).symbol_path

/-- A reference before it is linked: it stands in a file of the run, has no target yet, and the
symbol around it is one of the run. -/
theorem mem_resolvedOf {r : Reference} (h : r ∈ resolvedOf sources aliases) :
    r.filePath ∈ known sources ∧ r.targetSymbol = none ∧
      ∀ key, r.enclosingKey = some key → ∃ s ∈ symbolsOf sources, s.key = key := by
  obtain ⟨found, hfound, rfl⟩ := List.mem_map.mp h
  obtain ⟨g, hg, hr⟩ := List.mem_flatMap.mp hfound
  have hx := extractFile_belongsTo (mem_good.mp hg).2
  refine ⟨?_, ?_, ?_⟩
  · rw [Resolve.resolveReference_eq]
    exact mem_known.mpr ⟨g, hg, (hx.reference_path found hr).symm⟩
  · rw [Resolve.resolveReference_eq]
    exact hx.unlinked found hr
  · intro key hkey
    rw [Resolve.resolveReference_enclosingKey] at hkey
    obtain ⟨s, hs, rfl⟩ := List.mem_map.mp (hx.enclosing found hr key hkey)
    exact ⟨s, List.mem_flatMap.mpr ⟨g, hg, hs⟩, rfl⟩

theorem count_key_of_mem (h : (sources.map SourceFile.path).Nodup) {key : SymbolKey}
    (hkey : ∃ s ∈ symbolsOf sources, s.key = key) :
    ((symbolsOf sources).map Symbol.key).count key = 1 := by
  obtain ⟨s, hs, rfl⟩ := hkey
  exact List.count_eq_one_of_mem (nodup_symbolsOf h) (List.mem_map_of_mem hs)

/-- What is known of an edge of a run. -/
theorem edge_of_run {e : Edge}
    (h : e ∈ (buildOf sources aliases repositoryId).edges) :
    e.repositoryId = repositoryId ∧
      (∃ source ∈ known sources, ∃ target ∈ known sources,
        e.fromFile = some source ∧ e.toFile = some target) ∧
      ∀ key, e.fromSymbol = some key ∨ e.toSymbol = some key →
        ∃ s ∈ symbolsOf sources, s.key = key := by
  obtain ⟨r, hr, hlink⟩ := Graph.exists_link_of_mem_edges h
  obtain ⟨hpath, -, henclosing⟩ := mem_resolvedOf hr
  obtain ⟨-, ⟨target, htarget, rfl⟩ | ⟨s, hs, rfl⟩⟩ := Graph.edge_of_link hlink
  · refine ⟨rfl, ⟨_, hpath, _, htarget, rfl, rfl⟩, ?_⟩
    rintro key (hkey | hkey) <;> simp [Edge.fileImport] at hkey
  · refine ⟨rfl, ⟨_, hpath, _, path_of_mem_symbolsOf hs, rfl, rfl⟩, ?_⟩
    rintro key (hkey | hkey)
    · exact henclosing key hkey
    · exact ⟨s, hs, Option.some.inj hkey⟩

/-- A run over files with distinct paths meets what the store asks of it. -/
theorem run_accepted (h : (sources.map SourceFile.path).Nodup) :
    (run sources aliases repositoryId cycleDepth).stored.Accepted := by
  rw [run_stored]
  refine ⟨fun s hs => path_of_mem_symbolsOf hs, ?_, ?_, ?_, ?_, ?_⟩
  · intro r hr
    rw [buildOf, Graph.build_references] at hr
    obtain ⟨found, hfound, rfl⟩ := List.mem_map.mp hr
    rw [Graph.setTarget_filePath]
    exact (mem_resolvedOf hfound).1
  · intro e he
    obtain ⟨-, ⟨source, -, target, -, hfrom, hto⟩, -⟩ := edge_of_run he
    simp [Edge.isWellFormed, hfrom, hto]
  · intro e he
    exact (edge_of_run he).2.1
  · intro r hr key hkey
    rw [buildOf, Graph.build_references] at hr
    obtain ⟨found, hfound, rfl⟩ := List.mem_map.mp hr
    rw [Graph.setTarget_targetSymbol, (mem_resolvedOf hfound).2.1, Option.or_none] at hkey
    exact count_key_of_mem h (Graph.target_of_link hkey)
  · intro e he key hkey
    exact count_key_of_mem h ((edge_of_run he).2.2 key hkey)

end Pipeline

end CodeIndex
