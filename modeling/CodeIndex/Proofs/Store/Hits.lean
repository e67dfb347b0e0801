import CodeIndex.Proofs.Graph.Followed
import CodeIndex.Proofs.Store.Search

/-!
Two ways to the imports of a file. A hit of a search reads them off the edge rows that start at the
id of its file. A query builds a graph of paths from all imports of the repository and walks it. The
edges of a repository stay within it, and there a path names one file, so the ways lead to the same
files: those one step away, and the file itself where it imports itself.
-/
namespace CodeIndex.Graph

variable {pairs : List (String × String)} {start x : String} {depth : Nat} {includeTests : Bool}

/-- One step away is what an edge leads to, apart from the start. -/
theorem atDistance_one_iff {g : Adjacency} :
    AtDistance g includeTests start 1 x ↔ x ≠ start ∧ Leads g includeTests start x := by
  rw [atDistance_succ_iff]
  simp only [atDistance_zero, exists_eq_left, Nat.le_zero]
  exact and_comm

/-- The first level of a walk, in order, also where the walk finds no level at all. -/
theorem direct_traverse (hone : 1 ≤ depth) :
    let levels := (traverse (.ofPairs pairs) start depth includeTests).levels
    (Store.Dependencies.direct levels).Pairwise (· < ·) ∧
      ∀ x, x ∈ Store.Dependencies.direct levels ↔
        x ≠ start ∧ (start, x) ∈ pairs ∧ (includeTests = true ∨ isTestFile x = false) := by
  intro levels
  have hfinds := finds_traverse pairs start depth includeTests
  have hnext : ∀ x, AtDistance (.ofPairs pairs) includeTests start 1 x ↔
      x ≠ start ∧ (start, x) ∈ pairs ∧ (includeTests = true ∨ isTestFile x = false) := by
    intro x
    rw [atDistance_one_iff, Leads, Adjacency.hasEdge_ofPairs]
  unfold Store.Dependencies.direct
  split
  · next l hl =>
    have hdepth : l.depth = 1 := by simpa using List.find?_some hl
    obtain ⟨-, hsorted, hfiles⟩ := hfinds.levels l (List.mem_of_find?_eq_some hl)
    exact ⟨hsorted, fun x => by rw [hfiles, hdepth, hnext]⟩
  · next hnone =>
    refine ⟨.nil, fun x => iff_of_false List.not_mem_nil fun hx => ?_⟩
    obtain ⟨l, hl, hdepth⟩ := hfinds.all 1 x Nat.one_pos (by omega) ((hnext x).mpr hx)
    exact List.find?_eq_none.mp hnone l hl (beq_iff_eq.mpr hdepth)

end CodeIndex.Graph

namespace CodeIndex.Store

open CodeIndex.Graph

variable {s : Store} {f : FileRow} {e : EdgeRow} {hit : Hit} {hits : List Hit}
  {asked : Option String} {term x : String} {limit depth : Nat}

/-! Imports by id and by path -/

theorem mem_importsOf {fileId : Id} : x ∈ s.importsOf fileId ↔
    ∃ e ∈ s.edges, e.kind = .fileImport ∧ e.fromFileId = some fileId ∧
      s.filePath? e.toFileId = some x := by
  rw [importsOf, (sortDistinct_spec _).2]
  simp [List.mem_filterMap, List.mem_filter, and_assoc]

theorem mem_importPairs {repositoryId : Id} {a b : String} :
    (a, b) ∈ s.importPairs repositoryId ↔
      ∃ e ∈ s.edges, e.repositoryId = repositoryId ∧ e.kind = .fileImport ∧
        s.filePath? e.fromFileId = some a ∧ s.filePath? e.toFileId = some b := by
  simp [importPairs, List.mem_filterMap, List.mem_filter, and_assoc, Option.bind_eq_some_iff]

theorem Sound.filePath?_of_mem (h : s.Sound) (hf : f ∈ s.files) :
    s.filePath? (some f.id) = some f.path := by
  simp [filePath?, h.fileById?_eq_some.mpr ⟨hf, rfl⟩]

/-- An edge that starts at a file belongs to the repository of the file. -/
theorem Sound.edge_owner (h : s.Sound) (he : e ∈ s.edges) (hf : f ∈ s.files)
    (hfrom : e.fromFileId = some f.id) : e.repositoryId = f.repositoryId := by
  obtain ⟨g, hg, hid, howner⟩ := (h.edge_fits e he).files f.id (.inl hfrom)
  rw [← howner, eq_of_key h.file_ids hg hf hid]

/-- Among the edges of its repository, a file is known by its path. -/
theorem Sound.fromFileId_eq_iff (h : s.Sound) (he : e ∈ s.edges) (hf : f ∈ s.files)
    (howner : e.repositoryId = f.repositoryId) :
    s.filePath? e.fromFileId = some f.path ↔ e.fromFileId = some f.id := by
  constructor
  · intro hpath
    obtain ⟨id, hid, g, hg, hsame⟩ :
        ∃ id, e.fromFileId = some id ∧ ∃ g, s.fileById? id = some g ∧ g.path = f.path := by
      simpa [filePath?, Option.bind_eq_some_iff] using hpath
    obtain ⟨hmem, rfl⟩ := h.fileById?_eq_some.mp hg
    obtain ⟨g', hg', hid', hrepository⟩ := (h.edge_fits e he).files g.id (.inl hid)
    obtain rfl := eq_of_key h.file_ids hg' hmem hid'
    have hplace : filePlace g' = filePlace f := Prod.ext (hrepository.trans howner) hsame
    rw [hid, eq_of_key h.file_places hmem hf hplace]
  · intro hid
    rw [hid, h.filePath?_of_mem hf]

theorem Sound.mem_importsOf_iff (h : s.Sound) (hf : f ∈ s.files) :
    x ∈ s.importsOf f.id ↔ (f.path, x) ∈ s.importPairs f.repositoryId := by
  rw [mem_importsOf, mem_importPairs]
  constructor
  · rintro ⟨e, he, hkind, hfrom, hto⟩
    have howner := h.edge_owner he hf hfrom
    exact ⟨e, he, howner, hkind, (h.fromFileId_eq_iff he hf howner).mpr hfrom, hto⟩
  · rintro ⟨e, he, howner, hkind, hfrom, hto⟩
    exact ⟨e, he, hkind, (h.fromFileId_eq_iff he hf howner).mp hfrom, hto⟩

/-! Hits -/

/-- A hit tells of a file that is stored, by its path and the repository that owns it. -/
theorem exists_file_of_mem_search (hsearch : s.search term asked limit = .ok hits)
    (hhit : hit ∈ hits) :
    ∃ f ∈ s.files, hit.path = f.path ∧ Sync.ownerOf s f.repositoryId = some hit.repository ∧
      hit.dependencies = s.importsOf f.id := by
  rcases search_cases s term asked limit with
    ⟨-, hnothing⟩ | ⟨-, hrefused⟩ | ⟨text, ranked, -, hfound, -, rankOf, hranked⟩
  · obtain rfl := Except.ok.inj (hsearch.symm.trans hnothing)
    cases hhit
  · rw [hsearch] at hrefused
    cases hrefused
  · obtain rfl := Except.ok.inj (hsearch.symm.trans hfound)
    obtain ⟨x, hx, rfl⟩ := List.mem_map.mp hhit
    obtain ⟨f, r, hsought, rfl⟩ := (hranked x).mp (mem_of_mem_limited hx)
    refine ⟨f, hsought.stored, rfl, ?_, rfl⟩
    rw [Sync.ownerOf]
    exact congrArg _ hsought.owner

/-- What a hit names as imports of its file, apart from the file itself, are the direct dependencies
that a query about the file finds, at any depth. Both lists are in order and without repetition. -/
theorem search_dependencies (h : Reachable s) (hsearch : s.search term asked limit = .ok hits)
    (hhit : hit ∈ hits) (hone : 1 ≤ depth) (hdepth : depth ≤ maxQueryDepth) :
    ∃ found, s.queryDependencies hit.path .dependencies depth true (some hit.repository) =
        .ok found ∧
      hit.dependencies.filter (· != hit.path) = Dependencies.direct found.dependencies ∧
      hit.dependencies.Pairwise (· < ·) ∧
      (Dependencies.direct found.dependencies).Pairwise (· < ·) := by
  have hsound := h.sound
  obtain ⟨f, hf, hpath, howner, himports⟩ := exists_file_of_mem_search hsearch hhit
  obtain ⟨r, hr, hlocate, -, hname⟩ := hsound.exists_locate hf (.inr howner.symm)
  have hid : r.id = f.repositoryId := by
    obtain ⟨r', hr', hname'⟩ := Option.map_eq_some_iff.mp howner
    obtain ⟨hmem, hid⟩ := hsound.repositoryById?_eq_some.mp hr'
    have hsame : r'.fullName = r.fullName := hname'.trans (hname _ rfl)
    rw [← hid, eq_of_key hsound.repository_names hmem hr hsame]
  obtain ⟨found, hquery, -, hdown⟩ :=
    queryDependencies_levels hlocate hone hdepth .dependencies true
  obtain ⟨hsorted, hfiles⟩ := hdown rfl ▸ direct_traverse hone
  have hlisted : hit.dependencies.Pairwise (· < ·) := by
    rw [himports]
    exact (sortDistinct_spec _).1
  refine ⟨found, hpath ▸ hquery, ?_, hlisted, hsorted⟩
  refine (hlisted.filter _).eq_of_mem_iff hsorted fun x => ?_
  rw [hfiles, List.mem_filter, himports, hsound.mem_importsOf_iff hf, hid, hpath]
  simp [and_comm]

/-- A file that imports itself and another one, which imports it back. -/
def importingRun : Run where
  files := [⟨"a.ts", "main", .typescript, 4, "", 0⟩, ⟨"b.ts", "", .typescript, 0, "", 0⟩]
  symbols := []
  references := []
  edges := [("a.ts", "a.ts"), ("a.ts", "b.ts"), ("b.ts", "a.ts")].map
    fun p => .fileImport "" p.1 p.2

/-- The store with this run alone. -/
def importing : Store where
  origin := 0
  nextSerial := 2
  repositories := [⟨.given "1", "r", "r", none, "main", some 0⟩]
  files := importingRun.files.zipIdx.map fun p =>
    ⟨.made 0 p.2, .given "1", p.1.path, p.1.content, .typescript, p.1.size, "", 0⟩
  edges := (importingRun.edges.zip [(0, 0), (0, 1), (1, 0)]).map fun p =>
    ⟨.given "1", p.1.key, .fileImport, some (.made 0 p.2.1), some (.made 0 p.2.2), none, none⟩

theorem reachable_importing : Reachable importing :=
  .step (.storeRepository (.ofFullName "r" "") (.given "1") 0 importingRun) (.empty 0)
    (by intro n hn; cases hn) rfl

theorem search_dependencies_importing : Reachable importing ∧
    ∃ hits hit, importing.search "main" none 5 = .ok hits ∧ hit ∈ hits ∧ hit.path = "a.ts" ∧
      hit.dependencies = ["a.ts", "b.ts"] ∧
      ∃ found, importing.queryDependencies "a.ts" .dependencies maxQueryDepth true
          (some hit.repository) = .ok found ∧
        Dependencies.direct found.dependencies = ["b.ts"] := by
  obtain ⟨hits, hsearch⟩ : ∃ hits, importing.search "main" none 5 = .ok hits := ⟨_, rfl⟩
  have hanswer : ((importing.search "main" none 5).map fun hits =>
      hits.map fun x => (x.path, x.dependencies)).toOption =
        some [("a.ts", ["a.ts", "b.ts"])] := by decide +kernel
  rw [hsearch] at hanswer
  have hall : hits.map (fun x => (x.path, x.dependencies)) = [("a.ts", ["a.ts", "b.ts"])] :=
    Option.some.inj hanswer
  obtain ⟨hit, rfl, hsame⟩ := List.map_eq_singleton_iff.mp hall
  obtain ⟨hpath, hdependencies⟩ := Prod.mk.inj hsame
  obtain ⟨found, hquery, hdirect, -⟩ :=
    search_dependencies reachable_importing hsearch (List.mem_singleton_self hit)
      (show 1 ≤ maxQueryDepth by decide) (Nat.le_refl _)
  refine ⟨reachable_importing, [hit], hit, hsearch, List.mem_singleton_self _, hpath,
    hdependencies, found, hpath ▸ hquery, ?_⟩
  rw [← hdirect, hdependencies, hpath]
  rfl

end CodeIndex.Store
