import CodeIndex.Proofs.Graph.Adjacency
import CodeIndex.Proofs.Graph.EdgeKey
import CodeIndex.Proofs.Indexing

/-!
A run depends on the set of its good files alone: those that can be read and that parse. Two
listings with the same good files give runs whose parts are permutations of each other. Per file
the order is that of the file, a name is looked up in one file or counted over all of them, and of
edges only the keys are compared, so no order is left to depend on.
-/
namespace CodeIndex

/-! Lists that are cut into parts with owners -/

section Parts

variable {α β : Type} {parts parts' : List (String × β)}

/-- The values of one owner stand in the parts of that owner. -/
theorem filter_flatMap_owner {f : β → List α} {owner : α → String}
    (h : ∀ p ∈ parts, ∀ a ∈ f p.2, owner a = p.1) (path : String) :
    (parts.flatMap fun p => f p.2).filter (fun a => owner a == path) =
      (parts.filter fun p => p.1 == path).flatMap fun p => f p.2 := by
  induction parts with
  | nil => rfl
  | cons p rest ih =>
    have hrest := ih fun q hq => h q (List.mem_cons_of_mem _ hq)
    rw [List.flatMap_cons, List.filter_append, hrest]
    by_cases hpath : p.1 = path
    · have hall : (f p.2).filter (fun a => owner a == path) = f p.2 := by
        rw [List.filter_eq_self]
        intro a ha
        simp [h p List.mem_cons_self a ha, hpath]
      rw [hall, List.filter_cons_of_pos (by simpa using hpath), List.flatMap_cons]
    · have hnone : (f p.2).filter (fun a => owner a == path) = [] := by
        rw [List.filter_eq_nil_iff]
        intro a ha
        simp [h p List.mem_cons_self a ha, hpath]
      rw [hnone, List.filter_cons_of_neg (by simpa using hpath), List.nil_append]

/-- Where no owner has two parts, a permutation leaves the parts of one owner alone. -/
theorem filter_eq_of_perm (hnodup : (parts.map Prod.fst).Nodup) (hperm : parts.Perm parts')
    (path : String) :
    (parts.filter fun p => p.1 == path) = parts'.filter fun p => p.1 == path := by
  have hfilter := hperm.filter fun p => p.1 == path
  have hsub : List.Sublist (parts.filter fun p => p.1 == path) parts := List.filter_sublist
  have howner : ∀ p ∈ parts.filter (fun p => p.1 == path), p.1 = path := by
    intro p hp
    simpa using (List.mem_filter.mp hp).2
  generalize (parts.filter fun p => p.1 == path) = xs at hfilter hsub howner ⊢
  match xs, hfilter, hsub, howner with
  | [], hfilter, _, _ => exact hfilter.nil_eq
  | [p], hfilter, _, _ => exact List.singleton_perm.mp hfilter
  | p :: q :: rest, _, hsub, howner =>
    -- Two parts of one owner would repeat its name.
    have hpair := (hsub.map Prod.fst).nodup hnodup
    rw [List.map_cons, List.map_cons, howner p (by simp), howner q (by simp)] at hpair
    simp at hpair

end Parts

/-! What a link depends on -/

namespace Resolve

theorem resolveReference_congr {known known' : List String} (h : ∀ p, p ∈ known ↔ p ∈ known')
    (aliases : Aliases) : resolveReference known aliases = resolveReference known' aliases := by
  have hcontains : known.contains = known'.contains := by
    funext p
    rw [Bool.eq_iff_iff, List.contains_iff_mem, List.contains_iff_mem, h]
  unfold resolveReference resolve resolveImport
  rw [hcontains]

end Resolve

namespace Graph

variable {known known' : List String} {symbols symbols' : List Symbol}

theorem inFile?_congr {file : String}
    (h : symbols.filter (fun s => s.filePath == file) = symbols'.filter fun s => s.filePath == file)
    (name : String) : inFile? symbols file name = inFile? symbols' file name := by
  have hsplit : ∀ xs : List Symbol, (xs.filter fun s => s.filePath == file && s.name == name) =
      (xs.filter fun s => s.filePath == file).filter fun s => s.name == name := by
    intro xs
    rw [List.filter_filter]
    simp only [Bool.and_comm]
  unfold inFile?
  rw [hsplit, hsplit, h]

/-- A name is looked up in one file, or counted over all of them. -/
theorem lookup_congr (hperm : symbols.Perm symbols') {file : String}
    (hfile : ∀ name, inFile? symbols file name = inFile? symbols' file name) (name : String) :
    lookup symbols name file = lookup symbols' name file := by
  have hnamed := hperm.filter fun s => s.name == name
  unfold lookup
  rw [hfile]
  cases inFile? symbols' file name with
  | some s => rfl
  | none =>
    dsimp only
    generalize (symbols.filter fun s => s.name == name) = xs at hnamed ⊢
    generalize (symbols'.filter fun s => s.name == name) = ys at hnamed ⊢
    have hlength := hnamed.length_eq
    rcases xs with _ | ⟨a, _ | ⟨b, rest⟩⟩
    · rw [← hnamed.nil_eq]
    · rw [← List.singleton_perm.mp hnamed]
    · rcases ys with _ | ⟨a', _ | ⟨b', rest'⟩⟩
      · cases hlength
      · cases hlength
      · simp only [hlength]

theorem linkOf_congr (hknown : ∀ p, p ∈ known ↔ p ∈ known') (hperm : symbols.Perm symbols')
    (hfile : ∀ file name, inFile? symbols file name = inFile? symbols' file name)
    (repositoryId : String) (r : Reference) :
    linkOf known symbols repositoryId r = linkOf known' symbols' repositoryId r := by
  have hcontains : ∀ p, known.contains p = known'.contains p := by
    intro p
    rw [Bool.eq_iff_iff, List.contains_iff_mem, List.contains_iff_mem, hknown]
  unfold linkOf
  simp only [hcontains, hfile, lookup_congr hperm (hfile r.filePath)]

/-- A link as it is made for another repository. -/
def Link.forRepository (id : String) : Link → Link
  | fileImport e t => fileImport { e with repositoryId := id } t
  | usage e t => usage { e with repositoryId := id } t
  | link => link

/-- The repository stands in the edge and nowhere else. -/
theorem linkOf_forRepository (known : List String) (symbols : List Symbol) (id id' : String)
    (r : Reference) :
    linkOf known symbols id' r = (linkOf known symbols id r).forRepository id' := by
  unfold linkOf
  split
  · rfl
  · split
    · split
      · rfl
      · split <;> rfl
    · split
      · split <;> rfl
      · rfl

namespace Link

variable (link : Link) (id : String)

theorem target?_forRepository : (link.forRepository id).target? = link.target? := by
  cases link <;> rfl

theorem linksImport_forRepository : (link.forRepository id).linksImport = link.linksImport := by
  cases link <;> rfl

theorem forRepository_eq_ambiguous : link.forRepository id = .ambiguous ↔ link = .ambiguous := by
  cases link <;> simp [forRepository]

theorem forRepository_eq_unmatched : link.forRepository id = .unmatched ↔ link = .unmatched := by
  cases link <;> simp [forRepository]

theorem edge?_forRepository :
    (link.forRepository id).edge? = link.edge?.map fun e => { e with repositoryId := id } := by
  cases link <;> rfl

end Link

end Graph

namespace Pipeline

open Extract Indexing

/-! The good files of a listing -/

/-- A path of a listing that can be read and that parses. -/
structure Good (t : Files.Tree) (root : Files.Location) (paths : List String)
    (path text : String) : Prop where
  listed : path ∈ paths
  read : t.readText root path = .ok text
  parses : ∃ p, parseFile path text = .ok p

/-- What a run takes from its good files: their paths with what they hold. -/
def parts (sources : List SourceFile) : List (String × Extraction) :=
  (good sources).map fun g => (g.1.path, g.2)

theorem known_eq (sources : List SourceFile) : known sources = (parts sources).map Prod.fst := by
  simp [known, parts, Function.comp_def]

theorem symbolsOf_eq (sources : List SourceFile) :
    symbolsOf sources = (parts sources).flatMap fun p => p.2.symbols := by
  simp [symbolsOf, parts, List.flatMap_map]

/-- The references of a run as they were extracted. -/
def extractedOf (sources : List SourceFile) : List Reference :=
  (parts sources).flatMap fun p => p.2.references

theorem resolvedOf_eq (sources : List SourceFile) (aliases : Resolve.Aliases) :
    resolvedOf sources aliases =
      (extractedOf sources).map (Resolve.resolveReference (known sources) aliases) := by
  simp [resolvedOf, extractedOf, parts, List.flatMap_map]

theorem mem_parts {sources : List SourceFile} {path : String} {x : Extraction} :
    (path, x) ∈ parts sources ↔
      ∃ f ∈ sources, f.path = path ∧ extractFile path f.content = .ok x := by
  simp only [parts, List.mem_map, mem_good, Prod.mk.injEq]
  constructor
  · rintro ⟨g, ⟨hmem, hok⟩, rfl, rfl⟩
    exact ⟨g.1, hmem, rfl, hok⟩
  · rintro ⟨f, hf, rfl, hok⟩
    exact ⟨(f, x), ⟨hf, hok⟩, rfl, rfl⟩

theorem belongsTo_of_mem_parts {sources : List SourceFile} {p : String × Extraction}
    (h : p ∈ parts sources) : p.2.BelongsTo p.1 := by
  obtain ⟨f, -, -, hok⟩ := mem_parts.mp h
  exact extractFile_belongsTo hok

theorem mem_sourcesOf {t : Files.Tree} {root : Files.Location} {paths : List String} {now : Int}
    {f : SourceFile} :
    f ∈ sourcesOf t root paths now ↔
      ∃ path ∈ paths, ∃ text, t.readText root path = .ok text ∧ f = .of path text now := by
  induction paths with
  | nil => simp [sourcesOf, readSources]
  | cons path rest ih =>
    rw [sourcesOf_cons]
    cases hread : t.readText root path with
    | ok text => simp [ih, hread]
    | error e => simp [ih, hread]

theorem mem_parts_sourcesOf {t : Files.Tree} {root : Files.Location} {paths : List String}
    {now : Int} {path : String} {x : Extraction} :
    (path, x) ∈ parts (sourcesOf t root paths now) ↔
      ∃ text, Good t root paths path text ∧ extractFile path text = .ok x := by
  rw [mem_parts]
  constructor
  · rintro ⟨f, hf, rfl, hok⟩
    obtain ⟨path, hpath, text, hread, rfl⟩ := mem_sourcesOf.mp hf
    obtain ⟨p, hp, -⟩ := extractFile_eq_ok hok
    exact ⟨text, ⟨hpath, hread, p, hp⟩, hok⟩
  · rintro ⟨text, hgood, hok⟩
    exact ⟨_, mem_sourcesOf.mpr ⟨path, hgood.listed, text, hgood.read, rfl⟩, rfl, hok⟩

/-- The same good files are the same parts in some order. -/
theorem parts_perm {sources sources' : List SourceFile}
    (hpaths : (sources.map SourceFile.path).Nodup) (hpaths' : (sources'.map SourceFile.path).Nodup)
    (h : ∀ p, p ∈ parts sources ↔ p ∈ parts sources') : (parts sources).Perm (parts sources') := by
  have hnodup : ∀ {xs : List SourceFile}, (xs.map SourceFile.path).Nodup → (parts xs).Nodup := by
    intro xs hxs
    have hknown := nodup_known hxs
    rw [known_eq] at hknown
    exact hknown.of_map _
  exact (List.perm_ext_iff_of_nodup (hnodup hpaths) (hnodup hpaths')).mpr h

/-! Two runs over the same good files -/

/-- What two runs over the same good files have in common. The edges carry the id of their
repository, which may differ. -/
structure Agree (a b : Run) : Prop where
  symbols : ∀ path, a.symbols.filter (fun s => s.filePath == path) =
    b.symbols.filter fun s => s.filePath == path
  references : ∀ path, a.references.filter (fun r => r.filePath == path) =
    b.references.filter fun r => r.filePath == path
  linkedImports : a.build.linkedImports = b.build.linkedImports
  ambiguous : a.build.ambiguous = b.build.ambiguous
  unmatched : a.build.unmatched = b.build.unmatched
  edgeKeys : ∀ key, key ∈ a.build.edges.map Edge.key ↔ key ∈ b.build.edges.map Edge.key
  cycles : (∀ f ∈ a.files, '|' ∉ f.path.toList) → a.detection = b.detection

section Same

variable {sources sources' : List SourceFile} (hperm : (parts sources).Perm (parts sources'))
include hperm

theorem mem_known_of_perm (path : String) : path ∈ known sources ↔ path ∈ known sources' := by
  rw [known_eq, known_eq]
  exact (hperm.map Prod.fst).mem_iff

theorem symbolsOf_perm : (symbolsOf sources).Perm (symbolsOf sources') := by
  rw [symbolsOf_eq, symbolsOf_eq]
  exact hperm.flatMap_right _

theorem extractedOf_perm : (extractedOf sources).Perm (extractedOf sources') :=
  hperm.flatMap_right _

theorem resolvedOf_perm (aliases : Resolve.Aliases) :
    (resolvedOf sources aliases).Perm (resolvedOf sources' aliases) := by
  rw [resolvedOf_eq, resolvedOf_eq, Resolve.resolveReference_congr (mem_known_of_perm hperm)]
  exact (extractedOf_perm hperm).map _

variable (hpaths : (sources.map SourceFile.path).Nodup)
include hpaths

theorem symbolsOf_filter (path : String) :
    (symbolsOf sources).filter (fun s => s.filePath == path) =
      (symbolsOf sources').filter fun s => s.filePath == path := by
  have hnodup := nodup_known hpaths
  rw [known_eq] at hnodup
  rw [symbolsOf_eq, symbolsOf_eq,
    filter_flatMap_owner fun p hp => (belongsTo_of_mem_parts hp).symbol_path,
    filter_flatMap_owner fun p hp => (belongsTo_of_mem_parts hp).symbol_path,
    filter_eq_of_perm hnodup hperm]

theorem extractedOf_filter (path : String) :
    (extractedOf sources).filter (fun r => r.filePath == path) =
      (extractedOf sources').filter fun r => r.filePath == path := by
  have hnodup := nodup_known hpaths
  rw [known_eq] at hnodup
  rw [extractedOf, extractedOf,
    filter_flatMap_owner fun p hp => (belongsTo_of_mem_parts hp).reference_path,
    filter_flatMap_owner fun p hp => (belongsTo_of_mem_parts hp).reference_path,
    filter_eq_of_perm hnodup hperm]

/-- A reference is linked alike in both runs. -/
theorem linkOf_same (id id' : String) (r : Reference) :
    Graph.linkOf (known sources') (symbolsOf sources') id' r =
      (Graph.linkOf (known sources) (symbolsOf sources) id r).forRepository id' := by
  rw [← Graph.linkOf_forRepository]
  symm
  exact Graph.linkOf_congr (mem_known_of_perm hperm) (symbolsOf_perm hperm)
    (fun file name => Graph.inFile?_congr (symbolsOf_filter hperm hpaths file) name) id' r

/-- As many references give a link of some kind. -/
theorem links_length (aliases : Resolve.Aliases) (id id' : String) (test : Graph.Link → Bool)
    (htest : ∀ link id, test (Graph.Link.forRepository id link) = test link) :
    (((resolvedOf sources aliases).map
        (Graph.linkOf (known sources) (symbolsOf sources) id)).filter test).length =
      (((resolvedOf sources' aliases).map
        (Graph.linkOf (known sources') (symbolsOf sources') id')).filter test).length := by
  rw [List.filter_map, List.filter_map, List.length_map, List.length_map]
  have hsame : (test ∘ Graph.linkOf (known sources') (symbolsOf sources') id') =
      test ∘ Graph.linkOf (known sources) (symbolsOf sources) id := by
    funext r
    rw [Function.comp_apply, Function.comp_apply, linkOf_same hperm hpaths id id', htest]
  rw [hsame]
  exact ((resolvedOf_perm hperm aliases).filter _).length_eq

/-- The edges that both runs ask for differ in the repository alone. -/
theorem edgesOf_perm (aliases : Resolve.Aliases) (id id' : String) :
    ((Graph.edgesOf (known sources) (symbolsOf sources) id (resolvedOf sources aliases)).map
        fun e => { e with repositoryId := id' }).Perm
      (Graph.edgesOf (known sources') (symbolsOf sources') id' (resolvedOf sources' aliases)) := by
  unfold Graph.edgesOf
  rw [List.map_filterMap]
  have hsame : (fun r => (Graph.linkOf (known sources') (symbolsOf sources') id' r).edge?) =
      fun r => (Graph.linkOf (known sources) (symbolsOf sources) id r).edge?.map
        fun e => { e with repositoryId := id' } := by
    funext r
    rw [linkOf_same hperm hpaths id id', Graph.Link.edge?_forRepository]
  rw [hsame]
  exact (resolvedOf_perm hperm aliases).filterMap _

/-- Within a file the references of both runs are the same, targets included. -/
theorem references_filter (aliases : Resolve.Aliases) (id id' path : String) :
    (buildOf sources aliases id).references.filter (fun r => r.filePath == path) =
      (buildOf sources' aliases id').references.filter fun r => r.filePath == path := by
  have hresolved : ∀ (xs : List SourceFile) (r : Reference),
      (Resolve.resolveReference (known xs) aliases r).filePath = r.filePath := by
    intro xs r
    rw [Resolve.resolveReference_eq]
  have htargets : (fun r => Graph.setTarget r
        (Graph.linkOf (known sources') (symbolsOf sources') id' r)) =
      fun r => Graph.setTarget r (Graph.linkOf (known sources) (symbolsOf sources) id r) := by
    funext r
    rw [linkOf_same hperm hpaths id id', Graph.setTarget, Graph.setTarget,
      Graph.Link.target?_forRepository]
  rw [buildOf, buildOf, Graph.build_references, Graph.build_references, htargets, resolvedOf_eq,
    resolvedOf_eq, Resolve.resolveReference_congr (mem_known_of_perm hperm)]
  simp only [List.filter_map, Function.comp_def, Graph.setTarget_filePath, hresolved,
    extractedOf_filter hperm hpaths path]

theorem edgeKeys_same (aliases : Resolve.Aliases) (id id' key : String) :
    key ∈ (buildOf sources aliases id).edges.map Edge.key ↔
      key ∈ (buildOf sources' aliases id').edges.map Edge.key := by
  have hkeys := (edgesOf_perm hperm hpaths aliases id id').map Edge.key
  rw [List.map_map] at hkeys
  rw [buildOf, buildOf, Graph.build_edges, Graph.build_edges, Store.mem_map_firstsBy,
    Store.mem_map_firstsBy]
  exact hkeys.mem_iff

theorem detection_same (aliases : Resolve.Aliases) (id id' : String) (cycleDepth : Nat)
    (hbars : ∀ path ∈ known sources, '|' ∉ path.toList) :
    Graph.detectCycles cycleDepth (.ofEdges (buildOf sources aliases id).edges) =
      Graph.detectCycles cycleDepth (.ofEdges (buildOf sources' aliases id').edges) := by
  have hends : ∀ (xs : List SourceFile) (id : String),
      (∀ path ∈ known xs, '|' ∉ path.toList) →
      ∀ e ∈ Graph.edgesOf (known xs) (symbolsOf xs) id (resolvedOf xs aliases),
        ∃ source target, e.fromFile = some source ∧ e.toFile = some target ∧
          '|' ∉ source.toList ∧ '|' ∉ target.toList := by
    intro xs id hbars e he
    obtain ⟨r, -, hlink⟩ := List.mem_filterMap.mp he
    obtain ⟨hpath, ⟨target, htarget, rfl⟩ | ⟨s, hs, rfl⟩⟩ := Graph.edge_of_link hlink
    · exact ⟨_, _, rfl, rfl, hbars _ hpath, hbars _ htarget⟩
    · exact ⟨_, _, rfl, rfl, hbars _ hpath, hbars _ (path_of_mem_symbolsOf hs)⟩
  have hbars' : ∀ path ∈ known sources', '|' ∉ path.toList :=
    fun path hpath => hbars path ((mem_known_of_perm hperm path).mpr hpath)
  have hpairs := (edgesOf_perm hperm hpaths aliases id id').filterMap Edge.importPair?
  rw [List.filterMap_map] at hpairs
  unfold Graph.Adjacency.ofEdges
  rw [Graph.Adjacency.ofPairs_congr]
  intro p
  rw [buildOf, buildOf, Graph.build_edges, Graph.build_edges,
    Graph.mem_importPairs_firsts (hends sources id hbars),
    Graph.mem_importPairs_firsts (hends sources' id' hbars')]
  exact hpairs.mem_iff

end Same

/-- A run depends on its good files alone. Two listings may differ in their order, in the files that
cannot be read or parsed and in the extractors that take the files: if the good files are the same,
the runs agree on the symbols and references of every file, on the links and on the keys of the
edges, and, where no path has a bar, on the cycles. -/
theorem runShared_agree {t t' : Files.Tree} {root root' : Files.Location}
    {paths paths' : List String} {pool pool' : Extractors} {jobs jobs' : List (Nat × SourceFile)}
    (now now' : Int) (id id' : String) (cycleDepth : Nat)
    (hpaths : paths.Nodup) (hpaths' : paths'.Nodup)
    (haliases : aliasesOf t root = aliasesOf t' root')
    (hgood : ∀ path text, Good t root paths path text ↔ Good t' root' paths' path text)
    (hpool : ∀ i, (pool i).Used) (hpool' : ∀ i, (pool' i).Used)
    (hjobs : jobs.map Prod.snd = sourcesOf t root paths now)
    (hjobs' : jobs'.map Prod.snd = sourcesOf t' root' paths' now') :
    Agree (runShared pool jobs (aliasesOf t root) id cycleDepth)
      (runShared pool' jobs' (aliasesOf t' root') id' cycleDepth) := by
  have hsources := hpaths.sublist (paths_sourcesOf t root paths now)
  have hsources' := hpaths'.sublist (paths_sourcesOf t' root' paths' now')
  have hperm : (parts (sourcesOf t root paths now)).Perm
      (parts (sourcesOf t' root' paths' now')) := by
    apply parts_perm hsources hsources'
    rintro ⟨path, x⟩
    simp only [mem_parts_sourcesOf, hgood]
  rw [runShared_eq _ _ _ _ hpool hjobs, runShared_eq _ _ _ _ hpool' hjobs', ← haliases]
  refine ⟨symbolsOf_filter hperm hsources, references_filter hperm hsources _ id id', ?_, ?_, ?_,
    edgeKeys_same hperm hsources _ id id', ?_⟩
  · exact links_length hperm hsources _ id id' _ Graph.Link.linksImport_forRepository
  · exact links_length hperm hsources _ id id' _ fun link id => by
      simp only [Graph.Link.forRepository_eq_ambiguous]
  · exact links_length hperm hsources _ id id' _ fun link id => by
      simp only [Graph.Link.forRepository_eq_unmatched]
  · intro hbars
    apply detection_same hperm hsources
    intro path hpath
    obtain ⟨f, hf, rfl⟩ := List.mem_map.mp hpath
    exact hbars f hf

/-- Two files that import each other. -/
def plainTree : Files.Tree where
  base := "/w"
  entries := [(["a.ts"], .file (.text "import './b';")), (["b.ts"], .file (.text "import './a';"))]

/-- The same files, with one that does not parse and one that is no text. -/
def mixedTree : Files.Tree where
  base := "/w"
  entries := (["c.ts"], .file (.text "(")) :: (["d.ts"], .file (.bytes [255])) :: plainTree.entries

theorem good_mixedTree (path text : String) :
    Good plainTree [] ["a.ts", "b.ts"] path text ↔
      Good mixedTree [] ["d.ts", "b.ts", "c.ts", "a.ts"] path text := by
  have ha : plainTree.readText [] "a.ts" = mixedTree.readText [] "a.ts" := by decide +kernel
  have hb : plainTree.readText [] "b.ts" = mixedTree.readText [] "b.ts" := by decide +kernel
  have hc : mixedTree.readText [] "c.ts" = .ok "(" := by decide +kernel
  have hd : mixedTree.readText [] "d.ts" = .error .notText := by decide +kernel
  have hmalformed : (parseFile "c.ts" "(").toOption.isNone = true := by decide +kernel
  constructor
  · rintro ⟨hlisted, hread, hparses⟩
    rcases List.mem_cons.mp hlisted with rfl | hlisted
    · exact ⟨by simp, ha ▸ hread, hparses⟩
    · obtain rfl := List.mem_singleton.mp hlisted
      exact ⟨by simp, hb ▸ hread, hparses⟩
  · rintro ⟨hlisted, hread, p, hp⟩
    simp only [List.mem_cons, List.not_mem_nil, or_false] at hlisted
    rcases hlisted with rfl | rfl | rfl | rfl
    · rw [hd] at hread
      simp at hread
    · exact ⟨by simp, hb ▸ hread, p, hp⟩
    · rw [hc] at hread
      obtain rfl := Except.ok.inj hread
      rw [hp] at hmalformed
      simp [Except.toOption] at hmalformed
    · exact ⟨by simp, ha ▸ hread, p, hp⟩

theorem aliasesOf_of_missing {t : Files.Tree} {root : Files.Location}
    (h : (t.readText root "tsconfig.json").toOption = none) : aliasesOf t root = .none := by
  unfold aliasesOf
  cases hread : t.readText root "tsconfig.json" with
  | error e => rfl
  | ok text => simp [hread, Except.toOption] at h

theorem runShared_agree_mixedTree :
    aliasesOf plainTree [] = aliasesOf mixedTree [] ∧
    (∀ path text, Good plainTree [] ["a.ts", "b.ts"] path text ↔
      Good mixedTree [] ["d.ts", "b.ts", "c.ts", "a.ts"] path text) ∧
    Agree
      (runShared (fun _ => .new) ((sourcesOf plainTree [] ["a.ts", "b.ts"] 0).map fun f => (0, f))
        (aliasesOf plainTree []) "1" 5)
      (runShared (fun _ => .new)
        ((sourcesOf mixedTree [] ["d.ts", "b.ts", "c.ts", "a.ts"] 1).map fun f =>
          (f.size % 2, f))
        (aliasesOf mixedTree []) "2" 5) := by
  have hplain : (plainTree.readText [] "tsconfig.json").toOption = none := by decide +kernel
  have hmixed : (mixedTree.readText [] "tsconfig.json").toOption = none := by decide +kernel
  have haliases : aliasesOf plainTree [] = aliasesOf mixedTree [] := by
    rw [aliasesOf_of_missing hplain, aliasesOf_of_missing hmixed]
  refine ⟨haliases, good_mixedTree, ?_⟩
  apply runShared_agree 0 1 "1" "2" 5 (by decide) (by decide) haliases good_mixedTree
  · exact fun _ => .new
  · exact fun _ => .new
  · simp [Function.comp_def]
  · simp [Function.comp_def]

end Pipeline

end CodeIndex
