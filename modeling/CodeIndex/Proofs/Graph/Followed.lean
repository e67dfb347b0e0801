import CodeIndex.Proofs.Graph.CycleBound
import CodeIndex.Proofs.Graph.Duality

/-!
The cycles that a dependency query reports. A query walks from a file along imports, against them,
or both ways, and looks for cycles among the imports that it has followed. A short cycle through the
file comes back to it before either walk ends, so all of its imports are followed from either side.
A longer one can be missed without notice: the walks are flagged for files that they have not
reached, not for imports that they have not followed.
-/
namespace CodeIndex.Graph

variable {g : Adjacency} {pairs : List (String × String)} {direction : Direction}
  {start a b : String} {depth maxDepth : Nat} {includeTests : Bool} {nodes : List String}

/-! The imports that are followed -/

/-- The imports that the walks of a query follow, each from the file that imports. -/
def followed (pairs : List (String × String)) (direction : Direction) (start : String)
    (depth : Nat) (includeTests : Bool) : List (String × String) :=
  (if direction.includesDependencies then
    (traverse (.ofPairs pairs) start depth includeTests).edges else []) ++
  (if direction.includesDependents then
    (traverse (.ofPairs (pairs.map Prod.swap)) start depth includeTests).edges else []).map
      Prod.swap

/-- A walk through a graph of pairs follows what leads out of the files nearer than its depth. -/
theorem mem_edges_traverse :
    (a, b) ∈ (traverse (.ofPairs pairs) start depth includeTests).edges ↔
      Leads (.ofPairs pairs) includeTests a b ∧
        ∃ k < depth, Way (.ofPairs pairs) includeTests start k a := by
  have hnodup : ∀ e ∈ (Adjacency.ofPairs pairs).entries, e.2.Nodup := fun e he =>
    ((Adjacency.normal_ofPairs pairs).1.targets e he).imp fun hlt => hlt.ne
  have h : Finds (.ofPairs pairs) includeTests start 0 depth
      (traverse (.ofPairs pairs) start depth includeTests) := finds_expand hnodup .first
  rw [h.edges]
  refine and_congr_right fun _ => ⟨?_, ?_⟩
  · rintro ⟨k, -, hk, hway⟩
    exact ⟨k, by omega, hway.way⟩
  · rintro ⟨k, hk, hway⟩
    obtain ⟨j, hj, hnearest⟩ := hway.exists_atDistance
    exact ⟨j, Nat.zero_le j, by omega, hnearest⟩

theorem mem_followed :
    (a, b) ∈ followed pairs direction start depth includeTests ↔
      (direction.includesDependencies = true ∧
        (a, b) ∈ (traverse (.ofPairs pairs) start depth includeTests).edges) ∨
      (direction.includesDependents = true ∧
        (b, a) ∈ (traverse (.ofPairs (pairs.map Prod.swap)) start depth includeTests).edges) := by
  have hswap : ∀ edges : List (String × String), (a, b) ∈ edges.map Prod.swap ↔ (b, a) ∈ edges := by
    intro edges
    simp only [List.mem_map, Prod.exists, Prod.swap_prod_mk, Prod.mk.injEq]
    constructor
    · rintro ⟨_, _, hmem, rfl, rfl⟩
      exact hmem
    · exact fun hmem => ⟨b, a, hmem, rfl, rfl⟩
  rw [followed, List.mem_append, hswap]
  cases direction <;> simp [Direction.includesDependencies, Direction.includesDependents]

/-- Only imports are followed. -/
theorem mem_of_mem_followed (h : (a, b) ∈ followed pairs direction start depth includeTests) :
    (a, b) ∈ pairs := by
  rcases mem_followed.mp h with ⟨-, h⟩ | ⟨-, h⟩
  · exact Adjacency.hasEdge_ofPairs.mp (mem_edges_traverse.mp h).1.1
  · have hback := converse_ofPairs pairs _ _ (mem_edges_traverse.mp h).1.1
    exact Adjacency.hasEdge_ofPairs.mp hback

/-- A query gets as far as a pair of files: fewer steps than its depth lead from the start to the
first of them, or from the second of them to the start, where it looks in that direction. -/
def Near (g : Adjacency) (direction : Direction) (includeTests : Bool) (start : String)
    (depth : Nat) (a b : String) : Prop :=
  (direction.includesDependencies = true ∧ ∃ k < depth, Way g includeTests start k a) ∨
    (direction.includesDependents = true ∧ ∃ k < depth, Way g includeTests b k start)

instance (includeTests : Bool) (x : String) : Decidable (MayEnter includeTests x) :=
  inferInstanceAs (Decidable (includeTests = true ∨ isTestFile x = false))

/-- Between files that may be entered the imports that the query gets to are followed. -/
theorem mem_followed_iff_near (hstart : MayEnter includeTests start)
    (ha : MayEnter includeTests a) (hb : MayEnter includeTests b) :
    (a, b) ∈ followed pairs direction start depth includeTests ↔
      (Adjacency.ofPairs pairs).hasEdge a b = true ∧
        Near (.ofPairs pairs) direction includeTests start depth a b := by
  have hthere := converse_ofPairs pairs
  have hback := converse_ofPairs_swap pairs
  rw [mem_followed, mem_edges_traverse, mem_edges_traverse]
  constructor
  · rintro (⟨hdown, hleads, hway⟩ | ⟨hup, hleads, k, hk, hway⟩)
    · exact ⟨hleads.1, .inl ⟨hdown, hway⟩⟩
    · exact ⟨hthere b a hleads.1, .inr ⟨hup, k, hk, hway.reverse hthere hstart⟩⟩
  · rintro ⟨hedge, ⟨hdown, hway⟩ | ⟨hup, k, hk, hway⟩⟩
    · exact .inl ⟨hdown, ⟨hedge, hb⟩, hway⟩
    · exact .inr ⟨hup, ⟨hback a b hedge, ha⟩, k, hk, hway.reverse hback hb⟩

/-! Cycles through the start -/

theorem SimpleCycle.mono {g' : Adjacency} (h : SimpleCycle g nodes)
    (hsub : ∀ a b, g.hasEdge a b = true → g'.hasEdge a b = true) : SimpleCycle g' nodes :=
  ⟨h.ne_nil, h.nodup, h.closed.imp hsub⟩

/-- A cycle can be written from each of its files on. -/
theorem SimpleCycle.exists_from (h : SimpleCycle g nodes) (hmem : start ∈ nodes) :
    ∃ rest, nodes ~r start :: rest ∧ SimpleCycle g (start :: rest) := by
  obtain ⟨before, after, rfl⟩ := List.append_of_mem hmem
  have hrotated : before ++ start :: after ~r start :: (after ++ before) :=
    List.isRotated_append
  exact ⟨after ++ before, hrotated, h.of_isRotated hrotated⟩

/-- A chain of steps is a way to each of its files. -/
theorem Way.of_isChain {rest : List String} {x : String}
    (hchain : (start :: rest).IsChain (Leads g includeTests)) (hx : x ∈ start :: rest) :
    ∃ k ≤ rest.length, Way g includeTests start k x := by
  induction rest generalizing start with
  | nil =>
    obtain rfl := List.mem_singleton.mp hx
    exact ⟨0, Nat.le_refl 0, .here⟩
  | cons next rest ih =>
    rcases List.mem_cons.mp hx with rfl | hx
    · exact ⟨0, Nat.zero_le _, .here⟩
    · obtain ⟨hleads, hchain⟩ := List.isChain_cons_cons.mp hchain
      obtain ⟨k, hk, hway⟩ := ih hchain hx
      exact ⟨k + 1, Nat.succ_le_succ hk, hway.prepend hleads⟩

/-- A cycle leads from each of its files to each other one in fewer steps than it has files. -/
theorem SimpleCycle.exists_way (h : SimpleCycle g nodes)
    (htests : ∀ x ∈ nodes, MayEnter includeTests x) (ha : a ∈ nodes) (hb : b ∈ nodes) :
    ∃ k < nodes.length, Way g includeTests a k b := by
  obtain ⟨rest, hrotated, hcycle⟩ := h.exists_from ha
  have hchain : (a :: rest).IsChain (Leads g includeTests) := by
    have hedges : (a :: rest).IsChain fun a b => g.hasEdge a b = true :=
      hcycle.closed.left_of_append
    exact hedges.imp_of_mem_imp fun x y _ hy hedge => ⟨hedge, htests y (hrotated.mem_iff.mpr hy)⟩
  obtain ⟨k, hk, hway⟩ := Way.of_isChain hchain (hrotated.mem_iff.mp hb)
  rw [hrotated.perm.length_eq, List.length_cons]
  exact ⟨k, Nat.lt_succ_of_le hk, hway⟩

/-- A cycle of files that may be entered is followed as a whole if the query gets to all of its
imports. -/
theorem SimpleCycle.followed_iff (h : SimpleCycle (.ofPairs pairs) nodes) (hmem : start ∈ nodes)
    (htests : ∀ x ∈ nodes, MayEnter includeTests x) :
    SimpleCycle (.ofPairs (followed pairs direction start depth includeTests)) nodes ↔
      (nodes ++ nodes.take 1).IsChain
        (Near (.ofPairs pairs) direction includeTests start depth) := by
  have hfiles : ∀ x ∈ nodes ++ nodes.take 1, MayEnter includeTests x := by
    intro x hx
    rcases List.mem_append.mp hx with hx | hx
    · exact htests x hx
    · exact htests x (List.mem_of_mem_take hx)
  have hnear : ∀ a ∈ nodes ++ nodes.take 1, ∀ b ∈ nodes ++ nodes.take 1,
      (a, b) ∈ followed pairs direction start depth includeTests ↔
        (Adjacency.ofPairs pairs).hasEdge a b = true ∧
          Near (.ofPairs pairs) direction includeTests start depth a b :=
    fun a ha b hb => mem_followed_iff_near (htests start hmem) (hfiles a ha) (hfiles b hb)
  constructor
  · intro hcycle
    refine hcycle.closed.imp_of_mem_imp fun a b ha hb hedge => ?_
    exact ((hnear a ha b hb).mp (Adjacency.hasEdge_ofPairs.mp hedge)).2
  · intro hchain
    have hpair := @List.isChain_iff_forall_rel_of_append_cons_cons String
    refine ⟨h.ne_nil, h.nodup, hpair.mpr fun a b before after hsplit => ?_⟩
    have hedge := hpair.mp h.closed hsplit
    have hwithin := hpair.mp hchain hsplit
    refine Adjacency.hasEdge_ofPairs.mpr ((hnear a ?_ b ?_).mpr ⟨hedge, hwithin⟩) <;> simp [hsplit]

/-- A query gets to every import of a cycle through its start from whose files it is near. -/
theorem SimpleCycle.isChain_near (h : SimpleCycle g nodes) (direction : Direction)
    (hdown : direction.includesDependencies = true →
      ∀ x ∈ nodes, ∃ k < depth, Way g includeTests start k x)
    (hup : direction.includesDependents = true →
      ∀ x ∈ nodes, ∃ k < depth, Way g includeTests x k start) :
    (nodes ++ nodes.take 1).IsChain (Near g direction includeTests start depth) := by
  have hfiles : ∀ x ∈ nodes ++ nodes.take 1, x ∈ nodes := by
    intro x hx
    rcases List.mem_append.mp hx with hx | hx
    · exact hx
    · exact List.mem_of_mem_take hx
  refine h.closed.imp_of_mem_imp fun a b ha hb _ => ?_
  by_cases hdirection : direction.includesDependencies = true
  · exact .inl ⟨hdirection, hdown hdirection a (hfiles a ha)⟩
  · have hback : direction.includesDependents = true := by
      cases direction <;> simp_all [Direction.includesDependencies, Direction.includesDependents]
    exact .inr ⟨hback, hup hback b (hfiles b hb)⟩

/-! Unflagged searches -/

/-- A walk whose levels end before its depth has all files that its start leads to among them. -/
theorem Way.exists_lt {n : Nat} {x : String} (h : Way (.ofPairs pairs) includeTests start n x)
    (hone : 1 ≤ depth)
    (hends : ∀ l ∈ (traverse (.ofPairs pairs) start depth includeTests).levels, l.depth < depth) :
    ∃ k < depth, Way (.ofPairs pairs) includeTests start k x := by
  obtain ⟨k, -, hk⟩ := h.exists_atDistance
  refine ⟨k, ?_, hk.way⟩
  by_contra hfar
  obtain ⟨y, hy⟩ := hk.exists_nearer (not_lt.mp hfar)
  obtain ⟨l, hl, hdepth, -⟩ := listed_traverse.mpr ⟨hone, Nat.le_refl depth, hy⟩
  exact absurd (hends l hl) (not_lt.mpr hdepth.ge)

/-- A search that is not cut off reports exactly the cycles of its graph. -/
theorem exists_mem_detectCycles (hunset : (detectCycles maxDepth g).depthLimited = false) :
    (∃ c ∈ (detectCycles maxDepth g).cycles, nodes ~r c.nodes) ↔ SimpleCycle g nodes := by
  constructor
  · rintro ⟨c, hc, hrotated⟩
    exact (mem_detectCycles.mp hc).1.of_isRotated hrotated.symm
  · intro hcycle
    obtain ⟨hrotated, hleast⟩ := normalized_spec nodes
    have hnormal := hcycle.of_isRotated hrotated
    refine ⟨Cycle.normalized nodes, mem_detectCycles.mpr ⟨hnormal, hleast, ?_⟩, hrotated⟩
    by_contra hlong
    simp [hnormal.depthLimited hleast (not_le.mp hlong)] at hunset

end CodeIndex.Graph

namespace CodeIndex.Store

open CodeIndex.Graph

variable {s : Store} {f : FileRow} {r : RepositoryRow} {asked : Option String} {path : String}
  {depth : Nat} {includeTests : Bool} {nodes : List String}

/-- A file that is stored is located, by its path alone or within its repository. -/
theorem Sound.exists_locate (h : s.Sound) (hf : f ∈ s.files)
    (hasked : asked = none ∨ asked = Sync.ownerOf s f.repositoryId) :
    ∃ r ∈ s.repositories, s.locate f.path asked = .ok (some r) ∧
      (s.file? r.id f.path).isSome = true ∧ ∀ name ∈ asked, name = r.fullName := by
  obtain ⟨owner, howner, hid⟩ := h.file_owner f hf
  have hfile : (s.file? owner.id f.path).isSome = true :=
    Option.isSome_iff_exists.mpr ⟨f, h.file?_eq_some.mpr ⟨hf, hid.symm, rfl⟩⟩
  have hname : Sync.ownerOf s f.repositoryId = some owner.fullName := by
    rw [Sync.ownerOf, h.repositoryById?_eq_some.mpr ⟨howner, hid⟩, Option.map_some]
  cases asked with
  | some name =>
    have heq : name = owner.fullName := by simpa [hname] using hasked
    have hfound := h.repository?_eq_some.mpr ⟨howner, heq.symm⟩
    exact ⟨owner, howner, locate_named hfound hfile, hfile, fun _ hn => Option.some.inj hn ▸ heq⟩
  | none =>
    -- The newest of the repositories with the path; the owner of the file is one of them.
    let holders := (s.repositories.filter fun r => (s.file? r.id f.path).isSome).mergeSort
      fun a b => (compareNewest a b).isLE
    have hmem : owner ∈ holders := List.mem_mergeSort.mpr (List.mem_filter.mpr ⟨howner, hfile⟩)
    obtain ⟨r, hr⟩ : ∃ r, holders.head? = some r :=
      ⟨_, List.head?_eq_some_head (List.ne_nil_of_mem hmem)⟩
    obtain ⟨hrmem, hrfile⟩ := List.mem_filter.mp (List.mem_mergeSort.mp (List.mem_of_mem_head? hr))
    exact ⟨r, hrmem, congrArg Except.ok hr, hrfile, by simp⟩

/-- The cycles that a query answers with once it has found the repository. -/
theorem queryDependencies_cycles (hlocate : s.locate path asked = .ok (some r)) (hone : 1 ≤ depth)
    (hdepth : depth ≤ maxQueryDepth) (direction : Direction) (includeTests : Bool) :
    ∃ found, s.queryDependencies path direction depth includeTests asked = .ok found ∧
      found.repository = some r.fullName ∧
      let search := detectCycles defaultCycleDepth
        (.ofPairs (followed (s.importPairs r.id) direction path depth includeTests))
      found.cycles = search.cycles ∧
        (found.depthLimited = false → search.depthLimited = false) := by
  unfold queryDependencies
  rw [not_refused hone hdepth, hlocate]
  refine ⟨_, rfl, rfl, ?_⟩
  cases direction <;>
    simp [followed, Direction.includesDependencies, Direction.includesDependents]

theorem importPair?_edgeOf {text : String} {e : EdgeRow} {p : String × String} :
    (s.edgeOf text e).importPair? = some p ↔
      e.kind = .fileImport ∧ s.filePath? e.fromFileId = some p.1 ∧
        s.filePath? e.toFileId = some p.2 := by
  unfold edgeOf Edge.importPair?
  dsimp only
  split
  · next hkind hfrom hto => simp [hkind, hfrom, hto, Prod.ext_iff]
  · next hnone =>
    simp only [reduceCtorEq, false_iff]
    rintro ⟨hkind, hfrom, hto⟩
    exact hnone p.1 p.2 hkind hfrom hto

/-- The import graph of a repository is that of the edges that are loaded. -/
theorem Sound.exists_loadEdges (h : s.Sound) (hr : r ∈ s.repositories) :
    ∃ edges, s.loadEdges r.fullName = .ok (r, edges) ∧
      Adjacency.ofEdges edges = .ofPairs (s.importPairs r.id) := by
  have hfound := h.repository?_eq_some.mpr ⟨hr, rfl⟩
  let rows := (s.edges.filter fun e => e.repositoryId == r.id).mergeSort
    fun a b => (compare a.key b.key).isLE
  have hload : s.loadEdges r.fullName = .ok (r, rows.map (s.edgeOf r.id.text)) := by
    simp only [loadEdges, requireRepository, hfound]
    rfl
  refine ⟨_, hload, Adjacency.ofPairs_congr fun p => ?_⟩
  simp only [List.mem_filterMap, List.mem_map, rows, List.mem_mergeSort, List.mem_filter,
    importPairs, Bool.and_eq_true, beq_iff_eq]
  constructor
  · rintro ⟨_, ⟨e, ⟨he, hown⟩, rfl⟩, hp⟩
    obtain ⟨hkind, hfrom, hto⟩ := importPair?_edgeOf.mp hp
    exact ⟨e, ⟨he, hown, hkind⟩, by simp [hfrom, hto]⟩
  · rintro ⟨e, ⟨he, hown, hkind⟩, hp⟩
    refine ⟨_, ⟨e, ⟨he, hown⟩, rfl⟩, importPair?_edgeOf.mpr ⟨hkind, ?_⟩⟩
    simp only [Option.bind_eq_bind, Option.pure_def, Option.bind_eq_some_iff] at hp
    obtain ⟨source, hfrom, target, hto, hp⟩ := hp
    obtain rfl := Option.some.inj hp
    exact ⟨hfrom, hto⟩

/-- What a query about a stored file answers, told by the edges that are loaded of the repository
that it finds. -/
theorem Sound.exists_query (h : s.Sound) (hf : f ∈ s.files)
    (hasked : asked = none ∨ asked = Sync.ownerOf s f.repositoryId) (hone : 1 ≤ depth)
    (hdepth : depth ≤ maxQueryDepth) (direction : Direction) (includeTests : Bool) :
    ∃ r pairs edges found, (s.file? r.id f.path).isSome = true ∧
      (∀ name ∈ asked, name = r.fullName) ∧ s.loadEdges r.fullName = .ok (r, edges) ∧
      Adjacency.ofEdges edges = .ofPairs pairs ∧
      s.queryDependencies f.path direction depth includeTests asked = .ok found ∧
      found.repository = some r.fullName ∧
      (direction.includesDependents = true → found.dependents =
        (traverse (.ofPairs (pairs.map Prod.swap)) f.path depth includeTests).levels) ∧
      (direction.includesDependencies = true → found.dependencies =
        (traverse (.ofPairs pairs) f.path depth includeTests).levels) ∧
      let search := detectCycles defaultCycleDepth
        (.ofPairs (followed pairs direction f.path depth includeTests))
      found.cycles = search.cycles ∧
        (found.depthLimited = false → search.depthLimited = false) := by
  obtain ⟨r, hr, hlocate, hfile, hname⟩ := h.exists_locate hf hasked
  obtain ⟨edges, hload, hgraph⟩ := h.exists_loadEdges hr
  obtain ⟨found, hquery, hdependents, hdependencies⟩ :=
    queryDependencies_levels hlocate hone hdepth direction includeTests
  obtain ⟨found', hquery', hrepository, hcycles⟩ :=
    queryDependencies_cycles hlocate hone hdepth direction includeTests
  obtain rfl := Except.ok.inj (hquery.symm.trans hquery')
  exact ⟨r, s.importPairs r.id, edges, found, hfile, hname, hload, hgraph, hquery, hrepository,
    hdependents, hdependencies, hcycles⟩

/-- The cycles that a query reports are real, and those near the file are all there. Each is a
simple cycle of the imports that are stored for the repository, in their direction, and is written
from its smallest file on; no two are rotations of one another. A simple cycle through the file with
no more files than the depth, and without test files unless these are included, is reported
whichever way the query looks. -/
theorem queried_cycles (h : Reachable s) (hf : f ∈ s.files)
    (hasked : asked = none ∨ asked = Sync.ownerOf s f.repositoryId) (hone : 1 ≤ depth)
    (hdepth : depth ≤ maxQueryDepth) (direction : Direction) (includeTests : Bool) :
    ∃ r edges found, (s.file? r.id f.path).isSome = true ∧ (∀ name ∈ asked, name = r.fullName) ∧
      s.loadEdges r.fullName = .ok (r, edges) ∧
      s.queryDependencies f.path direction depth includeTests asked = .ok found ∧
      found.repository = some r.fullName ∧
      (∀ c ∈ found.cycles, SimpleCycle (.ofEdges edges) c.nodes ∧ StartsLeast c.nodes) ∧
      (found.cycles.map Cycle.nodes).Pairwise (· < ·) ∧
      (∀ c ∈ found.cycles, ∀ c' ∈ found.cycles, c.nodes ~r c'.nodes → c = c') ∧
      ∀ nodes, SimpleCycle (.ofEdges edges) nodes → f.path ∈ nodes → nodes.length ≤ depth →
        (∀ x ∈ nodes, MayEnter includeTests x) → ∃! c, c ∈ found.cycles ∧ nodes ~r c.nodes := by
  obtain ⟨r, pairs, edges, found, hfile, hname, hload, hgraph, hquery, hrepository, -, -, hcycles,
    -⟩ := h.sound.exists_query hf hasked hone hdepth direction includeTests
  have hreal : ∀ c ∈ found.cycles, SimpleCycle (.ofEdges edges) c.nodes ∧ StartsLeast c.nodes := by
    intro c hc
    rw [hcycles] at hc
    obtain ⟨hcycle, hleast, -⟩ := mem_detectCycles.mp hc
    refine ⟨hgraph ▸ hcycle.mono fun a b hedge => ?_, hleast⟩
    have hfollowed := Adjacency.hasEdge_ofPairs.mp hedge
    exact Adjacency.hasEdge_ofPairs.mpr (mem_of_mem_followed hfollowed)
  have hunique : ∀ c ∈ found.cycles, ∀ c' ∈ found.cycles, c.nodes ~r c'.nodes → c = c' := by
    intro c hc c' hc' hrotated
    obtain ⟨hcycle, hleast⟩ := hreal c hc
    exact congrArg Cycle.mk
      (hleast.eq_of_isRotated (hreal c' hc').2 hcycle.nodup hrotated)
  refine ⟨r, edges, found, hfile, hname, hload, hquery, hrepository, hreal, ?_, hunique, ?_⟩
  · rw [hcycles]
    exact List.pairwise_map.mpr (foldl_insertSorted _).1
  · intro nodes hcycle hmem hlength htests
    rw [hgraph] at hcycle
    have hnear : ∀ a ∈ nodes, ∀ b ∈ nodes,
        ∃ k < depth, Way (.ofPairs pairs) includeTests a k b := by
      intro a ha b hb
      obtain ⟨k, hk, hway⟩ := hcycle.exists_way htests ha hb
      exact ⟨k, by omega, hway⟩
    have hfollowed := (hcycle.followed_iff hmem htests).mpr <| hcycle.isChain_near direction
      (fun _ x hx => hnear _ hmem x hx) fun _ x hx => hnear x hx _ hmem
    obtain ⟨hrotated, hleast⟩ := normalized_spec nodes
    have hshort : (Cycle.normalized nodes).nodes.length ≤ max defaultCycleDepth 1 := by
      rw [← hrotated.perm.length_eq]
      exact hlength.trans hdepth
    have hlisted : Cycle.normalized nodes ∈ found.cycles := by
      rw [hcycles]
      exact mem_detectCycles.mpr ⟨hfollowed.of_isRotated hrotated, hleast, hshort⟩
    refine ⟨Cycle.normalized nodes, ⟨hlisted, hrotated⟩, ?_⟩
    rintro c ⟨hc, hrotated'⟩
    exact hunique c hc _ hlisted (hrotated'.symm.trans hrotated)

/-- Two files that import each other. -/
def coupledRun : Run where
  files := ["a.ts", "b.ts"].map fun path => ⟨path, "", .typescript, 0, "", 0⟩
  symbols := []
  references := []
  edges := [.fileImport "" "a.ts" "b.ts", .fileImport "" "b.ts" "a.ts"]

/-- The store with this run alone. -/
def coupled : Store where
  origin := 0
  nextSerial := 2
  repositories := [⟨.given "1", "r", "r", none, "main", some 0⟩]
  files := coupledRun.files.zipIdx.map fun p =>
    ⟨.made 0 p.2, .given "1", p.1.path, "", .typescript, 0, "", 0⟩
  edges := (coupledRun.edges.zip [(0, 1), (1, 0)]).map fun p =>
    ⟨.given "1", p.1.key, .fileImport, some (.made 0 p.2.1), some (.made 0 p.2.2), none, none⟩

theorem reachable_coupled : Reachable coupled :=
  .step (.storeRepository (.ofFullName "r" "") (.given "1") 0 coupledRun) (.empty 0)
    (by intro n hn; cases hn) rfl

/-- The edges that are loaded of this store are a cycle. -/
theorem loadEdges_coupled : ∃ r edges, coupled.loadEdges "r" = .ok (r, edges) ∧
    SimpleCycle (.ofEdges edges) ["a.ts", "b.ts"] := by
  have hr : ⟨.given "1", "r", "r", none, "main", some 0⟩ ∈ coupled.repositories :=
    List.mem_cons_self
  obtain ⟨edges, hload, hgraph⟩ := reachable_coupled.sound.exists_loadEdges hr
  refine ⟨_, edges, hload, ?_⟩
  rw [hgraph]
  exact ⟨by decide, by decide, by decide +kernel⟩

theorem queried_cycles_coupled : Reachable coupled ∧
    (∃ f ∈ coupled.files, f.path = "a.ts" ∧ Sync.ownerOf coupled f.repositoryId = some "r") ∧
    (∀ x ∈ ["a.ts", "b.ts"], MayEnter false x) ∧
    ∃ r edges found, coupled.loadEdges "r" = .ok (r, edges) ∧
      SimpleCycle (.ofEdges edges) ["a.ts", "b.ts"] ∧
      coupled.queryDependencies "a.ts" .dependents 2 false (some "r") = .ok found ∧
      ∃! c, c ∈ found.cycles ∧ ["a.ts", "b.ts"] ~r c.nodes := by
  let f : FileRow := ⟨.made 0 0, .given "1", "a.ts", "", .typescript, 0, "", 0⟩
  have hf : f ∈ coupled.files := by decide +kernel
  have howner : Sync.ownerOf coupled f.repositoryId = some "r" := by decide +kernel
  have htests : ∀ x ∈ ["a.ts", "b.ts"], MayEnter false x := by decide +kernel
  obtain ⟨r, edges, found, -, hname, hload, hquery, -, -, -, -, hall⟩ :=
    @queried_cycles _ _ _ 2 reachable_coupled hf (.inr howner.symm) (by decide) (by decide)
      .dependents false
  obtain ⟨r', edges', hload', hcycle⟩ := loadEdges_coupled
  obtain ⟨rfl, rfl⟩ := Prod.mk.inj (Except.ok.inj (hload'.symm.trans (hname "r" rfl ▸ hload)))
  exact ⟨reachable_coupled, ⟨f, hf, rfl, howner⟩, htests, r', edges', found, hload', hcycle,
    hquery, hall _ hcycle List.mem_cons_self (Nat.le_refl 2) htests⟩

/-- The cycles that an unflagged query reports. With tests included, a simple cycle through the file
is reported exactly if the query gets to each of its imports; so all of them are reported if the
levels end before the depth. The flag does not tell: where the last level has imports, it is set for
those that lead to further files and not for those that lead back. -/
theorem unflagged_cycles (h : Reachable s) (hf : f ∈ s.files)
    (hasked : asked = none ∨ asked = Sync.ownerOf s f.repositoryId) (hone : 1 ≤ depth)
    (hdepth : depth ≤ maxQueryDepth) (direction : Direction) :
    ∃ r edges found, (s.file? r.id f.path).isSome = true ∧ (∀ name ∈ asked, name = r.fullName) ∧
      s.loadEdges r.fullName = .ok (r, edges) ∧
      s.queryDependencies f.path direction depth true asked = .ok found ∧
      found.repository = some r.fullName ∧
      (found.depthLimited = false →
        ∀ nodes, SimpleCycle (.ofEdges edges) nodes → f.path ∈ nodes →
          ((∃ c ∈ found.cycles, nodes ~r c.nodes) ↔ (nodes ++ nodes.take 1).IsChain
            (Near (.ofEdges edges) direction true f.path depth)) ∧
          ((direction.includesDependencies = true → ∀ l ∈ found.dependencies, l.depth < depth) →
            (direction.includesDependents = true → ∀ l ∈ found.dependents, l.depth < depth) →
            ∃ c ∈ found.cycles, nodes ~r c.nodes)) := by
  obtain ⟨r, pairs, edges, found, hfile, hname, hload, hgraph, hquery, hrepository, hdependents,
    hdependencies, hcycles, hflag⟩ := h.sound.exists_query hf hasked hone hdepth direction true
  refine ⟨r, edges, found, hfile, hname, hload, hquery, hrepository, ?_⟩
  intro hunset nodes hcycle hmem
  rw [hgraph] at hcycle ⊢
  have htests : ∀ x, MayEnter true x := fun x => .inl rfl
  have hlisted : (∃ c ∈ found.cycles, nodes ~r c.nodes) ↔ (nodes ++ nodes.take 1).IsChain
      (Near (.ofPairs pairs) direction true f.path depth) := by
    rw [hcycles, exists_mem_detectCycles (hflag hunset),
      hcycle.followed_iff hmem fun x _ => htests x]
  refine ⟨hlisted, fun hdown hup => hlisted.mpr (hcycle.isChain_near direction ?_ ?_)⟩
  · intro hdirection x hx
    obtain ⟨k, -, hway⟩ := hcycle.exists_way (fun x _ => htests x) hmem hx
    exact hway.exists_lt hone (hdependencies hdirection ▸ hdown hdirection)
  · intro hdirection x hx
    have hthere := converse_ofPairs pairs
    have hback := converse_ofPairs_swap pairs
    obtain ⟨k, -, hway⟩ := hcycle.exists_way (fun x _ => htests x) hx hmem
    obtain ⟨j, hj, hnear⟩ := (hway.reverse hback (htests x)).exists_lt hone
      (hdependents hdirection ▸ hup hdirection)
    exact ⟨j, hj, hnear.reverse hthere (htests _)⟩

/-- The answer to a query along imports that finds one file and then searches for cycles. -/
def coupledAnswer (depth : Nat) (search : Detection) : Dependencies where
  filePath := "a.ts"
  repository := some "r"
  direction := .dependencies
  depth := depth
  dependents := []
  dependencies := [⟨1, ["b.ts"]⟩]
  cycles := search.cycles
  depthLimited := search.depthLimited

theorem unflagged_cycles_coupled : Reachable coupled ∧
    (∃ f ∈ coupled.files, f.path = "a.ts" ∧ Sync.ownerOf coupled f.repositoryId = some "r") ∧
    ∃ r edges found, coupled.loadEdges "r" = .ok (r, edges) ∧
      SimpleCycle (.ofEdges edges) ["a.ts", "b.ts"] ∧
      coupled.queryDependencies "a.ts" .dependencies 2 true (some "r") = .ok found ∧
      found.depthLimited = false ∧ found.dependencies = [⟨1, ["b.ts"]⟩] ∧
      ∃ c ∈ found.cycles, ["a.ts", "b.ts"] ~r c.nodes := by
  let f : FileRow := ⟨.made 0 0, .given "1", "a.ts", "", .typescript, 0, "", 0⟩
  have hf : f ∈ coupled.files := by decide +kernel
  have howner : Sync.ownerOf coupled f.repositoryId = some "r" := by decide +kernel
  have hanswer : coupled.queryDependencies "a.ts" .dependencies 2 true (some "r") =
      .ok (coupledAnswer 2 (detectCycles defaultCycleDepth
        (.ofPairs [("a.ts", "b.ts"), ("b.ts", "a.ts")]))) := rfl
  have hgraph : Adjacency.ofPairs [("a.ts", "b.ts"), ("b.ts", "a.ts")] =
      ⟨[("a.ts", ["b.ts"]), ("b.ts", ["a.ts"])]⟩ := by decide +kernel
  have hless : "a.ts" < "b.ts" := by decide +kernel
  have hunset : (detectCycles defaultCycleDepth
      (.ofPairs [("a.ts", "b.ts"), ("b.ts", "a.ts")])).depthLimited = false := by
    simp [hgraph, detectCycles, Adjacency.sources, Adjacency.targets, defaultCycleDepth, explore,
      exploreTargets, Detection.append, Detection.none, hless, hless.not_gt]
  obtain ⟨r, edges, found, -, hname, hload, hquery, -, hall⟩ :=
    @unflagged_cycles _ _ _ 2 reachable_coupled hf (.inr howner.symm) (by decide) (by decide)
      .dependencies
  obtain ⟨r', edges', hload', hcycle⟩ := loadEdges_coupled
  obtain ⟨rfl, rfl⟩ := Prod.mk.inj (Except.ok.inj (hload'.symm.trans (hname "r" rfl ▸ hload)))
  obtain rfl := Except.ok.inj (hquery.symm.trans hanswer)
  refine ⟨reachable_coupled, ⟨f, hf, rfl, howner⟩, r', edges', _, hload', hcycle, hanswer, hunset,
    rfl, (hall hunset _ hcycle List.mem_cons_self).2 (fun _ => ?_) (fun hup => by cases hup)⟩
  decide

/-- The flag does not tell of a cycle that a query of depth one leaves out. -/
theorem unflagged_query_misses_cycle : Reachable coupled ∧
    (∃ f ∈ coupled.files, f.path = "a.ts") ∧
    ∃ r edges found, coupled.loadEdges "r" = .ok (r, edges) ∧
      SimpleCycle (.ofEdges edges) ["a.ts", "b.ts"] ∧
      coupled.queryDependencies "a.ts" .dependencies 1 true (some "r") = .ok found ∧
      found.depthLimited = false ∧ found.cycles = [] := by
  have hanswer : coupled.queryDependencies "a.ts" .dependencies 1 true (some "r") =
      .ok (coupledAnswer 1 (detectCycles defaultCycleDepth (.ofPairs [("a.ts", "b.ts")]))) := rfl
  have hgraph : Adjacency.ofPairs [("a.ts", "b.ts")] = ⟨[("a.ts", ["b.ts"])]⟩ := by decide +kernel
  have hless : "a.ts" < "b.ts" := by decide +kernel
  have hsearch : detectCycles defaultCycleDepth (.ofPairs [("a.ts", "b.ts")]) = .none := by
    simp [hgraph, detectCycles, Adjacency.sources, Adjacency.targets, defaultCycleDepth, explore,
      exploreTargets, Detection.append, Detection.none, hless.not_gt]
  rw [hsearch] at hanswer
  obtain ⟨r, edges, hload, hcycle⟩ := loadEdges_coupled
  exact ⟨reachable_coupled, by decide +kernel, r, edges, _, hload, hcycle, hanswer, rfl, rfl⟩

end CodeIndex.Store
