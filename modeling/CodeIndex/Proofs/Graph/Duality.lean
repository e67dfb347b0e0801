import CodeIndex.Proofs.Graph.Distance
import CodeIndex.Proofs.Operation
import CodeIndex.Store.Query

/-!
Dependents and dependencies are found by two walks in two graphs. The graphs are built apart, the
second from the pairs of the first turned round, so a way through one is a way back through the
other, as long as both of its ends may be entered. Ways of one length are then shortest together.
-/
namespace CodeIndex.Graph

variable {g g' : Adjacency} {includeTests : Bool} {a b c start x : String} {k n : Nat}

/-! Graphs from pairs that are turned round -/

theorem Adjacency.Normal.hasEdge_iff (h : g.Normal) : g.hasEdge a b = true ↔ g.HasPair (a, b) := by
  rw [Adjacency.hasEdge, List.contains_iff_mem, Adjacency.targets]
  split
  · next name ts hfound =>
    have hname : name = a := by simpa using List.find?_some hfound
    exact h.mem_targets (hname ▸ List.mem_of_find?_eq_some hfound)
  · next hnone =>
    simp only [List.not_mem_nil, false_iff]
    rintro ⟨e, he, heq, -⟩
    exact List.find?_eq_none.mp hnone e he (beq_iff_eq.mpr heq)

theorem Adjacency.hasEdge_ofPairs {pairs : List (String × String)} :
    (ofPairs pairs).hasEdge a b = true ↔ (a, b) ∈ pairs := by
  obtain ⟨hnormal, hpairs⟩ := normal_ofPairs pairs
  rw [hnormal.hasEdge_iff, hpairs]

/-- Each edge of one graph is an edge of the other, turned round. -/
def Converse (g g' : Adjacency) : Prop := ∀ a b, g.hasEdge a b = true → g'.hasEdge b a = true

theorem converse_ofPairs (pairs : List (String × String)) :
    Converse (.ofPairs (pairs.map Prod.swap)) (.ofPairs pairs) := by
  intro a b h
  obtain ⟨p, hp, hswap⟩ := List.mem_map.mp (Adjacency.hasEdge_ofPairs.mp h)
  obtain ⟨rfl, rfl⟩ := Prod.mk.inj hswap
  exact Adjacency.hasEdge_ofPairs.mpr hp

theorem converse_ofPairs_swap (pairs : List (String × String)) :
    Converse (.ofPairs pairs) (.ofPairs (pairs.map Prod.swap)) := by
  intro a b h
  exact Adjacency.hasEdge_ofPairs.mpr
    (List.mem_map.mpr ⟨(a, b), Adjacency.hasEdge_ofPairs.mp h, rfl⟩)

/-! Ways back -/

/-- A walk may enter a file if it is no test file, or if tests are included. -/
def MayEnter (includeTests : Bool) (x : String) : Prop :=
  includeTests = true ∨ isTestFile x = false

/-- Only the start of a way may be a file that a walk leaves out. -/
theorem Way.mayEnter (h : Way g includeTests start n x) (hstart : MayEnter includeTests start) :
    MayEnter includeTests x := by
  cases h with
  | here => exact hstart
  | step _ hleads => exact hleads.2

theorem Way.prepend (hleads : Leads g includeTests a b) (h : Way g includeTests b n c) :
    Way g includeTests a (n + 1) c := by
  induction h with
  | here => exact .step .here hleads
  | step _ hlast ih => exact .step ih hlast

theorem Way.reverse (hg : Converse g g') (h : Way g includeTests start n x)
    (hstart : MayEnter includeTests start) : Way g' includeTests x n start := by
  induction h with
  | here => exact .here
  | @step n a b hway hleads ih =>
    have hback : Leads g' includeTests b a := ⟨hg a b hleads.1, hway.mayEnter hstart⟩
    exact ih.prepend hback

theorem AtDistance.reverse (hg : Converse g g') (hg' : Converse g' g)
    (h : AtDistance g includeTests start k x) (hstart : MayEnter includeTests start) :
    AtDistance g' includeTests x k start := by
  refine ⟨h.way.reverse hg hstart, fun j hj => ?_⟩
  -- A shorter way back would be a shorter way there.
  exact h.shortest j (hj.reverse hg' (h.way.mayEnter hstart))

/-! Levels -/

/-- A file is listed at the level of this number. -/
def Listed (levels : List Level) (k : Nat) (x : String) : Prop :=
  ∃ l ∈ levels, l.depth = k ∧ x ∈ l.files

instance (levels : List Level) (k : Nat) (x : String) : Decidable (Listed levels k x) :=
  inferInstanceAs (Decidable (∃ l ∈ levels, l.depth = k ∧ x ∈ l.files))

theorem Finds.listed_iff {left : Nat} {found : Traversal}
    (h : Finds g includeTests start 0 left found) :
    Listed found.levels k x ↔ 1 ≤ k ∧ k ≤ left ∧ AtDistance g includeTests start k x := by
  constructor
  · rintro ⟨l, hl, rfl, hx⟩
    have hdepth : l.depth ∈ List.range' (0 + 1) found.levels.length :=
      h.depths ▸ List.mem_map_of_mem hl
    have hbounds := List.mem_range'_1.mp hdepth
    have hwithin := h.within
    exact ⟨by omega, by omega, ((h.levels l hl).2.2 x).mp hx⟩
  · rintro ⟨hone, hleft, hx⟩
    obtain ⟨l, hl, rfl⟩ := h.all k x (by omega) (by omega) hx
    exact ⟨l, hl, rfl, ((h.levels l hl).2.2 x).mpr hx⟩

/-- What a walk from one file finds in a graph of pairs. -/
theorem finds_traverse (pairs : List (String × String)) (start : String) (depth : Nat)
    (includeTests : Bool) :
    Finds (.ofPairs pairs) includeTests start 0 depth
      (traverse (.ofPairs pairs) start depth includeTests) := by
  have hnodup : ∀ e ∈ (Adjacency.ofPairs pairs).entries, e.2.Nodup := fun e he =>
    ((Adjacency.normal_ofPairs pairs).1.targets e he).imp fun hlt => hlt.ne
  exact finds_expand hnodup Stands.first

/-- What a walk from one file lists of a graph of pairs. -/
theorem listed_traverse {pairs : List (String × String)} {depth : Nat} :
    Listed (traverse (.ofPairs pairs) start depth includeTests).levels k x ↔
      1 ≤ k ∧ k ≤ depth ∧ AtDistance (.ofPairs pairs) includeTests start k x :=
  (finds_traverse pairs start depth includeTests).listed_iff

/-- Two walks through graphs that are turned round list each other's start at the same level. -/
theorem listed_traverse_swap {pairs : List (String × String)} {depth : Nat}
    (ha : MayEnter includeTests a) (hb : MayEnter includeTests b) :
    Listed (traverse (.ofPairs (pairs.map Prod.swap)) a depth includeTests).levels k b ↔
      Listed (traverse (.ofPairs pairs) b depth includeTests).levels k a := by
  have hthere := converse_ofPairs pairs
  have hback := converse_ofPairs_swap pairs
  rw [listed_traverse, listed_traverse]
  constructor
  · rintro ⟨hone, hdepth, hway⟩
    exact ⟨hone, hdepth, hway.reverse hthere hback ha⟩
  · rintro ⟨hone, hdepth, hway⟩
    exact ⟨hone, hdepth, hway.reverse hback hthere hb⟩

end CodeIndex.Graph

namespace CodeIndex.Store

open CodeIndex.Graph

variable {s : Store} {name path a b : String} {r : RepositoryRow} {depth : Nat}
  {includeTests : Bool}

theorem locate_named (hr : s.repository? name = some r)
    (hfile : (s.file? r.id path).isSome = true) : s.locate path (some name) = .ok (some r) := by
  simp [locate, requireRepository, hr, hfile, bind, Except.bind, pure, Except.pure]

/-- A depth within the bounds is not refused. -/
theorem not_refused (hone : 1 ≤ depth) (hdepth : depth ≤ maxQueryDepth) :
    (depth < 1 || maxQueryDepth < depth) = false := by
  simp only [Bool.or_eq_false_iff, decide_eq_false_iff_not]
  omega

/-- The levels that a query answers with once it has found the repository. -/
theorem queryDependencies_levels {asked : Option String}
    (hlocate : s.locate path asked = .ok (some r)) (hone : 1 ≤ depth)
    (hdepth : depth ≤ maxQueryDepth) (direction : Direction) (includeTests : Bool) :
    ∃ found, s.queryDependencies path direction depth includeTests asked = .ok found ∧
      (direction.includesDependents = true → found.dependents =
        (traverse (.ofPairs ((s.importPairs r.id).map Prod.swap)) path depth
          includeTests).levels) ∧
      (direction.includesDependencies = true → found.dependencies =
        (traverse (.ofPairs (s.importPairs r.id)) path depth includeTests).levels) := by
  unfold queryDependencies
  rw [not_refused hone hdepth, hlocate]
  exact ⟨_, rfl, fun hup => by simp [hup], fun hdown => by simp [hdown]⟩

/-- Queries that find the same repository, by its name or by the path, list each other's file at
the same levels. -/
theorem listed_dependents_iff_of_locate {asked asked' : Option String}
    (ha : s.locate a asked = .ok (some r)) (hb : s.locate b asked' = .ok (some r))
    (hone : 1 ≤ depth) (hdepth : depth ≤ maxQueryDepth)
    (htests : includeTests = true ∨ isTestFile a = false ∧ isTestFile b = false) :
    ∃ up down, s.queryDependencies a .dependents depth includeTests asked = .ok up ∧
      s.queryDependencies b .dependencies depth includeTests asked' = .ok down ∧
      ∀ k, Listed up.dependents k b ↔ Listed down.dependencies k a := by
  obtain ⟨up, hup, hdependents, -⟩ :=
    queryDependencies_levels ha hone hdepth .dependents includeTests
  obtain ⟨down, hdown, -, hdependencies⟩ :=
    queryDependencies_levels hb hone hdepth .dependencies includeTests
  refine ⟨up, down, hup, hdown, fun k => ?_⟩
  rw [hdependents rfl, hdependencies rfl]
  exact listed_traverse_swap (htests.imp_right And.left) (htests.imp_right And.right)

/-- Dependency queries are dual. Two files of a repository, asked about with the same depth and
choice of tests, list each other at the same levels: one the other among its dependents, the other
the one among its dependencies. If tests are left out, neither of the two may be one. -/
theorem listed_dependents_iff (hr : s.repository? name = some r)
    (ha : (s.file? r.id a).isSome = true) (hb : (s.file? r.id b).isSome = true)
    (hone : 1 ≤ depth) (hdepth : depth ≤ maxQueryDepth)
    (htests : includeTests = true ∨ isTestFile a = false ∧ isTestFile b = false) :
    ∃ up down, s.queryDependencies a .dependents depth includeTests (some name) = .ok up ∧
      s.queryDependencies b .dependencies depth includeTests (some name) = .ok down ∧
      ∀ k, Listed up.dependents k b ↔ Listed down.dependencies k a :=
  listed_dependents_iff_of_locate (locate_named hr ha) (locate_named hr hb) hone hdepth htests

/-- Two ways from one file to another, the shorter one through a test file. -/
def testedRun : Run where
  files := ["a.ts", "b.ts", "c.ts", "d.ts", "a.test.ts"].map
    fun path => ⟨path, "", .typescript, 0, "", 0⟩
  symbols := []
  references := []
  edges := [("a.ts", "b.ts"), ("b.ts", "c.ts"), ("c.ts", "d.ts"), ("a.ts", "a.test.ts"),
    ("a.test.ts", "d.ts")].map fun p => .fileImport "" p.1 p.2

/-- The store with this run alone. -/
def tested : Store where
  origin := 0
  nextSerial := 5
  repositories := [⟨.given "1", "r", "r", none, "main", some 0⟩]
  files := testedRun.files.zipIdx.map fun p =>
    ⟨.made 0 p.2, .given "1", p.1.path, "", .typescript, 0, "", 0⟩
  edges := (testedRun.edges.zip [(0, 1), (1, 2), (2, 3), (0, 4), (4, 3)]).map fun p =>
    ⟨.given "1", p.1.key, .fileImport, some (.made 0 p.2.1), some (.made 0 p.2.2), none, none⟩

theorem reachable_tested : Reachable tested :=
  .step (.storeRepository (.ofFullName "r" "") (.given "1") 0 testedRun) (.empty 0)
    (by intro n hn; cases hn) rfl

theorem listed_dependents_iff_tested : Reachable tested ∧
    (∃ r, tested.repository? "r" = some r ∧ (tested.file? r.id "d.ts").isSome = true ∧
      (tested.file? r.id "a.ts").isSome = true) ∧
    (isTestFile "d.ts" = false ∧ isTestFile "a.ts" = false) ∧
    ∃ up down, tested.queryDependencies "d.ts" .dependents 3 false (some "r") = .ok up ∧
      tested.queryDependencies "a.ts" .dependencies 3 false (some "r") = .ok down ∧
      up.dependents = [⟨1, ["c.ts"]⟩, ⟨2, ["b.ts"]⟩, ⟨3, ["a.ts"]⟩] ∧
      ∀ k, Listed down.dependencies k "d.ts" ↔ k = 3 := by
  let r : RepositoryRow := ⟨.given "1", "r", "r", none, "main", some 0⟩
  have hr : tested.repository? "r" = some r := by decide +kernel
  have ha : (tested.file? r.id "d.ts").isSome = true := by decide +kernel
  have hb : (tested.file? r.id "a.ts").isSome = true := by decide +kernel
  have htests : isTestFile "d.ts" = false ∧ isTestFile "a.ts" = false := by decide +kernel
  obtain ⟨up, down, hup, hdown, hdual⟩ :=
    @listed_dependents_iff _ _ _ _ _ 3 false hr ha hb (by decide) (by decide) (.inr htests)
  have hlevels : ((tested.queryDependencies "d.ts" .dependents 3 false (some "r")).map
      Dependencies.dependents).toOption =
        some [⟨1, ["c.ts"]⟩, ⟨2, ["b.ts"]⟩, ⟨3, ["a.ts"]⟩] := by decide +kernel
  rw [hup] at hlevels
  have hdependents : up.dependents = _ := Option.some.inj hlevels
  refine ⟨reachable_tested, ⟨r, hr, ha, hb⟩, htests, up, down, hup, hdown, hdependents,
    fun k => ?_⟩
  rw [← hdual, hdependents]
  simp [Listed, eq_comm]

end CodeIndex.Store
