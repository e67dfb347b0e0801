import CodeIndex.Graph.Traversal
import CodeIndex.Proofs.Graph.Adjacency
import Mathlib.Data.List.Nodup
import Mathlib.Order.Basic

/-!
A walk of bounded depth finds the files by their distance from the start. Before a level is
expanded, the frontier holds the files at one distance and the visited files are those up to it;
one expansion keeps this for the next distance. So the levels are the distances up to the bound,
and the walk is cut off exactly if a file lies one step beyond.
-/
namespace CodeIndex.Graph

variable {g : Adjacency} {includeTests : Bool} {start : String}

/-- A step that a walk may take. Unless tests are included, no step leads into a test file. -/
def Leads (g : Adjacency) (includeTests : Bool) (a b : String) : Prop :=
  g.hasEdge a b = true ∧ (includeTests = true ∨ isTestFile b = false)

/-- A way from the start to a file, with its number of steps. -/
inductive Way (g : Adjacency) (includeTests : Bool) (start : String) : Nat → String → Prop
  | here : Way g includeTests start 0 start
  | step {n : Nat} {a b : String} (hway : Way g includeTests start n a)
      (hleads : Leads g includeTests a b) : Way g includeTests start (n + 1) b

/-- The number of steps of the shortest ways to a file. -/
structure AtDistance (g : Adjacency) (includeTests : Bool) (start : String) (k : Nat)
    (x : String) : Prop where
  way : Way g includeTests start k x
  shortest : ∀ j, Way g includeTests start j x → k ≤ j

/-! Distances -/

theorem atDistance_zero {x : String} : AtDistance g includeTests start 0 x ↔ x = start := by
  constructor
  · rintro ⟨⟨⟩, -⟩
    rfl
  · rintro rfl
    exact ⟨.here, fun _ _ => Nat.zero_le _⟩

theorem AtDistance.unique {j k : Nat} {x : String} (hj : AtDistance g includeTests start j x)
    (hk : AtDistance g includeTests start k x) : j = k :=
  le_antisymm (hj.shortest k hk.way) (hk.shortest j hj.way)

theorem Way.exists_atDistance {n : Nat} {x : String} (h : Way g includeTests start n x) :
    ∃ k ≤ n, AtDistance g includeTests start k x := by
  classical
  have hsome : ∃ n, Way g includeTests start n x := ⟨n, h⟩
  exact ⟨Nat.find hsome, Nat.find_min' hsome h, Nat.find_spec hsome,
    fun _ hway => Nat.find_min' hsome hway⟩

/-- The file before the last one on a shortest way is one step nearer. -/
theorem AtDistance.exists_before {k : Nat} {x : String}
    (h : AtDistance g includeTests start (k + 1) x) :
    ∃ a, AtDistance g includeTests start k a ∧ Leads g includeTests a x := by
  cases h.way with
  | @step _ a _ hway hleads =>
    refine ⟨a, ⟨hway, fun j hj => ?_⟩, hleads⟩
    exact Nat.le_of_succ_le_succ (h.shortest (j + 1) (.step hj hleads))

theorem AtDistance.exists_nearer {j k : Nat} {x : String}
    (h : AtDistance g includeTests start k x) (hjk : j ≤ k) :
    ∃ y, AtDistance g includeTests start j y := by
  induction k generalizing x with
  | zero => exact ⟨x, Nat.le_zero.mp hjk ▸ h⟩
  | succ k ih =>
    rcases Nat.lt_or_eq_of_le hjk with hlt | rfl
    · obtain ⟨a, ha, -⟩ := h.exists_before
      exact ih ha (Nat.le_of_lt_succ hlt)
    · exact ⟨x, h⟩

/-- The files one step further: those that a step leads to and that are not as near already. -/
theorem atDistance_succ_iff {k : Nat} {x : String} :
    AtDistance g includeTests start (k + 1) x ↔
      (∃ a, AtDistance g includeTests start k a ∧ Leads g includeTests a x) ∧
        ¬∃ j ≤ k, AtDistance g includeTests start j x := by
  constructor
  · intro h
    refine ⟨h.exists_before, ?_⟩
    rintro ⟨j, hj, hx⟩
    have := h.unique hx
    omega
  · rintro ⟨⟨a, ha, hleads⟩, hfar⟩
    refine ⟨.step ha.way hleads, fun j hj => ?_⟩
    by_contra hlt
    obtain ⟨i, hij, hi⟩ := hj.exists_atDistance
    exact hfar ⟨i, by omega, hi⟩

/-! One expansion -/

theorem sortDistinct_spec (xs : List String) :
    (sortDistinct xs).Pairwise (· < ·) ∧ ∀ x, x ∈ sortDistinct xs ↔ x ∈ xs := by
  have hfold : ∀ (xs acc : List String), acc.Pairwise (· < ·) →
      (xs.foldl (fun acc x => insertSorted x acc) acc).Pairwise (· < ·) ∧
        ∀ x, x ∈ xs.foldl (fun acc x => insertSorted x acc) acc ↔ x ∈ xs ∨ x ∈ acc := by
    intro xs
    induction xs with
    | nil => exact fun acc hacc => ⟨hacc, by simp⟩
    | cons y xs ih =>
      intro acc hacc
      obtain ⟨hsorted, hmem⟩ := ih _ (pairwise_insertSorted (x := y) hacc)
      refine ⟨hsorted, fun x => ?_⟩
      rw [List.foldl_cons, hmem, mem_insertSorted, List.mem_cons]
      exact or_left_comm.trans or_assoc.symm
  obtain ⟨hsorted, hmem⟩ := hfold xs [] List.Pairwise.nil
  exact ⟨hsorted, fun x => by simp [sortDistinct, hmem]⟩

theorem mem_leaving {frontier : List String} {a b : String} :
    (a, b) ∈ leaving g includeTests frontier ↔ a ∈ frontier ∧ Leads g includeTests a b := by
  simp only [leaving, List.mem_flatMap, List.mem_map, List.mem_filter, Prod.mk.injEq, Leads,
    Adjacency.hasEdge, List.contains_iff_mem, Bool.or_eq_true, Bool.not_eq_true']
  constructor
  · rintro ⟨_, hnode, _, htarget, rfl, rfl⟩
    exact ⟨hnode, htarget⟩
  · rintro ⟨hnode, htarget⟩
    exact ⟨a, hnode, b, htarget, rfl, rfl⟩

theorem nodup_targets (hg : ∀ e ∈ g.entries, e.2.Nodup) (a : String) : (g.targets a).Nodup := by
  unfold Adjacency.targets
  split
  · next e ts hfound => exact hg _ (List.mem_of_find?_eq_some hfound)
  · exact List.nodup_nil

theorem nodup_leaving (hg : ∀ e ∈ g.entries, e.2.Nodup) {frontier : List String}
    (hfrontier : frontier.Nodup) : (leaving g includeTests frontier).Nodup := by
  refine List.nodup_flatMap.mpr ⟨fun a _ => ?_, hfrontier.imp ?_⟩
  · exact ((nodup_targets hg a).filter _).map fun _ _ heq => (Prod.mk.inj heq).2
  · intro a b hab p hpa hpb
    obtain ⟨_, -, rfl⟩ := List.mem_map.mp hpa
    obtain ⟨_, -, heq⟩ := List.mem_map.mp hpb
    exact hab (Prod.mk.inj heq).1.symm

/-- Where a walk stands before it expands a level: the frontier lies at one distance, and the files
up to this distance have been visited. -/
structure Stands (g : Adjacency) (includeTests : Bool) (start : String) (k : Nat)
    (visited frontier : List String) : Prop where
  reached : ∀ x, x ∈ frontier ↔ AtDistance g includeTests start k x
  passed : ∀ x, x ∈ visited ↔ ∃ j ≤ k, AtDistance g includeTests start j x
  nodup : frontier.Nodup

/-- The files that the next level takes from the edges of the frontier. -/
def nextLevel (g : Adjacency) (includeTests : Bool) (visited frontier : List String) :
    List String :=
  sortDistinct (((leaving g includeTests frontier).map Prod.snd).filter
    fun t => !visited.contains t)

namespace Stands

variable {k : Nat} {visited frontier : List String}

theorem first : Stands g includeTests start 0 [start] [start] := by
  refine ⟨fun x => ?_, fun x => ?_, List.nodup_singleton start⟩
  · rw [List.mem_singleton, atDistance_zero]
  · simp [atDistance_zero]

variable (h : Stands g includeTests start k visited frontier)
include h

/-- An edge leads out of the visited files exactly to a file that is one step further. -/
theorem mem_fresh {x : String} :
    (∃ e ∈ leaving g includeTests frontier, e.2 = x ∧ x ∉ visited) ↔
      AtDistance g includeTests start (k + 1) x := by
  rw [atDistance_succ_iff, ← h.passed]
  constructor
  · rintro ⟨⟨a, b⟩, he, rfl, hnew⟩
    obtain ⟨ha, hleads⟩ := mem_leaving.mp he
    exact ⟨⟨a, (h.reached a).mp ha, hleads⟩, hnew⟩
  · rintro ⟨⟨a, ha, hleads⟩, hnew⟩
    exact ⟨(a, x), mem_leaving.mpr ⟨(h.reached a).mpr ha, hleads⟩, rfl, hnew⟩

theorem mem_nextLevel {x : String} :
    x ∈ nextLevel g includeTests visited frontier ↔
      AtDistance g includeTests start (k + 1) x := by
  rw [nextLevel, (sortDistinct_spec _).2, List.mem_filter, List.mem_map, ← h.mem_fresh]
  constructor
  · rintro ⟨⟨e, he, rfl⟩, hnew⟩
    exact ⟨e, he, rfl, by simpa using hnew⟩
  · rintro ⟨e, he, rfl, hnew⟩
    exact ⟨⟨e, he, rfl⟩, by simpa using hnew⟩

theorem next : Stands g includeTests start (k + 1)
    (visited ++ nextLevel g includeTests visited frontier)
    (nextLevel g includeTests visited frontier) := by
  refine ⟨fun x => h.mem_nextLevel, fun x => ?_, (sortDistinct_spec _).1.imp fun hlt => hlt.ne⟩
  rw [List.mem_append, h.passed, h.mem_nextLevel]
  constructor
  · rintro (⟨j, hj, hx⟩ | hx)
    · exact ⟨j, Nat.le_succ_of_le hj, hx⟩
    · exact ⟨k + 1, Nat.le_refl _, hx⟩
  · rintro ⟨j, hj, hx⟩
    rcases Nat.lt_or_eq_of_le hj with hlt | rfl
    · exact .inl ⟨j, Nat.le_of_lt_succ hlt, hx⟩
    · exact .inr hx

theorem any_leaving :
    ((leaving g includeTests frontier).any fun e => !visited.contains e.2) = true ↔
      ∃ x, AtDistance g includeTests start (k + 1) x := by
  simp only [← h.mem_fresh, List.any_eq_true, Bool.not_eq_true', List.contains_eq_mem,
    decide_eq_false_iff_not]
  constructor
  · rintro ⟨e, he, hnew⟩
    exact ⟨e.2, e, he, rfl, hnew⟩
  · rintro ⟨_, e, he, rfl, hnew⟩
    exact ⟨e, he, hnew⟩

end Stands

/-! All levels -/

/-- What a walk finds beyond a distance within a number of further levels. -/
structure Finds (g : Adjacency) (includeTests : Bool) (start : String) (k left : Nat)
    (found : Traversal) : Prop where
  depths : found.levels.map Level.depth = List.range' (k + 1) found.levels.length
  within : found.levels.length ≤ left
  levels : ∀ l ∈ found.levels, l.files ≠ [] ∧ l.files.Pairwise (· < ·) ∧
    ∀ x, x ∈ l.files ↔ AtDistance g includeTests start l.depth x
  all : ∀ j x, k < j → j ≤ k + left → AtDistance g includeTests start j x →
    ∃ l ∈ found.levels, l.depth = j
  edges_nodup : found.edges.Nodup
  edges : ∀ a b, (a, b) ∈ found.edges ↔
    Leads g includeTests a b ∧ ∃ j, k ≤ j ∧ j < k + left ∧ AtDistance g includeTests start j a
  depthLimited : found.depthLimited = true ↔
    ∃ x, AtDistance g includeTests start (k + left + 1) x

theorem expand_succ (level left : Nat) (visited frontier : List String) :
    expand g includeTests level (left + 1) visited frontier =
      if (nextLevel g includeTests visited frontier).isEmpty then
        ⟨[], leaving g includeTests frontier, false⟩
      else
        let next := nextLevel g includeTests visited frontier
        let rest := expand g includeTests (level + 1) left (visited ++ next) next
        ⟨⟨level, next⟩ :: rest.levels, leaving g includeTests frontier ++ rest.edges,
          rest.depthLimited⟩ := rfl

/-- A walk ends where no file lies at the next distance, and then none lies beyond. -/
theorem Finds.last {k : Nat} {visited frontier : List String}
    (hg : ∀ e ∈ g.entries, e.2.Nodup) (h : Stands g includeTests start k visited frontier)
    (hnone : ∀ x, ¬AtDistance g includeTests start (k + 1) x) (left : Nat) :
    Finds g includeTests start k (left + 1) ⟨[], leaving g includeTests frontier, false⟩ := by
  have hbeyond : ∀ j x, k < j → ¬AtDistance g includeTests start j x := by
    intro j x hj hx
    obtain ⟨y, hy⟩ := hx.exists_nearer hj
    exact hnone y hy
  refine ⟨rfl, Nat.zero_le _, by simp, ?_, nodup_leaving hg h.nodup, fun a b => ?_, ?_⟩
  · intro j x hj _ hx
    exact absurd hx (hbeyond j x hj)
  · rw [mem_leaving, h.reached]
    constructor
    · rintro ⟨ha, hleads⟩
      exact ⟨hleads, k, Nat.le_refl k, by omega, ha⟩
    · rintro ⟨hleads, j, hkj, -, ha⟩
      rcases Nat.lt_or_eq_of_le hkj with hlt | rfl
      · exact absurd ha (hbeyond j a hlt)
      · exact ⟨ha, hleads⟩
  · simp only [Bool.false_eq_true, false_iff, not_exists]
    exact fun x => hbeyond _ x (by omega)

/-- One more level before what a walk finds from there on. -/
theorem Finds.level {k left : Nat} {visited frontier : List String} {rest : Traversal}
    (hg : ∀ e ∈ g.entries, e.2.Nodup) (h : Stands g includeTests start k visited frontier)
    (hnext : nextLevel g includeTests visited frontier ≠ [])
    (hrest : Finds g includeTests start (k + 1) left rest) :
    Finds g includeTests start k (left + 1)
      ⟨⟨k + 1, nextLevel g includeTests visited frontier⟩ :: rest.levels,
        leaving g includeTests frontier ++ rest.edges, rest.depthLimited⟩ := by
  refine ⟨?_, ?_, ?_, ?_, ?_, fun a b => ?_, ?_⟩
  · rw [List.map_cons, hrest.depths, List.length_cons, List.range'_succ]
  · exact Nat.succ_le_succ hrest.within
  · intro l hl
    rcases List.mem_cons.mp hl with rfl | hl
    · exact ⟨hnext, (sortDistinct_spec _).1, fun x => h.mem_nextLevel⟩
    · exact hrest.levels l hl
  · intro j x hkj hj hx
    rcases Nat.lt_or_eq_of_le hkj with hlt | rfl
    · obtain ⟨l, hl, hdepth⟩ := hrest.all j x hlt (by omega) hx
      exact ⟨l, List.mem_cons_of_mem _ hl, hdepth⟩
    · exact ⟨_, List.mem_cons_self, rfl⟩
  · -- The sources of the two parts lie at different distances.
    refine (nodup_leaving hg h.nodup).append hrest.edges_nodup ?_
    rintro ⟨a, b⟩ hnear hfar
    obtain ⟨-, j, hkj, -, hj⟩ := (hrest.edges a b).mp hfar
    have := hj.unique ((h.reached a).mp (mem_leaving.mp hnear).1)
    omega
  · rw [List.mem_append, mem_leaving, hrest.edges, h.reached]
    constructor
    · rintro (⟨ha, hleads⟩ | ⟨hleads, j, hkj, hj, ha⟩)
      · exact ⟨hleads, k, Nat.le_refl k, by omega, ha⟩
      · exact ⟨hleads, j, by omega, by omega, ha⟩
    · rintro ⟨hleads, j, hkj, hj, ha⟩
      rcases Nat.lt_or_eq_of_le hkj with hlt | rfl
      · exact .inr ⟨hleads, j, hlt, by omega, ha⟩
      · exact .inl ⟨ha, hleads⟩
  · rw [hrest.depthLimited, show k + 1 + left + 1 = k + (left + 1) + 1 by omega]

theorem finds_expand (hg : ∀ e ∈ g.entries, e.2.Nodup) {k left : Nat}
    {visited frontier : List String} (h : Stands g includeTests start k visited frontier) :
    Finds g includeTests start k left
      (expand g includeTests (k + 1) left visited frontier) := by
  induction left generalizing k visited frontier with
  | zero =>
    refine ⟨rfl, Nat.le_refl _, by simp [expand], ?_, by simp [expand], ?_, h.any_leaving⟩
    · intro j x hkj hj
      omega
    · intro a b
      simp only [expand, List.not_mem_nil, false_iff]
      rintro ⟨-, j, hkj, hj, -⟩
      omega
  | succ left ih =>
    rw [expand_succ]
    split
    · next hempty =>
      refine .last hg h (fun x hx => ?_) left
      rw [← h.mem_nextLevel, List.isEmpty_iff.mp hempty] at hx
      exact List.not_mem_nil hx
    · next hsome => exact .level hg h (by simpa using hsome) (ih h.next)

/-- A walk of bounded depth is exact. Its levels are numbered from one on without gaps, and each
holds, in ascending order, exactly the files at its distance from the start; no distance up to the
bound is left out, no file stands in two levels, and the start in none. Its edges are, once each,
those that leave a file nearer than the bound, and it is cut off exactly if some file lies one step
beyond the bound. -/
theorem traverse_exact (hg : ∀ e ∈ g.entries, e.2.Nodup) (start : String) (depth : Nat)
    (includeTests : Bool) :
    let found := traverse g start depth includeTests
    found.levels.map Level.depth = List.range' 1 found.levels.length ∧
      (∀ l ∈ found.levels, l.depth ≤ depth ∧ l.files ≠ [] ∧ l.files.Pairwise (· < ·) ∧
        ∀ x, x ∈ l.files ↔ AtDistance g includeTests start l.depth x) ∧
      (∀ k x, 1 ≤ k → k ≤ depth → AtDistance g includeTests start k x →
        ∃ l ∈ found.levels, l.depth = k ∧ x ∈ l.files) ∧
      found.levels.Pairwise (fun a b => a.files.Disjoint b.files) ∧
      (∀ l ∈ found.levels, start ∉ l.files) ∧
      found.edges.Nodup ∧
      (∀ a b, (a, b) ∈ found.edges ↔
        Leads g includeTests a b ∧ ∃ k < depth, AtDistance g includeTests start k a) ∧
      (found.depthLimited = true ↔ ∃ x, AtDistance g includeTests start (depth + 1) x) := by
  intro found
  have h : Finds g includeTests start 0 depth found := finds_expand hg .first
  have hdepth : ∀ l ∈ found.levels, 1 ≤ l.depth ∧ l.depth ≤ depth := by
    intro l hl
    have hmem := List.mem_map_of_mem (f := Level.depth) hl
    rw [h.depths, List.mem_range'_1] at hmem
    have := h.within
    omega
  have hdistinct : found.levels.Pairwise fun a b => a.depth ≠ b.depth := by
    have hnodup : (found.levels.map Level.depth).Nodup := by
      rw [h.depths]
      exact List.nodup_range'
    exact List.pairwise_map.mp hnodup
  refine ⟨h.depths, fun l hl => ⟨(hdepth l hl).2, h.levels l hl⟩, ?_, ?_, ?_, h.edges_nodup, ?_, ?_⟩
  · intro k x hk hkd hx
    obtain ⟨l, hl, rfl⟩ := h.all k x hk (by omega) hx
    exact ⟨l, hl, rfl, ((h.levels l hl).2.2 x).mpr hx⟩
  · refine hdistinct.imp_of_mem ?_
    intro a b ha hb hne x hxa hxb
    have hxa' := ((h.levels a ha).2.2 x).mp hxa
    exact hne (hxa'.unique (((h.levels b hb).2.2 x).mp hxb))
  · intro l hl hstart
    have hzero := (((h.levels l hl).2.2 start).mp hstart).unique (atDistance_zero.mpr rfl)
    have := (hdepth l hl).1
    omega
  · intro a b
    rw [h.edges]
    simp only [Nat.zero_le, true_and, Nat.zero_add]
  · rw [h.depthLimited, Nat.zero_add]

/-- Two ways that meet again, a way back to the start, and a file behind a test file. -/
def diamond : Adjacency :=
  .ofPairs [("t", "a"), ("t", "b"), ("a", "c"), ("b", "c"), ("c", "t"), ("c", "d"),
    ("a", "a.test.ts"), ("a.test.ts", "e")]

theorem traverse_exact_diamond : (∀ e ∈ diamond.entries, e.2.Nodup) ∧
    traverse diamond "t" 2 false =
      ⟨[⟨1, ["a", "b"]⟩, ⟨2, ["c"]⟩], [("t", "a"), ("t", "b"), ("a", "c"), ("b", "c")], true⟩ ∧
    AtDistance diamond false "t" 2 "c" ∧ ¬AtDistance diamond false "t" 2 "a.test.ts" ∧
    ∃ x, AtDistance diamond false "t" 3 x := by
  have hg : ∀ e ∈ diamond.entries, e.2.Nodup := fun e he =>
    ((Adjacency.normal_ofPairs _).1.targets e he).imp fun hlt => hlt.ne
  have hfound : traverse diamond "t" 2 false =
      ⟨[⟨1, ["a", "b"]⟩, ⟨2, ["c"]⟩], [("t", "a"), ("t", "b"), ("a", "c"), ("b", "c")], true⟩ := by
    decide +kernel
  obtain ⟨-, hlevels, -, -, -, -, -, hlimited⟩ := traverse_exact hg "t" 2 false
  rw [hfound] at hlevels hlimited
  have hsecond := (hlevels ⟨2, ["c"]⟩ (by simp)).2.2.2
  exact ⟨hg, hfound, (hsecond "c").mp (by simp), fun h => by simpa using (hsecond _).mpr h,
    hlimited.mp rfl⟩

end CodeIndex.Graph
