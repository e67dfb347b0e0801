import CodeIndex.Graph.Cycle
import CodeIndex.Proofs.Graph.Adjacency
import Mathlib.Data.List.Chain
import Mathlib.Data.List.Lex
import Mathlib.Data.List.Rotate

/-!
Cycle search is exact. From a start the search reports the ways back to it through larger files that
it has not passed yet; these are the simple cycles whose smallest file is the start. Over all starts
the search finds every simple cycle within the bound once, written from its smallest file on.
-/
namespace CodeIndex.Graph

variable {g : Adjacency} {start node : String} {path : List String} {room : Nat}

/-- Different files, each of which imports the next one and the last of which imports the first. -/
structure SimpleCycle (g : Adjacency) (nodes : List String) : Prop where
  ne_nil : nodes ≠ []
  nodup : nodes.Nodup
  closed : (nodes ++ nodes.take 1).IsChain fun a b => g.hasEdge a b = true

/-- No file of the list is smaller than its first one. -/
def StartsLeast (nodes : List String) : Prop := ∀ x ∈ nodes, ∀ y ∈ nodes.head?, y ≤ x

/-! What the search reports from one start -/

/-- A way from a node back to the start through larger files that are not on the path. -/
inductive WayBack (g : Adjacency) (start : String) : List String → String → List String → Prop
  | close {path : List String} {node : String} (hedge : g.hasEdge node start = true) :
      WayBack g start path node []
  | step {path : List String} {node next : String} {way : List String}
      (hedge : g.hasEdge node next = true) (hlarger : start < next) (hnew : next ∉ path)
      (hrest : WayBack g start (next :: path) next way) : WayBack g start path node (next :: way)

/-- What the search reports through one target of a node. -/
def through (g : Adjacency) (start : String) (path : List String) (room : Nat) (next : String) :
    Detection :=
  if next = start then ⟨[Cycle.normalized path.reverse], false⟩
  else if next < start || path.contains next then Detection.none
  else
    match room with
    | 0 => ⟨[], true⟩
    | room' + 1 => explore g start (next :: path) room' next

theorem exploreTargets_cons (next : String) (rest : List String) :
    exploreTargets g start path room (next :: rest) =
      (through g start path room next).append (exploreTargets g start path room rest) := by
  rw [exploreTargets.eq_def]
  rfl

theorem mem_through {next : String} {c : Cycle} :
    c ∈ (through g start path room next).cycles ↔
      (next = start ∧ c = Cycle.normalized path.reverse) ∨
        (start < next ∧ next ∉ path ∧
          ∃ room', room = room' + 1 ∧ c ∈ (explore g start (next :: path) room' next).cycles) := by
  unfold through
  by_cases hstart : next = start
  · simp [hstart]
  · rw [if_neg hstart]
    by_cases hskip : (decide (next < start) || path.contains next) = true
    · have hnot : ¬(start < next ∧ next ∉ path) := by
        rintro ⟨hlarger, hnew⟩
        rcases Bool.or_eq_true_iff.mp hskip with hsmaller | hon
        · exact lt_asymm hlarger (of_decide_eq_true hsmaller)
        · exact hnew (List.contains_iff_mem.mp hon)
      rw [if_pos hskip]
      simp only [hstart, false_and, false_or, Detection.none, List.not_mem_nil, false_iff]
      exact fun ⟨hlarger, hnew, _⟩ => hnot ⟨hlarger, hnew⟩
    · rw [if_neg hskip]
      rw [Bool.or_eq_true_iff, not_or, decide_eq_true_iff, List.contains_iff_mem] at hskip
      have hlarger : start < next := lt_of_le_of_ne (not_lt.mp hskip.1) (Ne.symm hstart)
      cases room with
      | zero => simp [hstart]
      | succ room' => simp [hstart, hlarger, hskip.2]

theorem mem_exploreTargets {targets : List String} {c : Cycle} :
    c ∈ (exploreTargets g start path room targets).cycles ↔
      ∃ next ∈ targets, c ∈ (through g start path room next).cycles := by
  induction targets with
  | nil => simp [exploreTargets, Detection.none]
  | cons next rest ih => simp [exploreTargets_cons, Detection.append, ih]

theorem mem_explore_step {c : Cycle} :
    c ∈ (explore g start path room node).cycles ↔
      (g.hasEdge node start = true ∧ c = Cycle.normalized path.reverse) ∨
        ∃ next, g.hasEdge node next = true ∧ start < next ∧ next ∉ path ∧
          ∃ room', room = room' + 1 ∧ c ∈ (explore g start (next :: path) room' next).cycles := by
  rw [explore, mem_exploreTargets]
  simp only [mem_through, Adjacency.hasEdge, List.contains_iff_mem]
  constructor
  · rintro ⟨next, hnext, ⟨rfl, hc⟩ | hstep⟩
    · exact .inl ⟨hnext, hc⟩
    · exact .inr ⟨next, hnext, hstep⟩
  · rintro (⟨hstart, hc⟩ | ⟨next, hnext, hstep⟩)
    · exact ⟨start, hstart, .inl ⟨rfl, hc⟩⟩
    · exact ⟨next, hnext, .inr hstep⟩

theorem exists_wayBack_of_mem_explore {c : Cycle}
    (h : c ∈ (explore g start path room node).cycles) :
    ∃ way, way.length ≤ room ∧ WayBack g start path node way ∧
      c = Cycle.normalized (path.reverse ++ way) := by
  induction room generalizing path node with
  | zero =>
    rcases mem_explore_step.mp h with ⟨hedge, rfl⟩ | ⟨next, -, -, -, room', hroom, -⟩
    · exact ⟨[], Nat.le_refl _, .close hedge, by simp⟩
    · simp at hroom
  | succ room ih =>
    rcases mem_explore_step.mp h with ⟨hedge, rfl⟩ | ⟨next, hedge, hlarger, hnew, room', hroom, hc⟩
    · exact ⟨[], Nat.zero_le _, .close hedge, by simp⟩
    · obtain rfl : room = room' := Nat.succ.inj hroom
      obtain ⟨way, hlength, hway, rfl⟩ := ih hc
      exact ⟨next :: way, Nat.succ_le_succ hlength, .step hedge hlarger hnew hway, by simp⟩

theorem mem_explore_of_wayBack {way : List String} (h : WayBack g start path node way)
    (hlength : way.length ≤ room) :
    Cycle.normalized (path.reverse ++ way) ∈ (explore g start path room node).cycles := by
  induction h generalizing room with
  | close hedge => exact mem_explore_step.mpr (.inl ⟨hedge, by simp⟩)
  | @step path node next way hedge hlarger hnew hrest ih =>
    rw [List.length_cons] at hlength
    obtain ⟨room', rfl⟩ : ∃ room', room = room' + 1 := ⟨room - 1, by omega⟩
    refine mem_explore_step.mpr (.inr ⟨next, hedge, hlarger, hnew, room', rfl, ?_⟩)
    simpa using ih (Nat.le_of_succ_le_succ hlength)

/-- A way back is a chain of different new files that leads from the node to the start. -/
theorem wayBack_iff {way : List String} :
    WayBack g start path node way ↔
      (node :: way ++ [start]).IsChain (fun a b => g.hasEdge a b = true) ∧ way.Nodup ∧
        ∀ x ∈ way, start < x ∧ x ∉ path := by
  induction way generalizing path node with
  | nil =>
    constructor
    · rintro ⟨hedge⟩
      simpa using hedge
    · rintro ⟨hchain, -, -⟩
      exact .close (by simpa using hchain)
  | cons next way ih =>
    constructor
    · intro h
      cases h with
      | step hedge hlarger hnew hrest =>
        obtain ⟨hchain, hnodup, hall⟩ := ih.mp hrest
        refine ⟨List.isChain_cons_cons.mpr ⟨hedge, hchain⟩, List.nodup_cons.mpr ⟨?_, hnodup⟩, ?_⟩
        · exact fun hmem => (hall next hmem).2 List.mem_cons_self
        · intro x hx
          rcases List.mem_cons.mp hx with rfl | hx
          · exact ⟨hlarger, hnew⟩
          · exact ⟨(hall x hx).1, fun hmem => (hall x hx).2 (List.mem_cons_of_mem _ hmem)⟩
    · rintro ⟨hchain, hnodup, hall⟩
      obtain ⟨hedge, hchain⟩ := List.isChain_cons_cons.mp hchain
      obtain ⟨hnext, hnodup⟩ := List.nodup_cons.mp hnodup
      have hfirst := hall next List.mem_cons_self
      refine .step hedge hfirst.1 hfirst.2 (ih.mpr ⟨hchain, hnodup, fun x hx => ?_⟩)
      have hlater := hall x (List.mem_cons_of_mem _ hx)
      refine ⟨hlater.1, fun hmem => ?_⟩
      rcases List.mem_cons.mp hmem with rfl | hmem
      · exact hnext hx
      · exact hlater.2 hmem

/-- The ways from a start back to itself are the simple cycles that start there with their smallest
file. -/
theorem wayBack_start_iff {way : List String} :
    WayBack g start [start] start way ↔
      SimpleCycle g (start :: way) ∧ StartsLeast (start :: way) := by
  rw [wayBack_iff]
  constructor
  · rintro ⟨hchain, hnodup, hall⟩
    refine ⟨⟨by simp, List.nodup_cons.mpr ⟨?_, hnodup⟩, hchain⟩, ?_⟩
    · exact fun hmem => (hall start hmem).2 List.mem_cons_self
    · intro x hx y hy
      cases hy
      rcases List.mem_cons.mp hx with rfl | hx
      · exact le_refl _
      · exact (hall x hx).1.le
  · rintro ⟨hcycle, hleast⟩
    obtain ⟨hstart, hnodup⟩ := List.nodup_cons.mp hcycle.nodup
    refine ⟨hcycle.closed, hnodup, fun x hx => ?_⟩
    have hne : x ≠ start := fun heq => hstart (heq ▸ hx)
    exact ⟨lt_of_le_of_ne (hleast x (List.mem_cons_of_mem _ hx) start rfl) hne.symm,
      by simpa using hne⟩

/-! Rotations -/

theorem SimpleCycle.rotate_one {a : String} {rest : List String}
    (h : SimpleCycle g (a :: rest)) : SimpleCycle g (rest ++ [a]) := by
  refine ⟨by simp, (List.perm_append_singleton a rest).nodup_iff.mpr h.nodup, ?_⟩
  cases rest with
  | nil => exact h.closed
  | cons b rest =>
    obtain ⟨hedge, hchain⟩ := List.isChain_cons_cons.mp h.closed
    refine List.isChain_append.mpr ⟨hchain, List.isChain_singleton _, ?_⟩
    intro x hx y hy
    rw [List.getLast?_append_of_ne_nil _ (by simp)] at hx
    cases hx
    cases hy
    exact hedge

theorem SimpleCycle.of_isRotated {nodes nodes' : List String} (h : SimpleCycle g nodes)
    (hrotated : nodes ~r nodes') : SimpleCycle g nodes' := by
  obtain ⟨n, rfl⟩ := hrotated
  induction n generalizing nodes with
  | zero => simpa using h
  | succ n ih =>
    cases nodes with
    | nil => exact absurd rfl h.ne_nil
    | cons a rest =>
      rw [List.rotate_cons_succ]
      exact ih h.rotate_one

/-- Of the rotations of a list of different files only one starts with the smallest file. -/
theorem StartsLeast.eq_of_isRotated {nodes nodes' : List String} (h : StartsLeast nodes)
    (h' : StartsLeast nodes') (hnodup : nodes.Nodup) (hrotated : nodes ~r nodes') :
    nodes = nodes' := by
  cases nodes with
  | nil => exact (List.isRotated_nil_iff'.mp hrotated)
  | cons a rest =>
    obtain ⟨n, hn, rfl⟩ := List.isRotated_iff_mod.mp hrotated
    have hpos : 0 < ((a :: rest).rotate n).length := by simp
    obtain ⟨b, hb⟩ : ∃ b, ((a :: rest).rotate n).head? = some b :=
      ⟨_, List.head?_eq_some_head (List.ne_nil_of_length_pos hpos)⟩
    have hmem : b ∈ a :: rest := List.mem_rotate.mp (List.mem_of_mem_head? hb)
    have hab : b = a :=
      le_antisymm (h' a (List.mem_rotate.mpr List.mem_cons_self) b hb) (h b hmem a rfl)
    have hindex : (a :: rest)[n % (a :: rest).length]? = (a :: rest)[0]? := by
      rw [List.head?_eq_getElem?, List.getElem?_eq_getElem hpos, List.getElem_rotate] at hb
      rw [List.getElem?_eq_getElem (Nat.mod_lt _ (by simp))]
      simpa [hab] using hb
    have hzero : n % (a :: rest).length = 0 :=
      (List.getElem?_inj (Nat.mod_lt _ (by simp)) hnodup).mp hindex
    rw [← List.rotate_mod, hzero, List.rotate_zero]

/-- The search for the first smallest file ends at a smallest file. -/
theorem firstLeast_spec {before xs : List String} {best : String} {bestAt : Nat}
    (hbest : (before ++ xs)[bestAt]? = some best) (hleast : ∀ y ∈ before, best ≤ y) :
    ∃ m, (before ++ xs)[Cycle.firstLeast best bestAt before.length xs]? = some m ∧
      ∀ y ∈ before ++ xs, m ≤ y := by
  induction xs generalizing before best bestAt with
  | nil => exact ⟨best, hbest, by simpa using hleast⟩
  | cons x xs ih =>
    have hsplit : before ++ x :: xs = (before ++ [x]) ++ xs := by simp
    have hlength : before.length + 1 = (before ++ [x]).length := by simp
    rw [Cycle.firstLeast]
    split
    · next hlt =>
      rw [hsplit, hlength]
      apply ih
      · simp
      · intro y hy
        rcases List.mem_append.mp hy with hy | hy
        · exact hlt.le.trans (hleast y hy)
        · exact (List.mem_singleton.mp hy).ge
    · next hle =>
      rw [hsplit, hlength]
      apply ih
      · rw [← hsplit]
        exact hbest
      · intro y hy
        rcases List.mem_append.mp hy with hy | hy
        · exact hleast y hy
        · rw [List.mem_singleton.mp hy]
          exact not_lt.mp hle

theorem rotateLeft_eq_rotate {α : Type} (xs : List α) (n : Nat) :
    xs.rotateLeft n = xs.rotate n := by
  by_cases h : xs.length ≤ 1
  · match xs, h with
    | [], _ => rfl
    | [x], _ => simp [List.rotateLeft]
  · rw [List.rotate_eq_drop_append_take_mod]
    simp only [List.rotateLeft, if_neg h]

/-- The normal form of a closed walk is the rotation that starts with a smallest file. -/
theorem normalized_spec (nodes : List String) :
    nodes ~r (Cycle.normalized nodes).nodes ∧ StartsLeast (Cycle.normalized nodes).nodes := by
  cases nodes with
  | nil => exact ⟨List.IsRotated.refl _, by simp [Cycle.normalized, StartsLeast]⟩
  | cons x xs =>
    have hfirst : ([x] ++ xs)[0]? = some x := rfl
    obtain ⟨m, hm, hleast⟩ := firstLeast_spec hfirst (by simp)
    simp only [List.length_singleton, List.singleton_append] at hm hleast
    have hnodes : (Cycle.normalized (x :: xs)).nodes =
        (x :: xs).rotate (Cycle.firstLeast x 0 1 xs) := rotateLeft_eq_rotate _ _
    rw [hnodes]
    refine ⟨⟨_, rfl⟩, fun y hy z hz => ?_⟩
    obtain ⟨hi, hget⟩ := List.getElem?_eq_some_iff.mp hm
    rw [List.head?_rotate hi] at hz
    rw [Option.mem_unique hz hm]
    exact hleast y (List.mem_rotate.mp hy)

/-- The search stays at a smallest file. -/
theorem firstLeast_eq_self {best : String} {xs : List String} (h : ∀ x ∈ xs, best ≤ x)
    (bestAt i : Nat) : Cycle.firstLeast best bestAt i xs = bestAt := by
  induction xs generalizing i with
  | nil => rfl
  | cons x xs ih =>
    rw [Cycle.firstLeast, if_neg (not_lt.mpr (h x List.mem_cons_self))]
    exact ih (fun y hy => h y (List.mem_cons_of_mem _ hy)) _

/-- A closed walk from a smallest file on is its own normal form. -/
theorem normalized_eq_self {nodes : List String} (h : StartsLeast nodes) :
    Cycle.normalized nodes = ⟨nodes⟩ := by
  cases nodes with
  | nil => rfl
  | cons x xs =>
    have hfirst : Cycle.firstLeast x 0 1 xs = 0 :=
      firstLeast_eq_self (fun y hy => h y (List.mem_cons_of_mem _ hy) x rfl) 0 1
    rw [Cycle.normalized, hfirst, rotateLeft_eq_rotate, List.rotate_zero]

/-! All starts together -/

theorem Cycle.mem_insertSorted {c d : Cycle} {cs : List Cycle} :
    d ∈ c.insertSorted cs ↔ d = c ∨ d ∈ cs := by
  induction cs with
  | nil => simp [Cycle.insertSorted]
  | cons a cs ih =>
    unfold Cycle.insertSorted
    split
    · simp
    · split
      · next heq => simp [heq]
      · simp only [List.mem_cons, ih]
        exact or_left_comm

theorem Cycle.pairwise_insertSorted {c : Cycle} {cs : List Cycle}
    (h : cs.Pairwise fun a b => a.nodes < b.nodes) :
    (c.insertSorted cs).Pairwise fun a b => a.nodes < b.nodes := by
  induction cs with
  | nil => simp [Cycle.insertSorted]
  | cons a cs ih =>
    obtain ⟨hfirst, hrest⟩ := List.pairwise_cons.mp h
    unfold Cycle.insertSorted
    split
    · next hlt =>
      refine List.pairwise_cons.mpr ⟨fun d hd => ?_, h⟩
      rcases List.mem_cons.mp hd with rfl | hd
      · exact hlt
      · exact hlt.trans (hfirst d hd)
    · next hle =>
      split
      · exact h
      · next hne =>
        have hnodes : a.nodes ≠ c.nodes := fun heq => hne (congrArg Cycle.mk heq.symm)
        refine List.pairwise_cons.mpr ⟨fun d hd => ?_, ih hrest⟩
        rcases Cycle.mem_insertSorted.mp hd with rfl | hd
        · exact lt_of_le_of_ne (not_lt.mp hle) hnodes
        · exact hfirst d hd

/-- Insertion of cycles one after the other keeps all of them, ascending. -/
theorem foldl_insertSorted (cs : List Cycle) :
    (cs.foldl (fun acc c => c.insertSorted acc) []).Pairwise (fun a b => a.nodes < b.nodes) ∧
      ∀ c, c ∈ cs.foldl (fun acc c => c.insertSorted acc) [] ↔ c ∈ cs := by
  have hfold : ∀ (cs acc : List Cycle), acc.Pairwise (fun a b => a.nodes < b.nodes) →
      (cs.foldl (fun acc c => c.insertSorted acc) acc).Pairwise (fun a b => a.nodes < b.nodes) ∧
        ∀ c, c ∈ cs.foldl (fun acc c => c.insertSorted acc) acc ↔ c ∈ cs ∨ c ∈ acc := by
    intro cs
    induction cs with
    | nil => exact fun acc hacc => ⟨hacc, by simp⟩
    | cons d cs ih =>
      intro acc hacc
      obtain ⟨hsorted, hmem⟩ := ih _ (Cycle.pairwise_insertSorted (c := d) hacc)
      refine ⟨hsorted, fun c => ?_⟩
      rw [List.foldl_cons, hmem, Cycle.mem_insertSorted, List.mem_cons]
      exact or_left_comm.trans or_assoc.symm
  obtain ⟨hsorted, hmem⟩ := hfold cs [] List.Pairwise.nil
  exact ⟨hsorted, fun c => by simp [hmem]⟩

theorem cycles_foldl_append {starts : List String} {find : String → Detection} (found : Detection) :
    (starts.foldl (fun acc start => acc.append (find start)) found).cycles =
      found.cycles ++ starts.flatMap fun start => (find start).cycles := by
  induction starts generalizing found with
  | nil => simp
  | cons start starts ih =>
    rw [List.foldl_cons, ih, List.flatMap_cons, ← List.append_assoc]
    rfl

/-- A file that imports another one is a source. -/
theorem mem_sources_of_hasEdge {a b : String} (h : g.hasEdge a b = true) : a ∈ g.sources := by
  unfold Adjacency.hasEdge Adjacency.targets at h
  split at h
  · next e ts hfound =>
    have hname : e = a := by simpa using List.find?_some hfound
    rw [← hname]
    exact List.mem_map_of_mem (List.mem_of_find?_eq_some hfound)
  · simp at h

/-- The cycles that are found are the simple cycles within the bound from their smallest file on. -/
theorem mem_detectCycles {maxDepth : Nat} {nodes : List String} :
    ⟨nodes⟩ ∈ (detectCycles maxDepth g).cycles ↔
      SimpleCycle g nodes ∧ StartsLeast nodes ∧ nodes.length ≤ max maxDepth 1 := by
  unfold detectCycles
  dsimp only
  rw [(foldl_insertSorted _).2, cycles_foldl_append]
  simp only [Detection.none, List.nil_append, List.mem_flatMap]
  constructor
  · rintro ⟨start, -, hc⟩
    obtain ⟨way, hlength, hway, hnodes⟩ := exists_wayBack_of_mem_explore hc
    obtain ⟨hcycle, hleast⟩ := wayBack_start_iff.mp hway
    rw [List.reverse_singleton, List.singleton_append,
      normalized_eq_self hleast] at hnodes
    cases hnodes
    refine ⟨hcycle, hleast, ?_⟩
    rw [List.length_cons]
    omega
  · rintro ⟨hcycle, hleast, hlength⟩
    cases nodes with
    | nil => exact absurd rfl hcycle.ne_nil
    | cons start way =>
      have hedge : start ∈ g.sources := by
        have hclosed := hcycle.closed
        cases way with
        | nil => exact mem_sources_of_hasEdge (List.isChain_cons_cons.mp hclosed).1
        | cons next way => exact mem_sources_of_hasEdge (List.isChain_cons_cons.mp hclosed).1
      have hroom : way.length ≤ max maxDepth 1 - 1 := by
        rw [List.length_cons] at hlength
        omega
      have hfound := mem_explore_of_wayBack (wayBack_start_iff.mpr ⟨hcycle, hleast⟩) hroom
      rw [List.reverse_singleton, List.singleton_append,
        normalized_eq_self hleast] at hfound
      exact ⟨start, hedge, hfound⟩

/-- Detection is exact up to its bound. It gives the simple cycles of at most that many files, each
once and from its smallest file on, in strictly ascending order; every simple cycle within the bound
is a rotation of exactly one of them. On edges it depends on the pairs of the file imports alone. -/
theorem detectCycles_exact (maxDepth : Nat) (g : Adjacency) :
    ((detectCycles maxDepth g).cycles.map Cycle.nodes).Pairwise (· < ·) ∧
      (∀ nodes, nodes ∈ (detectCycles maxDepth g).cycles.map Cycle.nodes ↔
        SimpleCycle g nodes ∧ StartsLeast nodes ∧ nodes.length ≤ max maxDepth 1) ∧
      (∀ nodes, SimpleCycle g nodes → nodes.length ≤ max maxDepth 1 →
        ∃! c, c ∈ (detectCycles maxDepth g).cycles ∧ nodes ~r c.nodes) ∧
      ∀ edges edges' : List Edge,
        (∀ p, p ∈ edges.filterMap Edge.importPair? ↔ p ∈ edges'.filterMap Edge.importPair?) →
          detectCycles maxDepth (.ofEdges edges) = detectCycles maxDepth (.ofEdges edges') := by
  refine ⟨List.pairwise_map.mpr (foldl_insertSorted _).1, fun nodes => ?_, ?_, ?_⟩
  · rw [← mem_detectCycles, List.mem_map]
    constructor
    · rintro ⟨c, hc, rfl⟩
      exact hc
    · exact fun hc => ⟨_, hc, rfl⟩
  · intro nodes hcycle hlength
    obtain ⟨hrotated, hleast⟩ := normalized_spec nodes
    have hnormal : SimpleCycle g (Cycle.normalized nodes).nodes := hcycle.of_isRotated hrotated
    have hbound : (Cycle.normalized nodes).nodes.length ≤ max maxDepth 1 :=
      hrotated.perm.length_eq ▸ hlength
    refine ⟨Cycle.normalized nodes, ⟨mem_detectCycles.mpr ⟨hnormal, hleast, hbound⟩, hrotated⟩, ?_⟩
    · rintro ⟨nodes'⟩ ⟨hc, hrotated'⟩
      obtain ⟨hcycle', hleast', -⟩ := mem_detectCycles.mp hc
      rw [hleast'.eq_of_isRotated hleast hcycle'.nodup (hrotated'.symm.trans hrotated)]
  · intro edges edges' hpairs
    unfold Adjacency.ofEdges
    rw [Adjacency.ofPairs_congr hpairs]

end CodeIndex.Graph
