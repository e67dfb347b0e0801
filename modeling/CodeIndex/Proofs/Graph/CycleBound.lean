import CodeIndex.Proofs.Graph.Cycles

/-!
What the search for cycles leaves out. A search from one start is cut off where a way through larger
new files has no room left; so the flag is set exactly if some path of different files that starts
with its smallest one is a file longer than the bound. A cycle beyond the bound would begin with
such a path, so an unset flag means that no cycle was missed.
-/
namespace CodeIndex.Graph

variable {g : Adjacency} {start node : String} {path : List String} {room maxDepth : Nat}

/-- Different files, each of which imports the next one. -/
structure SimplePath (g : Adjacency) (nodes : List String) : Prop where
  nodup : nodes.Nodup
  chain : nodes.IsChain fun a b => g.hasEdge a b = true

/-- A way on from a node through different larger files that are not on the path. -/
structure WayOn (g : Adjacency) (start : String) (path : List String) (node : String)
    (way : List String) : Prop where
  chain : (node :: way).IsChain fun a b => g.hasEdge a b = true
  nodup : way.Nodup
  larger : ∀ x ∈ way, start < x
  unpassed : ∀ x ∈ way, x ∉ path

/-! Where one search is cut off -/

theorem depthLimited_through {next : String} :
    (through g start path room next).depthLimited = true ↔
      start < next ∧ next ∉ path ∧ ∀ room', room = room' + 1 →
        (explore g start (next :: path) room' next).depthLimited = true := by
  unfold through
  by_cases hstart : next = start
  · simp [hstart]
  · rw [if_neg hstart]
    by_cases hskip : (decide (next < start) || path.contains next) = true
    · rw [if_pos hskip]
      rw [Bool.or_eq_true_iff, decide_eq_true_iff, List.contains_iff_mem] at hskip
      simp only [Detection.none, Bool.false_eq_true, false_iff]
      rintro ⟨hlarger, hnew, -⟩
      rcases hskip with hsmaller | hpassed
      · exact lt_asymm hlarger hsmaller
      · exact hnew hpassed
    · rw [if_neg hskip]
      rw [Bool.or_eq_true_iff, not_or, decide_eq_true_iff, List.contains_iff_mem] at hskip
      have hlarger : start < next := lt_of_le_of_ne (not_lt.mp hskip.1) (Ne.symm hstart)
      cases room with
      | zero => simp [hlarger, hskip.2]
      | succ room' => simp [hlarger, hskip.2]

theorem depthLimited_exploreTargets {targets : List String} :
    (exploreTargets g start path room targets).depthLimited = true ↔
      ∃ next ∈ targets, (through g start path room next).depthLimited = true := by
  induction targets with
  | nil => simp [exploreTargets, Detection.none]
  | cons next rest ih => simp [exploreTargets_cons, Detection.append, ih]

theorem depthLimited_explore_step :
    (explore g start path room node).depthLimited = true ↔
      ∃ next, g.hasEdge node next = true ∧ start < next ∧ next ∉ path ∧
        ∀ room', room = room' + 1 →
          (explore g start (next :: path) room' next).depthLimited = true := by
  rw [explore, depthLimited_exploreTargets]
  simp only [depthLimited_through, Adjacency.hasEdge, List.contains_iff_mem]

theorem wayOn_nil : WayOn g start path node [] := by
  constructor <;> simp

theorem wayOn_cons {next : String} {way : List String} :
    WayOn g start path node (next :: way) ↔
      g.hasEdge node next = true ∧ start < next ∧ next ∉ path ∧
        WayOn g start (next :: path) next way := by
  constructor
  · rintro ⟨hchain, hnodup, hlarger, hunpassed⟩
    obtain ⟨hedge, hchain⟩ := List.isChain_cons_cons.mp hchain
    obtain ⟨hnext, hnodup⟩ := List.nodup_cons.mp hnodup
    refine ⟨hedge, hlarger next List.mem_cons_self, hunpassed next List.mem_cons_self, hchain,
      hnodup, fun x hx => hlarger x (List.mem_cons_of_mem _ hx), fun x hx hmem => ?_⟩
    rcases List.mem_cons.mp hmem with rfl | hmem
    · exact hnext hx
    · exact hunpassed x (List.mem_cons_of_mem _ hx) hmem
  · rintro ⟨hedge, hlarger, hnew, hrest⟩
    refine ⟨List.isChain_cons_cons.mpr ⟨hedge, hrest.chain⟩, List.nodup_cons.mpr ⟨?_, hrest.nodup⟩,
      List.forall_mem_cons.mpr ⟨hlarger, hrest.larger⟩, List.forall_mem_cons.mpr ⟨hnew, ?_⟩⟩
    · exact fun hmem => hrest.unpassed next hmem List.mem_cons_self
    · exact fun x hx hmem => hrest.unpassed x hx (List.mem_cons_of_mem _ hmem)

/-- A search is cut off exactly where a way on is one file longer than its room. -/
theorem depthLimited_explore :
    (explore g start path room node).depthLimited = true ↔
      ∃ way, way.length = room + 1 ∧ WayOn g start path node way := by
  induction room generalizing path node with
  | zero =>
    rw [depthLimited_explore_step]
    constructor
    · rintro ⟨next, hedge, hlarger, hnew, -⟩
      exact ⟨[next], rfl, wayOn_cons.mpr ⟨hedge, hlarger, hnew, wayOn_nil⟩⟩
    · rintro ⟨way, hlength, hway⟩
      obtain ⟨next, rfl⟩ := List.length_eq_one_iff.mp hlength
      obtain ⟨hedge, hlarger, hnew, -⟩ := wayOn_cons.mp hway
      exact ⟨next, hedge, hlarger, hnew, fun room' hroom => by omega⟩
  | succ room ih =>
    rw [depthLimited_explore_step]
    constructor
    · rintro ⟨next, hedge, hlarger, hnew, hrest⟩
      obtain ⟨way, hlength, hway⟩ := ih.mp (hrest room rfl)
      exact ⟨next :: way, congrArg (· + 1) hlength, wayOn_cons.mpr ⟨hedge, hlarger, hnew, hway⟩⟩
    · rintro ⟨way, hlength, hway⟩
      obtain ⟨next, way, rfl⟩ := List.exists_cons_of_length_eq_add_one hlength
      obtain ⟨hedge, hlarger, hnew, hway⟩ := wayOn_cons.mp hway
      refine ⟨next, hedge, hlarger, hnew, fun room' hroom => ?_⟩
      obtain rfl : room = room' := Nat.succ.inj hroom
      exact ih.mpr ⟨way, Nat.succ.inj hlength, hway⟩

/-- The ways on from a start are the paths of different files that begin there with the smallest. -/
theorem wayOn_start_iff {way : List String} :
    WayOn g start [start] start way ↔
      SimplePath g (start :: way) ∧ ∀ x ∈ way, start < x := by
  constructor
  · rintro ⟨hchain, hnodup, hlarger, -⟩
    refine ⟨⟨List.nodup_cons.mpr ⟨fun hmem => ?_, hnodup⟩, hchain⟩, hlarger⟩
    exact lt_irrefl start (hlarger start hmem)
  · rintro ⟨⟨hnodup, hchain⟩, hlarger⟩
    refine ⟨hchain, (List.nodup_cons.mp hnodup).2, hlarger, fun x hx hmem => ?_⟩
    rw [List.mem_singleton.mp hmem] at hx
    exact (List.nodup_cons.mp hnodup).1 hx

/-! All starts together -/

theorem depthLimited_foldl_append {starts : List String} {find : String → Detection}
    (found : Detection) :
    (starts.foldl (fun acc start => acc.append (find start)) found).depthLimited = true ↔
      found.depthLimited = true ∨ ∃ start ∈ starts, (find start).depthLimited = true := by
  induction starts generalizing found with
  | nil => simp
  | cons start starts ih =>
    rw [List.foldl_cons, ih]
    simp only [Detection.append, Bool.or_eq_true, List.exists_mem_cons_iff, or_assoc]

/-- The flag is set exactly if a path one file longer than the bound starts with its smallest. -/
theorem depthLimited_detectCycles :
    (detectCycles maxDepth g).depthLimited = true ↔
      ∃ first rest, SimplePath g (first :: rest) ∧ rest.length = max maxDepth 1 ∧
        ∀ x ∈ rest, first < x := by
  have hroom : max maxDepth 1 - 1 + 1 = max maxDepth 1 := by omega
  unfold detectCycles
  dsimp only
  rw [depthLimited_foldl_append]
  simp only [Detection.none, Bool.false_eq_true, false_or, depthLimited_explore, hroom,
    wayOn_start_iff]
  constructor
  · rintro ⟨start, -, way, hlength, hpath, hlarger⟩
    exact ⟨start, way, hpath, hlength, hlarger⟩
  · rintro ⟨start, way, hpath, hlength, hlarger⟩
    obtain ⟨next, way, rfl⟩ : ∃ next rest, way = next :: rest :=
      List.exists_cons_of_length_pos (by omega)
    have hsource := mem_sources_of_hasEdge (List.isChain_cons_cons.mp hpath.chain).1
    exact ⟨start, hsource, next :: way, hlength, hpath, hlarger⟩

/-- The first files of a cycle that is written from its smallest file on. -/
theorem SimpleCycle.simplePath_take {first : String} {rest : List String}
    (h : SimpleCycle g (first :: rest)) (n : Nat) : SimplePath g (first :: rest.take n) := by
  have hfront : first :: rest.take n <+: first :: rest :=
    (List.prefix_cons_inj first).mpr (List.take_prefix n rest)
  refine ⟨hfront.sublist.nodup h.nodup, ?_⟩
  exact List.IsChain.prefix (List.IsChain.left_of_append h.closed) hfront

/-- A cycle that is longer than the bound sets the flag. -/
theorem SimpleCycle.depthLimited {nodes : List String} (h : SimpleCycle g nodes)
    (hleast : StartsLeast nodes) (hlength : max maxDepth 1 < nodes.length) :
    (detectCycles maxDepth g).depthLimited = true := by
  cases nodes with
  | nil => exact absurd rfl h.ne_nil
  | cons first rest =>
    rw [List.length_cons] at hlength
    refine depthLimited_detectCycles.mpr
      ⟨first, rest.take (max maxDepth 1), h.simplePath_take _, ?_, fun x hx => ?_⟩
    · rw [List.length_take]
      omega
    · have hmem := List.mem_of_mem_take hx
      have hne : first ≠ x := fun heq => (List.nodup_cons.mp h.nodup).1 (heq ▸ hmem)
      exact lt_of_le_of_ne (hleast x (List.mem_cons_of_mem _ hmem) first rfl) hne

/-- The flag is honest. It is set exactly if some path of different files is one file longer than
the bound and starts with a file smaller than all others. Where it is not set, every simple cycle of
the graph, however long, is reported, written from its smallest file on. -/
theorem depthLimited_honest (maxDepth : Nat) (g : Adjacency) :
    ((detectCycles maxDepth g).depthLimited = true ↔
      ∃ first rest, SimplePath g (first :: rest) ∧ rest.length = max maxDepth 1 ∧
        ∀ x ∈ rest, first < x) ∧
      ((detectCycles maxDepth g).depthLimited = false →
        ∀ nodes, SimpleCycle g nodes →
          ∃ c ∈ (detectCycles maxDepth g).cycles, nodes ~r c.nodes ∧ StartsLeast c.nodes) := by
  refine ⟨depthLimited_detectCycles, fun hunset nodes hcycle => ?_⟩
  obtain ⟨hrotated, hleast⟩ := normalized_spec nodes
  have hnormal : SimpleCycle g (Cycle.normalized nodes).nodes := hcycle.of_isRotated hrotated
  have hbound : (Cycle.normalized nodes).nodes.length ≤ max maxDepth 1 := by
    by_contra hlong
    have hset := hnormal.depthLimited hleast (not_le.mp hlong)
    rw [hunset] at hset
    exact Bool.false_ne_true hset
  exact ⟨Cycle.normalized nodes, mem_detectCycles.mpr ⟨hnormal, hleast, hbound⟩, hrotated, hleast⟩

/-- Two files that import each other. -/
def pair : Adjacency := ⟨[("a.ts", ["b.ts"]), ("b.ts", ["a.ts"])]⟩

theorem depthLimited_honest_pair :
    (detectCycles 1 pair).depthLimited = true ∧ (detectCycles 2 pair).depthLimited = false ∧
      ∀ nodes, SimpleCycle pair nodes →
        ∃ c ∈ (detectCycles 2 pair).cycles, nodes ~r c.nodes ∧ StartsLeast c.nodes := by
  have hset : (detectCycles 1 pair).depthLimited = true :=
    (depthLimited_honest 1 pair).1.mpr
      ⟨"a.ts", ["b.ts"], ⟨by decide, by decide +kernel⟩, rfl, by decide +kernel⟩
  have hback : ∀ a b c, pair.hasEdge a b = true → pair.hasEdge b c = true → a = c := by
    intro a b c hab hbc
    simp only [pair, Adjacency.hasEdge, Adjacency.targets] at hab hbc
    grind
  have hunset : (detectCycles 2 pair).depthLimited = false := by
    rw [Bool.eq_false_iff]
    intro hset
    obtain ⟨a, rest, ⟨hnodup, hchain⟩, hlength, -⟩ := (depthLimited_honest 2 pair).1.mp hset
    obtain ⟨b, c, rfl⟩ := List.length_eq_two.mp hlength
    obtain ⟨hab, hchain⟩ := List.isChain_cons_cons.mp hchain
    obtain ⟨hbc, -⟩ := List.isChain_cons_cons.mp hchain
    obtain rfl := hback a b c hab hbc
    simp at hnodup
  exact ⟨hset, hunset, (depthLimited_honest 2 pair).2 hunset⟩

end CodeIndex.Graph
