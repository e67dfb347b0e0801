import CodeIndex.Proofs.Sync.EdgeKeys

/-!
The queue of deletions. The serials of what waits ascend and are not used again, so an export takes
all that it has seen. Every other operation leaves what waits and queues keys behind it.
-/
namespace CodeIndex

open Store (map_eq_ok)

namespace Store

variable {s s' s'' : Store}

/-- The queue of a store with the serial that comes next. -/
def queue (s : Store) : List Pending × Nat := (s.pending, s.nextPending)

theorem queue_enqueueAll (h : s.queue = s'.queue) (keys : List Sync.Deletion) :
    (s.enqueueAll keys).queue = (s'.enqueueAll keys).queue := by
  induction keys generalizing s s' with
  | nil => exact h
  | cons k rest ih =>
    apply ih
    obtain ⟨hpending, hnext⟩ := Prod.mk.inj h
    simp only [queue, enqueue, hpending, hnext]

/-- The second store has the queue of the first one and keys behind it. -/
def Queues (keys : List Sync.Deletion) (s s' : Store) : Prop := s'.queue = (s.enqueueAll keys).queue

theorem Queues.trans {keys more : List Sync.Deletion} (h : Queues keys s s')
    (h' : Queues more s' s'') : Queues (keys ++ more) s s'' := by
  have hall : s.enqueueAll (keys ++ more) = (s.enqueueAll keys).enqueueAll more :=
    List.foldl_append
  rw [Queues, hall, h', queue_enqueueAll h]

theorem Queues.waiting {keys : List Sync.Deletion} (h : Queues keys s s') :
    s'.pending.map Pending.key = s.pending.map Pending.key ++ keys := by
  rw [← enqueueAll_keys, (Prod.mk.inj h).1]

/-- What is queued stands behind what waits and has serials that were not used before. -/
theorem Queues.behind {keys : List Sync.Deletion} (h : Queues keys s s') :
    ∃ more, s'.pending = s.pending ++ more ∧ (∀ p ∈ more, s.nextPending ≤ p.serial) ∧
      s.nextPending ≤ s'.nextPending := by
  obtain ⟨hpending, hnext⟩ := Prod.mk.inj h
  rw [hpending, hnext]
  clear h hpending hnext
  induction keys generalizing s with
  | nil => exact ⟨[], by simp [enqueueAll], by simp, Nat.le_refl _⟩
  | cons k rest ih =>
    obtain ⟨more, hpending, hserial, hnext⟩ := ih (s := s.enqueue k)
    have hless : s.nextPending ≤ (s.enqueue k).nextPending := Nat.le_succ _
    refine ⟨⟨s.nextPending, k⟩ :: more, ?_, ?_, hless.trans hnext⟩
    · exact hpending.trans (List.append_assoc _ _ _)
    · intro p hp
      rcases List.mem_cons.mp hp with rfl | hp
      · exact Nat.le_refl _
      · exact hless.trans (hserial p hp)

/-- The serials of the queue ascend, and the next one is above them. -/
structure Numbered (s : Store) : Prop where
  ascending : s.pending.Pairwise fun p q => p.serial < q.serial
  below : ∀ p ∈ s.pending, p.serial < s.nextPending

theorem numbered_empty (origin : Nat) : (Store.empty origin).Numbered :=
  ⟨.nil, fun _ hp => absurd hp List.not_mem_nil⟩

namespace Numbered

theorem of_queue (h : s.Numbered) (hq : s'.queue = s.queue) : s'.Numbered := by
  obtain ⟨hpending, hnext⟩ := Prod.mk.inj hq
  exact ⟨hpending ▸ h.ascending, by rw [hpending, hnext]; exact h.below⟩

theorem enqueue (h : s.Numbered) (k : Sync.Deletion) : (s.enqueue k).Numbered := by
  constructor
  · refine List.pairwise_append.mpr ⟨h.ascending, List.pairwise_singleton _ _, ?_⟩
    intro p hp q hq
    rw [List.mem_singleton.mp hq]
    exact h.below p hp
  · intro p hp
    rcases List.mem_append.mp hp with hp | hp
    · exact Nat.lt_succ_of_lt (h.below p hp)
    · rw [List.mem_singleton.mp hp]
      exact Nat.lt_succ_self _

theorem queues (h : s.Numbered) {keys : List Sync.Deletion} (hq : Queues keys s s') :
    s'.Numbered := by
  refine of_queue ?_ hq
  clear hq
  induction keys generalizing s with
  | nil => exact h
  | cons k rest ih => exact ih (h.enqueue k)

/-- An export takes what it has seen out of the queue, whatever was queued behind it since. -/
theorem mem_clear (h : s.Numbered)
    (hs' : ∀ p ∈ s'.pending, p ∈ s.pending ∨ s.nextPending ≤ p.serial) {p : Pending} :
    p ∈ ((Sync.Snapshot.of s).clear s').pending ↔ p ∈ s'.pending ∧ p ∉ s.pending := by
  unfold Sync.Snapshot.clear
  split
  · next hnone =>
    rw [Sync.Snapshot.of, Option.map_eq_none_iff, List.getLast?_eq_none_iff] at hnone
    simp [hnone]
  · next last hlast =>
    rw [Sync.Snapshot.of, Option.map_eq_some_iff] at hlast
    obtain ⟨q, hq, rfl⟩ := hlast
    have hbelow := h.below q (List.mem_of_getLast? hq)
    have hlast : ∀ r ∈ s.pending, r.serial ≤ q.serial := by
      obtain ⟨before, hpending⟩ := List.getLast?_eq_some_iff.mp hq
      have hascending := h.ascending
      rw [hpending, List.pairwise_append] at hascending
      intro r hr
      rw [hpending] at hr
      rcases List.mem_append.mp hr with hr | hr
      · exact Nat.le_of_lt (hascending.2.2 r hr q (List.mem_singleton_self q))
      · rw [List.mem_singleton.mp hr]
    simp only [List.mem_filter, decide_eq_true_eq]
    refine and_congr_right fun hp => ⟨fun hlater hold => ?_, fun hnew => ?_⟩
    · exact absurd hlater (Nat.not_lt.mpr (hlast p hold))
    · exact Nat.lt_of_lt_of_le hbelow ((hs' p hp).resolve_left hnew)

/-- An export takes all of the queue. -/
theorem clear_pending (h : s.Numbered) : ((Sync.Snapshot.of s).clear s).pending = [] := by
  refine List.eq_nil_iff_forall_not_mem.mpr fun p hp => ?_
  obtain ⟨hmem, hnot⟩ := (h.mem_clear fun q hq => .inl hq).mp hp
  exact hnot hmem

theorem clear (h : s.Numbered) : ((Sync.Snapshot.of s).clear s).Numbered := by
  refine ⟨?_, ?_⟩
  · rw [h.clear_pending]
    exact .nil
  · rw [h.clear_pending]
    exact fun _ hp => absurd hp List.not_mem_nil

end Numbered

/-! Runs -/

theorem putSymbols_queue {repositoryId : Id} {files : FileIds} {ids : SymbolIds} {xs : List Symbol}
    {out : Store × SymbolIds} (h : putSymbols repositoryId files s ids xs = .ok out) :
    out.1.queue = s.queue := by
  induction xs generalizing s ids with
  | nil =>
    cases h
    rfl
  | cons x rest ih =>
    obtain ⟨fileId, -, ⟨-, h⟩ | ⟨-, -, h⟩⟩ := putSymbols_cons h
    · exact ih h
    · have hrest := ih h
      exact hrest

theorem putReferences_queue {repositoryId : Id} {files : FileIds} {symbols : SymbolIds} {n : Nat}
    {rs : List Reference} {out : Store × Nat}
    (h : putReferences repositoryId files symbols s n rs = .ok out) : out.1.queue = s.queue := by
  induction rs generalizing s n with
  | nil =>
    cases h
    rfl
  | cons r rest ih =>
    obtain ⟨fileId, -, ⟨-, h⟩ | ⟨-, -, h⟩⟩ := putReferences_cons h
    · exact ih h
    · have hrest := ih h
      exact hrest

theorem putEdges_queue {repositoryId : Id} {files : FileIds} {symbols : SymbolIds} {n : Nat}
    {es : List Edge} {out : Store × Nat}
    (h : putEdges repositoryId files symbols s n es = .ok out) : out.1.queue = s.queue := by
  induction es generalizing s n with
  | nil =>
    cases h
    rfl
  | cons e rest ih =>
    obtain ⟨fromId, toId, -, -, -, ⟨-, h⟩ | ⟨-, -, h⟩⟩ := putEdges_cons h
    · exact ih h
    · have hrest := ih h
      exact hrest

/-- A run queues the files that it has lost and then the rows. -/
theorem storeRun_queues {repositoryId : Id} {now : Int} {run : Run} {counts : RunCounts}
    (hok : s.storeRun repositoryId now run = .ok (counts, s')) : ∃ keys, Queues keys s s' := by
  obtain ⟨⟨repository, -, t3, ids, hput3, t4, n4, hput4, t5, n5, hput5, rfl⟩⟩ :=
    storeRun_stages hok
  have hfiles : (s.withFiles repositoryId run).1.queue = s.queue := by
    rw [withFiles, putFiles_frame]
    rfl
  have hcleared : Queues _ s (s.cleared repository repositoryId run) :=
    queue_enqueueAll (s := (s.withFiles repositoryId run).1.removeFiles _) hfiles _
  have hrows : Queues [] (s.cleared repository repositoryId run) t5 :=
    (putEdges_queue hput5).trans ((putReferences_queue hput4).trans (putSymbols_queue hput3))
  exact ⟨_, (hcleared.trans hrows).trans rfl⟩

theorem upsertRepositoryAs_queue {id : Id} {d : Descriptor} {row : RepositoryRow}
    (hok : s.upsertRepositoryAs id d = .ok (row, s')) : s'.queue = s.queue := by
  unfold upsertRepositoryAs at hok
  split at hok
  · cases hok
    rfl
  · split at hok
    · simp at hok
    · cases hok
      rfl

theorem storeRepository_queues {d : Descriptor} {id : Id} {now : Int} {run : Run}
    {out : RepositoryRow × RunCounts × Store} (hok : s.storeRepository d id now run = .ok out) :
    ∃ keys, Queues keys s out.2.2 := by
  obtain ⟨⟨row, s1⟩, hupsert, hok⟩ := bind_eq_ok.mp hok
  obtain ⟨⟨counts, s2⟩, hrun, hok⟩ := bind_eq_ok.mp hok
  obtain rfl := Except.ok.inj hok
  have hnone : Queues [] s s1 := upsertRepositoryAs_queue hupsert
  obtain ⟨keys, hkeys⟩ := storeRun_queues hrun
  exact ⟨_, hnone.trans hkeys⟩

end Store

/-! Imports -/

namespace Sync

variable {s s' : Store}

theorem put_queue {r : Record} (hok : r.put s = .ok s') : s'.queue = s.queue := by
  cases r with
  | repository r =>
    obtain ⟨rows, n, rfl, -⟩ := upsertRepository_puts hok
    rfl
  | file f =>
    obtain ⟨-, r, -, rows, n, rfl, -⟩ := upsertFile_puts hok
    rfl
  | symbol x =>
    obtain ⟨f, -, rows, n, rfl, -⟩ := upsertSymbol_puts hok
    rfl
  | reference x =>
    obtain ⟨f, -, rows, rfl, -⟩ := upsertReference_puts hok
    rfl
  | edge e =>
    obtain ⟨r, ends, -, -, rows, rfl, -⟩ := upsertEdge_puts hok
    rfl
  | project p =>
    obtain ⟨rows, n, rfl, -⟩ := upsertProject_puts hok
    rfl
  | membership m =>
    obtain ⟨p, r, -, -, rfl⟩ := upsertMembership_cases hok
    obtain ⟨rows, heq, -⟩ := addMembership_puts s p.id r.id
    rw [heq]
    rfl

theorem importFrom_queue {t : Files.Tree} {dir : String} {summary : ImportSummary}
    (hok : importFrom s t dir = .ok (summary, s')) : s'.queue = s.queue := by
  refine importFrom_keeps (P := fun u => u.queue = s.queue) ?_ ?_ hok
  · intro u u' table line htable hu hline
    obtain ⟨x, -, hput⟩ := exists_record htable hline
    exact (put_queue hput).trans hu
  · intro keys
    have hshrinks := shrinks_applyDeletions s keys
    exact Prod.ext hshrinks.pending hshrinks.nextPending

end Sync

namespace Operation

open Store (Queues)
open Sync (FitsI64 Run.InRange)

variable {s s' : Store} {op : Operation}

/-- The operations that write a directory. -/
def Exports : Operation → Prop
  | exportTo .. => True
  | _ => False

/-- An operation that is no export queues keys behind those that wait. -/
theorem exists_queues (hop : ¬op.Exports) (hok : op.run s = .ok s') : ∃ keys, Queues keys s s' := by
  cases op with
  | storeRun repositoryId now run =>
    obtain ⟨⟨counts, t⟩, hrun, rfl⟩ := map_eq_ok.mp hok
    exact Store.storeRun_queues hrun
  | storeRepository d id now run =>
    obtain ⟨out, hrun, rfl⟩ := map_eq_ok.mp hok
    exact Store.storeRepository_queues hrun
  | index t config d listed now =>
    obtain ⟨⟨stats, t'⟩, hrun, rfl⟩ := map_eq_ok.mp hok
    obtain ⟨root, out, -, hstore, rfl⟩ := Store.index_eq_ok hrun
    have hnone : Queues [] s (Indexing.repositoryId s d.fullName).2 := by
      unfold Indexing.repositoryId
      split <;> rfl
    obtain ⟨keys, hkeys⟩ := Store.storeRepository_queues hstore
    exact ⟨_, hnone.trans hkeys⟩
  | importFrom t dir =>
    obtain ⟨⟨summary, t'⟩, hrun, rfl⟩ := map_eq_ok.mp hok
    exact ⟨[], Sync.importFrom_queue hrun⟩
  | exportTo t dir force => exact absurd trivial hop
  | upsertRepository d =>
    obtain ⟨⟨row, t⟩, hrun, rfl⟩ := map_eq_ok.mp hok
    exact ⟨[], Store.upsertRepositoryAs_queue (s := s.freshId.2) hrun⟩
  | deleteRepository fullName =>
    obtain rfl := Except.ok.inj hok
    unfold Store.deleteRepository
    split
    · exact ⟨[], rfl⟩
    · have hshrinks := Sync.shrinks_removeRepository s fullName
      exact ⟨[_], Store.queue_enqueueAll (Prod.ext hshrinks.pending hshrinks.nextPending) [_]⟩
  | createProject name description now =>
    obtain ⟨p, hrun⟩ := Store.createProject_of_run hok
    obtain ⟨row, -, rfl⟩ := Store.createProject_eq_ok hrun
    exact ⟨[], rfl⟩
  | addToProject project fullName =>
    obtain ⟨rows, rfl, -⟩ := Store.addToProject_eq_ok hok
    exact ⟨[], rfl⟩
  | removeFromProject project fullName =>
    obtain ⟨⟨found, t⟩, hrun, rfl⟩ := map_eq_ok.mp hok
    rcases Store.removeFromProject_eq_ok hrun with rfl | ⟨p, r, -, -, rfl⟩
    · exact ⟨[], rfl⟩
    · exact ⟨[_], rfl⟩
  | deleteProject name =>
    obtain rfl := Except.ok.inj hok
    unfold Store.deleteProject
    split
    · exact ⟨[], rfl⟩
    · have hshrinks := Sync.shrinks_removeProject s name
      exact ⟨[_], Store.queue_enqueueAll (Prod.ext hshrinks.pending hshrinks.nextPending) [_]⟩

/-- The numbers that an operation is given lie in their ranges. -/
def InRange : Operation → Prop
  | storeRun _ now run | storeRepository _ _ now run => FitsI64 now ∧ Run.InRange run
  | index t _ _ _ now => FitsI64 now ∧ t.Countable
  | createProject _ _ now => FitsI64 now
  | importFrom .. | exportTo .. | upsertRepository _ | deleteRepository _ | addToProject ..
  | removeFromProject .. | deleteProject _ => True

/-- An operation that succeeds keeps the numbers of a store in their ranges. -/
theorem inRange_run (hs : s.Sound) (h : Sync.InRange s) (hallowed : op.Allowed s)
    (hop : op.InRange) (hok : op.run s = .ok s') : Sync.InRange s' := by
  cases op with
  | storeRun repositoryId now run =>
    obtain ⟨⟨counts, t⟩, hrun, rfl⟩ := map_eq_ok.mp hok
    exact h.storeRun hs hop.1 hop.2 hrun
  | storeRepository d id now run =>
    obtain ⟨out, hrun, rfl⟩ := map_eq_ok.mp hok
    obtain ⟨⟨row, s1⟩, hupsert, hrun⟩ := Store.bind_eq_ok.mp hrun
    obtain ⟨⟨counts, s2⟩, hstore, hrun⟩ := Store.bind_eq_ok.mp hrun
    obtain rfl := Except.ok.inj hrun
    exact (h.upsertRepositoryAs hs hupsert).storeRun (hs.upsertRepositoryAs hallowed hupsert)
      hop.1 hop.2 hstore
  | index t config d listed now =>
    obtain ⟨⟨stats, t'⟩, hrun, rfl⟩ := map_eq_ok.mp hok
    exact h.index hs hop.1 hop.2 hrun
  | importFrom t dir =>
    obtain ⟨⟨summary, t'⟩, hrun, rfl⟩ := map_eq_ok.mp hok
    exact h.importFrom hrun
  | exportTo t dir force =>
    obtain ⟨⟨done, t'⟩, hrun, rfl⟩ := map_eq_ok.mp hok
    rw [Store.exportTo_store hrun]
    exact h.clear _
  | upsertRepository d =>
    obtain ⟨⟨row, t⟩, hrun, rfl⟩ := map_eq_ok.mp hok
    exact h.freshId.upsertRepositoryAs hs.freshId hrun
  | deleteRepository fullName =>
    obtain rfl := Except.ok.inj hok
    exact h.deleteRepository fullName
  | createProject name description now =>
    obtain ⟨p, hrun⟩ := Store.createProject_of_run hok
    exact h.createProject hop hrun
  | addToProject project fullName => exact h.addToProject hok
  | removeFromProject project fullName =>
    obtain ⟨⟨found, t⟩, hrun, rfl⟩ := map_eq_ok.mp hok
    exact h.removeFromProject hrun
  | deleteProject name =>
    obtain rfl := Except.ok.inj hok
    exact h.deleteProject name

/-- An operation that succeeds keeps the serials of the queue in order. -/
theorem numbered_run (h : s.Numbered) (hok : op.run s = .ok s') : s'.Numbered := by
  by_cases hop : op.Exports
  · cases op with
    | exportTo t dir force =>
      obtain ⟨⟨done, t'⟩, hrun, rfl⟩ := map_eq_ok.mp hok
      rw [Store.exportTo_store hrun]
      exact h.clear
    | _ => exact hop.elim
  · obtain ⟨keys, hkeys⟩ := exists_queues hop hok
    exact h.queues hkeys

end Operation

/-- The queue of a store is in order: its serials ascend, and its keys can be written. -/
structure Sync.Queued (s : Store) : Prop where
  numbered : s.Numbered
  fits : ∀ p ∈ s.pending, p.key.Fits

/-- In every store that operations lead to the queue is in order, as long as the numbers that the
operations are given lie in their ranges. -/
theorem ReachableBy.queued {s : Store} (h : ReachableBy Operation.InRange s) : Sync.Queued s := by
  have hall : Sync.InRange s ∧ s.Numbered := by
    induction h with
    | empty origin => exact ⟨Sync.inRange_empty origin, Store.numbered_empty origin⟩
    | step op hs hallowed hop hok ih =>
      exact ⟨op.inRange_run hs.reachable.sound ih.1 hallowed hop hok, op.numbered_run ih.2 hok⟩
  exact ⟨hall.2, hall.1.pending⟩

end CodeIndex
