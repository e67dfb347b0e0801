import CodeIndex.Proofs.Sync.History
import Mathlib.Logic.Relation

/-!
Exports with other operations in between. An export takes its snapshot, writes its files and clears
the queue at different times, and operations, each a transaction of its own, may change the store
before, between and after these steps. The queue is cleared up to the last serial of the snapshot,
and serials are not used again, so what was queued in the meantime still waits afterwards.
-/
namespace CodeIndex.Sync

open Files Files.Tree
open Relation (ReflTransGen)

/-- How far an export has come. -/
inductive Progress where
  | called
  /-- The directory is there. -/
  | made
  /-- The snapshot was taken. The tables that are left and the manifest are still to be written. -/
  | writing (x : Snapshot) (rest : List Dump) (done : ExportSummary)
  | written (x : Snapshot) (done : ExportSummary)
  | cleared (x : Snapshot) (done : ExportSummary)

namespace Progress

def snapshot? : Progress → Option Snapshot
  | called | made => none
  | writing x _ _ | written x _ | cleared x _ => some x

/-- The manifest was written. -/
def Manifested : Progress → Prop
  | written _ _ | cleared _ _ => True
  | _ => False

def Cleared : Progress → Prop
  | cleared _ _ => True
  | _ => False

end Progress

/-- A store and the files while an export is under way. -/
structure System where
  store : Store
  tree : Tree
  progress : Progress

/-- One step of an export, or an operation on the store that is no export. Each file is written in a
step of its own. An export that fails takes no further step. -/
inductive Step (dir : String) (force : Bool) : System → System → Prop where
  | operates {s s' : Store} {t : Tree} {progress : Progress} (op : Operation) : ¬op.Exports →
      op.Allowed s → op.InRange → op.run s = .ok s' →
      Step dir force ⟨s, t, progress⟩ ⟨s', t, progress⟩
  | makes {s : Store} {t t' : Tree} : t.makeDirectories [] dir = .ok t' →
      Step dir force ⟨s, t, .called⟩ ⟨s, t', .made⟩
  | takes (s : Store) (t : Tree) :
      Step dir force ⟨s, t, .made⟩ ⟨s, t, .writing (.of s) (Snapshot.of s).tables {}⟩
  | writes {s : Store} {t t' : Tree} {x : Snapshot} {d : Dump} {rest : List Dump}
      {done done' : ExportSummary} : Snapshot.writeTables dir force [d] done t = (t', .ok done') →
      Step dir force ⟨s, t, .writing x (d :: rest) done⟩ ⟨s, t', .writing x rest done'⟩
  | manifests {s : Store} {t t' : Tree} {x : Snapshot} {done : ExportSummary} {n : Nat} :
      x.writeManifest dir force t = .ok (t', n) →
      Step dir force ⟨s, t, .writing x [] done⟩ ⟨s, t', .written x { done with deletions := n }⟩
  | clears (s : Store) (t : Tree) (x : Snapshot) (done : ExportSummary) :
      Step dir force ⟨s, t, .written x done⟩ ⟨x.clear s, t, .cleared x done⟩

/-- Any number of steps. -/
abbrev Steps (dir : String) (force : Bool) : System → System → Prop := ReflTransGen (Step dir force)

variable {dir : String} {force : Bool} {a b c : System} {s s' u : Store} {t t' : Tree}
  {x : Snapshot} {done done' : ExportSummary}

/-! An export on its own -/

theorem writeTables_first {d : Dump} {rest : List Dump}
    (h : Snapshot.writeTables dir force (d :: rest) done t = (t', .ok done')) :
    ∃ t1 done1, Snapshot.writeTables dir force [d] done t = (t1, .ok done1) ∧
      Snapshot.writeTables dir force rest done1 t1 = (t', .ok done') := by
  rw [Snapshot.writeTables] at h
  split at h
  · simp at h
  · next hwrite => exact ⟨t, _, by simp [Snapshot.writeTables, hwrite], h⟩
  · next t1 hwrite => exact ⟨t1, _, by simp [Snapshot.writeTables, hwrite], h⟩

theorem steps_of_writeTables {dumps : List Dump}
    (h : Snapshot.writeTables dir force dumps done t = (t', .ok done')) :
    Steps dir force ⟨s, t, .writing x dumps done⟩ ⟨s, t', .writing x [] done'⟩ := by
  induction dumps generalizing t done with
  | nil =>
    obtain ⟨rfl, hdone⟩ := Prod.mk.inj h
    obtain rfl := Except.ok.inj hdone
    exact .refl
  | cons d rest ih =>
    obtain ⟨t1, done1, hfirst, hrest⟩ := writeTables_first h
    exact .head (.writes hfirst) (ih hrest)

/-- The files of a snapshot are written whatever the store is by then. -/
theorem steps_of_write (h : x.write dir force t = (t', .ok done)) :
    Steps dir force ⟨s, t, .writing x x.tables {}⟩ ⟨s, t', .written x done⟩ := by
  obtain ⟨tabled, tablesDone, n, htables, hmanifest, rfl⟩ := write_eq_ok h
  exact .tail (steps_of_writeTables htables) (.manifests hmanifest)

/-- An export that nothing interrupts takes these steps. -/
theorem steps_of_exportTo (h : exportTo s t dir force = (t', .ok (done, s'))) :
    Steps dir force ⟨s, t, .called⟩ ⟨s', t', .cleared (.of s) done⟩ := by
  obtain ⟨made, hmakes, hwrite, rfl⟩ := Store.exportTo_eq_ok h
  exact .head (.makes hmakes) (.head (.takes s made) (.tail (steps_of_write hwrite) (.clears ..)))

/-! Before the snapshot -/

/-- What is so until the snapshot is taken. -/
structure Early (c : System) : Prop where
  wellFormed : c.tree.WellFormed
  reachable : ReachableBy Operation.InRange c.store
  untaken : c.progress.snapshot? = none

/-- The snapshot is taken. -/
def taken (u : Store) (t : Tree) : System := ⟨u, t, .writing (.of u) (Snapshot.of u).tables {}⟩

/-- Before the snapshot nothing leaves the queue. -/
theorem Early.step (hb : Early b) (h : Step dir force b c) :
    (Early c ∧ b.store.pending ⊆ c.store.pending) ∨
      ∃ u made, b = ⟨u, made, .made⟩ ∧ c = taken u made := by
  cases h with
  | operates op hop hallowed hrange hok =>
    obtain ⟨keys, hkeys⟩ := op.exists_queues hop hok
    obtain ⟨more, hpending, -⟩ := hkeys.behind
    refine .inl ⟨⟨hb.wellFormed, .step op hb.reachable hallowed hrange hok, hb.untaken⟩, ?_⟩
    rw [hpending]
    exact List.subset_append_left _ _
  | makes hmakes =>
    have hgood := (makeDirectories_spec hb.wellFormed hmakes).1
    exact .inl ⟨⟨hgood, hb.reachable, rfl⟩, List.Subset.refl _⟩
  | takes u made => exact .inr ⟨u, made, rfl, rfl⟩
  | writes | manifests | clears => exact absurd hb.untaken (by simp [Progress.snapshot?])

/-- No snapshot was taken in a run from such a state, or the snapshot of a store of the run. -/
theorem Early.steps (ha : Early a) (h : Steps dir force a c) :
    (Early c ∧ a.store.pending ⊆ c.store.pending) ∨
      ∃ u made, Steps dir force a ⟨u, made, .made⟩ ∧ Early ⟨u, made, .made⟩ ∧
        a.store.pending ⊆ u.pending ∧ Steps dir force (taken u made) c := by
  induction h with
  | refl => exact .inl ⟨ha, List.Subset.refl _⟩
  | tail hrun hstep ih =>
    rcases ih with ⟨hb, hkept⟩ | ⟨u, made, hbefore, hearly, hkept, hafter⟩
    · rcases hb.step hstep with ⟨hc, hkept'⟩ | ⟨u, made, rfl, rfl⟩
      · exact .inl ⟨hc, List.Subset.trans hkept hkept'⟩
      · exact .inr ⟨u, made, hrun, hb, hkept, .refl⟩
    · exact .inr ⟨u, made, hbefore, hearly, hkept, .tail hafter hstep⟩

/-! After the snapshot -/

/-- The manifest of a directory lists what a snapshot has seen in the queue and not in a table. -/
def Lists (dir : String) (x : Snapshot) (t : Tree) : Prop :=
  ∃ keys, t.readText [] (dir ++ "/" ++ Manifest.fileName) = .ok (Manifest.text keys) ∧
    Manifest.ofText (Manifest.text keys) = (keys, []) ∧ ∀ k ∈ x.waiting, k ∉ x.live → k ∈ keys

theorem lists_writeManifest {n : Nat} (hu : ReachableBy Operation.InRange u) (ht : t.WellFormed)
    (h : (Snapshot.of u).writeManifest dir force t = .ok (t', n)) :
    t'.WellFormed ∧ Lists dir (.of u) t' := by
  obtain ⟨previous, out, -, hwrite, rfl, -⟩ := writeManifest_eq_ok h
  rw [merge_snapshot] at hwrite
  exact ⟨(writeChanged_grows ht hwrite).1, _, readText_writeChanged ht hwrite,
    Manifest.ofText_text (fits_manifestKeys hu.queued.fits), fun k hk hlive =>
      mem_manifestKeys.mpr ⟨.inr hk, mem_live_snapshot.not.mp hlive⟩⟩

/-- What is so from the snapshot of a store on. -/
structure Late (dir : String) (u : Store) (c : System) : Prop where
  wellFormed : c.tree.WellFormed
  snapshot : c.progress.snapshot? = some (.of u)
  next : u.nextPending ≤ c.store.nextPending
  queue : ∀ p ∈ c.store.pending, p ∈ u.pending ∨ u.nextPending ≤ p.serial
  /-- The snapshot has seen nothing of what waits when the queue was cleared. -/
  unseen : c.progress.Cleared → ∀ p ∈ c.store.pending, p ∉ u.pending
  lists : c.progress.Manifested → Lists dir (.of u) c.tree

namespace Late

/-- What is queued after the snapshot was not seen by it. -/
theorem operates {progress : Progress} {keys : List Deletion} (hu : u.Numbered)
    (h : Late dir u ⟨s, t, progress⟩) (hkeys : Store.Queues keys s s') :
    Late dir u ⟨s', t, progress⟩ ∧ s.pending ⊆ s'.pending := by
  obtain ⟨more, hpending, hserial, hnext⟩ := hkeys.behind
  have hmore : ∀ p ∈ more, u.nextPending ≤ p.serial := fun p hp => h.next.trans (hserial p hp)
  have hcases : ∀ p ∈ s'.pending, p ∈ s.pending ∨ p ∈ more := by
    rw [hpending]
    exact fun p hp => List.mem_append.mp hp
  refine ⟨⟨h.wellFormed, h.snapshot, h.next.trans hnext, ?_, ?_, h.lists⟩, ?_⟩
  · intro p hp
    rcases hcases p hp with hp | hp
    · exact h.queue p hp
    · exact .inr (hmore p hp)
  · intro hcleared p hp hseen
    rcases hcases p hp with hp | hp
    · exact h.unseen hcleared p hp hseen
    · exact Nat.not_le.mpr (hu.below p hseen) (hmore p hp)
  · rw [hpending]
    exact List.subset_append_left _ _

/-- The queue is cleared of what the snapshot has seen. -/
theorem clears (hu : u.Numbered) (h : Late dir u ⟨s, t, .written (.of u) done⟩) :
    Late dir u ⟨(Snapshot.of u).clear s, t, .cleared (.of u) done⟩ ∧
      ∀ p ∈ s.pending, p ∈ ((Snapshot.of u).clear s).pending ∨ p ∈ u.pending := by
  have hclear : ∀ p, p ∈ ((Snapshot.of u).clear s).pending ↔ p ∈ s.pending ∧ p ∉ u.pending :=
    fun p => hu.mem_clear h.queue
  obtain ⟨pending, heq, -⟩ := clear_eq s (.of u)
  have hnext : ((Snapshot.of u).clear s).nextPending = s.nextPending := by rw [heq]
  refine ⟨⟨h.wellFormed, rfl, h.next.trans hnext.ge, ?_, ?_, fun _ => h.lists trivial⟩, ?_⟩
  · exact fun p hp => h.queue p ((hclear p).mp hp).1
  · exact fun _ p hp => ((hclear p).mp hp).2
  · intro p hp
    by_cases hseen : p ∈ u.pending
    · exact .inr hseen
    · exact .inl ((hclear p).mpr ⟨hp, hseen⟩)

/-- A step after the snapshot takes out of the queue only what the snapshot has seen. -/
theorem step (hu : ReachableBy Operation.InRange u) (hb : Late dir u b) (h : Step dir force b c) :
    Late dir u c ∧ ∀ p ∈ b.store.pending, p ∈ c.store.pending ∨ p ∈ u.pending := by
  cases h with
  | operates op hop _ _ hok =>
    obtain ⟨keys, hkeys⟩ := op.exists_queues hop hok
    obtain ⟨hc, hkept⟩ := hb.operates hu.queued.numbered hkeys
    exact ⟨hc, fun p hp => .inl (hkept hp)⟩
  | makes | takes => exact absurd hb.snapshot (by simp [Progress.snapshot?])
  | writes hwrite =>
    have hgood := (writeTables_grows hb.wellFormed hwrite).1
    exact ⟨⟨hgood, hb.snapshot, hb.next, hb.queue, False.elim, False.elim⟩, fun p hp => .inl hp⟩
  | manifests hmanifest =>
    obtain rfl := Option.some.inj hb.snapshot
    obtain ⟨hgood, hlists⟩ := lists_writeManifest hu hb.wellFormed hmanifest
    exact ⟨⟨hgood, rfl, hb.next, hb.queue, False.elim, fun _ => hlists⟩, fun p hp => .inl hp⟩
  | clears =>
    obtain rfl := Option.some.inj hb.snapshot
    exact hb.clears hu.queued.numbered

/-- All that left the queue after the snapshot was seen by it. -/
theorem steps (hu : ReachableBy Operation.InRange u) (hb : Late dir u b)
    (h : Steps dir force b c) :
    Late dir u c ∧ ∀ p ∈ b.store.pending, p ∈ c.store.pending ∨ p ∈ u.pending := by
  induction h with
  | refl => exact ⟨hb, fun p hp => .inl hp⟩
  | tail _ hstep ih =>
    obtain ⟨hlate, hkept⟩ := ih
    obtain ⟨hlate', hkept'⟩ := hlate.step hu hstep
    refine ⟨hlate', fun p hp => ?_⟩
    rcases hkept p hp with hp | hp
    · exact hkept' p hp
    · exact .inr hp

end Late

theorem Early.late_taken (h : Early ⟨u, t, .made⟩) : Late dir u (taken u t) :=
  ⟨h.wellFormed, rfl, Nat.le_refl _, fun _ hp => .inl hp, False.elim, False.elim⟩

/-! Runs -/

/-- The snapshot was taken of one of the stores on the way. What waited at any time before or after
still waits, or it was seen. -/
theorem Early.late (ha : Early a) (hb : Steps dir force a b) (hc : Steps dir force b c)
    (hx : c.progress.snapshot? = some x) :
    ∃ u made, Steps dir force a ⟨u, made, .made⟩ ∧ Steps dir force (taken u made) c ∧
      Late dir u c ∧ ∀ p ∈ b.store.pending, p ∈ c.store.pending ∨ p ∈ u.pending := by
  rcases ha.steps hb with ⟨hb', -⟩ | ⟨u, made, hbefore, hearly, -, hafter⟩
  · rcases hb'.steps hc with ⟨hc', -⟩ | ⟨u, made, hbefore, hearly, hkept, hafter⟩
    · exact absurd hc'.untaken (by simp [hx])
    · obtain ⟨hc', -⟩ := Late.steps hearly.reachable hearly.late_taken hafter
      exact ⟨u, made, hb.trans hbefore, hafter, hc', fun p hp => .inr (hkept hp)⟩
  · obtain ⟨hb', -⟩ := Late.steps hearly.reachable hearly.late_taken hafter
    obtain ⟨hc', hkept⟩ := hb'.steps hearly.reachable hc
    exact ⟨u, made, hbefore, hafter.trans hc, hc', hkept⟩

/-- Let an export run alongside other operations, up to the time when it has cleared the queue. It
has taken its snapshot of one of the stores on the way. Whatever waited at any time of the run still
waits, or it waited in that store, and never both; and the manifest that was written lists each key
that the snapshot has seen in the queue but not in a table. -/
theorem export_loses_nothing (hs : ReachableBy Operation.InRange s) (ht : t.WellFormed)
    (hb : Steps dir force ⟨s, t, .called⟩ b) (hc : Steps dir force b c)
    (hcleared : c.progress = .cleared x done) :
    ∃ u made, Steps dir force ⟨s, t, .called⟩ ⟨u, made, .made⟩ ∧
      Steps dir force ⟨u, made, .writing (.of u) (Snapshot.of u).tables {}⟩ c ∧
      x = .of u ∧
      (∀ p ∈ b.store.pending, p ∈ c.store.pending ∨ p ∈ u.pending) ∧
      (∀ p ∈ c.store.pending, p ∉ u.pending) ∧
      ∃ keys, c.tree.readText [] (dir ++ "/" ++ Manifest.fileName) = .ok (Manifest.text keys) ∧
        Manifest.ofText (Manifest.text keys) = (keys, []) ∧
        ∀ k ∈ x.waiting, k ∉ x.live → k ∈ keys := by
  have hx : c.progress.snapshot? = some x := by rw [hcleared]; rfl
  obtain ⟨u, made, hbefore, hafter, hlate, hkept⟩ := Early.late ⟨ht, hs, rfl⟩ hb hc hx
  obtain rfl := Option.some.inj (hx.symm.trans hlate.snapshot)
  exact ⟨u, made, hbefore, hafter, rfl, hkept, hlate.unseen (by rw [hcleared]; trivial),
    hlate.lists (by rw [hcleared]; trivial)⟩

/-- The store after another repository was made and deleted. -/
def deletedRepositories : Store :=
  { deletedRepository with
    nextSerial := 2
    pending := [⟨1, .repository "r"⟩, ⟨2, .repository "q"⟩]
    nextPending := 3 }

/-- A repository was deleted before the snapshot, and another one is deleted before the files are
written. -/
theorem export_loses_nothing_sample :
    ∃ (b c : System) (done : ExportSummary), ReachableBy Operation.InRange deletedRepository ∧
      (Tree.empty "/w").WellFormed ∧
      Steps "/w" false ⟨deletedRepository, .empty "/w", .called⟩ b ∧ Steps "/w" false b c ∧
      c.progress = .cleared (.of deletedRepository) done ∧
      b.store.pending = [⟨1, .repository "r"⟩, ⟨2, .repository "q"⟩] ∧
      c.store.pending = [⟨2, .repository "q"⟩] ∧
      ∃ keys, c.tree.readText [] ("/w" ++ "/" ++ Manifest.fileName) = .ok (Manifest.text keys) ∧
        .repository "r" ∈ keys := by
  have hs : ReachableBy Operation.InRange deletedRepository :=
    .step (.deleteRepository "r")
      (.step (.upsertRepository (.ofFullName "r" "")) (.empty 0) trivial trivial rfl)
      trivial trivial rfl
  have ht := freshAt_sample.wellFormed
  obtain ⟨t', done, hexport, -⟩ := exportTo_ready freshAt_sample.ready deletedRepository false
  obtain ⟨made, hmakes, hwrite, -⟩ := Store.exportTo_eq_ok hexport
  have hbefore : Steps "/w" false ⟨deletedRepository, .empty "/w", .called⟩
      (taken deletedRepository made) :=
    .tail (.single (.makes hmakes)) (.takes deletedRepository made)
  have hmeanwhile : Steps "/w" false (taken deletedRepository made)
      ⟨deletedRepositories, made, (taken deletedRepository made).progress⟩ :=
    .tail (.single (.operates (.upsertRepository (.ofFullName "q" "")) id trivial trivial rfl))
      (.operates (.deleteRepository "q") id trivial trivial rfl)
  have hb := (hbefore.trans hmeanwhile).trans (steps_of_write hwrite)
  have hc : Steps "/w" false _ _ :=
    .single (.clears deletedRepositories t' (.of deletedRepository) done)
  obtain ⟨-, -, -, -, -, -, -, keys, hread, -, hlisted⟩ := export_loses_nothing hs ht hb hc rfl
  have hlive : .repository "r" ∉ (Snapshot.of deletedRepository).live :=
    mem_live_snapshot.not.mpr (not_live_deletedRepository _)
  exact ⟨_, _, done, hs, ht, hb, hc, rfl, rfl, rfl, keys, hread,
    hlisted _ (List.mem_singleton_self _) hlive⟩

end CodeIndex.Sync
