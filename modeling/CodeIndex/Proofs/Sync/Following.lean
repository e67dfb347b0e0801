import CodeIndex.Proofs.Sync.Exporting
import CodeIndex.Proofs.Sync.RoundTrip
import CodeIndex.Proofs.Sync.Tracking

/-!
A store that follows another one through a directory. The first store is changed by its own
operations and exported to the directory from time to time; the second one is changed only by
imports from there. After an export and an import the second store has the records of the first one.
It may have more, but only rows that were taken along with a repository or a project that is there
again: the key of the latter leaves the manifest then, and the keys of the rows never entered it.
-/
namespace CodeIndex.Sync

open Files (Tree Location)

/-- The states of a store, of the directory it is exported to and of a store that follows it. The
keys are those of the rows that were taken along with a repository or a project on the way. -/
inductive Follows (dir : String) (l : Location) : List Deletion → Store → Tree → Store → Prop where
  | start {t : Tree} (origin origin' : Nat) : FreshAt t dir l →
      Follows dir l [] (.empty origin) t (.empty origin')
  | changed {along : List Deletion} {s s' u : Store} {t : Tree} (op : Operation) :
      Follows dir l along s t u → op.Local → op.run s = .ok s' →
      Follows dir l (op.takenAlong s ++ along) s' t u
  | exported {along : List Deletion} {s s' u : Store} {t t' : Tree} {done : ExportSummary}
      (force : Bool) : Follows dir l along s t u →
      exportTo s t dir force = (t', .ok (done, s')) → Follows dir l along s' t' u
  | imported {along : List Deletion} {s u u' : Store} {t : Tree} {summary : ImportSummary} :
      Follows dir l along s t u → importFrom u t dir = .ok (summary, u') →
      Follows dir l along s t u'

variable {along : List Deletion} {s s' u u' : Store} {keys : List Deletion}

/-! What the manifest and the queue know -/

/-- The manifest and the queue know of the keys that the following store has too many, or these were
taken along with a repository or project that is there again. -/
def Knows (along : List Deletion) (s : Store) (keys : List Deletion) (u : Store) : Prop :=
  ∀ k, Live u k → Live s k ∨ Remembered along (keys ++ waiting s) k ∨
    (k ∈ along ∧ ∃ d ∈ k.owners, Live s d)

namespace Knows

theorem changed {more : List Deletion} (h : Knows along s keys u) (htracks : Tracks more s s') :
    Knows (more ++ along) s' keys u := by
  have hkept : keys ++ waiting s ⊆ keys ++ waiting s' :=
    List.append_subset.mpr ⟨List.subset_append_left _ _,
      List.Subset.trans htracks.kept (List.subset_append_right _ _)⟩
  intro k hk
  rcases h k hk with hk | hk | ⟨hk, d, howner, hlive⟩
  · rcases htracks.remembered k hk with hk | hk
    · exact .inl hk
    · exact .inr (.inl (hk.mono (List.subset_append_left _ _) (List.subset_append_right _ _)))
  · exact .inr (.inl (hk.mono (List.subset_append_right _ _) hkept))
  · have hk : k ∈ more ++ along := List.mem_append_right _ hk
    rcases htracks.remembered d hlive with hlive | hd | ⟨-, d', howner', -⟩
    · exact .inr (.inr ⟨hk, d, howner, hlive⟩)
    · exact .inr (.inl (.inr ⟨hk, d, howner, List.mem_append_right _ hd⟩))
    · -- Nothing stands above a repository or a project.
      rw [Deletion.owners_of_mem howner] at howner'
      exact absurd howner' List.not_mem_nil

/-- A key leaves the manifest only when it is live. -/
theorem exported {kept : List Deletion} (h : Knows along s keys u)
    (hkept : ∀ k, k ∈ kept ↔ k ∈ keys ++ waiting s ∧ ¬Live s k)
    (hlive : ∀ k, Live s' k ↔ Live s k) : Knows along s' kept u := by
  intro k hk
  rw [hlive]
  rcases h k hk with hk | (hk | ⟨hk, d, howner, hd⟩) | ⟨hk, d, howner, hd⟩
  · exact .inl hk
  · by_cases hk' : Live s k
    · exact .inl hk'
    · exact .inr (.inl (.inl (List.mem_append_left _ ((hkept k).mpr ⟨hk, hk'⟩))))
  · by_cases hd' : Live s d
    · exact .inr (.inr ⟨hk, d, howner, (hlive d).mpr hd'⟩)
    · have hmem := (hkept d).mpr ⟨hd, hd'⟩
      exact .inr (.inl (.inr ⟨hk, d, howner, List.mem_append_left _ hmem⟩))
  · exact .inr (.inr ⟨hk, d, howner, (hlive d).mpr hd⟩)

theorem imported (h : Knows along s keys u)
    (hlive : ∀ k, Live u' k → Live u k ∨ Live s k ∨ Remembered along (waiting s) k) :
    Knows along s keys u' := by
  intro k hk
  rcases hlive k hk with hk | hk | hk
  · exact h k hk
  · exact .inl hk
  · exact .inr (.inl (hk.mono (List.Subset.refl _) (List.subset_append_right _ _)))

/-- A key that the keys of the manifest do not take away, and that is not live in the store, was
taken along with a repository or project that is there again. -/
theorem survivor (h : Knows along s keys u) (hu : Faithful u)
    (hkeys : ∀ k ∈ waiting s, k ∈ keys ∨ Live s k) {k : Deletion}
    (hk : Live (applyDeletions u keys).1 k) (hgone : ¬Live s k) :
    k ∈ along ∧ ∃ d ∈ k.owners, Live s d := by
  have hu' := hu.applyDeletions keys
  -- A key of the manifest that still waited for the row would have taken it away.
  have hstays : ∀ d ∈ keys ++ waiting s, Live (applyDeletions u keys).1 d → Live s d := by
    intro d hd hlive
    have hmissing : d ∉ keys := fun hmem => not_live_applyDeletions hu hmem hlive
    exact (hkeys d ((List.mem_append.mp hd).resolve_left hmissing)).resolve_left hmissing
  rcases h k ((shrinks_applyDeletions u keys).live hu hu'.toSound hk) with
    hk' | (hk' | ⟨hk', d, howner, hd⟩) | hagain
  · exact absurd hk' hgone
  · exact absurd (hstays k hk' hk) hgone
  · exact ⟨hk', d, howner, hstays d hd (live_owner hu' hk howner)⟩
  · exact hagain

end Knows

/-! The directory -/

/-- The directory is fresh, or it holds the export of an earlier state of the store. What the store
has lost since then waits in the queue. -/
inductive Site (t : Tree) (dir : String) (l : Location) (along : List Deletion) (s : Store) :
    List Deletion → Prop where
  | fresh : FreshAt t dir l → Site t dir l along s []
  | exported {keys : List Deletion} (e : Store) : Exported t dir l e keys → Exportable e →
      (∀ k ∈ keys, k.Fits) → (∀ k, Live e k → Live s k ∨ Remembered along (waiting s) k) →
      Site t dir l along s keys

namespace Site

variable {t : Tree} {dir : String} {l : Location}

theorem ready (h : Site t dir l along s keys) : Ready t dir l := by
  cases h with
  | fresh h => exact h.ready
  | exported e h => exact h.toReady

theorem fits (h : Site t dir l along s keys) : ∀ k ∈ keys, k.Fits := by
  cases h with
  | fresh => simp
  | exported e _ _ h => exact h

/-- The keys are those of the manifest. -/
theorem manifest_eq (h : Site t dir l along s keys) :
    (Manifest.ofText ((textAt? t l Manifest.fileName).getD "")).1 = keys := by
  cases h with
  | fresh h => rw [h.manifest_eq]
  | exported e h _ hfits => rw [h.manifest, Option.getD_some, Manifest.ofText_text hfits]

theorem mem_exportedKeys (h : Site t dir l along s keys) {k : Deletion} :
    k ∈ exportedKeys t l s ↔ k ∈ keys ++ waiting s ∧ ¬Live s k := by
  rw [Sync.mem_exportedKeys, h.manifest_eq, List.mem_append]

theorem changed (h : Site t dir l along s keys) {more : List Deletion}
    (htracks : Tracks more s s') : Site t dir l (more ++ along) s' keys := by
  cases h with
  | fresh h => exact .fresh h
  | exported e h he hfits hlost =>
    refine .exported e h he hfits fun k hk => ?_
    rcases hlost k hk with hk | hk
    · exact (htracks.remembered k hk).imp_right
        (Remembered.mono · (List.subset_append_left _ _) (List.Subset.refl _))
    · exact .inr (hk.mono (List.subset_append_right _ _) htracks.kept)

end Site

/-- Tables without files are left out. -/
theorem readTables_missing {t : Tree} {dir : String} {tables : List Table}
    (h : ∀ table ∈ tables, t.pathExists [] (dir ++ "/" ++ table.fileName) = false) (u : Store)
    (done : ImportSummary) : readTables t dir tables u done = .ok (u, done) := by
  induction tables with
  | nil => rfl
  | cons table rest ih =>
    simp only [readTables, h table List.mem_cons_self, Bool.false_eq_true, ↓reduceIte]
    exact ih fun table htable => h table (List.mem_cons_of_mem _ htable)

/-- There is nothing to import from a fresh directory. -/
theorem FreshAt.importFrom_eq {t : Tree} {dir : String} {l : Location} (h : FreshAt t dir l)
    {summary : ImportSummary} (hok : importFrom u t dir = .ok (summary, u')) : u' = u := by
  have hmissing : ∀ table ∈ Table.all,
      t.pathExists [] (dir ++ "/" ++ table.fileName) = false := by
    intro table htable
    have hname := fileName_mem htable
    rw [h.pathExists_child (isFileName_of_mem hname) (h.ready.not_link hname), h.nothing _ hname]
    rfl
  unfold importFrom at hok
  rw [if_pos h.isDirectory, h.ready.manifestText_eq] at hok
  simp only [bind, Except.bind, h.manifest_eq, applyDeletions, List.foldl_nil,
    readTables_missing hmissing] at hok
  exact (Prod.mk.inj (Except.ok.inj hok)).2.symm

/-- What an import brings is in the export or was there before. -/
theorem Site.imported {t : Tree} {dir : String} {l : Location} (h : Site t dir l along s keys)
    (hu : Faithful u) {summary : ImportSummary} (hok : importFrom u t dir = .ok (summary, u'))
    {k : Deletion} (hk : Live u' k) :
    Live u k ∨ Live s k ∨ Remembered along (waiting s) k := by
  cases h with
  | fresh h => exact .inl (h.importFrom_eq hok ▸ hk)
  | exported e h he hfits hlost =>
    obtain ⟨_, _, hok', -, -, hrecords⟩ := importFrom_records h he hfits hu
    obtain ⟨-, rfl⟩ := Prod.mk.inj (Except.ok.inj (hok.symm.trans hok'))
    obtain ⟨y, hy, rfl⟩ := hk
    rcases (hrecords y).mp hy with hy | ⟨hy, -⟩
    · obtain ⟨x, hx, rfl⟩ := List.mem_map.mp hy
      rw [key_settled]
      exact .inr (hlost _ (live_of_mem hx))
    · exact .inl ((shrinks_applyDeletions u keys).live hu (hu.applyDeletions keys).toSound
        (live_of_mem hy))

/-! Taking the queue away -/

theorem waiting_clear (s : Store) (x : Snapshot) : waiting (x.clear s) ⊆ waiting s := by
  obtain ⟨pending, heq, hsubset⟩ := clear_eq s x
  rw [heq]
  exact List.map_subset _ hsubset

/-! Whole histories -/

/-- What holds of the two stores and the directory between them at any time. -/
structure Linked (dir : String) (l : Location) (along : List Deletion) (s : Store) (t : Tree)
    (u : Store) (keys : List Deletion) : Prop where
  exportable : Exportable s
  follower : Exportable u
  site : Site t dir l along s keys
  knows : Knows along s keys u

namespace Linked

variable {dir : String} {l : Location} {t t' : Tree}

theorem start (origin origin' : Nat) (ht : FreshAt t dir l) :
    Linked dir l [] (.empty origin) t (.empty origin') [] where
  exportable := exportable_empty origin
  follower := exportable_empty origin'
  site := .fresh ht
  knows := by
    rintro k ⟨x, hx, -⟩
    rw [records_empty] at hx
    exact absurd hx List.not_mem_nil

theorem changed (h : Linked dir l along s t u keys) {op : Operation} (hop : op.Local)
    (hok : op.run s = .ok s') : Linked dir l (op.takenAlong s ++ along) s' t u keys := by
  have htracks := op.tracks_run h.exportable hop hok
  exact ⟨op.exportable_run h.exportable (.inl hop) hok, h.follower, h.site.changed htracks,
    h.knows.changed htracks⟩

theorem fits_exportedKeys (h : Linked dir l along s t u keys) :
    ∀ k ∈ exportedKeys t l s, k.Fits := by
  intro k hk
  rcases List.mem_append.mp (h.site.mem_exportedKeys.mp hk).1 with hk | hk
  · exact h.site.fits k hk
  · exact inRange_pending_iff.mp h.exportable.inRange.pending k hk

theorem exported (h : Linked dir l along s t u keys) {force : Bool} {done : ExportSummary}
    (hok : exportTo s t dir force = (t', .ok (done, s'))) :
    Linked dir l along s' t' u (exportedKeys t l s) := by
  obtain ⟨_, _, hok', hexported⟩ := exportTo_ready h.site.ready s force
  obtain ⟨rfl, hdone⟩ := Prod.mk.inj (hok.symm.trans hok')
  obtain ⟨-, rfl⟩ := Prod.mk.inj (Except.ok.inj hdone)
  have hlive := live_clear s (Snapshot.of s)
  refine ⟨h.exportable.clear _, h.follower, ?_, ?_⟩
  · refine .exported s hexported h.exportable h.fits_exportedKeys fun k hk => ?_
    exact .inl ((hlive k).mpr hk)
  · exact h.knows.exported (fun k => h.site.mem_exportedKeys) hlive

theorem imported (h : Linked dir l along s t u keys) {summary : ImportSummary}
    (hok : importFrom u t dir = .ok (summary, u')) : Linked dir l along s t u' keys where
  exportable := h.exportable
  follower := h.follower.importFrom hok
  site := h.site
  knows := h.knows.imported fun _ => h.site.imported h.follower.faithful hok

end Linked

theorem Follows.linked {dir : String} {l : Location} {t : Tree} (h : Follows dir l along s t u) :
    ∃ keys, Linked dir l along s t u keys := by
  induction h with
  | start origin origin' ht => exact ⟨[], .start origin origin' ht⟩
  | changed op _ hop hok ih =>
    obtain ⟨keys, ih⟩ := ih
    exact ⟨keys, ih.changed hop hok⟩
  | exported force _ hok ih =>
    obtain ⟨keys, ih⟩ := ih
    exact ⟨_, ih.exported hok⟩
  | imported _ hok ih =>
    obtain ⟨keys, ih⟩ := ih
    exact ⟨keys, ih.imported hok⟩

/-- What still waits after an export is in the manifest or live. -/
theorem Linked.waiting_clear {dir : String} {l : Location} {t : Tree}
    (h : Linked dir l along s t u keys) :
    ∀ k ∈ waiting ((Snapshot.of s).clear s),
      k ∈ exportedKeys t l s ∨ Live ((Snapshot.of s).clear s) k := by
  intro k hk
  rw [live_clear, h.site.mem_exportedKeys]
  by_cases hlive : Live s k
  · exact .inr hlive
  · exact .inl ⟨List.mem_append_right _ (Sync.waiting_clear s _ hk), hlive⟩

/-- Stores whose records are alike have the same keys. -/
theorem live_iff_of_alike (hall : ∀ x ∈ records s, ∃ y ∈ records u, Alike x y)
    (hmore : ∀ y ∈ records u, ∃ x ∈ records s, Alike x y) (k : Deletion) :
    Live u k ↔ Live s k := by
  constructor
  · rintro ⟨y, hy, rfl⟩
    obtain ⟨x, hx, halike⟩ := hmore y hy
    exact halike.key ▸ live_of_mem hx
  · rintro ⟨x, hx, rfl⟩
    obtain ⟨y, hy, halike⟩ := hall x hx
    exact halike.key ▸ live_of_mem hy

/-- An export succeeds. An import that follows it leaves each record of the exported store, once.
All others that it leaves were taken along with a repository or a project that is there again; where
there are none, the two stores have the same keys. -/
theorem Follows.records_after_import {dir : String} {l : Location} {t : Tree}
    (h : Follows dir l along s t u) (force : Bool) :
    ∃ t' done s', exportTo s t dir force = (t', .ok (done, s')) ∧
      ∀ v, Follows dir l along s' t' v →
        ∃ summary u', importFrom v t' dir = .ok (summary, u') ∧ summary.skipped = [] ∧
          (records u').length = rowCount u' ∧
          (∀ x ∈ records s, ∃ y, (records u').filter (fun z => z.key = x.key) = [y] ∧ Alike x y) ∧
          (∀ y ∈ records u', (∃ x ∈ records s, Alike x y) ∨
            (¬Live s y.key ∧ y.key ∈ along ∧ ∃ d ∈ y.key.owners, Live s d)) ∧
          ((∀ k ∈ along, Live s k ∨ ∀ d ∈ k.owners, ¬Live s d) → ∀ k, Live u' k ↔ Live s k) := by
  obtain ⟨keys, h⟩ := h.linked
  obtain ⟨t', done, hexport, hexported⟩ := exportTo_ready h.site.ready s force
  refine ⟨t', done, _, hexport, fun v hv => ?_⟩
  obtain ⟨kept, hv⟩ := hv.linked
  obtain rfl : kept = exportedKeys t l s := by
    rw [← hv.site.manifest_eq, hexported.manifest, Option.getD_some,
      Manifest.ofText_text h.fits_exportedKeys]
  have hfollower := hv.follower.faithful
  obtain ⟨summary, u', hok, hskipped, hu', hrecords⟩ :=
    importFrom_records hexported h.exportable h.fits_exportedKeys hfollower
  have hall : ∀ x ∈ records s, ∃ y, (records u').filter (fun z => z.key = x.key) = [y] ∧
      Alike x y :=
    fun x => importFrom_alike hexported h.exportable h.fits_exportedKeys hfollower hok
  have hmore : ∀ y ∈ records u', (∃ x ∈ records s, Alike x y) ∨
      (¬Live s y.key ∧ y.key ∈ along ∧ ∃ d ∈ y.key.owners, Live s d) := by
    intro y hy
    rcases (hrecords y).mp hy with hy | ⟨hy, hgone⟩
    · obtain ⟨x, hx, rfl⟩ := List.mem_map.mp hy
      exact .inl ⟨x, hx, alike_settled (hfollower.applyDeletions _)
        (h.exportable.faithful.intact hx)⟩
    · refine .inr ⟨hgone, ?_⟩
      have hagain := hv.knows.survivor hfollower h.waiting_clear (live_of_mem hy)
      simp only [live_clear] at hagain
      exact hagain hgone
  refine ⟨summary, u', hok, hskipped, length_records hu'.toSound, hall, hmore, fun hnone => ?_⟩
  apply live_iff_of_alike
  · intro x hx
    obtain ⟨y, hy, halike⟩ := hall x hx
    exact ⟨y, (List.mem_filter.mp (hy ▸ List.mem_singleton_self y)).1, halike⟩
  · intro y hy
    refine (hmore y hy).resolve_right ?_
    rintro ⟨hgone, halong, d, howner, hlive⟩
    exact (hnone y.key halong).resolve_left hgone d howner hlive

/-- A project with a member was deleted after an import, and there is a new one of its name. -/
theorem records_after_import_sample :
    ∃ along s t u, Follows "/w" [] along s t u ∧ .membership "p" "r" ∈ along ∧
      Live s (.project "p") ∧
      ∃ t' done s', exportTo s t "/w" false = (t', .ok (done, s')) ∧
        ∃ summary u', importFrom u t' "/w" = .ok (summary, u') ∧ summary.skipped = [] ∧
          ∀ x ∈ records s, ∃ y, (records u').filter (fun z => z.key = x.key) = [y] ∧
            Alike x y := by
  have hrepository := Follows.changed (.upsertRepository (.ofFullName "r" ""))
    (.start 0 1 freshAt_sample) trivial rfl
  have hproject := hrepository.changed (.createProject "p" none 7) ⟨by decide, by decide⟩ rfl
  have hmember := hproject.changed (.addToProject "p" "r") trivial rfl
  obtain ⟨t, done, s, hexport, himport⟩ := hmember.records_after_import false
  have hexported := hmember.exported false hexport
  obtain ⟨summary, u, hok, -⟩ := himport _ hexported
  obtain rfl := Store.exportTo_store (congrArg Prod.snd hexport)
  obtain ⟨_, hbefore⟩ := hexported.linked
  have hdeleted := (hexported.imported hok).changed (.deleteProject "p") trivial rfl
  have hagain := hdeleted.changed (.createProject "p" none 8) ⟨by decide, by decide⟩ rfl
  obtain ⟨_, hafter⟩ := hagain.linked
  obtain ⟨t', done', s', hexport', himport'⟩ := hagain.records_after_import false
  obtain ⟨summary', u', hok', hskipped, -, hall, -⟩ := himport' u (hagain.exported false hexport')
  refine ⟨_, _, _, _, hagain, ?_, (live_project hafter.exportable.sound).mpr ⟨_, rfl⟩, t', done',
    s', hexport', summary', u', hok', hskipped, hall⟩
  apply List.mem_append_right
  apply List.mem_append_left
  refine mem_keysBelow.mpr ⟨?_, List.mem_cons_self⟩
  exact (live_membership hbefore.exportable.sound).mpr ⟨_, _, rfl, rfl, List.mem_cons_self⟩

end CodeIndex.Sync
