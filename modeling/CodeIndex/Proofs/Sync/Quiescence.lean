import CodeIndex.Proofs.Sync.Exporting
import CodeIndex.Proofs.Sync.Queue

/-!
Exports that change nothing. What an export leaves is a fixed point: the same store is exported to
it without a write, whatever the directory held before, as long as the names of the files lead to
different files. Where two names lead to one file, each export writes it twice.
-/
namespace CodeIndex.Sync

open Files Files.Tree

variable {s s' : Store} {t t' : Tree} {dir : String}

theorem snapshot_tables {d : Dump} (hd : d ∈ (Snapshot.of s).tables) :
    ∃ table ∈ Table.all, d.fileName = table.fileName ∧
      Manifest.linesText d.lines = table.text s := by
  simp only [Snapshot.of, List.map_map] at hd
  obtain ⟨table, htable, rfl⟩ := List.mem_map.mp hd
  exact ⟨table, htable, rfl, rfl⟩

/-- A store whose queue is empty is exported without a write to a directory that holds it. -/
theorem HoldsExport.exportTo {keys : List Deletion} (h : HoldsExport t dir s keys)
    (hpending : s.pending = []) (hkeys : manifestKeys (Manifest.text keys) s = keys) :
    exportTo s t dir false =
      (t, .ok ({ unchanged := Table.all.map Table.name, deletions := keys.length }, s)) := by
  have htables : ∀ d ∈ (Snapshot.of s).tables,
      t.readText [] (dir ++ "/" ++ d.fileName) = .ok (Manifest.linesText d.lines) := by
    intro d hd
    obtain ⟨table, htable, hname, htext⟩ := snapshot_tables hd
    rw [hname, htext]
    exact h.tables table htable
  have hmanifest : (Snapshot.of s).writeManifest dir false t = .ok (t, keys.length) := by
    have hsame : writeChanged t (dir ++ "/" ++ Manifest.fileName) (Manifest.text keys) false =
        .ok none := by
      simp [writeChanged, h.manifest]
    unfold Snapshot.writeManifest
    rw [h.manifestText]
    simp only [bind, Except.bind, merge_snapshot, hkeys, hsame]
    rfl
  have hclear : (Snapshot.of s).clear s = s := by
    unfold Snapshot.clear
    simp [Snapshot.of, hpending]
  simp only [Sync.exportTo, h.made, Snapshot.write, writeTables_same htables, hmanifest, hclear]
  rfl

/-- After an export that succeeded the store is exported to the directory without a write: all
tables are passed over, the manifest has as many keys as before, and the tree and the store stay as
they are. The directory may have held anything before; the names of the files must lead to different
files in the end. -/
theorem exportTo_again {force : Bool} {done : ExportSummary} (hs : Queued s) (ht : t.WellFormed)
    (hok : exportTo s t dir force = (t', .ok (done, s'))) (hapart : Apart t' dir) :
    exportTo s' t' dir false =
      (t', .ok ({ unchanged := Table.all.map Table.name, deletions := done.deletions }, s')) := by
  obtain ⟨⟨x⟩, rfl⟩ := exportTo_stages hok
  have hholds := x.holds ht hapart
  rw [x.deletions]
  refine HoldsExport.exportTo ⟨hholds.wellFormed, hholds.made, ?_, hholds.manifest⟩
    hs.numbered.clear_pending
    (manifestKeys_again (records_clear s _) hs.numbered.clear_pending hs.fits)
  intro table htable
  rw [text_clear s _ table htable]
  exact hholds.tables table htable

/-- A directory with an old table and a manifest that cannot be read. -/
def staleTree : Tree :=
  ⟨"/w", [(["files.jsonl"], .file (.text "old\n")), (["deletions.jsonl"], .file (.text "\x7b\n"))]⟩

theorem ready_staleTree : Ready staleTree "/w" [] where
  wellFormed := wellFormed_of_flat ⟨['w'], rfl⟩ (by simp [staleTree])
  named := by decide
  resolves := rfl
  directory := rfl
  entries := by decide

/-- A deletion waits, and the directory holds an old table and a manifest that cannot be read. -/
theorem exportTo_again_sample : ∃ (s s' : Store) (t' : Tree) (done : ExportSummary),
    Queued s ∧ s.pending.length = 1 ∧ staleTree.WellFormed ∧
      exportTo s staleTree "/w" true = (t', .ok (done, s')) ∧ Apart t' "/w" ∧
      exportTo s' t' "/w" false =
        (t', .ok ({ unchanged := Table.all.map Table.name, deletions := done.deletions }, s')) := by
  have hs : ReachableBy Operation.InRange _ :=
    .step (.deleteRepository "r")
      (.step (.upsertRepository (.ofFullName "r" "")) (.empty 0) trivial trivial rfl)
      trivial trivial rfl
  obtain ⟨t', done, hok, hexported⟩ := exportTo_ready ready_staleTree _ true
  exact ⟨_, _, t', done, hs.queued, rfl, ready_staleTree.wellFormed, hok, hexported.apart,
    exportTo_again hs.queued ready_staleTree.wellFormed hok hexported.apart⟩

/-- A store with one repository. -/
def oneRepository : Store :=
  { Store.empty 0 with
    nextSerial := 1
    repositories := [⟨.made 0 0, "r", "r", none, "main", none⟩] }

/-- The name of one table leads to the file of another one. -/
def linkedTree : Tree := ⟨"/w", [(["repositories.jsonl"], .link "files.jsonl")]⟩

/-- Where two names lead to one file, each export writes both tables to it. -/
theorem exportTo_again_of_link : ∃ (s' : Store) (t' : Tree) (done again : ExportSummary),
    ReachableBy Operation.InRange oneRepository ∧ linkedTree.WellFormed ∧
      exportTo oneRepository linkedTree "/w" false = (t', .ok (done, s')) ∧
      (exportTo s' t' "/w" false).2.map Prod.fst = .ok again ∧
      again.written = ["repositories", "files"] := by
  have hs : ReachableBy Operation.InRange oneRepository :=
    .step (.upsertRepository (.ofFullName "r" "")) (.empty 0) trivial trivial rfl
  have ht : linkedTree.WellFormed := wellFormed_of_flat ⟨['w'], rfl⟩ (by simp [linkedTree])
  have hrun : ((exportTo oneRepository linkedTree "/w" false).2 >>= fun first =>
      (exportTo first.2 (exportTo oneRepository linkedTree "/w" false).1 "/w" false).2.map
        fun second => second.1.written).toOption = some ["repositories", "files"] := by
    decide +kernel
  obtain ⟨⟨done, s'⟩, hfirst, hrun⟩ := Store.bind_eq_ok.mp (Store.toOption_eq_some.mp hrun)
  obtain ⟨⟨again, s''⟩, hsecond, hwritten⟩ := Store.map_eq_ok.mp hrun
  exact ⟨s', _, done, again, hs, ht, Prod.snd_eq_iff.mp hfirst, by rw [hsecond]; rfl, hwritten⟩

end CodeIndex.Sync
