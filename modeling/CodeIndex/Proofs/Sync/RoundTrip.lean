import CodeIndex.Proofs.Sync.Answers
import CodeIndex.Proofs.Sync.Reached

/-!
A store is exported to a directory and imported from there into another store. The import reports no
line, and the other store then has each record of the first one, once. An empty store answers then
as the first one does, and a store with the same records is left as it was.
-/
namespace CodeIndex.Sync

open Files (Tree Location)

/-! Rows and records -/

def rowCount (s : Store) : Nat :=
  s.repositories.length + s.files.length + s.symbols.length + s.references.length +
    s.edges.length + s.projects.length + s.memberships.length

theorem length_filterMap {α β : Type} {rows : List α} {f : α → Option β}
    (h : ∀ a ∈ rows, (f a).isSome = true) : (rows.filterMap f).length = rows.length := by
  rw [List.length_filterMap_eq_countP, List.countP_eq_length]
  exact h

/-- Every row of a sound store is a record. -/
theorem length_records {s : Store} (h : s.Sound) : (records s).length = rowCount s := by
  have hfiles : (loadFiles s).length = s.files.length := by
    rw [(loadFiles_perm s).length_eq]
    refine length_filterMap fun f hf => ?_
    obtain ⟨name, hname⟩ := exists_ownerOf h (h.file_owner f hf)
    simp [fileRecord?, hname]
  have hsymbols : (loadSymbols s).length = s.symbols.length := by
    rw [(loadSymbols_perm s).length_eq]
    refine length_filterMap fun x hx => ?_
    obtain ⟨home, hhome⟩ := exists_fileHome? h (h.symbol_file x hx)
    simp [symbolRecord?, hhome]
  have hreferences : (loadReferences s).length = s.references.length := by
    rw [(loadReferences_perm s).length_eq]
    refine length_filterMap fun x hx => ?_
    obtain ⟨home, hhome⟩ := exists_fileHome? h (h.reference_file x hx)
    simp [referenceRecord?, hhome]
  have hedges : (loadEdges s).length = s.edges.length := by
    rw [(loadEdges_perm s).length_eq]
    refine length_filterMap fun e he => ?_
    obtain ⟨name, hname⟩ := exists_ownerOf h (h.edge_fits e he).owner
    simp [edgeRecord?, hname]
  have hmemberships : (loadMemberships s).length = s.memberships.length := by
    rw [(loadMemberships_perm s).length_eq]
    refine length_filterMap fun m hm => ?_
    obtain ⟨p, hp, hid⟩ := h.membership_project m hm
    have hproject : projectName? s m.projectId = some p.name :=
      (projectName?_eq_some h).mpr (hid ▸ List.mem_map_of_mem (f := projectMark) hp)
    obtain ⟨name, hname⟩ := exists_ownerOf h (h.membership_repository m hm)
    simp [membershipRecord?, hproject, hname]
  simp only [records, List.length_append, List.length_map, (loadRepositories_perm s).length_eq,
    (loadProjects_perm s).length_eq, hfiles, hsymbols, hreferences, hedges, hmemberships, rowCount]

/-! The keys of the manifest -/

theorem mem_exportedKeys {t : Tree} {l : Location} {s : Store} {k : Deletion} :
    k ∈ exportedKeys t l s ↔
      (k ∈ (Manifest.ofText ((textAt? t l Manifest.fileName).getD "")).1 ∨
        k ∈ s.pending.map Pending.key) ∧ ¬Live s k := by
  rw [exportedKeys_eq, mem_manifestKeys]

/-! What an import leaves -/

section Imported

variable {t : Tree} {dir : String} {l : Location} {s u : Store} {keys : List Deletion}
  (h : Exported t dir l s keys) (hs : Exportable s) (hkeys : ∀ k ∈ keys, k.Fits) (hu : Faithful u)
include h hs hkeys hu

/-- An import of an exported store succeeds. It leaves the records of that store, and those that the
importing store had of other keys and that the manifest does not delete. -/
theorem importFrom_records :
    ∃ summary u', importFrom u t dir = .ok (summary, u') ∧ summary.skipped = [] ∧ Faithful u' ∧
      ∀ x, x ∈ records u' ↔ x ∈ (records s).map (settled (applyDeletions u keys).1) ∨
        (x ∈ records (applyDeletions u keys).1 ∧ ¬Live s x.key) := by
  obtain ⟨u', hput, hfaithful, hrecords⟩ := putAll_records hs.faithful (hu.applyDeletions keys)
  obtain ⟨summary, hok, hskipped⟩ := importFrom_exported h hs.inRange.written hkeys hput
  exact ⟨summary, u', hok, hskipped, hfaithful, hrecords⟩

/-- Each record of the exported store is there once. -/
theorem importFrom_alike {summary : ImportSummary} {u' : Store}
    (hok : importFrom u t dir = .ok (summary, u')) {x : Record} (hx : x ∈ records s) :
    ∃ y, (records u').filter (fun z => z.key = x.key) = [y] ∧ Alike x y := by
  obtain ⟨_, _, hok', -, hu', hrecords⟩ := importFrom_records h hs hkeys hu
  obtain ⟨-, rfl⟩ := Prod.mk.inj (Except.ok.inj (hok.symm.trans hok'))
  have hmem := (hrecords _).mpr (.inl (List.mem_map_of_mem hx))
  refine ⟨settled (applyDeletions u keys).1 x, ?_,
    alike_settled (hu.applyDeletions keys) (hs.faithful.intact hx)⟩
  rw [← filter_key hu' hmem, key_settled]

/-- A store without records gets those of the export and no others. -/
theorem importFrom_fresh (hfresh : records u = []) {summary : ImportSummary} {u' : Store}
    (hok : importFrom u t dir = .ok (summary, u')) : SameRecords s u' := by
  have hdead : ∀ k, ¬Live u k := by
    intro k hk
    obtain ⟨x, hx, -⟩ := hk
    simp [hfresh] at hx
  obtain ⟨_, _, hok', -, -, hrecords⟩ := importFrom_records h hs hkeys hu
  obtain ⟨-, rfl⟩ := Prod.mk.inj (Except.ok.inj (hok.symm.trans hok'))
  intro x
  have hsettled : (records s).map (settled u) = records s :=
    List.map_id'' (fun y => settled_of_not_live hu (hdead y.key)) _
  rw [hrecords, applyDeletions_eq_self hu fun k _ => hdead k, hsettled, hfresh]
  simp

/-- A store with the records of the export is left as it was. -/
theorem importFrom_same (hsame : SameRecords s u) (hdead : ∀ k ∈ keys, ¬Live s k)
    {summary : ImportSummary} {u' : Store} (hok : importFrom u t dir = .ok (summary, u')) :
    u' = u := by
  have hkept : (applyDeletions u keys).1 = u :=
    applyDeletions_eq_self hu fun k hk => hsame.live.not.mpr (hdead k hk)
  have hput : (records s).foldlM Record.put (applyDeletions u keys).1 = .ok u := by
    rw [hkept]
    exact putAll_self hu fun x hx => (hsame x).mpr hx
  obtain ⟨_, hok', -⟩ := importFrom_exported h hs.inRange.written hkeys hput
  exact (Prod.mk.inj (Except.ok.inj (hok.symm.trans hok'))).2

end Imported

/-- A directory without the files of an export, such as an empty one. -/
structure FreshAt (t : Tree) (dir : String) (l : Location) : Prop extends t.At dir l where
  nothing : ∀ name ∈ exportNames, t.entry? (l ++ [name]) = none

namespace FreshAt

variable {t : Tree} {dir : String} {l : Location} (h : FreshAt t dir l)
include h

theorem ready : Ready t dir l :=
  { h.toAt with entries := fun name hname => .inl (h.nothing name hname) }

theorem textAt?_eq_none {name : String} (hname : name ∈ exportNames) : textAt? t l name = none := by
  rw [textAt?, h.nothing name hname]

theorem manifest_eq : Manifest.ofText ((textAt? t l Manifest.fileName).getD "") = ([], []) := by
  rw [h.textAt?_eq_none manifest_mem]
  rfl

/-- The manifest of a fresh directory gets the keys that wait and are not live. -/
theorem mem_exportedKeys {s : Store} {k : Deletion} :
    k ∈ exportedKeys t l s ↔ k ∈ s.pending.map Pending.key ∧ ¬Live s k := by
  rw [Sync.mem_exportedKeys, h.manifest_eq]
  simp

end FreshAt

/-- What is exported to a fresh directory can be imported into any store, which then has exactly one
record with each key of the exported store: that of the exported store. An empty store answers then
as the exported one does, and a store with the same records is left as it was. -/
theorem importFrom_exportTo {s u : Store} (hs : Reached s) (hu : Reached u) {t : Tree}
    {dir : String} {l : Location} (ht : FreshAt t dir l) (force : Bool) :
    ∃ t' done s', exportTo s t dir force = (t', .ok (done, s')) ∧
      ∃ summary u', importFrom u t' dir = .ok (summary, u') ∧ summary.skipped = [] ∧
        (records s).length = rowCount s ∧ (records u').length = rowCount u' ∧
        (∀ x ∈ records s, ∃ y, (records u').filter (fun z => z.key = x.key) = [y] ∧ Alike x y) ∧
        (records u = [] → SameRecords s u' ∧ SameAnswers s u') ∧
        (SameRecords s u → u' = u) := by
  have hs := hs.exportable
  have hu := hu.exportable.faithful
  obtain ⟨t', done, hexport, hexported⟩ := exportTo_ready ht.ready s force
  have hfits : ∀ k ∈ exportedKeys t l s, k.Fits := by
    intro k hk
    obtain ⟨p, hp, rfl⟩ := List.mem_map.mp (ht.mem_exportedKeys.mp hk).1
    exact hs.inRange.pending p hp
  obtain ⟨summary, u', hok, hskipped, hu', -⟩ := importFrom_records hexported hs hfits hu
  refine ⟨t', done, _, hexport, summary, u', hok, hskipped, length_records hs.sound,
    length_records hu'.toSound, fun x => importFrom_alike hexported hs hfits hu hok, ?_, ?_⟩
  · intro hfresh
    have hsame := importFrom_fresh hexported hs hfits hu hfresh hok
    exact ⟨hsame, hsame.answers hs.faithful hu'⟩
  · intro hsame
    exact importFrom_same hexported hs hfits hu hsame
      (fun k hk => (ht.mem_exportedKeys.mp hk).2) hok

theorem freshAt_sample : FreshAt (.empty "/w") "/w" [] where
  wellFormed := ⟨⟨['w'], rfl⟩, fun l name h => by simp [Tree.empty, Tree.entry?] at h⟩
  named := by decide
  resolves := rfl
  directory := rfl
  nothing := fun _ _ => rfl

/-- An indexed repository is brought to a store that has a project. -/
theorem importFrom_exportTo_sample :
    ∃ s u, Reached s ∧ Reached u ∧ FreshAt (.empty "/w") "/w" [] ∧
      (∃ stats, (Store.empty 0).index Store.sampleTree {} (.ofFullName "r" "")
        (some ["a.ts", "c.ts", "b.ts", "d.ts"]) 0 = .ok (stats, s)) ∧
      ((Store.empty 1).createProject "p" none 7).map Prod.snd = .ok u ∧
      ∃ t' done s', exportTo s (.empty "/w") "/w" false = (t', .ok (done, s')) ∧
        ∃ summary u', importFrom u t' "/w" = .ok (summary, u') ∧ summary.skipped = [] ∧
          ∀ x ∈ records s, ∃ y, (records u').filter (fun z => z.key = x.key) = [y] ∧ Alike x y := by
  have hpaths : (Indexing.listing Store.sampleTree {} []
      (some ["a.ts", "c.ts", "b.ts", "d.ts"])).Nodup := by
    decide
  obtain ⟨i⟩ : Nonempty (Store.IndexRun (.empty 0) Store.sampleTree {} (.ofFullName "r" "") []
      (some ["a.ts", "c.ts", "b.ts", "d.ts"]) 0) :=
    (Reachable.empty 0).sound.indexRun rfl (by decide) hpaths
  have hcountable : Store.sampleTree.Countable := by
    refine Tree.countable_of_entries fun e he text heq => ?_
    simp only [Store.sampleTree, List.mem_cons, List.not_mem_nil, or_false] at he
    rcases he with rfl | rfl | rfl | rfl <;> cases heq <;> decide +kernel
  have hs := Reached.step (.index Store.sampleTree {} (.ofFullName "r" "")
    (some ["a.ts", "c.ts", "b.ts", "d.ts"]) 0) (.empty 0)
    (.inl ⟨⟨by decide, by decide⟩, hcountable⟩) (congrArg (Except.map Prod.snd) i.index_eq)
  have hu := Reached.step (.createProject "p" none 7) (.empty 1) (.inl ⟨by decide, by decide⟩) rfl
  obtain ⟨t', done, s', hexport, summary, u', hok, hskipped, -, -, hkept, -⟩ :=
    importFrom_exportTo hs hu freshAt_sample false
  exact ⟨_, _, hs, hu, freshAt_sample, ⟨_, i.index_eq⟩, rfl, t', done, s', hexport, summary, u',
    hok, hskipped, hkept⟩

end CodeIndex.Sync
