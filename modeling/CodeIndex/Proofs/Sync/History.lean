import CodeIndex.Proofs.Sync.Cascade
import CodeIndex.Proofs.Sync.EdgeKeys
import CodeIndex.Proofs.Sync.Exporting
import CodeIndex.Proofs.Sync.Queue
import CodeIndex.Proofs.Sync.RoundTrip
import CodeIndex.Proofs.Sync.Tracking

/-!
What a manifest remembers. A store is changed by operations and exported to one directory again and
again. The manifest lists a key from the first export after an operation has queued it, up to an
export at which a row has the key; a key that is queued again is listed again. What one step does to
the keys of the manifest and of the queue together carries over to all histories. An export knows
edges by the keys of their records, so it is asked for stores whose edges stand under their own
keys.
-/
namespace CodeIndex.Sync

open Files Files.Tree
open Store (Queues)

/-! Keys of rows -/

/-- A row of the store has the natural key. -/
def Present (s : Store) (k : Deletion) : Prop := ∃ row : Row, row.In s ∧ row.key? s = some k

section Present

variable {s : Store} {x : Record} {row : Row}

/-- The records of a store are those of its rows. -/
theorem mem_records_iff_row : x ∈ records s ↔ ∃ row : Row, row.In s ∧ row.record? s = some x := by
  rw [mem_records, Row.exists_iff]
  cases x <;> simp [Row.In, Row.record?]

/-- Where edges stand under their own keys, the key of a row is that of its record. -/
theorem Row.keyWith_eq (hkeys : OwnKeys s) (hrow : row.In s) (hx : row.record? s = some x) :
    row.keyWith x = x.key := by
  cases row with
  | edge e =>
    obtain ⟨y, hy, rfl⟩ := Option.map_eq_some_iff.mp hx
    have hkey : y.edge.key = e.key := (edgeRecord?_eq_some.mp hy).2 ▸ hkeys e hrow
    exact congrArg (Deletion.edge y.repository) hkey.symm
  | _ => rfl

theorem present_iff_live (hkeys : OwnKeys s) {k : Deletion} : Present s k ↔ Live s k := by
  constructor
  · rintro ⟨row, hrow, hkey⟩
    obtain ⟨x, hx, rfl⟩ := Option.map_eq_some_iff.mp hkey
    exact ⟨x, mem_records_iff_row.mpr ⟨row, hrow, hx⟩, (Row.keyWith_eq hkeys hrow hx).symm⟩
  · rintro ⟨x, hmem, rfl⟩
    obtain ⟨row, hrow, hx⟩ := mem_records_iff_row.mp hmem
    exact ⟨row, hrow, Option.map_eq_some_iff.mpr ⟨x, hx, Row.keyWith_eq hkeys hrow hx⟩⟩

end Present

/-! Events -/

/-- What happens to a store: an operation queues keys, or the store is exported. -/
inductive Event where
  | queued (keys : List Deletion)
  | exported (s : Store)

/-- A key was queued, and at no export from then on the store has had a row with it. -/
def Outstanding (events : List Event) (k : Deletion) : Prop :=
  ∃ before keys after, events = before ++ .queued keys :: after ∧ k ∈ keys ∧
    ∀ s, .exported s ∈ after → ¬Present s k

/-- The last element of a list stands at a place or behind it. -/
theorem concat_eq_append_cons {α : Type} {xs before after : List α} {x y : α}
    (h : xs ++ [x] = before ++ y :: after) :
    y = x ∨ ∃ rest, after = rest ++ [x] ∧ xs = before ++ y :: rest := by
  rcases after.eq_nil_or_concat with rfl | ⟨rest, z, rfl⟩
  · obtain ⟨-, heq⟩ := List.append_inj' h rfl
    exact .inl (List.singleton_inj.mp heq).symm
  · rw [List.concat_eq_append, ← List.cons_append, ← List.append_assoc] at h
    obtain ⟨hxs, heq⟩ := List.append_inj' h rfl
    obtain rfl := List.singleton_inj.mp heq
    exact .inr ⟨rest, List.concat_eq_append, hxs⟩

section Outstanding

variable {events : List Event} {k : Deletion}

theorem outstanding_nil : ¬Outstanding [] k := by
  rintro ⟨before, keys, after, hevents, -⟩
  simp at hevents

theorem outstanding_queued {keys : List Deletion} :
    Outstanding (events ++ [.queued keys]) k ↔ Outstanding events k ∨ k ∈ keys := by
  constructor
  · rintro ⟨before, keys', after, hevents, hk, hlive⟩
    rcases concat_eq_append_cons hevents with heq | ⟨rest, rfl, rfl⟩
    · cases heq
      exact .inr hk
    · exact .inl ⟨before, keys', rest, rfl, hk, fun s hs => hlive s (List.mem_append_left _ hs)⟩
  · rintro (⟨before, keys', after, rfl, hk, hlive⟩ | hk)
    · refine ⟨before, keys', after ++ [.queued keys], by simp, hk, fun s hs => hlive s ?_⟩
      simpa using hs
    · exact ⟨events, keys, [], rfl, hk, by simp⟩

theorem outstanding_exported {s : Store} :
    Outstanding (events ++ [.exported s]) k ↔ Outstanding events k ∧ ¬Present s k := by
  constructor
  · rintro ⟨before, keys, after, hevents, hk, hlive⟩
    rcases concat_eq_append_cons hevents with heq | ⟨rest, rfl, rfl⟩
    · simp at heq
    · exact ⟨⟨before, keys, rest, rfl, hk, fun u hu => hlive u (List.mem_append_left _ hu)⟩,
        hlive s (by simp)⟩
  · rintro ⟨⟨before, keys, after, rfl, hk, hlive⟩, hs⟩
    refine ⟨before, keys, after ++ [.exported s], by simp, hk, fun u hu => ?_⟩
    rcases List.mem_append.mp hu with hu | hu
    · exact hlive u hu
    · cases List.mem_singleton.mp hu
      exact hs

end Outstanding

/-! Histories -/

/-- The keys that an operation has queued. -/
def queuedBy (s s' : Store) : List Deletion := (waiting s').drop (waiting s).length

theorem queuedBy_eq {s s' : Store} {keys : List Deletion} (h : Queues keys s s') :
    queuedBy s s' = keys := by
  rw [queuedBy, waiting, waiting, h.waiting, List.drop_left]

/-- Operations on a store that was empty at first, and its exports to a directory that had no
manifest at first. At each export the edges of the store stand under their own keys, and after it
the names of its files lead to different files. -/
inductive History (dir : String) : List Event → Store → Tree → Prop where
  | start {t : Tree} (origin : Nat) : t.WellFormed →
      (∀ made, t.makeDirectories [] dir = .ok made →
        made.pathExists [] (dir ++ "/" ++ Manifest.fileName) = false) →
      History dir [] (.empty origin) t
  | operate {events : List Event} {s s' : Store} {t : Tree} (op : Operation) :
      History dir events s t → ¬op.Exports → op.Allowed s → op.InRange → op.run s = .ok s' →
      History dir (events ++ [.queued (queuedBy s s')]) s' t
  | exports {events : List Event} {s s' : Store} {t t' : Tree} {force : Bool}
      {done : ExportSummary} : History dir events s t → OwnKeys s →
      exportTo s t dir force = (t', .ok (done, s')) → Apart t' dir →
      History dir (events ++ [.exported s]) s' t'

/-- What the manifest and the queue hold together at any time. -/
structure Remembers (dir : String) (events : List Event) (s : Store) (t : Tree)
    (keys : List Deletion) : Prop where
  wellFormed : t.WellFormed
  manifest : ∀ made, t.makeDirectories [] dir = .ok made →
    manifestText made dir = .ok (Manifest.text keys)
  fits : ∀ k ∈ keys, k.Fits
  outstanding : ∀ k, k ∈ keys ∨ k ∈ waiting s ↔ Outstanding events k

namespace History

variable {dir : String} {events : List Event} {s s' : Store} {t t' : Tree} {force : Bool}
  {done : ExportSummary}

theorem reachableBy (h : History dir events s t) : ReachableBy Operation.InRange s := by
  induction h with
  | start origin => exact .empty origin
  | operate op _ _ hallowed hrange hok ih => exact .step op ih hallowed hrange hok
  | @exports events s s' t t' force done _ _ hok _ ih =>
    refine .step (.exportTo t dir force) ih trivial trivial ?_
    rw [Operation.run, hok]
    rfl

/-- One export takes the keys of rows out and the queue in. -/
theorem remembers_export {keys : List Deletion} (h : Remembers dir events s t keys)
    (hkeys : OwnKeys s) (x : ExportStages s t dir force t' done) (hapart : Apart t' dir) :
    x.previous = Manifest.text keys ∧
      ∀ k, k ∈ manifestKeys x.previous s ↔ Outstanding (events ++ [.exported s]) k := by
  have hprevious : x.previous = Manifest.text keys :=
    Except.ok.inj ((x.previous_eq h.wellFormed hapart).symm.trans (h.manifest _ x.makes))
  refine ⟨hprevious, fun k => ?_⟩
  rw [mem_manifestKeys, hprevious, Manifest.ofText_text h.fits, h.outstanding,
    outstanding_exported, present_iff_live hkeys]

theorem remembers (h : History dir events s t) : ∃ keys, Remembers dir events s t keys := by
  induction h with
  | @start t origin ht hnone =>
    refine ⟨[], ht, fun made hmade => ?_, by simp, fun k => ?_⟩
    · unfold manifestText
      rw [if_neg (by simp [hnone made hmade])]
      rfl
    · simp [waiting, Store.empty, outstanding_nil]
  | @operate events s s' t op _ hop _ _ hok ih =>
    obtain ⟨keys, hkeys⟩ := ih
    obtain ⟨more, hmore⟩ := op.exists_queues hop hok
    refine ⟨keys, hkeys.wellFormed, hkeys.manifest, hkeys.fits, fun k => ?_⟩
    rw [queuedBy_eq hmore, outstanding_queued, ← hkeys.outstanding, waiting, hmore.waiting,
      List.mem_append, or_assoc]
  | @exports events s s' t t' force done h hown hok hapart ih =>
    obtain ⟨keys, hkeys⟩ := ih
    obtain ⟨⟨x⟩, rfl⟩ := exportTo_stages hok
    have hs := h.reachableBy.queued
    have hholds := x.holds hkeys.wellFormed hapart
    obtain ⟨-, hlisted⟩ := remembers_export hkeys hown x hapart
    refine ⟨manifestKeys x.previous s, hholds.wellFormed, fun made hmade => ?_,
      fits_manifestKeys hs.fits, fun k => ?_⟩
    · obtain rfl := Except.ok.inj (hholds.made.symm.trans hmade)
      exact hholds.manifestText
    · rw [← hlisted, waiting, hs.numbered.clear_pending]
      simp

end History

/-- After each export of a history the manifest lists a key if and only if an operation has queued
it and the store has had no row with it at any export from then on, this one included. No key is
listed twice, no row has a listed key, the export has counted the keys, and nothing that it has seen
waits any longer. -/
theorem manifest_history {dir : String} {events : List Event} {s s' : Store} {t t' : Tree}
    {force : Bool} {done : ExportSummary} (h : History dir events s t) (hown : OwnKeys s)
    (hok : exportTo s t dir force = (t', .ok (done, s'))) (hapart : Apart t' dir) :
    ∃ keys, t'.readText [] (dir ++ "/" ++ Manifest.fileName) = .ok (Manifest.text keys) ∧
      Manifest.ofText (Manifest.text keys) = (keys, []) ∧
      (∀ k, k ∈ keys ↔ Outstanding (events ++ [.exported s]) k) ∧ keys.Nodup ∧
      (∀ k ∈ keys, ¬Present s k) ∧ done.deletions = keys.length ∧ s'.pending = [] := by
  obtain ⟨keys, hkeys⟩ := h.remembers
  obtain ⟨⟨x⟩, rfl⟩ := exportTo_stages hok
  have hs := h.reachableBy.queued
  obtain ⟨-, hlisted⟩ := History.remembers_export hkeys hown x hapart
  exact ⟨manifestKeys x.previous s, (x.holds hkeys.wellFormed hapart).manifest,
    Manifest.ofText_text (fits_manifestKeys hs.fits), hlisted, nodup_manifestKeys,
    fun k hk => (outstanding_exported.mp ((hlisted k).mp hk)).2, x.deletions,
    hs.numbered.clear_pending⟩

theorem history_empty : History "/w" [] (.empty 0) (.empty "/w") := by
  refine .start 0 freshAt_sample.wellFormed fun made hmade => ?_
  obtain rfl := Except.ok.inj (freshAt_sample.makeDirectories.symm.trans hmade)
  rfl

/-- Two files and imports between them. -/
def importRun (edges : List Edge) : Store.Run where
  files := [⟨"a.ts", "", .typescript, 0, "", 0⟩, ⟨"b.ts", "", .typescript, 0, "", 0⟩]
  symbols := []
  references := []
  edges

def circularRun : Store.Run :=
  importRun [.fileImport "" "a.ts" "b.ts", .fileImport "" "b.ts" "a.ts"]

theorem inRange_importRun (edges : List Edge) : FitsI64 0 ∧ Run.InRange (importRun edges) := by
  refine ⟨by simp [FitsI64], ?_, ?_, ?_⟩ <;> simp [importRun, FitsI64]

/-- A store with two files and imports between them. -/
def importStore (edges : List EdgeRow) (pending : List Pending) : Store :=
  { Store.empty 0 with
    nextSerial := 2
    repositories := [⟨.given "1", "r", "r", none, "main", some 0⟩]
    files := [⟨.made 0 0, .given "1", "a.ts", "", .typescript, 0, "", 0⟩,
      ⟨.made 0 1, .given "1", "b.ts", "", .typescript, 0, "", 0⟩]
    edges
    pending
    nextPending := pending.length + 1 }

/-- The files import each other. -/
def circularStore : Store :=
  importStore
    [⟨.given "1", "file_import|a.ts|b.ts||", .fileImport, some (.made 0 0), some (.made 0 1), none,
      none⟩,
    ⟨.given "1", "file_import|b.ts|a.ts||", .fileImport, some (.made 0 1), some (.made 0 0), none,
      none⟩] []

/-- The second file no longer imports the first one. -/
def brokenStore : Store :=
  importStore
    [⟨.given "1", "file_import|a.ts|b.ts||", .fileImport, some (.made 0 0), some (.made 0 1), none,
      none⟩] [⟨1, .edge "r" "file_import|b.ts|a.ts||"⟩]

theorem history_brokenStore :
    History "/w" [.queued [], .queued [.edge "r" "file_import|b.ts|a.ts||"]] brokenStore
      (.empty "/w") := by
  have hboth : (Operation.storeRepository (.ofFullName "r" "") (.given "1") 0 circularRun).run
      (.empty 0) = .ok circularStore := by decide +kernel
  have hone : (Operation.storeRun (.given "1") 0
      (importRun [.fileImport "" "a.ts" "b.ts"])).run circularStore = .ok brokenStore := by
    decide +kernel
  have hstored : History "/w" [.queued []] circularStore (.empty "/w") :=
    history_empty.operate (.storeRepository _ _ _ circularRun) id (by intro n hn; cases hn)
      (inRange_importRun _) hboth
  exact hstored.operate (.storeRun _ _ (importRun _)) id trivial (inRange_importRun _) hone

theorem ownKeys_brokenStore : OwnKeys brokenStore := by
  unfold OwnKeys
  decide +kernel

theorem not_present_brokenStore : ¬Present brokenStore (.edge "r" "file_import|b.ts|a.ts||") := by
  rw [present_iff_live ownKeys_brokenStore,
    live_edge_of_keys history_brokenStore.reachableBy.reachable.sound ownKeys_brokenStore]
  rintro ⟨r, -, e, he, -, hkey⟩
  rw [List.mem_singleton.mp he] at hkey
  exact absurd hkey (by decide)

/-- An import is lost and listed; it is stored again and not listed any longer. -/
theorem manifest_history_sample : ∃ events t' done s' keys,
    History "/w" events brokenStore (.empty "/w") ∧ OwnKeys brokenStore ∧
      exportTo brokenStore (.empty "/w") "/w" false = (t', .ok (done, s')) ∧
      Apart t' "/w" ∧ t'.readText [] ("/w" ++ "/" ++ Manifest.fileName) =
        .ok (Manifest.text keys) ∧ .edge "r" "file_import|b.ts|a.ts||" ∈ keys ∧
      ∃ u t'' done' u' keys', (Operation.storeRun (.given "1") 0 circularRun).run s' = .ok u ∧
        OwnKeys u ∧ exportTo u t' "/w" false = (t'', .ok (done', u')) ∧
        t''.readText [] ("/w" ++ "/" ++ Manifest.fileName) = .ok (Manifest.text keys') ∧
        .edge "r" "file_import|b.ts|a.ts||" ∉ keys' := by
  obtain ⟨t', done, hexport, hexported⟩ := exportTo_ready freshAt_sample.ready brokenStore false
  obtain ⟨keys, hread, -, hlisted, -⟩ :=
    manifest_history history_brokenStore ownKeys_brokenStore hexport hexported.apart
  have hmem := (hlisted (.edge "r" "file_import|b.ts|a.ts||")).mpr (outstanding_exported.mpr
    ⟨⟨[.queued []], _, [], rfl, List.mem_singleton.mpr rfl, by simp⟩, not_present_brokenStore⟩)
  have hagain : (Operation.storeRun (.given "1") 0 circularRun).run
      ((Snapshot.of brokenStore).clear brokenStore) =
        .ok { circularStore with nextPending := 2 } := by decide +kernel
  have hrestored := (history_brokenStore.exports ownKeys_brokenStore hexport
    hexported.apart).operate (.storeRun _ _ circularRun) id trivial (inRange_importRun _) hagain
  have hown : OwnKeys { circularStore with nextPending := 2 } := by
    unfold OwnKeys
    decide +kernel
  obtain ⟨t'', done', hexport', hexported'⟩ := exportTo_ready hexported.toReady _ false
  obtain ⟨keys', hread', -, -, -, hdead, -⟩ :=
    manifest_history hrestored hown hexport' hexported'.apart
  refine ⟨_, t', done, _, keys, history_brokenStore, ownKeys_brokenStore, hexport,
    hexported.apart, hread, hmem, _, t'', done', _, keys', hagain, hown, hexport', hread',
    fun hmem' => hdead _ hmem' ?_⟩
  exact ⟨.edge _, List.mem_cons_of_mem _ List.mem_cons_self, by decide +kernel⟩

/-- A store whose one repository was deleted. -/
def deletedRepository : Store :=
  { Store.empty 0 with
    nextSerial := 1
    pending := [⟨1, .repository "r"⟩]
    nextPending := 2 }

theorem not_live_deletedRepository (k : Deletion) : ¬Live deletedRepository k := by
  rintro ⟨x, hx, -⟩
  cases x <;> simp [mem_records, deletedRepository, Store.empty] at hx

theorem not_present_deletedRepository (k : Deletion) : ¬Present deletedRepository k :=
  (present_iff_live fun _ he => absurd he List.not_mem_nil).not.mpr (not_live_deletedRepository k)

theorem history_deletedRepository {t : Tree}
    (hstart : History "/w" [] (.empty 0) t) :
    History "/w" [.queued [], .queued [.repository "r"]] deletedRepository t :=
  (hstart.operate (.upsertRepository (.ofFullName "r" "")) id trivial trivial rfl).operate
    (.deleteRepository "r") id trivial trivial rfl

/-- The name of a table leads to the manifest. -/
def coveredTree : Tree := ⟨"/w", [(["files.jsonl"], .link "deletions.jsonl")]⟩

/-- Where the name of a table leads to the manifest, the next export forgets what was listed. -/
theorem manifest_history_of_link : ∃ (s' s'' : Store) (t' t'' : Tree) (done again : ExportSummary),
    History "/w" [.queued [], .queued [.repository "r"]] deletedRepository coveredTree ∧
      exportTo deletedRepository coveredTree "/w" false = (t', .ok (done, s')) ∧
      exportTo s' t' "/w" false = (t'', .ok (again, s'')) ∧
      Outstanding [.queued [], .queued [.repository "r"], .exported deletedRepository, .exported s']
        (.repository "r") ∧
      done.deletions = 1 ∧ again.deletions = 0 ∧
      t''.readText [] ("/w" ++ "/" ++ Manifest.fileName) = .ok "" := by
  have ht : coveredTree.WellFormed := wellFormed_of_flat ⟨['w'], rfl⟩ (by simp [coveredTree])
  have hmade : coveredTree.makeDirectories [] "/w" = .ok coveredTree := rfl
  have hstart : History "/w" [] (.empty 0) coveredTree := by
    refine .start 0 ht fun made hmakes => ?_
    obtain rfl := Except.ok.inj (hmade.symm.trans hmakes)
    rfl
  have hrun : ((exportTo deletedRepository coveredTree "/w" false).2.toOption.bind fun first =>
      let t := (exportTo deletedRepository coveredTree "/w" false).1
      let second := exportTo first.2 t "/w" false
      second.2.toOption.bind fun out =>
        (second.1.readText [] ("/w" ++ "/" ++ Manifest.fileName)).toOption.map fun text =>
          (first.1.deletions, out.1.deletions, text)) = some (1, 0, "") := by decide +kernel
  obtain ⟨⟨done, s'⟩, hok, hrun⟩ := Option.bind_eq_some_iff.mp hrun
  obtain ⟨⟨again, s''⟩, hok', hrun⟩ := Option.bind_eq_some_iff.mp hrun
  obtain ⟨text, hread, hrun⟩ := Option.map_eq_some_iff.mp hrun
  simp only [Prod.mk.injEq] at hrun
  obtain ⟨hdone, hagain, rfl⟩ := hrun
  have hok := Store.toOption_eq_some.mp hok
  obtain rfl := Store.exportTo_store hok
  refine ⟨_, s'', _, _, done, again, history_deletedRepository hstart, Prod.snd_eq_iff.mp hok,
    Prod.snd_eq_iff.mp (Store.toOption_eq_some.mp hok'), ?_, hdone, hagain,
    Store.toOption_eq_some.mp hread⟩
  refine ⟨[.queued []], [.repository "r"], _, rfl, by simp, fun s hs => ?_⟩
  simp only [List.mem_cons, Event.exported.injEq, List.not_mem_nil, or_false] at hs
  rcases hs with rfl | rfl
  · exact not_present_deletedRepository _
  · exact not_present_deletedRepository _

end CodeIndex.Sync
