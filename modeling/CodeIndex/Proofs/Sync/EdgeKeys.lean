import CodeIndex.Proofs.Graph.EdgeKey
import CodeIndex.Proofs.Sync.Directory
import CodeIndex.Proofs.Sync.Reached

/-!
The keys that edges stand under. A run may name symbols that it does not have; their ends are
dropped when it is stored, and the row keeps the key of the edge as it was given. So the key of a
row is that of its edge or of one with more symbol ends. Where runs name only symbols of their own,
as an index run does, every row stands under the key of its edge, and the queue of deletions, an
export and an import know it by that key.
-/
namespace CodeIndex

open Store (map_eq_ok)

/-- The second edge is the first one, but for symbol ends that it may have lost. -/
structure Edge.Trims (x y : Edge) : Prop where
  repositoryId : y.repositoryId = x.repositoryId
  kind : y.kind = x.kind
  fromFile : y.fromFile = x.fromFile
  toFile : y.toFile = x.toFile
  fromSymbol : y.fromSymbol = x.fromSymbol ∨ y.fromSymbol = none
  toSymbol : y.toSymbol = x.toSymbol ∨ y.toSymbol = none

theorem Edge.Trims.refl (x : Edge) : x.Trims x := ⟨rfl, rfl, rfl, rfl, .inl rfl, .inl rfl⟩

theorem Edge.symbolText_length_eq_zero {key : Option SymbolKey} :
    (symbolText key).toList.length = 0 ↔ key = none := by
  cases key with
  | none => simp [symbolText]
  | some k => simp [Graph.symbolText_toList]

/-- The text of an end that may be lost is no longer than the text of the end. -/
theorem Edge.symbolText_length_le {a b : Option SymbolKey} (h : b = a ∨ b = none) :
    (symbolText b).toList.length ≤ (symbolText a).toList.length ∧
      ((symbolText b).toList.length = (symbolText a).toList.length ↔ b = a) := by
  rcases h with rfl | rfl
  · simp
  · have hnone : (symbolText none).toList.length = 0 := symbolText_length_eq_zero.mpr rfl
    rw [hnone, eq_comm, symbolText_length_eq_zero, eq_comm]
    exact ⟨Nat.zero_le _, Iff.rfl⟩

/-- The key of an edge changes whenever it loses an end. -/
theorem Edge.Trims.key_eq_iff {x y : Edge} (h : x.Trims y) : y.key = x.key ↔ y = x := by
  constructor
  · intro hkey
    obtain ⟨hfrom, hfrom_iff⟩ := symbolText_length_le h.fromSymbol
    obtain ⟨hto, hto_iff⟩ := symbolText_length_le h.toSymbol
    have hlength := congrArg (fun text => text.toList.length) hkey
    simp only [Graph.key_toList, h.kind, h.fromFile, h.toFile, List.length_append,
      List.length_cons] at hlength
    cases x
    cases y
    simp only [Edge.mk.injEq]
    exact ⟨h.repositoryId, h.kind, h.fromFile, h.toFile, hfrom_iff.mp (by omega),
      hto_iff.mp (by omega)⟩
  · rintro rfl
    rfl

/-- The edges of a run name only symbols of the run. -/
def Store.Run.NamesOwn (run : Run) : Prop :=
  ∀ e ∈ run.edges, ∀ key, e.fromSymbol = some key ∨ e.toSymbol = some key →
    key ∈ run.symbols.map Symbol.key

/-- An index run names only symbols that it has found. -/
theorem Pipeline.run_namesOwn {sources : List SourceFile} {aliases : Resolve.Aliases}
    {repositoryId : String} {cycleDepth : Nat} :
    (run sources aliases repositoryId cycleDepth).stored.NamesOwn := by
  rw [run_stored]
  intro e he key hkey
  obtain ⟨x, hx, rfl⟩ := (edge_of_run he).2.2 key hkey
  exact List.mem_map_of_mem hx

namespace Sync

variable {s s' : Store}

/-- Every edge stands under its own key. -/
def OwnKeys (s : Store) : Prop := ∀ e ∈ s.edges, (s.edgeOf "" e).key = e.key

/-- Every edge stands under the key of an edge that is related to it. -/
def Keyed (R : Edge → Edge → Prop) (s : Store) : Prop :=
  ∀ e ∈ s.edges, ∃ x : Edge, x.key = e.key ∧ R x (s.edgeOf "" e)

namespace Keyed

variable {R : Edge → Edge → Prop}

/-- Rows that stay and whose names stay keep their keys. -/
theorem of_agrees (hk : Keyed R s) (h : s.Sound) (h' : s'.Sound) (ha : Agrees s s')
    (hedges : s'.edges = s.edges) : Keyed R s' := by
  intro e he
  rw [hedges] at he
  rw [ha.edgeEnds h h' he]
  exact hk e he

theorem shrinks (hk : Keyed R s) (h : s.Sound) (h' : s'.Sound) (hs : Shrinks s s') :
    Keyed R s' := by
  intro e he
  rw [← hs.agrees.edgeEnds h' h he]
  exact hk e (hs.edges he)

section Related

variable (hrefl : ∀ x, R x x) (hkind : ∀ x y, R x y → y.kind = x.kind)
include hkind

theorem kinded (hk : Keyed R s) : Kinded s := by
  intro e he x hx
  obtain ⟨y, hy, hrel⟩ := hk e he
  rw [edge_kind_of_key (hx.trans hy.symm), ← hkind y _ hrel]
  rfl

include hrefl

/-- A record that is put stands under its own key. -/
theorem put (hk : Keyed R s) (h : s.Sound) {r : Record} (hok : r.put s = .ok s') : Keyed R s' := by
  have hplaced := placed_put h (hk.kinded hkind) hok
  intro e he
  obtain ⟨name, hname⟩ := exists_ownerOf (Sound.put h hok) ((Sound.put h hok).edge_fits e he).owner
  obtain ⟨y, hy⟩ : ∃ y, edgeRecord? s' e = some y := ⟨_, by rw [edgeRecord?, hname]; rfl⟩
  have hedge := (edgeRecord?_eq_some.mp hy).2
  rw [hedge]
  rcases (hplaced.hasRow_iff _ _).mp (hasRow_edge he hy) with ⟨hkey, hrecord⟩ | ⟨-, hrow⟩
  · refine ⟨y.edge, ?_, hrefl _⟩
    rw [← key_settle (content s) r, ← hrecord] at hkey
    exact (Deletion.edge.inj hkey).2.symm
  · obtain ⟨old, hold, hy', hkey⟩ := hrow
    rw [(Deletion.edge.inj hkey).2, ← (edgeRecord?_eq_some.mp hy').2]
    exact hk old hold

theorem importFrom (hk : Keyed R s) (h : s.Sound) {t : Files.Tree} {dir : String}
    {summary : ImportSummary} (hok : importFrom s t dir = .ok (summary, s')) : Keyed R s' := by
  have hkeeps : s'.Sound ∧ Keyed R s' := by
    refine importFrom_keeps (P := fun u => u.Sound ∧ Keyed R u) ?_ ?_ hok
    · rintro u u' table line htable ⟨hu, hku⟩ hline
      obtain ⟨x, -, hput⟩ := exists_record htable hline
      exact ⟨Sound.put hu hput, hku.put hrefl hkind hu hput⟩
    · intro keys
      have hdeleted := Sound.applyDeletions h keys
      exact ⟨hdeleted, hk.shrinks h hdeleted (shrinks_applyDeletions s keys)⟩
  exact hkeeps.2

end Related

/-- The edges of a run stand under the keys that they are given with. -/
theorem storeRun (hk : Keyed R s) (h : s.Sound) {owner : Id} {now : Int} {run : Store.Run}
    {counts : Store.RunCounts}
    (hrun : ∀ x ∈ run.edges, R { x with repositoryId := "" } (run.storedEdge "" x))
    (hok : s.storeRun owner now run = .ok (counts, s')) : Keyed R s' := by
  obtain ⟨o⟩ := h.storeRun_outcome hok
  intro e he
  by_cases hown : e.repositoryId = owner
  · obtain ⟨x, hx, hkey, hedge⟩ := edge_of_own o he hown
    rw [hedge]
    exact ⟨{ x with repositoryId := "" }, hkey, hrun x hx⟩
  · obtain ⟨hold, hends⟩ := edge_of_other o h he hown
    rw [hends]
    have hbelow : Shrinks s (withoutOwn s owner) :=
      (shrinks_removeDerived s owner).trans (shrinks_removeFiles _ _)
    exact hk.shrinks h ((h.removeDerived owner).removeFiles _) hbelow e hold

theorem upsertRepositoryAs (hk : Keyed R s) (h : s.Sound) {id : Id} {d : Descriptor}
    {row : RepositoryRow} (hold : s.Old id) (hok : s.upsertRepositoryAs id d = .ok (row, s')) :
    Keyed R s' := by
  have h' := h.upsertRepositoryAs hold hok
  obtain ⟨rows, rfl, hmarks, -⟩ := Store.upsertRepositoryAs_eq_ok h hok
  exact hk.of_agrees h h' { Agrees.refl s with repositories := hmarks } rfl

theorem repositoryId (hk : Keyed R s) (h : s.Sound) (fullName : String) :
    Keyed R (Indexing.repositoryId s fullName).2 := by
  unfold Indexing.repositoryId
  split
  · exact hk
  · exact hk.of_agrees h h.freshId { Agrees.refl s with } rfl

/-- The run of an index names only symbols of its own, so its edges stand under their own keys. -/
theorem index (hrefl : ∀ x, R x x) (hk : Keyed R s) (h : s.Sound) {t : Files.Tree}
    {config : IndexConfig} {d : Descriptor} {listed : Option (List String)} {now : Int}
    {stats : IndexStats} (hok : s.index t config d listed now = .ok (stats, s')) : Keyed R s' := by
  obtain ⟨root, row, s1, counts, hupsert, hstore⟩ := Store.index_stages hok
  obtain ⟨hs, hold⟩ := h.repositoryId d.fullName
  refine ((hk.repositoryId h d.fullName).upsertRepositoryAs hs hold hupsert).storeRun
    (hs.upsertRepositoryAs hold hupsert) (fun x hx => ?_) hstore
  have hown : (Indexing.runOf s t config d root listed now).stored.NamesOwn :=
    Pipeline.run_namesOwn
  rw [Store.Run.storedEdge_eq_self (hown x hx)]
  exact hrefl _

end Keyed

end Sync

namespace Operation

open Sync

/-- The run that an operation stores keeps its edges up to a relation. -/
def StoresUpTo (R : Edge → Edge → Prop) : Operation → Prop
  | storeRun _ _ run | storeRepository _ _ _ run =>
    ∀ x ∈ run.edges, R { x with repositoryId := "" } (run.storedEdge "" x)
  | _ => True

/-- The runs that are given to an operation name only symbols of their own. -/
def NamesOwn : Operation → Prop
  | storeRun _ _ run | storeRepository _ _ _ run => run.NamesOwn
  | _ => True

theorem storesUpTo_trims (op : Operation) : op.StoresUpTo Edge.Trims := by
  have hrun : ∀ (run : Store.Run) (x : Edge),
      Edge.Trims { x with repositoryId := "" } (run.storedEdge "" x) := by
    intro run x
    have hkeep : ∀ key, run.keep key = key ∨ run.keep key = none := by
      intro key
      rw [Store.Run.keep, or_comm]
      cases key with
      | none => exact .inl rfl
      | some k =>
        rw [Option.filter_some]
        split
        · exact .inr rfl
        · exact .inl rfl
    exact ⟨rfl, rfl, rfl, rfl, hkeep _, hkeep _⟩
  cases op with
  | storeRun id now run => exact fun x _ => hrun run x
  | storeRepository d id now run => exact fun x _ => hrun run x
  | _ => trivial

theorem NamesOwn.storesUpTo_eq {op : Operation} (h : op.NamesOwn) : op.StoresUpTo Eq := by
  have hrun : ∀ run : Store.Run, run.NamesOwn →
      ∀ x ∈ run.edges, { x with repositoryId := "" } = run.storedEdge "" x :=
    fun run hown x hx => (Store.Run.storedEdge_eq_self (hown x hx)).symm
  cases op with
  | storeRun id now run => exact hrun run h
  | storeRepository d id now run => exact hrun run h
  | _ => trivial

/-- An operation that succeeds leaves every edge under the key of a related edge. -/
theorem keyed_run {R : Edge → Edge → Prop} (hrefl : ∀ x, R x x)
    (hkind : ∀ x y, R x y → y.kind = x.kind) {s s' : Store} {op : Operation} (h : s.Sound)
    (hk : Keyed R s) (hallowed : op.Allowed s) (hop : op.StoresUpTo R) (hok : op.run s = .ok s') :
    Keyed R s' := by
  have h' := op.sound_run h hallowed hok
  cases op with
  | storeRun repositoryId now run =>
    obtain ⟨⟨counts, t⟩, hrun, rfl⟩ := map_eq_ok.mp hok
    exact hk.storeRun h hop hrun
  | storeRepository d id now run =>
    obtain ⟨out, hrun, rfl⟩ := map_eq_ok.mp hok
    obtain ⟨⟨row, s1⟩, hupsert, hrun⟩ := Store.bind_eq_ok.mp hrun
    obtain ⟨⟨counts, s2⟩, hstore, hrun⟩ := Store.bind_eq_ok.mp hrun
    obtain rfl := Except.ok.inj hrun
    have h1 := h.upsertRepositoryAs hallowed hupsert
    exact (hk.upsertRepositoryAs h hallowed hupsert).storeRun h1 hop hstore
  | index t config d listed now =>
    obtain ⟨⟨stats, t'⟩, hrun, rfl⟩ := map_eq_ok.mp hok
    exact hk.index hrefl h hrun
  | importFrom t dir =>
    obtain ⟨⟨summary, t'⟩, hrun, rfl⟩ := map_eq_ok.mp hok
    exact hk.importFrom hrefl hkind h hrun
  | exportTo t dir force =>
    obtain ⟨⟨done, t'⟩, hrun, rfl⟩ := map_eq_ok.mp hok
    rw [Store.exportTo_store hrun] at h' ⊢
    unfold Snapshot.clear at h' ⊢
    split
    · exact hk
    · exact hk.of_agrees h (h.withPending _ _) { Agrees.refl s with } rfl
  | upsertRepository d =>
    obtain ⟨⟨row, t⟩, hrun, rfl⟩ := map_eq_ok.mp hok
    have hfresh := hk.of_agrees h h.freshId { Agrees.refl s with } rfl
    exact hfresh.upsertRepositoryAs h.freshId (Store.old_freshId s) hrun
  | deleteRepository fullName =>
    obtain rfl := Except.ok.inj hok
    unfold Store.deleteRepository
    split
    · exact hk
    · have hremoved := h.removeRepository fullName
      exact (hk.shrinks h hremoved (shrinks_removeRepository s fullName)).of_agrees hremoved
        (hremoved.withPending _ _) { Agrees.refl _ with } rfl
  | createProject name description now =>
    obtain ⟨p, hrun⟩ := Store.createProject_of_run hok
    obtain ⟨row, -, rfl⟩ := Store.createProject_eq_ok hrun
    refine hk.of_agrees h h' { Agrees.refl s with projects := ?_ } rfl
    rw [List.map_append]
    exact List.subset_append_left _ _
  | addToProject project fullName =>
    obtain ⟨rows, rfl, -⟩ := Store.addToProject_eq_ok hok
    exact hk.of_agrees h h' { Agrees.refl s with } rfl
  | removeFromProject project fullName =>
    obtain ⟨⟨found, t⟩, hrun, rfl⟩ := map_eq_ok.mp hok
    rcases Store.removeFromProject_eq_ok hrun with rfl | ⟨p, r, -, -, rfl⟩
    · exact hk
    · exact hk.of_agrees h h' { Agrees.refl s with } rfl
  | deleteProject name =>
    obtain rfl := Except.ok.inj hok
    unfold Store.deleteProject
    split
    · exact hk
    · have hremoved := h.removeProject name
      exact (hk.shrinks h hremoved (shrinks_removeProject s name)).of_agrees hremoved
        (hremoved.withPending _ _) { Agrees.refl _ with } rfl

end Operation

/-! Histories -/

/-- The stores that operations with a property lead to from an empty store. -/
inductive ReachableBy (P : Operation → Prop) : Store → Prop where
  | empty (origin : Nat) : ReachableBy P (.empty origin)
  | step {s s' : Store} (op : Operation) : ReachableBy P s → op.Allowed s → P op →
      op.run s = .ok s' → ReachableBy P s'

namespace ReachableBy

variable {P : Operation → Prop} {s : Store}

theorem reachable (h : ReachableBy P s) : Reachable s := by
  induction h with
  | empty origin => exact .empty origin
  | step op _ hallowed _ hok ih => exact .step op ih hallowed hok

theorem keyed {R : Edge → Edge → Prop} (hrefl : ∀ x, R x x) (hkind : ∀ x y, R x y → y.kind = x.kind)
    (hP : ∀ op, P op → op.StoresUpTo R) (h : ReachableBy P s) : Sync.Keyed R s := by
  induction h with
  | empty origin => exact fun e he => absurd he List.not_mem_nil
  | step op hs hallowed hop hok ih =>
    exact op.keyed_run hrefl hkind hs.reachable.sound ih hallowed (hP op hop) hok

/-- Where runs name only symbols of their own, no edge has lost an end. -/
theorem ownKeys (h : ReachableBy Operation.NamesOwn s) : Sync.OwnKeys s := by
  have hkeyed := h.keyed (R := Eq) (fun _ => rfl) (fun _ _ hxy => hxy ▸ rfl)
    fun _ hop => hop.storesUpTo_eq
  intro e he
  obtain ⟨x, hkey, rfl⟩ := hkeyed e he
  exact hkey

end ReachableBy

namespace Reachable

variable {s : Store}

theorem reachableBy (h : Reachable s) : ReachableBy (fun _ => True) s := by
  induction h with
  | empty origin => exact .empty origin
  | step op _ hallowed hok ih => exact .step op ih hallowed trivial hok

theorem keyed (h : Reachable s) : Sync.Keyed Edge.Trims s :=
  h.reachableBy.keyed Edge.Trims.refl (fun _ _ hxy => hxy.kind) fun op _ => op.storesUpTo_trims

theorem regular (h : Reachable s) : Sync.Regular s :=
  ⟨h.sound, h.keyed.kinded fun _ _ hxy => hxy.kind⟩

end Reachable

/-- The key of an edge row is that of its edge with the symbol ends that the edge was given with, so
it is the key of the edge as long as none was lost. None is lost where runs name only symbols of
their own. Then the queue of deletions and an export know the edges of a repository by the same
keys, and an import of an edge finds its row. -/
theorem reachable_edge_keys {s : Store} (h : Reachable s) :
    (∀ e ∈ s.edges, ∃ x : Edge, x.key = e.key ∧ x.Trims (s.edgeOf "" e) ∧
      ((s.edgeOf "" e).key = e.key ↔ s.edgeOf "" e = x)) ∧
    (ReachableBy Operation.NamesOwn s →
      (∀ e ∈ s.edges, ∀ owner, (s.edgeOf owner e).key = e.key) ∧
      (∀ r ∈ s.repositories, ∀ key, .edge r.fullName key ∈ s.derivedKeys r ↔
        .edge r.fullName key ∈ (Sync.Snapshot.of s).live) ∧
      ∀ y ∈ Sync.loadEdges s, Sync.upsertEdge s y = .ok s) := by
  refine ⟨fun e he => ?_, fun hnamed => ?_⟩
  · obtain ⟨x, hkey, htrims⟩ := h.keyed e he
    exact ⟨x, hkey, htrims, by rw [← hkey, htrims.key_eq_iff]⟩
  · have hkeys := hnamed.ownKeys
    refine ⟨fun e he owner => hkeys e he, fun r hr key => ?_, fun y hy => ?_⟩
    · have hfound : s.repository? r.fullName = some r := h.sound.repository?_eq_some.mpr ⟨hr, rfl⟩
      have hlive : .edge r.fullName key ∈ (Sync.Snapshot.of s).live ↔
          Sync.Live s (.edge r.fullName key) := by rw [Sync.live_snapshot, List.mem_map, Sync.Live]
      rw [hlive, Sync.live_edge_of_keys h.sound hkeys]
      simp [Store.derivedKeys, hfound, and_assoc]
    · have hmem : .edge y ∈ Sync.records s := by simp [Sync.records, hy]
      obtain ⟨s', hok⟩ :=
        Sync.put_ok h.sound (Sync.intact_edge h.sound hmem) (Sync.live_parents h.sound hmem)
      have hsame := Sync.upsertEdge_self h.sound hkeys hmem hok
      exact hok.trans (congrArg Except.ok hsame)

/-- A file that uses a function which the run does not have. -/
def trimmedRun : Store.Run where
  files := [⟨"a.ts", "f()", .typescript, 3, "", 0⟩, ⟨"b.ts", "", .typescript, 0, "", 0⟩]
  symbols := []
  references := []
  edges := [⟨"", .symbolUsage, some "a.ts", some "b.ts", none, some ⟨"b.ts", "f", 1⟩⟩]

theorem reachable_edge_keys_sample : ∃ s s' : Store, Reachable s ∧ Reachable s' ∧
    s.edges.length = 2 ∧ (∀ e ∈ s.edges, (s.edgeOf "" e).key = e.key) ∧
    (∀ y ∈ Sync.loadEdges s, Sync.upsertEdge s y = .ok s) ∧
    ∃ e ∈ s'.edges, ∃ x : Edge, x.key = e.key ∧ x.Trims (s'.edgeOf "" e) ∧ s'.edgeOf "" e ≠ x := by
  have hown : sampleRun.NamesOwn := by
    intro e he key hkey
    simp only [sampleRun, List.mem_cons, List.not_mem_nil, or_false] at he
    rcases he with rfl | rfl
    · simp [Edge.fileImport] at hkey
    · have hsame : key = ⟨"a.ts", "f", 1⟩ := by simpa [eq_comm] using hkey
      rw [hsame]
      exact List.mem_cons_self
  have hnamed : ReachableBy Operation.NamesOwn _ :=
    .step (.storeRepository (.ofFullName "r" "") (.given "1") 0 sampleRun) (.empty 0)
      (by intro n hn; cases hn) hown rfl
  have htrimmed : Reachable _ :=
    .step (.storeRepository (.ofFullName "r" "") (.given "1") 0 trimmedRun) (.empty 0)
      (by intro n hn; cases hn) rfl
  obtain ⟨hkeys, -, hagain⟩ := (reachable_edge_keys hnamed.reachable).2 hnamed
  obtain ⟨x, hkey, htrims, hsame⟩ := (reachable_edge_keys htrimmed).1 _ List.mem_cons_self
  exact ⟨_, _, hnamed.reachable, htrimmed, rfl, fun e he => hkeys e he "", hagain, _,
    List.mem_cons_self, x, hkey, htrims, hsame.not.mp (by decide)⟩

/-- A row can stand under a key that its edge does not have. The queue of deletions then gets a key
that no export takes for live. -/
theorem edge_key_of_lost_end : ∃ s : Store, Reachable s ∧ ∃ r ∈ s.repositories, ∃ e ∈ s.edges,
    (s.edgeOf r.id.text e).key ≠ e.key ∧ .edge r.fullName e.key ∈ s.derivedKeys r ∧
    .edge r.fullName e.key ∉ (Sync.Snapshot.of s).live := by
  have h : Reachable _ :=
    .step (.storeRepository (.ofFullName "r" "") (.given "1") 0 trimmedRun) (.empty 0)
      (by intro n hn; cases hn) rfl
  refine ⟨_, h, _, List.mem_cons_self, _, List.mem_cons_self, by decide, by decide, ?_⟩
  rw [Sync.live_snapshot, List.mem_map]
  rintro ⟨x, hx, hkey⟩
  cases x with
  | edge y =>
    obtain ⟨e, he, hy⟩ := Sync.mem_records.mp hx
    rw [List.mem_singleton.mp he] at hy
    rw [← Option.some.inj hy] at hkey
    exact absurd hkey (by decide)
  | _ => simp [Sync.Record.key] at hkey

end CodeIndex
