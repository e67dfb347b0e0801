import CodeIndex.Proofs.Sync.Exporting
import CodeIndex.Proofs.Sync.RoundTrip

/-!
The texts of an export depend on the records of a store alone. Each table is sorted by its natural
keys, and no two records have one key, so there is one order only: neither the ids of the rows nor
the order in which they came show in what is written. A store that an export was brought to is
therefore exported to the same texts.
-/
namespace CodeIndex.Sync

open Files Files.Tree

/-! Sorted lists with the same elements -/

/-- Sorted lists are equal if they have the same elements and the order tells the elements apart. -/
theorem eq_of_sorted {α κ : Type} (cmp : α → α → Ordering) [Std.TransCmp cmp] {key : α → κ}
    {l l' : List α} (hperm : l.Perm l') (hl : l.Pairwise fun a b => (cmp a b).isLE = true)
    (hl' : l'.Pairwise fun a b => (cmp a b).isLE = true) (hkeys : (l.map key).Nodup)
    (hplace : ∀ a b, cmp a b = .eq → key a = key b) : l = l' := by
  refine hperm.eq_of_pairwise ?_ hl hl'
  intro a b ha hb hab hba
  exact Store.eq_of_key hkeys ha (hperm.mem_iff.mpr hb)
    (hplace a b (Std.OrientedCmp.isLE_antisymm hab hba))

/-! The orders of the tables -/

def compareFiles (a b : FileRecord) : Ordering :=
  (compare a.repository b.repository).then (compare a.path b.path)

def compareEdges (a b : EdgeRecord) : Ordering :=
  (compare a.repository b.repository).then (compare a.edge.key b.edge.key)

def compareMemberships (a b : MembershipRecord) : Ordering :=
  (compare a.project b.project).then (compare a.repository b.repository)

instance : Std.TransCmp compareFiles :=
  inferInstanceAs (Std.TransCmp (compareLex (compareOn FileRecord.repository)
    (compareOn FileRecord.path)))

instance : Std.TransCmp compareSymbolRecords :=
  inferInstanceAs (Std.TransCmp (compareLex (compareOn SymbolRecord.repository)
    (compareLex (compareOn SymbolRecord.filePath)
      (compareLex (compareOn SymbolRecord.lineStart) (compareOn SymbolRecord.name)))))

instance : Std.TransCmp compareReferenceRecords :=
  inferInstanceAs (Std.TransCmp (compareLex (compareOn ReferenceRecord.repository)
    (compareLex (compareOn ReferenceRecord.filePath)
      (compareLex (compareOn ReferenceRecord.line)
        (compareLex (compareOn ReferenceRecord.column)
          (compareLex (compareOn fun r : ReferenceRecord => r.kind.name)
            (compareOn ReferenceRecord.name)))))))

instance : Std.TransCmp compareEdges :=
  inferInstanceAs (Std.TransCmp (compareLex (compareOn EdgeRecord.repository)
    (compareOn fun e : EdgeRecord => e.edge.key)))

instance : Std.TransCmp compareMemberships :=
  inferInstanceAs (Std.TransCmp (compareLex (compareOn MembershipRecord.project)
    (compareOn MembershipRecord.repository)))

/-- The rows of the edge table are sorted by their own keys, which are those of their edges. -/
theorem loadEdges_sorted {s : Store} (hs : Faithful s) :
    (loadEdges s).Pairwise fun a b => (compareEdges a b).isLE = true := by
  unfold loadEdges
  rw [List.pairwise_map]
  refine List.Pairwise.imp_of_mem ?_ (pairwise_mergeSort (compareLex (compareOn Prod.fst)
    (compareOn fun x : String × EdgeRow => x.2.key)) _)
  intro a b ha hb hle
  have hrow : ∀ x ∈ s.edges.filterMap fun e => (ownerOf s e.repositoryId).map fun r => (r, e),
      x.2 ∈ s.edges := by
    intro x hx
    obtain ⟨e, he, hx⟩ := List.mem_filterMap.mp hx
    obtain ⟨r, -, rfl⟩ := Option.map_eq_some_iff.mp hx
    exact he
  have hkey : ∀ x : String × EdgeRow, x.2 ∈ s.edges → x.2.key = (s.edgeOf "" x.2).key :=
    fun x hx => (hs.edge_keys x.2 hx).symm
  simp only [compareLex, compareOn] at hle
  rw [hkey a (hrow a (List.mem_mergeSort.mp ha)), hkey b (hrow b (List.mem_mergeSort.mp hb))] at hle
  exact hle

theorem loadRepositories_eq (s : Store) : loadRepositories s =
    (s.repositories.map repositoryRecord).mergeSort fun a b =>
      (compareOn RepositoryRecord.fullName a b).isLE :=
  List.map_mergeSort fun _ _ _ _ => rfl

/-! Stores with the same records -/

namespace SameRecords

variable {s u : Store} (h : SameRecords s u) (hs : Faithful s) (hu : Faithful u)
include h hs hu

theorem loadRepositories : Sync.loadRepositories u = Sync.loadRepositories s := by
  have hnodup : ∀ {t : Store}, Faithful t →
      ((Sync.loadRepositories t).map RepositoryRecord.fullName).Nodup := by
    intro t ht
    rw [((loadRepositories_perm t).map _).nodup_iff, List.map_map]
    exact ht.repository_names
  have hsorted : ∀ t, (Sync.loadRepositories t).Pairwise fun a b =>
      (compareOn RepositoryRecord.fullName a b).isLE = true := by
    intro t
    rw [loadRepositories_eq]
    exact pairwise_mergeSort _ _
  have hperm := h.table Sync.loadRepositories .repository (fun t a => by simp [records]) (hnodup hs)
    (hnodup hu)
  exact (eq_of_sorted (compareOn RepositoryRecord.fullName) hperm (hsorted s) (hsorted u)
    (hnodup hs) fun _ _ => Std.compare_eq_iff_eq.mp).symm

theorem loadFiles : Sync.loadFiles u = Sync.loadFiles s := by
  refine (eq_of_sorted compareFiles (h.files hs hu) (pairwise_mergeSort _ _)
    (pairwise_mergeSort _ _) (nodup_fileKeys hs) ?_).symm
  intro a b heq
  simp only [compareFiles, Ordering.then_eq_eq, Std.compare_eq_iff_eq] at heq
  simp [Record.key, heq]

theorem loadSymbolTable : Sync.loadSymbols u = Sync.loadSymbols s := by
  refine (eq_of_sorted compareSymbolRecords (h.symbols hs hu) (pairwise_mergeSort _ _)
    (pairwise_mergeSort _ _) (nodup_symbolKeys hs) ?_).symm
  intro a b heq
  simp only [compareSymbolRecords, Ordering.then_eq_eq, Std.compare_eq_iff_eq] at heq
  simp [Record.key, heq]

theorem loadReferenceTable : Sync.loadReferences u = Sync.loadReferences s := by
  refine (eq_of_sorted compareReferenceRecords (h.references hs hu) (pairwise_mergeSort _ _)
    (pairwise_mergeSort _ _) (nodup_referenceKeys hs) ?_).symm
  intro a b heq
  simp only [compareReferenceRecords, Ordering.then_eq_eq, Std.compare_eq_iff_eq] at heq
  simp [Record.key, heq]

theorem loadEdgeTable : Sync.loadEdges u = Sync.loadEdges s := by
  refine (eq_of_sorted compareEdges (h.edges hs hu) (loadEdges_sorted hs) (loadEdges_sorted hu)
    (nodup_edgeKeys hs) ?_).symm
  intro a b heq
  simp only [compareEdges, Ordering.then_eq_eq, Std.compare_eq_iff_eq] at heq
  simp [Record.key, heq]

theorem loadMemberships : Sync.loadMemberships u = Sync.loadMemberships s := by
  refine (eq_of_sorted compareMemberships (h.memberships hs hu) (pairwise_mergeSort _ _)
    (pairwise_mergeSort _ _) (nodup_membershipKeys hs) ?_).symm
  intro a b heq
  simp only [compareMemberships, Ordering.then_eq_eq, Std.compare_eq_iff_eq] at heq
  simp [Record.key, heq]

/-- The texts of all tables are the same. -/
theorem text : ∀ table ∈ Table.all, table.text u = table.text s := by
  intro table htable
  simp only [Table.all, List.mem_cons, List.not_mem_nil, or_false] at htable
  rcases htable with rfl | rfl | rfl | rfl | rfl | rfl | rfl
  · simp only [Table.text, Table.of, h.loadRepositories hs hu]
  · simp only [Table.text, Table.of, h.loadFiles hs hu]
  · simp only [Table.text, Table.of, h.loadSymbolTable hs hu]
  · simp only [Table.text, Table.of, h.loadReferenceTable hs hu]
  · simp only [Table.text, Table.of, h.loadEdgeTable hs hu]
  · simp only [Table.text, Table.of, h.loadProjects hs hu]
  · simp only [Table.text, Table.of, h.loadMemberships hs hu]

end SameRecords

/-! Exports of the same records -/

/-- Two directories hold the same texts of all tables. -/
def SameTables (t : Tree) (dir : String) (w : Tree) (dir' : String) : Prop :=
  ∀ table ∈ Table.all, ∃ text, t.readText [] (dir ++ "/" ++ table.fileName) = .ok text ∧
    w.readText [] (dir' ++ "/" ++ table.fileName) = .ok text

/-- What an export to a ready directory leaves there. -/
theorem Exported.readText {t : Tree} {dir : String} {l : Location} {s : Store}
    {keys : List Deletion} (h : Exported t dir l s keys) :
    ∀ table ∈ Table.all, t.readText [] (dir ++ "/" ++ table.fileName) = .ok (table.text s) :=
  fun table htable => (h.readText_eq_ok (fileName_mem htable)).mpr (h.tables table htable)

/-- Stores with the same records are exported to the same texts, whatever their rows have for ids,
in whatever order they came and whatever the directories held before, as long as the names of the
files lead to different files. When a store is exported and an empty store imports it, the latter is
exported to the same texts again. -/
theorem exportTo_canonical {s u : Store} (hs : Reached s) (hu : Reached u) :
    (SameRecords s u →
      (∀ table ∈ Table.all, table.text u = table.text s) ∧
      ∀ (t t' w w' : Tree) (dir dir' : String) (force force' : Bool) (done done' : ExportSummary)
        (s' u' : Store), t.WellFormed → w.WellFormed →
        exportTo s t dir force = (t', .ok (done, s')) →
        exportTo u w dir' force' = (w', .ok (done', u')) →
        Apart t' dir → Apart w' dir' → SameTables t' dir w' dir') ∧
    (records u = [] →
      ∀ (t w : Tree) (dir dir' : String) (l l' : Location) (force force' : Bool),
        Ready t dir l → Ready w dir' l' →
        ∃ t' done s', exportTo s t dir force = (t', .ok (done, s')) ∧
          ∃ summary u', importFrom u t' dir = .ok (summary, u') ∧
            ∃ w' done' u'', exportTo u' w dir' force' = (w', .ok (done', u'')) ∧
              SameTables t' dir w' dir') := by
  constructor
  · intro hsame
    have htext := hsame.text hs.exportable.faithful hu.exportable.faithful
    refine ⟨htext, ?_⟩
    intro t t' w w' dir dir' force force' done done' s' u' ht hw hexport hexport' hapart hapart'
    obtain ⟨⟨x⟩, -⟩ := exportTo_stages hexport
    obtain ⟨⟨y⟩, -⟩ := exportTo_stages hexport'
    intro table htable
    refine ⟨_, (x.holds ht hapart).tables table htable, ?_⟩
    rw [← htext table htable]
    exact (y.holds hw hapart').tables table htable
  · intro hfresh t w dir dir' l l' force force' ht hw
    obtain ⟨t', done, hexport, hexported⟩ := exportTo_ready ht s force
    have hfits : ∀ k ∈ exportedKeys t l s, k.Fits := by
      rw [exportedKeys_eq]
      exact fits_manifestKeys hs.exportable.inRange.pending
    obtain ⟨summary, u', himport, -, hu', -⟩ :=
      importFrom_records hexported hs.exportable hfits hu.exportable.faithful
    have hsame :=
      importFrom_fresh hexported hs.exportable hfits hu.exportable.faithful hfresh himport
    obtain ⟨w', done', hexport', hexported'⟩ := exportTo_ready hw u' force'
    refine ⟨t', done, _, hexport, summary, u', himport, w', done', _, hexport', ?_⟩
    intro table htable
    refine ⟨_, hexported.readText table htable, ?_⟩
    rw [← hsame.text hs.exportable.faithful hu' table htable]
    exact hexported'.readText table htable

/-- A store in which two projects were created one after the other. -/
def twoProjects (origin : Nat) (first second : String) : Store :=
  { Store.empty origin with
    nextSerial := 2
    projects := [⟨.made origin 0, first, none, 0⟩, ⟨.made origin 1, second, none, 0⟩] }

theorem sameRecords_twoProjects : SameRecords (twoProjects 0 "p" "q") (twoProjects 1 "q" "p") := by
  intro x
  rw [mem_records, mem_records]
  cases x with
  | project y => simp [twoProjects, projectRecord, or_comm]
  | _ => simp [twoProjects, Store.empty]

/-- Two stores made the same projects in another order and under other ids. -/
theorem exportTo_canonical_sample : ∃ s u : Store, Reached s ∧ Reached u ∧
    s.projects ≠ u.projects ∧ SameRecords s u ∧
    (∃ t' done s' w' done' u', exportTo s (.empty "/w") "/w" false = (t', .ok (done, s')) ∧
      exportTo u (.empty "/w") "/w" true = (w', .ok (done', u')) ∧
      SameTables t' "/w" w' "/w") ∧
    ∃ t' done s', exportTo s (.empty "/w") "/w" false = (t', .ok (done, s')) ∧
      ∃ summary v, importFrom (.empty 2) t' "/w" = .ok (summary, v) ∧
        ∃ w' done' v', exportTo v (.empty "/w") "/w" false = (w', .ok (done', v')) ∧
          SameTables t' "/w" w' "/w" := by
  have hs : Reached (twoProjects 0 "p" "q") :=
    .step (.createProject "q" none 0)
      (.step (.createProject "p" none 0) (.empty 0) (.inl ⟨by decide, by decide⟩) rfl)
      (.inl ⟨by decide, by decide⟩) rfl
  have hu : Reached (twoProjects 1 "q" "p") :=
    .step (.createProject "p" none 0)
      (.step (.createProject "q" none 0) (.empty 1) (.inl ⟨by decide, by decide⟩) rfl)
      (.inl ⟨by decide, by decide⟩) rfl
  have hfree := freshAt_sample.ready
  refine ⟨_, _, hs, hu, by decide, sameRecords_twoProjects, ?_, ?_⟩
  · obtain ⟨t', done, hexport, hexported⟩ := exportTo_ready hfree (twoProjects 0 "p" "q") false
    obtain ⟨w', done', hexport', hexported'⟩ := exportTo_ready hfree (twoProjects 1 "q" "p") true
    exact ⟨t', done, _, w', done', _, hexport, hexport',
      ((exportTo_canonical hs hu).1 sameRecords_twoProjects).2 _ _ _ _ _ _ _ _ _ _ _ _
        hfree.wellFormed hfree.wellFormed hexport hexport' hexported.apart hexported'.apart⟩
  · exact (exportTo_canonical hs (.empty 2)).2 (records_empty 2) _ _ _ _ _ _ false false hfree hfree

end CodeIndex.Sync
