import CodeIndex.Proofs.Sync.Batch
import CodeIndex.Proofs.Sync.Lines
import CodeIndex.Sync.Import

/-!
Reading the tables of an export. Every table carries the records of one kind: its lines are their
encodings, so reading them puts these records one after the other and passes over none.
-/
namespace CodeIndex.Sync

open Files (Tree)

/-- The records of each table of a store. -/
def tableRecords (s : Store) : List (List Record) :=
  [(loadRepositories s).map .repository, (loadFiles s).map .file, (loadSymbols s).map .symbol,
    (loadReferences s).map .reference, (loadEdges s).map .edge, (loadProjects s).map .project,
    (loadMemberships s).map .membership]

theorem flatten_tableRecords (s : Store) : (tableRecords s).flatten = records s := by
  simp [tableRecords, records]

/-- The text of a table of a store. -/
def Table.text (table : Table) (s : Store) : String :=
  Manifest.linesText ((table.dump s).map Prod.snd)

/-- The lines of a table hold the given records. -/
structure Table.Carries (table : Table) (s : Store) (rs : List Record) : Prop where
  keys : (table.dump s).map Prod.fst = rs.map Record.key
  isLine : ∀ line ∈ (table.dump s).map Prod.snd, IsLine line
  apply : List.Forall₂ (fun line r => ∀ t, table.apply t line = Record.put t r)
    ((table.dump s).map Prod.snd) rs

theorem Table.carries_of {α : Type} {codec : Codec α} {load : Store → List α} {key : α → Deletion}
    {upsert : Store → α → Upsert} {s : Store} (name : String) (wrap : α → Record)
    (hkey : ∀ a, (wrap a).key = key a) (hput : ∀ t a, Record.put t (wrap a) = upsert t a)
    (hwrites : ∀ a ∈ load s, codec.Writes a) :
    (Table.of name codec load key upsert).Carries s ((load s).map wrap) := by
  have hlines : ((Table.of name codec load key upsert).dump s).map Prod.snd
      = (load s).map codec.encode := by
    simp [Table.of]
  refine ⟨?_, ?_, ?_⟩
  · simp [Table.of, hkey]
  · intro line hline
    rw [hlines] at hline
    obtain ⟨a, ha, rfl⟩ := List.mem_map.mp hline
    exact (hwrites a ha).isLine
  · rw [hlines, List.forall₂_map_left_iff, List.forall₂_map_right_iff, List.forall₂_same]
    intro a ha t
    simp [Table.of, (hwrites a ha).decode, hput]

/-- Lines that hold records are applied one after the other. -/
theorem applyLines_eq {table : Table} {ls : List (Nat × String)} {rs : List Record}
    (h : List.Forall₂ (fun line r => ∀ t, table.apply t line = Record.put t r)
      (ls.map Prod.snd) rs) {t t' : Store} (hput : rs.foldlM Record.put t = .ok t')
    (done : ImportSummary) :
    applyLines table ls t done = (t', { done with rows := done.rows + rs.length }) := by
  induction ls generalizing rs t done with
  | nil =>
    cases h
    cases hput
    rfl
  | cons l ls ih =>
    obtain ⟨n, line⟩ := l
    obtain ⟨r, rest, hr, hrest, rfl⟩ := List.forall₂_cons_left_iff.mp h
    rw [List.foldlM_cons] at hput
    obtain ⟨t1, hone, hput⟩ := Store.bind_eq_ok.mp hput
    rw [applyLines, hr t, hone]
    simp only [ih hrest hput, List.length_cons]
    congr 2
    omega

theorem pathExists_of_readText {t : Tree} {start : Files.Location} {path text : String}
    (h : t.readText start path = .ok text) : t.pathExists start path = true := by
  unfold Tree.readText Tree.readContent at h
  unfold Tree.pathExists
  cases hl : t.resolve start path with
  | ok l => rfl
  | error f => simp [hl, bind, Except.bind] at h

/-- The tables of a directory are read in turn, and no line is passed over. -/
theorem readTables_eq {t : Tree} {dir : String} {s : Store} {tables : List Table}
    {rs : List (List Record)} (hcarries : List.Forall₂ (fun table r => table.Carries s r) tables rs)
    (hfiles : ∀ table ∈ tables, t.readText [] (dir ++ "/" ++ table.fileName) = .ok (table.text s))
    {u u' : Store} (hput : rs.flatten.foldlM Record.put u = .ok u') (done : ImportSummary) :
    readTables t dir tables u done = .ok (u', { done with
      tables := done.tables ++ tables.map Table.name
      rows := done.rows + rs.flatten.length }) := by
  induction hcarries generalizing u done with
  | nil =>
    cases hput
    simp [readTables]
  | @cons table r tables rs hone hrest ih =>
    rw [List.flatten_cons, List.foldlM_append] at hput
    obtain ⟨u1, hthis, hput⟩ := Store.bind_eq_ok.mp hput
    have hread := hfiles table List.mem_cons_self
    have hlines := hone.apply
    rw [← map_recordLines hone.isLine] at hlines
    rw [readTables]
    simp only [pathExists_of_readText hread, if_true, hread]
    rw [Table.text, applyLines_eq hlines hthis]
    simp only [ih (fun table htable => hfiles table (List.mem_cons_of_mem _ htable)) hput]
    simp [Nat.add_assoc]

end CodeIndex.Sync
