import CodeIndex.Proofs.Files.Directory
import CodeIndex.Proofs.Sync.Reading

/-!
Export directories. An export to a directory in which nothing is in its way leaves one file for
each table and the manifest; an import reads these texts and nothing else.
-/
namespace CodeIndex.Sync

open Files Files.Tree

/-- The names of the files of an export. -/
def exportNames : List String := Table.all.map Table.fileName ++ [Manifest.fileName]

theorem nodup_exportNames : exportNames.Nodup := by decide

theorem isFileName_of_mem {name : String} (h : name ∈ exportNames) : IsFileName name := by
  have hall : ∀ name ∈ exportNames,
      (name ≠ "" ∧ name ≠ "." ∧ name ≠ "..") ∧ '/' ∉ name.toList := by decide
  exact ⟨(hall name h).1, (hall name h).2⟩

theorem fileName_mem {table : Table} (h : table ∈ Table.all) : table.fileName ∈ exportNames :=
  List.mem_append_left _ (List.mem_map_of_mem h)

theorem manifest_mem : Manifest.fileName ∈ exportNames :=
  List.mem_append_right _ (List.mem_singleton_self _)

theorem fileName_ne_manifest {table : Table} (h : table ∈ Table.all) :
    table.fileName ≠ Manifest.fileName :=
  (List.nodup_append.mp nodup_exportNames).2.2 _ (List.mem_map_of_mem h) _
    (List.mem_singleton_self _)

/-- The text of an entry of a directory, if it is a text. -/
def textAt? (t : Tree) (l : Location) (name : String) : Option String :=
  match t.entry? (l ++ [name]) with
  | some (.file (.text text)) => some text
  | _ => none

theorem textAt?_eq_some {t : Tree} {l : Location} {name text : String} :
    textAt? t l name = some text ↔ t.entry? (l ++ [name]) = some (.file (.text text)) := by
  unfold textAt?
  split
  · next old hentry => simp [hentry]
  · next hother => simpa using hother text

/-- A text is left alone only where it is the one to be written. -/
theorem writeChanged_cases (t : Tree) (path text : String) (force : Bool) :
    (writeChanged t path text force = .ok none ∧ t.readText [] path = .ok text) ∨
      writeChanged t path text force = (t.write [] path (.text text)).map some := by
  unfold writeChanged
  cases hread : t.readText [] path with
  | error f => exact .inr rfl
  | ok old =>
    by_cases hsame : (old == text && !force) = true
    · have hold : old = text := by
        rw [Bool.and_eq_true] at hsame
        exact beq_iff_eq.mp hsame.1
      exact .inl ⟨if_pos hsame, by rw [hold]⟩
    · exact .inr (if_neg hsame)

/-- A directory that an export can be written to: its files are texts or missing. -/
structure Ready (t : Tree) (dir : String) (l : Location) : Prop extends t.At dir l where
  entries : ∀ name ∈ exportNames, t.entry? (l ++ [name]) = none ∨ (textAt? t l name).isSome = true

namespace Ready

variable {t : Tree} {dir : String} {l : Location}

theorem free (h : Ready t dir l) {name : String} (hname : name ∈ exportNames) :
    t.entry? (l ++ [name]) = none ∨ ∃ c, t.entry? (l ++ [name]) = some (.file c) := by
  rcases h.entries name hname with hnone | hsome
  · exact .inl hnone
  · obtain ⟨text, htext⟩ := Option.isSome_iff_exists.mp hsome
    exact .inr ⟨.text text, textAt?_eq_some.mp htext⟩

theorem not_link (h : Ready t dir l) {name : String} (hname : name ∈ exportNames)
    (target : String) : t.entry? (l ++ [name]) ≠ some (.link target) := by
  rcases h.free hname with hnone | ⟨c, hc⟩ <;> simp [*]

/-- What is read is the text that is there. -/
theorem readText_eq_ok (h : Ready t dir l) {name text : String} (hname : name ∈ exportNames) :
    t.readText [] (dir ++ "/" ++ name) = .ok text ↔ textAt? t l name = some text := by
  have hfile := isFileName_of_mem hname
  rcases h.entries name hname with hnone | hsome
  · rw [h.readText_missing hfile hnone]
    simp [textAt?, hnone]
  · obtain ⟨old, hold⟩ := Option.isSome_iff_exists.mp hsome
    rw [h.readText_child hfile (textAt?_eq_some.mp hold), hold]
    simp

theorem manifestText_eq (h : Ready t dir l) :
    manifestText t dir = .ok ((textAt? t l Manifest.fileName).getD "") := by
  have hfile := isFileName_of_mem manifest_mem
  unfold manifestText
  dsimp only
  rw [h.pathExists_child hfile (h.not_link manifest_mem)]
  rcases h.entries _ manifest_mem with hnone | hsome
  · simp [hnone, textAt?]
  · obtain ⟨text, htext⟩ := Option.isSome_iff_exists.mp hsome
    have hentry := textAt?_eq_some.mp htext
    rw [h.readText_child hfile hentry, hentry, htext]
    rfl

/-- A text that is written is there afterwards, and the other texts are as before. -/
theorem writeChanged (h : Ready t dir l) {name : String} (hname : name ∈ exportNames)
    (text : String) (force : Bool) :
    ∃ out, Sync.writeChanged t (dir ++ "/" ++ name) text force = .ok out ∧
      Ready (out.getD t) dir l ∧
      ∀ other, textAt? (out.getD t) l other =
        if other = name then some text else textAt? t l other := by
  rcases writeChanged_cases t (dir ++ "/" ++ name) text force with ⟨hskip, hread⟩ | hwrite
  · refine ⟨none, hskip, h, fun other => ?_⟩
    split
    · next heq =>
      subst heq
      exact (h.readText_eq_ok hname).mp hread
    · rfl
  · rw [hwrite]
    have hne : l ++ [name] ≠ [] := by simp
    have htexts : ∀ other, textAt? (t.set (l ++ [name]) (.file (.text text))) l other =
        if other = name then some text else textAt? t l other := by
      intro other
      by_cases hother : other = name
      · rw [if_pos hother, textAt?_eq_some, entry?_set hne, if_pos (by rw [hother])]
      · rw [if_neg hother]
        unfold textAt?
        rw [entry?_set hne, if_neg (by simpa using hother)]
    refine ⟨some (t.set (l ++ [name]) (.file (.text text))), ?_, ⟨h.set (h.free hname), ?_⟩, htexts⟩
    · rw [h.write_child (isFileName_of_mem hname) _ (h.free hname)]
      rfl
    · intro other hother
      rw [Option.getD_some, htexts]
      by_cases heq : other = name
      · simp [heq]
      · rw [if_neg heq, entry?_set hne, if_neg (by simpa using heq)]
        exact h.entries other hother

/-- The tables are written one after the other. -/
theorem writeTables (h : Ready t dir l) {dumps : List Dump} (force : Bool)
    (hnames : ∀ d ∈ dumps, d.fileName ∈ exportNames) (hnodup : (dumps.map Dump.fileName).Nodup)
    (done : ExportSummary) :
    ∃ t' done', Snapshot.writeTables dir force dumps done t = (t', .ok done') ∧ Ready t' dir l ∧
      (∀ d ∈ dumps, textAt? t' l d.fileName = some (Manifest.linesText d.lines)) ∧
      ∀ name, name ∉ dumps.map Dump.fileName → textAt? t' l name = textAt? t l name := by
  induction dumps generalizing t done with
  | nil => exact ⟨t, done, rfl, h, by simp, fun _ _ => rfl⟩
  | cons d rest ih =>
    rw [List.map_cons, List.nodup_cons] at hnodup
    obtain ⟨out, hwrite, hready, htexts⟩ :=
      h.writeChanged (hnames d List.mem_cons_self) (Manifest.linesText d.lines) force
    -- The summary depends on whether the file was written, the tree does not.
    obtain ⟨done1, hstep⟩ : ∃ done1, Snapshot.writeTables dir force (d :: rest) done t =
        Snapshot.writeTables dir force rest done1 (out.getD t) := by
      simp only [Snapshot.writeTables, hwrite]
      cases out with
      | none => exact ⟨_, rfl⟩
      | some t1 => exact ⟨_, rfl⟩
    obtain ⟨t', done', hrest, hready', hlines, hother⟩ :=
      ih hready (fun x hx => hnames x (List.mem_cons_of_mem _ hx)) hnodup.2 done1
    refine ⟨t', done', hstep.trans hrest, hready', ?_, ?_⟩
    · intro x hx
      rcases List.mem_cons.mp hx with rfl | hx
      · rw [hother _ hnodup.1, htexts, if_pos rfl]
      · exact hlines x hx
    · intro name hname
      rw [List.map_cons, List.mem_cons, not_or] at hname
      rw [hother name hname.2, htexts, if_neg hname.1]

end Ready

/-- A directory that holds the tables of a store and a manifest of keys. -/
structure Exported (t : Tree) (dir : String) (l : Location) (s : Store) (keys : List Deletion) :
    Prop extends Ready t dir l where
  tables : ∀ table ∈ Table.all, textAt? t l table.fileName = some (table.text s)
  manifest : textAt? t l Manifest.fileName = some (Manifest.text keys)

theorem live_snapshot (s : Store) : (Snapshot.of s).live = (records s).map Record.key := by
  simp only [Snapshot.of, Table.all, Table.of, records, List.flatMap_map, List.flatMap_cons,
    List.flatMap_nil, List.append_nil, List.map_append, List.map_map, List.append_assoc]
  rfl

theorem mem_live_snapshot {s : Store} {k : Deletion} : k ∈ (Snapshot.of s).live ↔ Live s k := by
  rw [live_snapshot, List.mem_map]
  rfl

/-- The manifest after an export of a store to a directory whose manifest had the given text. -/
@[irreducible]
def manifestKeys (previous : String) (s : Store) : List Deletion :=
  Manifest.merge (Manifest.ofText previous).1 (s.pending.map Pending.key)
    ((records s).map Record.key)

/-- What an export merges into the manifest that it has read. -/
theorem merge_snapshot {previous : String} {s : Store} :
    Manifest.merge (Manifest.ofText previous).1 (Snapshot.of s).waiting (Snapshot.of s).live =
      manifestKeys previous s := by
  simp only [manifestKeys, live_snapshot]
  rfl

theorem mem_manifestKeys {previous : String} {s : Store} {k : Deletion} :
    k ∈ manifestKeys previous s ↔
      (k ∈ (Manifest.ofText previous).1 ∨ k ∈ s.pending.map Pending.key) ∧ ¬Live s k := by
  simp [manifestKeys, Manifest.merge, Live, or_and_right]

/-- The keys that the manifest of a directory holds after an export of the store. -/
def exportedKeys (t : Tree) (l : Location) (s : Store) : List Deletion :=
  Manifest.merge (Manifest.ofText ((textAt? t l Manifest.fileName).getD "")).1
    (s.pending.map Pending.key) ((records s).map Record.key)

theorem exportedKeys_eq {t : Tree} {l : Location} {s : Store} :
    exportedKeys t l s = manifestKeys ((textAt? t l Manifest.fileName).getD "") s := by
  rw [exportedKeys, manifestKeys]

theorem fileName_snapshot (s : Store) :
    (Snapshot.of s).tables.map Dump.fileName = Table.all.map Table.fileName := rfl

theorem fileName_mem_of_snapshot {s : Store} {d : Dump} (h : d ∈ (Snapshot.of s).tables) :
    d.fileName ∈ exportNames := by
  apply List.mem_append_left
  rw [← fileName_snapshot s]
  exact List.mem_map_of_mem h

theorem nodup_snapshot (s : Store) : ((Snapshot.of s).tables.map Dump.fileName).Nodup := by
  rw [fileName_snapshot]
  exact (List.nodup_append.mp nodup_exportNames).1

theorem mem_snapshot {s : Store} {table : Table} (h : table ∈ Table.all) :
    ⟨table.name, (table.dump s).map Prod.snd⟩ ∈ (Snapshot.of s).tables := by
  simp only [Snapshot.of, List.map_map]
  exact List.mem_map.mpr ⟨table, h, rfl⟩

theorem writeManifest_ready {t : Tree} {dir : String} {l : Location} (h : Ready t dir l)
    (s : Store) (force : Bool) :
    ∃ t', (Snapshot.of s).writeManifest dir force t = .ok (t', (exportedKeys t l s).length) ∧
      Ready t' dir l ∧
      ∀ name, textAt? t' l name =
        if name = Manifest.fileName then some (Manifest.text (exportedKeys t l s))
        else textAt? t l name := by
  obtain ⟨out, hwrite, hready, htexts⟩ :=
    h.writeChanged manifest_mem (Manifest.text (exportedKeys t l s)) force
  refine ⟨out.getD t, ?_, hready, htexts⟩
  unfold Snapshot.writeManifest
  rw [h.manifestText_eq]
  simp only [bind, Except.bind, merge_snapshot, ← exportedKeys_eq, hwrite]
  cases out with
  | none => rfl
  | some t1 => rfl

/-- An export succeeds where nothing is in its way. -/
theorem exportTo_ready {t : Tree} {dir : String} {l : Location} (h : Ready t dir l) (s : Store)
    (force : Bool) :
    ∃ t' done, exportTo s t dir force = (t', .ok (done, (Snapshot.of s).clear s)) ∧
      Exported t' dir l s (exportedKeys t l s) := by
  obtain ⟨t1, done1, hwrite, hready, hlines, hother⟩ :=
    h.writeTables force (fun _ => fileName_mem_of_snapshot) (nodup_snapshot s) {}
  have hmanifest : Manifest.fileName ∉ (Snapshot.of s).tables.map Dump.fileName := by
    rw [fileName_snapshot]
    intro hmem
    obtain ⟨table, htable, hname⟩ := List.mem_map.mp hmem
    exact fileName_ne_manifest htable hname
  have hkeys : exportedKeys t1 l s = exportedKeys t l s := by
    unfold exportedKeys
    rw [hother _ hmanifest]
  obtain ⟨t2, hwrite2, hready2, htexts2⟩ := writeManifest_ready hready s force
  rw [hkeys] at hwrite2 htexts2
  refine ⟨t2, { done1 with deletions := (exportedKeys t l s).length }, ?_, hready2, ?_, ?_⟩
  · simp only [exportTo, h.makeDirectories, Snapshot.write, hwrite, hwrite2]
  · intro table htable
    rw [htexts2, if_neg (fileName_ne_manifest htable)]
    exact hlines _ (mem_snapshot htable)
  · rw [htexts2, if_pos rfl]

/-- All records and keys of a store can be written. -/
def Written (s : Store) : Prop :=
  List.Forall₂ (fun table rs => table.Carries s rs) Table.all (tableRecords s)

/-- An import applies the keys of the manifest and then puts the records of the tables. -/
theorem importFrom_exported {t : Tree} {dir : String} {l : Location} {s : Store}
    {keys : List Deletion} (h : Exported t dir l s keys) (hs : Written s)
    (hkeys : ∀ k ∈ keys, k.Fits) {u u' : Store}
    (hput : (records s).foldlM Record.put (applyDeletions u keys).1 = .ok u') :
    ∃ done, importFrom u t dir = .ok (done, u') ∧ done.skipped = [] := by
  have hfiles : ∀ table ∈ Table.all,
      t.readText [] (dir ++ "/" ++ table.fileName) = .ok (table.text s) :=
    fun table htable => (h.readText_eq_ok (fileName_mem htable)).mpr (h.tables table htable)
  rw [← flatten_tableRecords] at hput
  have htables := readTables_eq hs hfiles hput
    { deleted := (applyDeletions u keys).2, skipped := [] }
  unfold importFrom
  rw [if_pos h.isDirectory, h.manifestText_eq, h.manifest]
  simp only [bind, Except.bind, Option.getD_some, Manifest.ofText_text hkeys, htables]
  exact ⟨_, rfl, rfl⟩

end CodeIndex.Sync
