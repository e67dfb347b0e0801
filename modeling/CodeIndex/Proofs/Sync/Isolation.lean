import CodeIndex.Proofs.Operation
import CodeIndex.Proofs.Sync.Reading
import CodeIndex.Proofs.Sync.Tables

/-!
Lines that hold no record that a store can take. An import passes over each of them and reports it.
A refused record changes nothing, so what follows is read as if its line were not there, and the
same directory without the reported lines leaves the same store.
-/
namespace CodeIndex.Sync

open Files (Tree)

/-! The lines of a text -/

/-- A line that is not blank stands in a text; lines are counted from one, blank ones too. -/
def StandsAt (text : String) (n : Nat) (line : String) : Prop :=
  0 < n ∧ (Text.Pieces.lines text)[n - 1]? = some line ∧ Text.Blank.isBlankText line = false

theorem StandsAt.unique {text line line' : String} {n : Nat} (h : StandsAt text n line)
    (h' : StandsAt text n line') : line = line' :=
  Option.some.inj (h.2.1.symm.trans h'.2.1)

/-- The lines of a text without those of certain numbers. -/
def keptLines (dropped : Nat → Bool) (text : String) : List String :=
  (((Text.Pieces.lines text).zipIdx 1).filter fun l => !dropped l.2).map Prod.fst

theorem recordLines_eq (text : String) :
    recordLines text = (((Text.Pieces.lines text).zipIdx 1).filter fun l =>
      !Text.Blank.isBlankText l.1).map Prod.swap := by
  rw [recordLines, ← List.filterMap_eq_map, List.filterMap_filter]
  refine List.filterMap_congr fun l _ => ?_
  dsimp only
  cases Text.Blank.isBlankText l.1 <;> rfl

theorem mem_recordLines {text line : String} {n : Nat} :
    (n, line) ∈ recordLines text ↔ StandsAt text n line := by
  rw [recordLines_eq, List.mem_map]
  simp [StandsAt, List.mk_mem_zipIdx_iff_le_and_getElem?_sub, Nat.succ_le_iff, and_assoc]

theorem nodup_recordLines (text : String) : ((recordLines text).map Prod.fst).Nodup := by
  rw [recordLines_eq, List.map_map]
  have hnumbers : (((Text.Pieces.lines text).zipIdx 1).map Prod.snd).Nodup := by
    rw [List.zipIdx_map_snd]
    exact List.nodup_range'
  exact hnumbers.sublist (List.filter_sublist.map _)

theorem map_snd_recordLines (text : String) :
    (recordLines text).map Prod.snd =
      (Text.Pieces.lines text).filter fun line => !Text.Blank.isBlankText line := by
  conv_rhs => rw [← List.zipIdx_map_fst 1 (Text.Pieces.lines text), List.filter_map]
  rw [recordLines_eq, List.map_map]
  rfl

theorem length_recordLines (text : String) : (recordLines text).length =
    ((Text.Pieces.lines text).filter fun line => !Text.Blank.isBlankText line).length := by
  rw [← map_snd_recordLines, List.length_map]

theorem map_snd_recordLines_of_kept {text text' : String} {dropped : Nat → Bool}
    (h : Text.Pieces.lines text' = keptLines dropped text) :
    (recordLines text').map Prod.snd =
      ((recordLines text).filter fun l => !dropped l.1).map Prod.snd := by
  rw [map_snd_recordLines, h, keptLines, recordLines_eq, List.filter_map, List.filter_map,
    List.map_map, List.filter_filter, List.filter_filter]
  congr 1
  exact List.filter_congr fun l _ => Bool.and_comm _ _

/-! Lines that are passed over -/

variable {s s' : Store} {t t' : Tree} {dir : String} {table : Table} {tables : List Table}

/-- Why the record of a line cannot be put into a store. -/
inductive Fault (s : Store) (table line : String) : Rejection → Prop
  | unreadable {f : Json.Fault} : Record.decode table line = .error f →
      Fault s table line (.unreadable f)
  | hashMismatch {f : FileRecord} : Record.decode table line = .ok (.file f) →
      Digest.Sha256.hex f.content ≠ f.contentHash → Fault s table line (.hashMismatch f.path)
  | openEdge {e : EdgeRecord} : Record.decode table line = .ok (.edge e) →
      e.edge.isWellFormed = false → Fault s table line .openEdge
  | missing {r : Record} {parent : Deletion} {reason : Rejection} :
      Record.decode table line = .ok r → (parent, reason) ∈ r.needs → ¬Live s parent →
      Fault s table line reason

theorem Record.ne_edge_of_mem_needs {r : Record} {n : Deletion × Rejection} (hn : n ∈ r.needs)
    (repo key : String) : n.1 ≠ .edge repo key :=
  Record.ne_edge_of_mem_parents (r.needs_subset_parents (List.mem_map_of_mem hn)) repo key

theorem fault_of_flaw? {r : Record} {line : String} {reason : Rejection}
    (hdecode : Record.decode table.name line = .ok r) (h : r.flaw? = some reason) :
    Fault s table.name line reason := by
  cases r with
  | file f =>
    simp only [Record.flaw?] at h
    split at h
    · simp at h
    · next hhash =>
      obtain rfl := Option.some.inj h
      exact .hashMismatch hdecode hhash
  | edge e =>
    simp only [Record.flaw?] at h
    split at h
    · simp at h
    · next hopen =>
      obtain rfl := Option.some.inj h
      exact .openEdge hdecode (Bool.not_eq_true _ ▸ hopen)
  | _ => simp [Record.flaw?] at h

/-- A line that a store does not take has a fault. -/
theorem Table.fault_of_apply (htable : table ∈ Table.all) (h : s.Sound) {line : String}
    {reason : Rejection} (happly : table.apply s line = .error reason) :
    Fault s table.name line reason := by
  have hreason := (Table.apply_failsFor htable h line reason).mp happly
  rw [Content.reason?] at hreason
  split at hreason
  · next r hdecode =>
    rcases Option.or_eq_some_iff.mp hreason with hflaw | ⟨-, hmissing⟩
    · exact fault_of_flaw? hdecode hflaw
    · obtain ⟨n, hfound, rfl⟩ := Option.map_eq_some_iff.mp hmissing
      have hn := List.mem_of_find?_eq_some hfound
      refine .missing hdecode hn fun hlive => ?_
      obtain ⟨x, hx⟩ := (live_iff_content h (Record.ne_edge_of_mem_needs hn)).mp hlive
      simpa [hx] using List.find?_some hfound
  · next f hdecode =>
    obtain rfl := Option.some.inj hreason
    exact .unreadable hdecode

/-! The lines of a table -/

/-- What lines of a table leave of a store, and what is reported of them. -/
def Table.read (table : Table) (lines : List (Nat × String)) (s : Store) : Store × ImportSummary :=
  applyLines table lines s {}

/-- What was reported before does not count while lines are read. -/
theorem applyLines_eq_read (table : Table) (lines : List (Nat × String)) (s : Store)
    (done : ImportSummary) :
    applyLines table lines s done = ((table.read lines s).1, { done with
      rows := done.rows + (table.read lines s).2.rows
      skipped := done.skipped ++ (table.read lines s).2.skipped }) := by
  induction lines generalizing s done with
  | nil => simp [Table.read, applyLines]
  | cons l rest ih =>
    obtain ⟨n, line⟩ := l
    rw [Table.read, applyLines, applyLines]
    cases table.apply s line with
    | ok s1 =>
      dsimp only
      rw [ih s1 { done with rows := done.rows + 1 }, ih s1 { rows := 0 + 1 }]
      simp [Nat.add_assoc]
    | error reason =>
      dsimp only
      rw [ih s { done with skipped := done.skipped ++ [⟨table.name, n, reason⟩] },
        ih s { skipped := [] ++ [⟨table.name, n, reason⟩] }]
      simp [List.append_assoc]

section Read

variable {n : Nat} {line : String} {rest : List (Nat × String)}

@[simp] theorem Table.read_nil : table.read [] s = (s, {}) := rfl

theorem Table.read_cons_ok (h : table.apply s line = .ok s') :
    table.read ((n, line) :: rest) s = ((table.read rest s').1,
      { rows := (table.read rest s').2.rows + 1, skipped := (table.read rest s').2.skipped }) := by
  rw [read, applyLines, h]
  dsimp only
  rw [applyLines_eq_read, Nat.zero_add, Nat.add_comm, List.nil_append]

theorem Table.read_cons_error {reason : Rejection} (h : table.apply s line = .error reason) :
    table.read ((n, line) :: rest) s = ((table.read rest s).1,
      { rows := (table.read rest s).2.rows
        skipped := ⟨table.name, n, reason⟩ :: (table.read rest s).2.skipped }) := by
  rw [read, applyLines, h]
  dsimp only
  rw [applyLines_eq_read, Nat.zero_add, List.nil_append, List.singleton_append]

end Read

/-- Every line is counted once, as a row or as a line that was passed over. -/
theorem Table.rows_add_skipped (table : Table) (lines : List (Nat × String)) (s : Store) :
    (table.read lines s).2.rows + (table.read lines s).2.skipped.length = lines.length := by
  induction lines generalizing s with
  | nil => rfl
  | cons l rest ih =>
    obtain ⟨n, line⟩ := l
    cases hline : table.apply s line with
    | ok s1 =>
      have hrest := ih s1
      simp only [read_cons_ok hline, List.length_cons]
      omega
    | error reason =>
      have hrest := ih s
      simp only [read_cons_error hline, List.length_cons]
      omega

/-- A line is passed over when the store that it meets does not take it. -/
theorem Table.exists_of_mem_skipped {lines : List (Nat × String)} {x : Skipped}
    (hx : x ∈ (table.read lines s).2.skipped) : x.table = table.name ∧ ∃ before line after,
      lines = before ++ (x.line, line) :: after ∧
        table.apply (table.read before s).1 line = .error x.reason := by
  induction lines generalizing s with
  | nil => simp at hx
  | cons l rest ih =>
    obtain ⟨n, line⟩ := l
    cases hline : table.apply s line with
    | ok s1 =>
      rw [read_cons_ok hline] at hx
      obtain ⟨hname, before, bad, after, rfl, happly⟩ := ih hx
      refine ⟨hname, (n, line) :: before, bad, after, rfl, ?_⟩
      rw [read_cons_ok hline]
      exact happly
    | error reason =>
      rw [read_cons_error hline] at hx
      rcases List.mem_cons.mp hx with rfl | hx
      · exact ⟨rfl, [], line, rest, rfl, hline⟩
      · obtain ⟨hname, before, bad, after, rfl, happly⟩ := ih hx
        refine ⟨hname, (n, line) :: before, bad, after, rfl, ?_⟩
        rw [read_cons_error hline]
        exact happly

/-- The numbers of the lines that are passed over. -/
def Table.skippedLines (table : Table) (lines : List (Nat × String)) (s : Store) : List Nat :=
  (table.read lines s).2.skipped.map Skipped.line

theorem Table.skippedLines_subset (table : Table) (lines : List (Nat × String)) (s : Store) :
    table.skippedLines lines s ⊆ lines.map Prod.fst := by
  intro n hn
  obtain ⟨x, hx, rfl⟩ := List.mem_map.mp hn
  obtain ⟨-, before, line, after, rfl, -⟩ := exists_of_mem_skipped hx
  simp

/-- Lines that are passed over could as well be missing. -/
theorem Table.read_of_kept {lines lines' : List (Nat × String)}
    (hnumbers : (lines.map Prod.fst).Nodup)
    (hkept : lines'.map Prod.snd =
      (lines.filter fun l => l.1 ∉ table.skippedLines lines s).map Prod.snd) :
    table.read lines' s = ((table.read lines s).1, { rows := (table.read lines s).2.rows }) := by
  induction lines generalizing s lines' with
  | nil =>
    obtain rfl := List.map_eq_nil_iff.mp hkept
    rfl
  | cons l rest ih =>
    obtain ⟨n, line⟩ := l
    obtain ⟨hn, hrest⟩ : n ∉ rest.map Prod.fst ∧ (rest.map Prod.fst).Nodup :=
      List.nodup_cons.mp hnumbers
    cases hline : table.apply s line with
    | ok s1 =>
      have hskipped : table.skippedLines ((n, line) :: rest) s = table.skippedLines rest s1 := by
        rw [skippedLines, read_cons_ok hline, skippedLines]
      have hnot : n ∉ table.skippedLines rest s1 := fun h => hn (table.skippedLines_subset _ _ h)
      rw [hskipped, List.filter_cons_of_pos (by simpa using hnot), List.map_cons] at hkept
      obtain ⟨⟨n', line'⟩, rest', rfl, hsame, htail⟩ := List.map_eq_cons_iff.mp hkept
      obtain rfl : line' = line := hsame
      rw [read_cons_ok hline, read_cons_ok hline, ih hrest htail]
    | error reason =>
      have hskipped : table.skippedLines ((n, line) :: rest) s =
          n :: table.skippedLines rest s := by
        rw [skippedLines, read_cons_error hline, List.map_cons, skippedLines]
      have hother : ∀ l ∈ rest, (l.1 ∉ n :: table.skippedLines rest s) =
          (l.1 ∉ table.skippedLines rest s) := by
        intro l hl
        have hne : l.1 ≠ n := by
          rintro rfl
          exact hn (List.mem_map_of_mem hl)
        simp [hne]
      rw [hskipped, List.filter_cons_of_neg (by simp)] at hkept
      rw [read_cons_error hline]
      refine ih hrest (hkept.trans (congrArg _ (List.filter_congr fun l hl => ?_)))
      simp only [hother l hl]

/-! The lines of a manifest -/

namespace Manifest

theorem ofText_eq (text : String) : ofText text =
    ((recordLines text).filterMap fun l => (Deletion.decode l.2).toOption,
      (recordLines text).filterMap fun l =>
        match Deletion.decode l.2 with
        | .ok _ => none
        | .error f => some ⟨tableName, l.1, .unreadable f⟩) := by
  rw [ofText, List.filterMap_map, List.filterMap_map]
  rfl

theorem mem_skipped {text : String} {x : Skipped} :
    x ∈ (ofText text).2 ↔ ∃ line f, StandsAt text x.line line ∧ Deletion.decode line = .error f ∧
      x.table = tableName ∧ x.reason = .unreadable f := by
  rw [ofText_eq, List.mem_filterMap]
  constructor
  · rintro ⟨⟨n, line⟩, hl, hx⟩
    cases hdecode : Deletion.decode line with
    | ok d => simp [hdecode] at hx
    | error f =>
      simp only [hdecode, Option.some.injEq] at hx
      subst hx
      exact ⟨line, f, mem_recordLines.mp hl, hdecode, rfl, rfl⟩
  · rintro ⟨line, f, hstands, hdecode, htable, hreason⟩
    refine ⟨(x.line, line), mem_recordLines.mpr hstands, ?_⟩
    simp only [hdecode, ← htable, ← hreason]

/-- Every line is counted once, as a key or as a line that was passed over. -/
theorem keys_add_skipped (text : String) :
    (ofText text).1.length + (ofText text).2.length = (recordLines text).length := by
  rw [ofText_eq]
  dsimp only
  induction recordLines text with
  | nil => rfl
  | cons l rest ih =>
    cases hdecode : Deletion.decode l.2 with
    | ok d =>
      rw [List.filterMap_cons_some (by rw [hdecode]; rfl),
        List.filterMap_cons_none (by rw [hdecode]), List.length_cons, List.length_cons]
      omega
    | error f =>
      rw [List.filterMap_cons_none (by rw [hdecode]; rfl),
        List.filterMap_cons_some (by rw [hdecode]), List.length_cons, List.length_cons]
      omega

/-- The lines that are not passed over are those that hold keys. -/
theorem line_notMem_skipped {text : String} {l : Nat × String} (hl : l ∈ recordLines text) :
    (l.1 ∉ (ofText text).2.map Skipped.line) ↔ (Deletion.decode l.2).toOption.isSome = true := by
  have hstands : StandsAt text l.1 l.2 := mem_recordLines.mp hl
  cases hdecode : Deletion.decode l.2 with
  | ok d =>
    refine iff_of_true (fun hmem => ?_) rfl
    obtain ⟨x, hx, hline⟩ := List.mem_map.mp hmem
    obtain ⟨line, f, hother, hf, -⟩ := mem_skipped.mp hx
    rw [hline] at hother
    rw [hother.unique hstands, hdecode] at hf
    simp at hf
  | error f =>
    refine iff_of_false (fun hnot => hnot ?_) Bool.false_ne_true
    have hx : ⟨tableName, l.1, .unreadable f⟩ ∈ (ofText text).2 :=
      mem_skipped.mpr ⟨l.2, f, hstands, hdecode, rfl, rfl⟩
    exact List.mem_map_of_mem hx

/-- Lines that are passed over could as well be missing. -/
theorem ofText_of_kept {text text' : String}
    (hkept : (recordLines text').map Prod.snd =
      ((recordLines text).filter fun l => l.1 ∉ (ofText text).2.map Skipped.line).map Prod.snd) :
    ofText text' = ((ofText text).1, []) := by
  have hfilter : (recordLines text').map Prod.snd = ((recordLines text).filter fun l =>
      (Deletion.decode l.2).toOption.isSome).map Prod.snd := by
    rw [hkept]
    refine congrArg _ (List.filter_congr fun l hl => ?_)
    rw [Bool.eq_iff_iff, decide_eq_true_iff, line_notMem_skipped hl]
  rw [ofText_eq text', Prod.mk.injEq]
  constructor
  · have hkeys := congrArg (List.filterMap fun line => (Deletion.decode line).toOption) hfilter
    rw [List.filterMap_map, List.filterMap_map, List.filterMap_filter] at hkeys
    refine hkeys.trans ?_
    rw [ofText_eq]
    refine List.filterMap_congr fun l _ => ?_
    cases hdecode : Deletion.decode l.2 <;> simp [hdecode, Except.toOption]
  · rw [List.filterMap_eq_nil_iff]
    intro l hl
    have hmem : l.2 ∈ (recordLines text').map Prod.snd := List.mem_map_of_mem hl
    rw [hfilter] at hmem
    obtain ⟨l', hl', hsame⟩ := List.mem_map.mp hmem
    have hread := (List.mem_filter.mp hl').2
    rw [hsame] at hread
    cases hdecode : Deletion.decode l.2 with
    | ok d => rfl
    | error f => simp [hdecode, Except.toOption] at hread

end Manifest

/-! The files of a directory -/

/-- The files that an import looks for, each with the name under which its lines are reported. -/
def sources : List (String × String) :=
  (Manifest.tableName, Manifest.fileName) :: Table.all.map fun table => (table.name, table.fileName)

theorem mem_sources (htable : table ∈ Table.all) : (table.name, table.fileName) ∈ sources :=
  List.mem_cons_of_mem _ (List.mem_map_of_mem htable)

/-- A directory in which the files that an import looks for are texts, as far as they are there. -/
structure Importable (t : Tree) (dir : String) : Prop where
  isDirectory : t.isDirectory [] dir = true
  isText : ∀ source ∈ sources, t.pathExists [] (dir ++ "/" ++ source.2) = true →
    ∃ text, t.readText [] (dir ++ "/" ++ source.2) = .ok text

/-- A report has a line of a file. -/
def isReported (reported : List Skipped) (source : String) (n : Nat) : Bool :=
  (reported.map fun x => (x.table, x.line)).contains (source, n)

/-- A directory like another one, whose files lack the lines that are reported of them. -/
structure Cleared (reported : List Skipped) (t t' : Tree) (dir : String) : Prop where
  isDirectory : t'.isDirectory [] dir = true
  pathExists : ∀ source ∈ sources,
    t'.pathExists [] (dir ++ "/" ++ source.2) = t.pathExists [] (dir ++ "/" ++ source.2)
  kept : ∀ source ∈ sources, ∀ text, t.readText [] (dir ++ "/" ++ source.2) = .ok text →
    ∃ text', t'.readText [] (dir ++ "/" ++ source.2) = .ok text' ∧
      Text.Pieces.lines text' = keptLines (isReported reported source.1) text

theorem isReported_iff {reported : List Skipped} {source : String} {n : Nat} :
    isReported reported source n = true ↔ ∃ x ∈ reported, x.table = source ∧ x.line = n := by
  simp [isReported]

theorem tableLines_eq_none :
    tableLines t dir table = .ok none ↔ t.pathExists [] (dir ++ "/" ++ table.fileName) = false := by
  rw [tableLines]
  split
  · next hthere => cases t.readText [] (dir ++ "/" ++ table.fileName) <;> simp [hthere]
  · next hthere => simpa using hthere

theorem tableLines_eq_some {lines : List (Nat × String)} :
    tableLines t dir table = .ok (some lines) ↔
      ∃ text, t.readText [] (dir ++ "/" ++ table.fileName) = .ok text ∧
        recordLines text = lines := by
  rw [tableLines]
  cases hread : t.readText [] (dir ++ "/" ++ table.fileName) with
  | error f => split <;> simp
  | ok text => simp [pathExists_of_readText hread]

theorem manifestText_eq_ok {text : String}
    (hread : t.readText [] (dir ++ "/" ++ Manifest.fileName) = .ok text) :
    manifestText t dir = .ok text := by
  rw [manifestText, if_pos (pathExists_of_readText hread), hread]
  rfl

namespace Importable

variable (h : Importable t dir)
include h

theorem exists_tableLines (htable : table ∈ Table.all) :
    ∃ found, tableLines t dir table = .ok found := by
  cases hthere : t.pathExists [] (dir ++ "/" ++ table.fileName) with
  | false => exact ⟨none, tableLines_eq_none.mpr hthere⟩
  | true =>
    obtain ⟨text, hread⟩ := h.isText _ (mem_sources htable) hthere
    exact ⟨some (recordLines text), tableLines_eq_some.mpr ⟨text, hread, rfl⟩⟩

theorem exists_manifestText : ∃ text, manifestText t dir = .ok text := by
  rw [manifestText]
  split
  · next hthere =>
    obtain ⟨text, hread⟩ := h.isText _ List.mem_cons_self hthere
    exact ⟨text, by rw [hread]; rfl⟩
  · exact ⟨"", rfl⟩

end Importable

namespace Cleared

variable {reported : List Skipped} (h : Cleared reported t t' dir)
include h

theorem tableLines_of_none (htable : table ∈ Table.all)
    (hlines : tableLines t dir table = .ok none) : tableLines t' dir table = .ok none := by
  rw [tableLines_eq_none] at hlines ⊢
  rw [h.pathExists _ (mem_sources htable), hlines]

theorem tableLines_of_some (htable : table ∈ Table.all) {lines : List (Nat × String)}
    (hlines : tableLines t dir table = .ok (some lines)) :
    ∃ lines', tableLines t' dir table = .ok (some lines') ∧ lines'.map Prod.snd =
      (lines.filter fun l => !isReported reported table.name l.1).map Prod.snd := by
  obtain ⟨text, hread, rfl⟩ := tableLines_eq_some.mp hlines
  obtain ⟨text', hread', hkept⟩ := h.kept _ (mem_sources htable) text hread
  exact ⟨recordLines text', tableLines_eq_some.mpr ⟨text', hread', rfl⟩,
    map_snd_recordLines_of_kept hkept⟩

/-- The manifest holds the same keys, and only keys. -/
theorem ofText_manifest {text : String} (htext : manifestText t dir = .ok text)
    (hreported : ∀ n, isReported reported Manifest.tableName n = true ↔
      n ∈ (Manifest.ofText text).2.map Skipped.line) :
    ∃ text', manifestText t' dir = .ok text' ∧
      Manifest.ofText text' = ((Manifest.ofText text).1, []) := by
  have hsource := h.pathExists (Manifest.tableName, Manifest.fileName) List.mem_cons_self
  rw [manifestText] at htext
  dsimp only at htext hsource
  split at htext
  · cases hread : t.readText [] (dir ++ "/" ++ Manifest.fileName) with
    | error f => simp [hread, Except.mapError] at htext
    | ok found =>
      obtain rfl : found = text := by simpa [hread, Except.mapError] using htext
      obtain ⟨text', hread', hkept⟩ :=
        h.kept (Manifest.tableName, Manifest.fileName) List.mem_cons_self found hread
      refine ⟨text', manifestText_eq_ok hread', Manifest.ofText_of_kept ?_⟩
      rw [map_snd_recordLines_of_kept hkept]
      refine congrArg _ (List.filter_congr fun l _ => ?_)
      rw [Bool.eq_iff_iff, decide_eq_true_iff, ← hreported, Bool.not_eq_true', Bool.not_eq_true]
  · next hmissing =>
    obtain rfl := Except.ok.inj htext
    refine ⟨"", ?_, ?_⟩
    · rw [manifestText, hsource, if_neg hmissing]
    · rfl

end Cleared

/-! The readings of an import -/

/-- What an import does with the file of one table: the store that it comes with, and the lines
that are not blank. -/
structure Reading where
  table : Table
  start : Store
  lines : List (Nat × String)

namespace Reading

/-- The store that a reading has after lines of its file. -/
def after (x : Reading) (lines : List (Nat × String)) : Store := (x.table.read lines x.start).1

def report (x : Reading) : ImportSummary := (x.table.read x.lines x.start).2

/-- A reading of a text keeps the store in order at every line, and takes the line or reports it
with its fault. -/
structure Sorts (x : Reading) (text : String) : Prop where
  lines : x.lines = recordLines text
  consistent : ∀ before, before <+: x.lines → (x.after before).Consistent
  counted : x.report.rows + x.report.skipped.length =
    ((Text.Pieces.lines text).filter fun line => !Text.Blank.isBlankText line).length
  explained : ∀ bad ∈ x.report.skipped, bad.table = x.table.name ∧ ∃ before line rest,
    x.lines = before ++ (bad.line, line) :: rest ∧ StandsAt text bad.line line ∧
      Fault (x.after before) x.table.name line bad.reason

theorem sound_after {x : Reading} (h : x.start.Sound) (htable : x.table ∈ Table.all)
    (lines : List (Nat × String)) : (x.after lines).Sound :=
  applyLines_keeps (fun _ _ _ _ htable hs hone => Sound.apply hs htable hone) htable lines h {}

theorem sorts {x : Reading} (h : x.start.Sound) (htable : x.table ∈ Table.all) {text : String}
    (hlines : x.lines = recordLines text) : x.Sorts text where
  lines := hlines
  consistent before _ := (sound_after h htable before).toConsistent
  counted := by
    rw [← length_recordLines, ← hlines]
    exact x.table.rows_add_skipped x.lines x.start
  explained bad hbad := by
    obtain ⟨hname, before, line, rest, hsplit, happly⟩ := Table.exists_of_mem_skipped hbad
    refine ⟨hname, before, line, rest, hsplit, ?_, ?_⟩
    · rw [← mem_recordLines, ← hlines, hsplit]
      exact List.mem_append_right _ List.mem_cons_self
    · exact Table.fault_of_apply htable (sound_after h htable before) happly

end Reading

/-- The readings of the tables that have files. -/
def readings (t : Tree) (dir : String) : List Table → Store → List Reading
  | [], _ => []
  | table :: rest, s =>
    match tableLines t dir table with
    | .ok (some lines) => ⟨table, s, lines⟩ :: readings t dir rest (table.read lines s).1
    | _ => readings t dir rest s

theorem readings_none (h : tableLines t dir table = .ok none) :
    readings t dir (table :: tables) s = readings t dir tables s := by
  rw [readings, h]

theorem readings_some {lines : List (Nat × String)}
    (h : tableLines t dir table = .ok (some lines)) :
    readings t dir (table :: tables) s =
      ⟨table, s, lines⟩ :: readings t dir tables (table.read lines s).1 := by
  rw [readings, h]

/-- Tables that can be read are read, and the report has what each reading adds. -/
theorem readTables_of_readable (h : ∀ table ∈ tables, ∃ found, tableLines t dir table = .ok found)
    (s : Store) (done : ImportSummary) :
    ∃ s', readTables t dir tables s done = .ok (s', { done with
      tables := done.tables ++ (readings t dir tables s).map fun x => x.table.name
      rows := done.rows + ((readings t dir tables s).map fun x => x.report.rows).sum
      skipped :=
        done.skipped ++ (readings t dir tables s).flatMap fun x => x.report.skipped }) := by
  induction tables generalizing s done with
  | nil => exact ⟨s, by simp [readTables, readings]⟩
  | cons table rest ih =>
    have hrest : ∀ table ∈ rest, ∃ found, tableLines t dir table = .ok found :=
      fun table htable => h table (List.mem_cons_of_mem _ htable)
    obtain ⟨found, hfound⟩ := h table List.mem_cons_self
    rw [readTables_cons, hfound]
    cases found with
    | none =>
      rw [readings_none hfound]
      exact ih hrest s done
    | some lines =>
      dsimp only
      rw [readings_some hfound, applyLines_eq_read]
      obtain ⟨s', hread⟩ := ih hrest (table.read lines s).1 (ImportSummary.withTable { done with
        rows := done.rows + (table.read lines s).2.rows
        skipped := done.skipped ++ (table.read lines s).2.skipped } table.name)
      refine ⟨s', hread.trans ?_⟩
      simp [ImportSummary.withTable, Reading.report, Nat.add_assoc]

/-- Without the lines that are reported, the tables leave the same store and report no lines. -/
theorem readTables_of_cleared {reported : List Skipped} (h : Cleared reported t t' dir)
    (htables : ∀ table ∈ tables, table ∈ Table.all) {done done' : ImportSummary}
    (hreported : ∀ x ∈ readings t dir tables s, ∀ n, isReported reported x.table.name n = true ↔
      n ∈ x.table.skippedLines x.lines x.start)
    (hok : readTables t dir tables s done = .ok (s', done')) (again : ImportSummary) :
    readTables t' dir tables s again = .ok (s', { again with
      tables := again.tables ++ (readings t dir tables s).map fun x => x.table.name
      rows := again.rows + ((readings t dir tables s).map fun x => x.report.rows).sum }) := by
  induction tables generalizing s done again with
  | nil =>
    obtain ⟨rfl, -⟩ := Prod.mk.inj (Except.ok.inj hok)
    simp [readTables, readings]
  | cons table rest ih =>
    have htable := htables table List.mem_cons_self
    have hrest : ∀ table ∈ rest, table ∈ Table.all :=
      fun table htable => htables table (List.mem_cons_of_mem _ htable)
    rw [readTables_cons] at hok ⊢
    split at hok
    · simp at hok
    · next hlines =>
      rw [h.tableLines_of_none htable hlines]
      rw [readings_none hlines] at hreported ⊢
      exact ih hrest hreported hok again
    · next lines hlines =>
      obtain ⟨lines', hlines', hkept⟩ := h.tableLines_of_some htable hlines
      rw [hlines']
      rw [readings_some hlines] at hreported ⊢
      obtain ⟨text, -, rfl⟩ := tableLines_eq_some.mp hlines
      have hthis := hreported _ List.mem_cons_self
      have hread : table.read lines' s = ((table.read (recordLines text) s).1,
          { rows := (table.read (recordLines text) s).2.rows }) := by
        refine Table.read_of_kept (nodup_recordLines text) (hkept.trans ?_)
        refine congrArg _ (List.filter_congr fun l _ => ?_)
        rw [Bool.eq_iff_iff, decide_eq_true_iff, ← hthis, Bool.not_eq_true', Bool.not_eq_true]
      rw [applyLines_eq_read] at hok
      dsimp only
      rw [applyLines_eq_read, hread,
        ih hrest (fun x hx => hreported x (List.mem_cons_of_mem _ hx)) hok]
      simp [ImportSummary.withTable, Reading.report, Nat.add_assoc]

theorem table_readings (h : ∀ table ∈ tables, ∃ found, tableLines t dir table = .ok found)
    (s : Store) : (readings t dir tables s).map Reading.table =
      tables.filter fun table => t.pathExists [] (dir ++ "/" ++ table.fileName) := by
  induction tables generalizing s with
  | nil => rfl
  | cons table rest ih =>
    have hrest := ih fun table htable => h table (List.mem_cons_of_mem _ htable)
    obtain ⟨found, hfound⟩ := h table List.mem_cons_self
    cases found with
    | none =>
      rw [readings_none hfound, hrest,
        List.filter_cons_of_neg (by simp [tableLines_eq_none.mp hfound])]
    | some lines =>
      obtain ⟨text, hread, -⟩ := tableLines_eq_some.mp hfound
      rw [readings_some hfound, List.map_cons, hrest]
      simp [pathExists_of_readText hread]

/-- Every reading comes with a sound store to a file of its table. -/
theorem sorts_of_mem_readings (h : s.Sound) (htables : ∀ table ∈ tables, table ∈ Table.all)
    {x : Reading} (hx : x ∈ readings t dir tables s) :
    ∃ text, t.readText [] (dir ++ "/" ++ x.table.fileName) = .ok text ∧ x.Sorts text := by
  induction tables generalizing s with
  | nil => simp [readings] at hx
  | cons table rest ih =>
    have htable := htables table List.mem_cons_self
    have hrest : ∀ table ∈ rest, table ∈ Table.all :=
      fun table htable => htables table (List.mem_cons_of_mem _ htable)
    rw [readings] at hx
    split at hx
    · next lines hlines =>
      obtain ⟨text, hread, hrecords⟩ := tableLines_eq_some.mp hlines
      rcases List.mem_cons.mp hx with rfl | hx
      · exact ⟨text, hread, Reading.sorts h htable hrecords.symm⟩
      · exact ih (Reading.sound_after (x := ⟨table, s, lines⟩) h htable lines) hrest hx
    · exact ih h hrest hx

/-! Imports -/

/-- Lines that are reported under different names are told apart. -/
theorem isReported_flatMap {groups : List (String × List Skipped)}
    (hnames : (groups.map Prod.fst).Nodup) (hown : ∀ g ∈ groups, ∀ x ∈ g.2, x.table = g.1)
    {g : String × List Skipped} (hg : g ∈ groups) (n : Nat) :
    isReported (groups.flatMap Prod.snd) g.1 n = true ↔ n ∈ g.2.map Skipped.line := by
  rw [isReported_iff, List.mem_map]
  constructor
  · rintro ⟨x, hx, hname, hline⟩
    obtain ⟨g', hg', hx⟩ := List.mem_flatMap.mp hx
    obtain rfl := Store.eq_of_key hnames hg' hg ((hown g' hg' x hx).symm.trans hname)
    exact ⟨x, hx, hline⟩
  · rintro ⟨x, hx, hline⟩
    exact ⟨x, List.mem_flatMap.mpr ⟨g, hg, hx⟩, hown g hg x hx, hline⟩

/-- What an import reports, file by file. -/
def reports (bad : List Skipped) (rs : List Reading) : List (String × List Skipped) :=
  (Manifest.tableName, bad) :: rs.map fun x => (x.table.name, x.report.skipped)

section Reports

variable {bad : List Skipped} {rs : List Reading}

theorem flatMap_reports :
    (reports bad rs).flatMap Prod.snd = bad ++ rs.flatMap fun x => x.report.skipped := by
  rw [reports, List.flatMap_cons, List.flatMap_map]

theorem nodup_reports (h : (rs.map Reading.table).Sublist Table.all) :
    ((reports bad rs).map Prod.fst).Nodup := by
  have hsub : (rs.map fun x => x.table.name).Sublist (Table.all.map Table.name) := by
    have hnames := h.map Table.name
    rwa [List.map_map] at hnames
  have hall : (Manifest.tableName :: Table.all.map Table.name).Nodup := by decide
  have hmap : (reports bad rs).map Prod.fst =
      Manifest.tableName :: rs.map fun x => x.table.name := by
    rw [reports, List.map_cons, List.map_map]
    rfl
  rw [hmap]
  exact hall.sublist (hsub.cons_cons _)

/-- The report of an import tells the lines of the manifest and of each table apart. -/
theorem isReported_reports (h : (rs.map Reading.table).Sublist Table.all)
    (hbad : ∀ x ∈ bad, x.table = Manifest.tableName)
    (hown : ∀ y ∈ rs, ∀ x ∈ y.report.skipped, x.table = y.table.name) {reported : List Skipped}
    (hreported : reported = bad ++ rs.flatMap fun x => x.report.skipped) :
    (∀ n, isReported reported Manifest.tableName n = true ↔ n ∈ bad.map Skipped.line) ∧
      ∀ x ∈ rs, ∀ n, isReported reported x.table.name n = true ↔
        n ∈ x.table.skippedLines x.lines x.start := by
  have hgroups : ∀ g ∈ reports bad rs, ∀ x ∈ g.2, x.table = g.1 := by
    intro g hg
    rcases List.mem_cons.mp hg with rfl | hg
    · exact hbad
    · obtain ⟨y, hy, rfl⟩ := List.mem_map.mp hg
      exact hown y hy
  rw [hreported, ← flatMap_reports]
  refine ⟨fun n => ?_, fun x hx n => ?_⟩
  · exact isReported_flatMap (nodup_reports h) hgroups List.mem_cons_self n
  · exact isReported_flatMap (nodup_reports h) hgroups
      (List.mem_cons_of_mem _ (List.mem_map_of_mem hx)) n

end Reports

theorem afterManifest_of_keys (s : Store) {text text' : String}
    (h : Manifest.ofText text' = ((Manifest.ofText text).1, [])) : afterManifest s text' =
      ((afterManifest s text).1, { (afterManifest s text).2 with skipped := [] }) := by
  simp only [afterManifest, h]

/-- Lines that hold no usable record are isolated. A directory whose files are texts is imported,
whatever the texts are: every line that is not blank is counted once, each one that is passed over
is reported with its number and its fault, and the store that is left is the one that the directory
leaves without these lines. -/
theorem importFrom_isolates (h : Reachable s) (hdir : Importable t dir) :
    ∃ text done s', manifestText t dir = .ok text ∧ importFrom s t dir = .ok (done, s') ∧
      s'.Consistent ∧
      let keys := (Manifest.ofText text).1
      let bad := (Manifest.ofText text).2
      let rs := readings t dir Table.all (afterManifest s text).1
      keys.length + bad.length =
        ((Text.Pieces.lines text).filter fun line => !Text.Blank.isBlankText line).length ∧
      (∀ x ∈ bad, ∃ line f, StandsAt text x.line line ∧ Deletion.decode line = .error f ∧
        x.table = Manifest.tableName ∧ x.reason = .unreadable f) ∧
      (rs.map Reading.table =
        Table.all.filter fun table => t.pathExists [] (dir ++ "/" ++ table.fileName)) ∧
      (∀ x ∈ rs, ∃ file, t.readText [] (dir ++ "/" ++ x.table.fileName) = .ok file ∧
        x.Sorts file) ∧
      done = {
        tables := rs.map fun x => x.table.name
        rows := (rs.map fun x => x.report.rows).sum
        deleted := (applyDeletions s keys).2
        skipped := bad ++ rs.flatMap fun x => x.report.skipped } ∧
      ∀ t', Cleared done.skipped t t' dir →
        importFrom s t' dir = .ok ({ done with skipped := [] }, s') := by
  obtain ⟨text, htext⟩ := hdir.exists_manifestText
  have hreadable : ∀ table ∈ Table.all, ∃ found, tableLines t dir table = .ok found :=
    fun table htable => hdir.exists_tableLines htable
  obtain ⟨s', hread⟩ := readTables_of_readable hreadable (afterManifest s text).1
    (afterManifest s text).2
  have hok := importFrom_eq_ok.mpr ⟨hdir.isDirectory, text, htext, hread⟩
  have hstart : (afterManifest s text).1.Sound := by
    rw [afterManifest]
    exact Sound.applyDeletions h.sound _
  have hsorts : ∀ x ∈ readings t dir Table.all (afterManifest s text).1,
      ∃ file, t.readText [] (dir ++ "/" ++ x.table.fileName) = .ok file ∧ x.Sorts file :=
    fun x hx => sorts_of_mem_readings hstart (fun _ htable => htable) hx
  have htables := table_readings hreadable (afterManifest s text).1
  refine ⟨text, _, s', htext, hok, (Sound.importFrom h.sound hok).toConsistent, ?_, ?_, htables,
    hsorts, ?_, fun t' hcleared => ?_⟩
  · rw [← length_recordLines]
    exact Manifest.keys_add_skipped text
  · exact fun x hx => Manifest.mem_skipped.mp hx
  · simp [afterManifest]
  · have hbad : ∀ x ∈ (Manifest.ofText text).2, x.table = Manifest.tableName := by
      intro x hx
      obtain ⟨line, f, -, -, htable, -⟩ := Manifest.mem_skipped.mp hx
      exact htable
    have hown : ∀ y ∈ readings t dir Table.all (afterManifest s text).1,
        ∀ x ∈ y.report.skipped, x.table = y.table.name := by
      intro y hy x hx
      obtain ⟨file, -, hsorted⟩ := hsorts y hy
      exact (hsorted.explained x hx).1
    obtain ⟨hmanifest, hreported⟩ :=
      isReported_reports (htables ▸ List.filter_sublist) hbad hown rfl
    obtain ⟨text', htext', hkeys⟩ := hcleared.ofText_manifest htext hmanifest
    have hagain := readTables_of_cleared hcleared (fun _ htable => htable) hreported hread
      (afterManifest s text').2
    refine importFrom_eq_ok.mpr ⟨hcleared.isDirectory, text', htext', ?_⟩
    simp only [afterManifest_of_keys s hkeys] at hagain ⊢
    exact hagain

/-- A directory in which each file has a line that is passed over: one that is no key, one that is
no project and one that names a project which is not there. -/
def faultyTree : Tree where
  base := "/w"
  entries :=
    [(["deletions.jsonl"], .file (.text (Manifest.linesText ["", "x"]))),
      (["projects.jsonl"], .file (.text (Manifest.linesText
        ["x", "", projectCodec.encode ⟨"p", none, 1⟩]))),
      (["project_repositories.jsonl"], .file (.text (Manifest.linesText
        [membershipCodec.encode ⟨"q", "r"⟩])))]

/-- The same directory without the lines that are passed over. -/
def clearedTree : Tree where
  base := "/w"
  entries :=
    [(["deletions.jsonl"], .file (.text (Manifest.linesText [""]))),
      (["projects.jsonl"], .file (.text (Manifest.linesText
        ["", projectCodec.encode ⟨"p", none, 1⟩]))),
      (["project_repositories.jsonl"], .file (.text ""))]

/-- The lines of the directory that are passed over. -/
def faultyLines : List (String × Nat) :=
  [("deletions", 2), ("projects", 1), ("project_repositories", 1)]

theorem importable_faultyTree : Importable faultyTree "/w" where
  isDirectory := by decide +kernel
  isText source hsource hthere := by
    have hall : ∀ source ∈ sources, faultyTree.pathExists [] ("/w" ++ "/" ++ source.2) = true →
        (faultyTree.readText [] ("/w" ++ "/" ++ source.2)).toOption.isSome = true := by
      decide +kernel
    obtain ⟨text, htext⟩ := Option.isSome_iff_exists.mp (hall source hsource hthere)
    exact ⟨text, Store.toOption_eq_some.mp htext⟩

theorem cleared_clearedTree {reported : List Skipped}
    (h : reported.map (fun x => (x.table, x.line)) = faultyLines) :
    Cleared reported faultyTree clearedTree "/w" where
  isDirectory := by decide +kernel
  pathExists := by decide +kernel
  kept source hsource text htext := by
    have hall : ∀ source ∈ sources,
        (clearedTree.readText [] ("/w" ++ "/" ++ source.2)).toOption.map Text.Pieces.lines =
          (faultyTree.readText [] ("/w" ++ "/" ++ source.2)).toOption.map
            (keptLines fun n => faultyLines.contains (source.1, n)) := by
      decide +kernel
    have hthis := hall source hsource
    rw [htext] at hthis
    obtain ⟨text', htext', hlines⟩ := Option.map_eq_some_iff.mp hthis
    refine ⟨text', Store.toOption_eq_some.mp htext', hlines.trans ?_⟩
    rw [← h]
    rfl

theorem importFrom_isolates_faulty : ∃ s done s', Reachable s ∧
    importFrom s faultyTree "/w" = .ok (done, s') ∧ done.rows = 1 ∧
    done.skipped.map (fun x => (x.table, x.line)) = faultyLines ∧
    importFrom s clearedTree "/w" = .ok ({ done with skipped := [] }, s') := by
  have hread : (importFrom (.empty 0) faultyTree "/w").toOption.map (fun done =>
      (done.1.rows, done.1.skipped.map fun x => (x.table, x.line))) = some (1, faultyLines) := by
    decide +kernel
  obtain ⟨-, done, s', -, hok, -, -, -, -, -, -, hcleared⟩ :=
    importFrom_isolates (.empty 0) importable_faultyTree
  rw [hok] at hread
  obtain ⟨hrows, hlines⟩ := Prod.mk.inj (Option.some.inj hread)
  exact ⟨.empty 0, done, s', .empty 0, hok, hrows, hlines,
    hcleared clearedTree (cleared_clearedTree hlines)⟩

end CodeIndex.Sync
