import CodeIndex.Proofs.Sync.Deletions
import CodeIndex.Proofs.Sync.Levels

/-!
Reading tables whose lines may hold anything. Each line is a record or no record at all; which
records are put and which are passed over is settled when the table begins, for what they need
stands in earlier tables. The content after an import follows from the content before it.
-/
namespace CodeIndex.Sync

open Files (Tree)

/-- The record that a line of an exported table holds. -/
def Record.decode (table line : String) : Except Json.Fault Record :=
  match table with
  | "repositories" => (repositoryCodec.decode line).map .repository
  | "files" => (fileCodec.decode line).map .file
  | "symbols" => (symbolCodec.decode line).map .symbol
  | "references" => (referenceCodec.decode line).map .reference
  | "dependency_edges" => (edgeCodec.decode line).map .edge
  | "projects" => (projectCodec.decode line).map .project
  | _ => (membershipCodec.decode line).map .membership

/-- The records that lines of a table hold. -/
def lineRecords (table : String) (lines : List (Nat × String)) : List Record :=
  lines.filterMap fun l => (Record.decode table l.2).toOption

namespace Content

/-- Why a line of a table is passed over, if it is. -/
def reason? (c : Content) (table line : String) : Option Rejection :=
  match Record.decode table line with
  | .ok r => c.refusal? r
  | .error f => some (.unreadable f)

/-- The lines of a table that are passed over. -/
def skipped (c : Content) (table : String) (lines : List (Nat × String)) : List Skipped :=
  lines.filterMap fun l => (c.reason? table l.2).map fun reason => ⟨table, l.1, reason⟩

/-- The lines of a table whose records are put. -/
def taken (c : Content) (table : String) (lines : List (Nat × String)) : List (Nat × String) :=
  lines.filter fun l => (c.reason? table l.2).isNone

end Content

variable {s s' u u' : Store}

/-! Lines -/

theorem Table.apply_eq {table : Table} (h : table ∈ Table.all) (s : Store) (line : String) :
    table.apply s line = match Record.decode table.name line with
      | .ok r => r.put s
      | .error f => .error (.unreadable f) := by
  simp only [Table.all, List.mem_cons, List.not_mem_nil, or_false] at h
  rcases h with rfl | rfl | rfl | rfl | rfl | rfl | rfl
  · simp only [Table.of, Record.decode]
    cases repositoryCodec.decode line <;> rfl
  · simp only [Table.of, Record.decode]
    cases fileCodec.decode line <;> rfl
  · simp only [Table.of, Record.decode]
    cases symbolCodec.decode line <;> rfl
  · simp only [Table.of, Record.decode]
    cases referenceCodec.decode line <;> rfl
  · simp only [Table.of, Record.decode]
    cases edgeCodec.decode line <;> rfl
  · simp only [Table.of, Record.decode]
    cases projectCodec.decode line <;> rfl
  · simp only [Table.of, Record.decode]
    cases membershipCodec.decode line <;> rfl

/-- A table holds records of one level. -/
structure Table.Reads (n : Nat) (table : Table) : Prop where
  mem : table ∈ Table.all
  level : ∀ line r, Record.decode table.name line = .ok r → r.key.level = n

/-- The tables hold records of rising levels. -/
def Table.InOrder : Nat → List Table → Prop
  | _, [] => True
  | n, table :: rest => table.Reads n ∧ InOrder (n + 1) rest

theorem Table.inOrder_all : Table.InOrder 0 Table.all := by
  have hlevel : ∀ {α : Type} {x : Except Json.Fault α} {f : α → Record} {n : Nat},
      (∀ a, (f a).key.level = n) → ∀ r, x.map f = .ok r → r.key.level = n := by
    intro α x f n hf r hr
    cases x with
    | error e => simp [Except.map] at hr
    | ok a =>
      obtain rfl := Except.ok.inj hr
      exact hf a
  refine ⟨⟨?_, fun _ => hlevel fun _ => rfl⟩, ⟨?_, fun _ => hlevel fun _ => rfl⟩,
    ⟨?_, fun _ => hlevel fun _ => rfl⟩, ⟨?_, fun _ => hlevel fun _ => rfl⟩,
    ⟨?_, fun _ => hlevel fun _ => rfl⟩, ⟨?_, fun _ => hlevel fun _ => rfl⟩,
    ⟨?_, fun _ => hlevel fun _ => rfl⟩, trivial⟩
  all_goals simp [all]

theorem Table.apply_failsFor {table : Table} (htable : table ∈ all) (h : s.Sound) (line : String) :
    FailsFor (table.apply s line) ((content s).reason? table.name line) := by
  rw [table.apply_eq htable, Content.reason?]
  cases Record.decode table.name line with
  | error f => exact .error _
  | ok r => exact put_failsFor h r

section Lines

variable {n : Nat} {table : Table} (htable : table.Reads n)
include htable

theorem Table.Reads.level_of_mem {lines : List (Nat × String)} :
    ∀ r ∈ lineRecords table.name lines, r.key.level = n := by
  intro r hr
  obtain ⟨l, -, hl⟩ := List.mem_filterMap.mp hr
  cases hdecode : Record.decode table.name l.2 with
  | error f => simp [hdecode, Except.toOption] at hl
  | ok x =>
    rw [hdecode] at hl
    obtain rfl := Option.some.inj hl
    exact htable.level l.2 x hdecode

theorem Content.AgreeBelow.reason? {c c' : Content} (h : c.AgreeBelow n c') (line : String) :
    c.reason? table.name line = c'.reason? table.name line := by
  rw [Content.reason?, Content.reason?]
  cases hdecode : Record.decode table.name line with
  | error f => rfl
  | ok r => exact AgreeBelow.refusal? (htable.level line r hdecode ▸ h)

/-- Lines are put one after the other. Those whose records are refused at the start are passed
over. -/
theorem applyLines_spec (lines : List (Nat × String)) {c : Content} (h : Regular s)
    (hc : c.AgreeBelow n (content s)) (done : ImportSummary) :
    Regular (applyLines table lines s done).1 ∧
      content (applyLines table lines s done).1 =
        (content s).putAll (lineRecords table.name lines) ∧
      (applyLines table lines s done).2 = { done with
        rows := done.rows + (c.taken table.name lines).length
        skipped := done.skipped ++ c.skipped table.name lines } := by
  induction lines generalizing s done with
  | nil => exact ⟨h, rfl, by simp [applyLines, Content.taken, Content.skipped]⟩
  | cons l rest ih =>
    have hfails := table.apply_failsFor htable.mem h.toSound l.2
    have happly := table.apply_eq htable.mem s l.2
    rw [← hc.reason? htable] at hfails
    cases hline : table.apply s l.2 with
    | error reason =>
      have hreason := (hfails reason).mp hline
      obtain ⟨hregular, hcontent, hdone⟩ :=
        ih h hc { done with skipped := done.skipped ++ [⟨table.name, l.1, reason⟩] }
      rw [applyLines, hline]
      refine ⟨hregular, hcontent.trans ?_, hdone.trans ?_⟩
      · cases hdecode : Record.decode table.name l.2 with
        | error f => simp [lineRecords, hdecode, Except.toOption]
        | ok r =>
          rw [hc.reason? htable, Content.reason?, hdecode] at hreason
          have hrefused := Content.put_of_refused (c := content s) (r := r) (by simp [hreason])
          simp [lineRecords, hdecode, Except.toOption, hrefused]
      · simp [Content.taken, Content.skipped, hreason]
    | ok s1 =>
      have htaken := hfails.exists_ok_iff.mp ⟨s1, hline⟩
      cases hdecode : Record.decode table.name l.2 with
      | error f => simp [happly, hdecode] at hline
      | ok r =>
        have hok : r.put s = .ok s1 := by
          rw [happly, hdecode] at hline
          exact hline
        have hput := content_put h.toSound h.kinded hok
        have hbelow : c.AgreeBelow n (content s1) := by
          intro k hk
          have hne : k ≠ r.key := by
            rintro rfl
            exact absurd (htable.level l.2 r hdecode) (by omega)
          rw [hput, Content.put_of_ne hne, hc k hk]
        obtain ⟨hregular, hcontent, hdone⟩ :=
          ih (h.put hok) hbelow { done with rows := done.rows + 1 }
        rw [applyLines, hline]
        refine ⟨hregular, hcontent.trans ?_, hdone.trans ?_⟩
        · simp [lineRecords, hdecode, Except.toOption, hput]
        · simp [Content.taken, Content.skipped, htaken, Nat.add_assoc, Nat.add_comm 1]

end Lines

/-! Tables -/

/-- The lines of the file of a table that are not blank, if there is a file. -/
def tableLines (t : Tree) (dir : String) (table : Table) :
    Except Error (Option (List (Nat × String))) :=
  if t.pathExists [] (dir ++ "/" ++ table.fileName) then
    match t.readText [] (dir ++ "/" ++ table.fileName) with
    | .error f => .error (.io f)
    | .ok text => .ok (some (recordLines text))
  else .ok none

/-- A report with one more table. -/
def ImportSummary.withTable (done : ImportSummary) (table : String) : ImportSummary :=
  { done with tables := done.tables ++ [table] }

section Tables

variable {t : Tree} {dir : String} {table : Table} {tables : List Table}

theorem readTables_cons (s : Store) (done : ImportSummary) :
    readTables t dir (table :: tables) s done =
      match tableLines t dir table with
      | .error e => .error e
      | .ok none => readTables t dir tables s done
      | .ok (some lines) =>
        readTables t dir tables (applyLines table lines s done).1
          ((applyLines table lines s done).2.withTable table.name) := by
  rw [readTables, tableLines]
  dsimp only
  split
  · cases t.readText [] (dir ++ "/" ++ table.fileName) <;> rfl
  · rfl

/-- Whether the files can be read does not depend on the store. -/
theorem readTables_error {e : Error} {done : ImportSummary}
    (h : readTables t dir tables s done = .error e) (u : Store) (again : ImportSummary) :
    readTables t dir tables u again = .error e := by
  induction tables generalizing s u done again with
  | nil => simp [readTables] at h
  | cons table rest ih =>
    rw [readTables_cons] at h ⊢
    cases hlines : tableLines t dir table with
    | error e' =>
      rw [hlines] at h
      exact h
    | ok found =>
      rw [hlines] at h
      cases found with
      | none => exact ih h u again
      | some lines => exact ih h _ _

/-- Tables leave what stands in earlier tables. -/
theorem content_readTables_of_level_lt {n : Nat} (horder : Table.InOrder n tables) (h : Regular s)
    {done done' : ImportSummary} (hok : readTables t dir tables s done = .ok (s', done'))
    {k : Deletion} (hk : k.level < n) : content s' k = content s k := by
  induction tables generalizing s n done with
  | nil =>
    obtain ⟨rfl, -⟩ := Prod.mk.inj (Except.ok.inj hok)
    rfl
  | cons table rest ih =>
    obtain ⟨hreads, horder⟩ := horder
    rw [readTables_cons] at hok
    split at hok
    · simp at hok
    · exact ih horder h hok (by omega)
    · next lines hlines =>
      obtain ⟨hregular, hcontent, -⟩ :=
        applyLines_spec hreads lines h (Content.AgreeBelow.refl _ _) done
      rw [ih horder hregular hok (by omega), hcontent]
      exact Content.putAll_of_level_ne hreads.level_of_mem (by omega)

end Tables

/-! Imports -/

/-- The store with which an import begins to read the tables, and its report so far. -/
def afterManifest (s : Store) (text : String) : Store × ImportSummary :=
  ((applyDeletions s (Manifest.ofText text).1).1,
    { deleted := (applyDeletions s (Manifest.ofText text).1).2
      skipped := (Manifest.ofText text).2 })

section Imports

variable {t : Tree} {dir : String}

theorem importFrom_eq (s : Store) (t : Tree) (dir : String) :
    importFrom s t dir =
      if t.isDirectory [] dir then
        match manifestText t dir with
        | .error e => .error e
        | .ok text =>
          (readTables t dir Table.all (afterManifest s text).1 (afterManifest s text).2).map
            Prod.swap
      else .error (.invalidArgument (.notDirectory dir)) := by
  rw [importFrom]
  split
  · cases manifestText t dir with
    | error e => rfl
    | ok text =>
      change (readTables t dir Table.all (afterManifest s text).1 (afterManifest s text).2 >>=
        fun out => .ok (out.2, out.1)) = (readTables t dir Table.all (afterManifest s text).1
          (afterManifest s text).2).map Prod.swap
      cases readTables t dir Table.all (afterManifest s text).1 (afterManifest s text).2 <;> rfl
  · rfl

theorem importFrom_eq_ok {done : ImportSummary} :
    importFrom s t dir = .ok (done, s') ↔ t.isDirectory [] dir = true ∧
      ∃ text, manifestText t dir = .ok text ∧
        readTables t dir Table.all (afterManifest s text).1 (afterManifest s text).2 =
          .ok (s', done) := by
  rw [importFrom_eq]
  split
  · next hdir =>
    cases manifestText t dir with
    | error e => simp [hdir]
    | ok text =>
      cases hread :
        readTables t dir Table.all (afterManifest s text).1 (afterManifest s text).2 with
      | error e => simp [hdir, hread, Except.map]
      | ok out => simp [hdir, hread, Except.map, Prod.ext_iff, and_comm]
  · next hdir => simp [hdir]

/-- Whether a directory can be imported does not depend on the store. -/
theorem importFrom_error {e : Error} (h : importFrom s t dir = .error e) (u : Store) :
    importFrom u t dir = .error e := by
  rw [importFrom_eq] at h ⊢
  split at h
  · next hdir =>
    rw [if_pos hdir]
    cases htext : manifestText t dir with
    | error e' =>
      rw [htext] at h
      exact h
    | ok text =>
      rw [htext] at h
      dsimp only at h ⊢
      cases hread :
        readTables t dir Table.all (afterManifest s text).1 (afterManifest s text).2 with
      | error e' =>
        rw [hread] at h
        rw [readTables_error hread]
        exact h
      | ok out => simp [hread, Except.map] at h
  · next hdir =>
    rw [if_neg hdir]
    exact h

end Imports

end CodeIndex.Sync
