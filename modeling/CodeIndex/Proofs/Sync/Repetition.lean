import CodeIndex.Proofs.Sync.EdgeKeys
import CodeIndex.Proofs.Sync.Tables

/-!
An import that is repeated. The second one deletes again what the manifest names, and with it what
the first one put below; then the tables are read as they were the first time. Table by table, what
decides on a record is the same again, so the same records are put and the same lines are passed
over, and every key ends with what the first import left under it.
-/
namespace CodeIndex.Sync

open Files (Tree)

variable {s s' u : Store} {t : Tree} {dir : String}

/-- Two reports of the same tables, rows and lines. -/
structure SameReport (a b : ImportSummary) : Prop where
  tables : b.tables = a.tables
  rows : b.rows = a.rows
  skipped : b.skipped = a.skipped

/-- The tables of a directory leave again what they left from another start. -/
theorem readTables_again {n : Nat} {tables : List Table} (horder : Table.InOrder n tables)
    (hs : Regular s) (hu : Regular u) (hbelow : (content s).AgreeBelow n (content u))
    {done done' again : ImportSummary} (hok : readTables t dir tables s done = .ok (s', done'))
    (hstart : ∀ k, n ≤ k.level → Content.Restarts k (content s k) (content u k) (content s' k))
    (hsame : SameReport done again) :
    ∃ u' again', readTables t dir tables u again = .ok (u', again') ∧ content u' = content s' ∧
      SameReport done' again' := by
  induction tables generalizing s u n done again with
  | nil =>
    obtain ⟨rfl, rfl⟩ := Prod.mk.inj (Except.ok.inj hok)
    refine ⟨u, again, rfl, ?_, hsame⟩
    funext k
    rcases Nat.lt_or_ge k.level n with hk | hk
    · exact (hbelow k hk).symm
    · exact (hstart k hk).unchanged rfl
  | cons table rest ih =>
    obtain ⟨hreads, hrest⟩ := horder
    rw [readTables_cons] at hok
    rw [readTables_cons]
    split at hok
    · simp at hok
    · -- A table without a file changes nothing, so its keys start again where they stayed.
      refine ih hrest hs hu ?_ hok (fun k hk => hstart k (by omega)) hsame
      intro k hk
      rcases Nat.lt_or_ge k.level n with hlt | hge
      · exact hbelow k hlt
      · have hfinal := content_readTables_of_level_lt hrest hs hok (k := k) (by omega)
        exact ((hstart k hge).unchanged hfinal).symm
    · next lines hlines =>
      obtain ⟨hs1, hcontent, hdone⟩ :=
        applyLines_spec hreads lines hs (Content.AgreeBelow.refl _ _) done
      obtain ⟨hu1, hcontent', hdone'⟩ := applyLines_spec hreads lines hu hbelow again
      have hlevel : ∀ r ∈ lineRecords table.name lines, r.key.level = n := hreads.level_of_mem
      refine ih hrest hs1 hu1 ?_ hok ?_ ?_
      · intro k hk
        rw [hcontent, hcontent']
        rcases Nat.lt_or_ge k.level n with hlt | hge
        · rw [Content.putAll_of_level_ne hlevel (by omega),
            Content.putAll_of_level_ne hlevel (by omega), hbelow k hlt]
        · have hfinal := content_readTables_of_level_lt hrest hs1 hok (k := k) (by omega)
          rw [hcontent] at hfinal
          exact (hbelow.putAll_again hlevel (by omega) (hfinal ▸ hstart k hge)).symm
      · intro k hk
        rw [hcontent, hcontent', Content.putAll_of_level_ne hlevel (by omega),
          Content.putAll_of_level_ne hlevel (by omega)]
        exact hstart k (by omega)
      · rw [hdone, hdone']
        exact ⟨congrArg (· ++ [table.name]) hsame.tables, congrArg (· + _) hsame.rows,
          congrArg (· ++ _) hsame.skipped⟩

/-- What an import deletes again is what the first import put below, so its keys start again. -/
theorem restarts_prune {start : Store} (h : start.Sound) (hs' : s'.Sound) (keys : List Deletion)
    (k : Deletion) : Content.Restarts k ((content start).prune keys k) ((content s').prune keys k)
      (content s' k) := by
  refine ⟨fun hk => ?_, fun hk => ?_⟩
  · rw [Content.prune_congr hk, Content.prune_prune]
  · cases k with
    | file repo path =>
      rw [prune_file h, prune_file hs']
      split
      · exact .inl rfl
      · exact .inr rfl
    | _ => simp [Deletion.level] at hk

/-- Stores with the same content have the same records. -/
theorem sameRecords_of_content (hs : s.Sound) (hu : u.Sound) (h : content u = content s) :
    ∀ x, x ∈ records u ↔ x ∈ records s := by
  intro x
  rw [mem_records_iff_hasRow, mem_records_iff_hasRow]
  simp only [← content_eq_some hs, ← content_eq_some hu, h]

/-- Importing a directory twice leaves what importing it once leaves, whatever its files hold: the
same keys and fields, and the same report of tables, rows and lines passed over. A directory that
cannot be imported cannot be imported again either. -/
theorem importFrom_twice (h : Reachable s) (t : Tree) (dir : String) :
    (∀ e, importFrom s t dir = .error e → ∀ u, importFrom u t dir = .error e) ∧
    ∀ done s', importFrom s t dir = .ok (done, s') →
      ∃ again s'', importFrom s' t dir = .ok (again, s'') ∧
        content s'' = content s' ∧ (∀ x, x ∈ records s'' ↔ x ∈ records s') ∧
        again.rows = done.rows ∧ again.tables = done.tables ∧ again.skipped = done.skipped := by
  refine ⟨fun e he u => importFrom_error he u, fun done s' hok => ?_⟩
  have hs := h.regular
  have hrun : (Operation.importFrom t dir).run s = .ok s' := congrArg (Except.map Prod.snd) hok
  have hs' := (Reachable.step (.importFrom t dir) h trivial hrun).regular
  obtain ⟨hdir, text, htext, hread⟩ := importFrom_eq_ok.mp hok
  have hstart := hs.applyDeletions (Manifest.ofText text).1
  have hstart' := hs'.applyDeletions (Manifest.ofText text).1
  have hreport : SameReport (afterManifest s text).2 (afterManifest s' text).2 := ⟨rfl, rfl, rfl⟩
  obtain ⟨s'', again, hread', hcontent, hsame⟩ := readTables_again
    (u := (afterManifest s' text).1) Table.inOrder_all hstart hstart'
    (fun k hk => absurd hk (Nat.not_lt_zero _)) hread
    (fun k _ => by
      rw [content_applyDeletions hs.toSound, afterManifest, content_applyDeletions hs'.toSound]
      exact restarts_prune hs.toSound hs'.toSound _ k)
    hreport
  have hok' : importFrom s' t dir = .ok (again, s'') :=
    importFrom_eq_ok.mpr ⟨hdir, text, htext, hread'⟩
  exact ⟨again, s'', hok', hcontent,
    sameRecords_of_content hs'.toSound (Sound.importFrom hs'.toSound hok') hcontent, hsame.rows,
    hsame.tables, hsame.skipped⟩

/-- A directory whose manifest deletes a project that its tables have, with lines that hold no
record and one that names a row which is not there. -/
def roughTree : Tree where
  base := "/w"
  entries :=
    [(["deletions.jsonl"], .file (.text (Manifest.linesText
        ["x", Deletion.encode (.project "p")]))),
      (["projects.jsonl"], .file (.text (Manifest.linesText
        ["", "x", projectCodec.encode ⟨"p", none, 1⟩]))),
      (["project_repositories.jsonl"], .file (.text (Manifest.linesText
        [membershipCodec.encode ⟨"q", "r"⟩, membershipCodec.encode ⟨"p", "r"⟩])))]

theorem importFrom_twice_rough : ∃ s done s' again s'', Reachable s ∧
    s.projects.map (fun p => (p.name, p.createdAt)) = [("p", 0)] ∧
    importFrom s roughTree "/w" = .ok (done, s') ∧
    s'.projects.map (fun p => (p.name, p.createdAt)) = [("p", 1)] ∧ done.rows = 2 ∧
    done.skipped.map (fun x => (x.table, x.line)) =
      [("deletions", 1), ("projects", 2), ("project_repositories", 1)] ∧
    importFrom s' roughTree "/w" = .ok (again, s'') ∧ content s'' = content s' ∧
    again.rows = 2 ∧ again.skipped = done.skipped := by
  let start : Store :=
    { origin := 0, nextSerial := 2, projects := [⟨.made 0 1, "p", none, 0⟩],
      repositories := [⟨.made 0 0, "r", "r", none, "main", none⟩] }
  have h : Reachable start :=
    .step (.createProject "p" none 0)
      (.step (.upsertRepository (.ofFullName "r" "")) (.empty 0) trivial rfl) trivial rfl
  have hread : (importFrom start roughTree "/w").toOption.map (fun done =>
      (done.2.projects.map (fun p => (p.name, p.createdAt)), done.1.rows,
        done.1.skipped.map fun x => (x.table, x.line))) =
      some ([("p", 1)], 2, [("deletions", 1), ("projects", 2), ("project_repositories", 1)]) := by
    decide +kernel
  obtain ⟨⟨done, s'⟩, hok, hread⟩ := Option.map_eq_some_iff.mp hread
  have hok := Store.toOption_eq_some.mp hok
  simp only [Prod.mk.injEq] at hread
  obtain ⟨hprojects, hrows, hlines⟩ := hread
  obtain ⟨again, s'', hagain, hcontent, -, hsame, -, hskipped⟩ :=
    (importFrom_twice h roughTree "/w").2 done s' hok
  exact ⟨start, done, s', again, s'', h, rfl, hok, hprojects, hrows, hlines, hagain, hcontent,
    hsame.trans hrows, hskipped⟩

end CodeIndex.Sync
