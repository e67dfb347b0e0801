import CodeIndex.Proofs.Store.Removal
import CodeIndex.Proofs.Sync.Upsert

/-!
The invariant of a store through an import: no record and no deletion of an export directory can
break it, whatever the directory holds.
-/
namespace CodeIndex.Sync

open Store (freshId_fst ne_freshId old_freshId eq_of_key)

variable {s s' : Store}

/-! The rows that natural keys name -/

theorem hasRepository_of_repository? (h : s.Sound) {name : String} {r : RepositoryRow}
    (hr : s.repository? name = some r) : s.HasRepository r.id :=
  ⟨r, (h.repository?_eq_some.mp hr).1, rfl⟩

theorem file?_spec (h : s.Sound) {repository path : String} {f : FileRow} :
    file? s repository path = some f ↔
      ∃ r ∈ s.repositories, r.fullName = repository ∧ f ∈ s.files ∧ f.repositoryId = r.id ∧
        f.path = path := by
  simp only [file?_eq_some, h.repository?_eq_some, h.file?_eq_some, and_assoc]

theorem symbol?_spec (h : s.Sound) {repository : String} {key : SymbolKey} {x : SymbolRow} :
    symbol? s repository key = some x ↔
      ∃ f, file? s repository key.filePath = some f ∧ x ∈ s.symbols ∧ x.fileId = f.id ∧
        x.name = key.name ∧ x.lineStart = key.lineStart := by
  simp only [symbol?_eq_some, h.symbol?_eq_some]

theorem hasFile_of_file? (h : s.Sound) {repository path : String} {f : FileRow} {r : RepositoryRow}
    (hr : s.repository? repository = some r) (hf : file? s repository path = some f) :
    s.HasFile f.id r.id := by
  obtain ⟨r', hr', hf⟩ := file?_eq_some.mp hf
  obtain rfl : r = r' := Option.some.inj (hr.symm.trans hr')
  obtain ⟨hmem, hown, -⟩ := h.file?_eq_some.mp hf
  exact ⟨f, hmem, rfl, hown⟩

theorem hasSymbol_of_symbol? (h : s.Sound) {repository : String} {key : SymbolKey} {x : SymbolRow}
    {r : RepositoryRow} (hr : s.repository? repository = some r)
    (hx : symbol? s repository key = some x) : s.HasSymbol x.id r.id := by
  obtain ⟨f, hf, hmem, hfile, -⟩ := (symbol?_spec h).mp hx
  have hown := hasFile_of_file? h hr hf
  obtain ⟨g, hg, hgid, hgown⟩ := hown
  obtain ⟨f', hf', hid', hown'⟩ := h.symbol_file x hmem
  have hsame : f' = g := eq_of_key h.file_ids hf' hg ((hid'.trans hfile).trans hgid.symm)
  exact ⟨x, hmem, rfl, hown'.symm.trans (hsame ▸ hgown)⟩

/-! Records -/

theorem Sound.upsertRepository {r : RepositoryRecord} (h : s.Sound)
    (hok : upsertRepository s r = .ok s') : s'.Sound := by
  obtain ⟨-, rfl⟩ | ⟨hnone, rfl⟩ := upsertRepository_cases hok
  · apply h.mapRepositories
    · intro row _
      split <;> rfl
    · intro row _
      split <;> rfl
  · apply h.freshId.addRepository
    · intro row hrow heq
      have hsome := h.repository?_eq_some.mpr ⟨hrow, heq⟩
      rw [show (newRepository s.freshId.1 r).fullName = r.fullName from rfl, hnone] at hsome
      simp at hsome
    · intro row hrow
      exact ne_freshId (h.repository_old row hrow)
    · exact old_freshId s

theorem Sound.upsertFile {f : FileRecord} (h : s.Sound) (hok : upsertFile s f = .ok s') :
    s'.Sound := by
  obtain ⟨-, r, hr, ⟨-, rfl⟩ | ⟨hnone, rfl⟩⟩ := upsertFile_cases hok
  · apply h.mapFiles
    · intro row _
      split <;> rfl
    · intro row _
      split <;> rfl
  · apply h.freshId.addFile
    · intro row hrow heq
      simp only [Store.filePlace, newFile, Prod.mk.injEq] at heq
      have hsome := h.file?_eq_some.mpr ⟨hrow, heq⟩
      rw [hnone] at hsome
      simp at hsome
    · intro row hrow
      exact ne_freshId (h.file_old row hrow)
    · exact old_freshId s
    · exact hasRepository_of_repository? h hr

theorem Sound.upsertSymbol {x : SymbolRecord} (h : s.Sound) (hok : upsertSymbol s x = .ok s') :
    s'.Sound := by
  obtain ⟨f, hf, ⟨-, rfl⟩ | ⟨hnone, rfl⟩⟩ := upsertSymbol_cases hok
  · apply h.mapSymbols
    · intro row _
      split <;> rfl
    · intro row _
      split <;> rfl
    · intro row _
      split <;> rfl
  · apply h.freshId.addSymbol
    · intro row hrow heq
      simp only [Store.symbolPlace, newSymbol, Prod.mk.injEq] at heq
      have hsome := h.symbol?_eq_some.mpr ⟨hrow, heq⟩
      rw [hnone] at hsome
      simp at hsome
    · intro row hrow
      exact ne_freshId (h.symbol_old row hrow)
    · exact old_freshId s
    · obtain ⟨_, _, _, hmem, _, _⟩ := (file?_spec h).mp hf
      exact ⟨f, hmem, rfl, rfl⟩

/-- The target of a reference is a symbol of the repository of its file. -/
theorem hasSymbol_of_targetId? (h : s.Sound) {x : ReferenceRecord} {f : FileRow} {i : Id}
    (hf : file? s x.repository x.filePath = some f) (hi : targetId? s x = some i) :
    s.HasSymbol i f.repositoryId := by
  obtain ⟨k, -, hk⟩ := Option.bind_eq_some_iff.mp hi
  obtain ⟨y, hy, rfl⟩ := Option.map_eq_some_iff.mp hk
  obtain ⟨r, hr, hown⟩ := file?_eq_some.mp hf
  rw [(h.file?_eq_some.mp hown).2.1]
  exact hasSymbol_of_symbol? h hr hy

theorem Sound.upsertReference {x : ReferenceRecord} (h : s.Sound)
    (hok : upsertReference s x = .ok s') : s'.Sound := by
  obtain ⟨f, hf, ⟨-, rfl⟩ | ⟨hnone, rfl⟩⟩ := upsertReference_cases hok
  · apply h.mapReferences
    · intro row _
      split <;> rfl
    · intro row _
      split <;> rfl
    · intro row hrow i hi
      split at hi
      · next hplace =>
        have hfile : row.fileId = f.id := congrArg Prod.fst (atUse_iff.mp hplace)
        obtain ⟨g, hg, hgid, hgown⟩ := h.reference_file row hrow
        obtain ⟨_, _, _, hmem, _, _⟩ := (file?_spec h).mp hf
        have hsame : g = f := eq_of_key h.file_ids hg hmem (hgid.trans hfile)
        rw [← hgown, hsame]
        exact hasSymbol_of_targetId? h hf hi
      · exact h.reference_target row hrow i hi
  · apply h.addReference
    · intro row hrow heq
      have hplace : atUse f.id x row = true := atUse_iff.mpr heq
      rw [hnone row hrow] at hplace
      simp at hplace
    · obtain ⟨_, _, _, hmem, _, _⟩ := (file?_spec h).mp hf
      exact ⟨f, hmem, rfl, rfl⟩
    · intro i hi
      exact hasSymbol_of_targetId? h hf hi

theorem FileEndIs.isSome_eq {repository : String} {path : Option String} {id : Option Id}
    (hend : FileEndIs s repository path id) : id.isSome = path.isSome := by
  cases path with
  | none =>
    rw [FileEndIs] at hend
    simp [hend]
  | some p =>
    obtain ⟨f, -, rfl⟩ := hend
    rfl

theorem SymbolEndIs.isSome_eq {repository : String} {key : Option SymbolKey} {id : Option Id}
    (hend : SymbolEndIs s repository key id) : id.isSome = key.isSome := by
  cases key with
  | none =>
    rw [SymbolEndIs] at hend
    simp [hend]
  | some k =>
    obtain ⟨x, -, rfl⟩ := hend
    rfl

theorem FileEndIs.hasFile (h : s.Sound) {repository : String} {r : RepositoryRow}
    {path : Option String} {id : Option Id} {i : Id} (hr : s.repository? repository = some r)
    (hend : FileEndIs s repository path id) (hid : id = some i) : s.HasFile i r.id := by
  cases path with
  | none =>
    rw [FileEndIs] at hend
    simp [hend] at hid
  | some p =>
    obtain ⟨f, hf, rfl⟩ := hend
    obtain rfl := Option.some.inj hid
    exact hasFile_of_file? h hr hf

theorem SymbolEndIs.hasSymbol (h : s.Sound) {repository : String} {r : RepositoryRow}
    {key : Option SymbolKey} {id : Option Id} {i : Id} (hr : s.repository? repository = some r)
    (hend : SymbolEndIs s repository key id) (hid : id = some i) : s.HasSymbol i r.id := by
  cases key with
  | none =>
    rw [SymbolEndIs] at hend
    simp [hend] at hid
  | some k =>
    obtain ⟨x, hx, rfl⟩ := hend
    obtain rfl := Option.some.inj hid
    exact hasSymbol_of_symbol? h hr hx

/-- A row with the ends of a record fits when its owner is the repository of the record. -/
theorem edgeFits_of_ends (h : s.Sound) {e : EdgeRecord} {ends : Ends} {r : RepositoryRow}
    {row : EdgeRow} (hformed : e.edge.isWellFormed = true)
    (hr : s.repository? e.repository = some r) (hends : EndsAre s e ends)
    (howner : row.repositoryId = r.id) : s.EdgeFits (setEdge ends row) := by
  refine ⟨?_, ?_, ?_, ?_⟩
  · exact howner ▸ hasRepository_of_repository? h hr
  · rw [Store.EdgeRow.isComplete]
    simp only [setEdge, hends.fromFile.isSome_eq, hends.toFile.isSome_eq,
      hends.fromSymbol.isSome_eq, hends.toSymbol.isSome_eq]
    exact hformed
  · rintro i (hi | hi)
    · exact howner ▸ hends.fromFile.hasFile h hr hi
    · exact howner ▸ hends.toFile.hasFile h hr hi
  · rintro i (hi | hi)
    · exact howner ▸ hends.fromSymbol.hasSymbol h hr hi
    · exact howner ▸ hends.toSymbol.hasSymbol h hr hi

theorem Sound.upsertEdge {e : EdgeRecord} (h : s.Sound) (hok : upsertEdge s e = .ok s') :
    s'.Sound := by
  obtain ⟨hformed, r, ends, hr, hends, ⟨-, rfl⟩ | ⟨hnone, rfl⟩⟩ := upsertEdge_cases hok
  · apply h.mapEdges
    · intro row _
      split <;> rfl
    · intro row hrow
      split
      · next hplace =>
        simp only [Bool.and_eq_true, beq_iff_eq] at hplace
        exact edgeFits_of_ends h hformed hr hends hplace.1
      · exact h.edge_fits row hrow
  · apply h.addEdge
    · exact hnone
    · have hfits : s.EdgeFits (setEdge ends (newEdge r.id ends e)) :=
        edgeFits_of_ends h hformed hr hends rfl
      exact hfits

theorem Sound.upsertProject {p : ProjectRecord} (h : s.Sound) (hok : upsertProject s p = .ok s') :
    s'.Sound := by
  obtain ⟨-, rfl⟩ | ⟨hnone, rfl⟩ := upsertProject_cases hok
  · apply h.mapProjects
    · intro row _
      split <;> rfl
    · intro row _
      split <;> rfl
  · apply h.freshId.addProject
    · intro row hrow heq
      have hsome := h.project?_eq_some.mpr ⟨hrow, heq⟩
      rw [show (newProject s.freshId.1 p).name = p.name from rfl, hnone] at hsome
      simp at hsome
    · intro row hrow
      exact ne_freshId (h.project_old row hrow)
    · exact old_freshId s

theorem Sound.upsertMembership {m : MembershipRecord} (h : s.Sound)
    (hok : upsertMembership s m = .ok s') : s'.Sound := by
  obtain ⟨p, r, hp, hr, rfl⟩ := upsertMembership_cases hok
  exact h.addMembership ⟨p, (h.project?_eq_some.mp hp).1, rfl⟩ (hasRepository_of_repository? h hr)

/-- A line that a table accepts is the record of a value of the table. -/
theorem Table.of_apply {α : Type} {name : String} {codec : Codec α} {load : Store → List α}
    {key : α → Deletion} {upsert : Store → α → Upsert} {line : String}
    (hok : (Table.of name codec load key upsert).apply s line = .ok s') :
    ∃ a, codec.decode line = .ok a ∧ upsert s a = .ok s' := by
  simp only [Table.of] at hok
  split at hok
  · next a ha => exact ⟨a, ha, hok⟩
  · simp at hok

/-- No line of any table breaks the invariant. -/
theorem Sound.apply {table : Table} {line : String} (h : s.Sound) (htable : table ∈ Table.all)
    (hok : table.apply s line = .ok s') : s'.Sound := by
  simp only [Table.all, List.mem_cons, List.not_mem_nil, or_false] at htable
  rcases htable with rfl | rfl | rfl | rfl | rfl | rfl | rfl
  all_goals obtain ⟨a, -, hok⟩ := Table.of_apply hok
  · exact Sound.upsertRepository h hok
  · exact Sound.upsertFile h hok
  · exact Sound.upsertSymbol h hok
  · exact Sound.upsertReference h hok
  · exact Sound.upsertEdge h hok
  · exact Sound.upsertProject h hok
  · exact Sound.upsertMembership h hok

/-! What an import keeps -/

section Invariant

section Lines

-- What is known of the lines of a directory, and what each line of that kind keeps.

variable {P : Store → Prop} {Q : Table → String → Prop}
  (happly : ∀ (s s' : Store) (table : Table) (line : String), table ∈ Table.all → Q table line →
    P s → table.apply s line = .ok s' → P s')
include happly

theorem applyLines_keeps_of_forall {table : Table} (htable : table ∈ Table.all)
    (lines : List (Nat × String)) (hlines : ∀ l ∈ lines, Q table l.2) {s : Store} (h : P s)
    (done : ImportSummary) : P (applyLines table lines s done).1 := by
  induction lines generalizing s done with
  | nil => exact h
  | cons line rest ih =>
    obtain ⟨n, line⟩ := line
    obtain ⟨hline, hrest⟩ := List.forall_mem_cons.mp hlines
    rw [Sync.applyLines]
    split
    · next s' hok => exact ih hrest (happly s s' table line htable hline h hok) _
    · exact ih hrest h _

theorem readTables_keeps {t : Files.Tree} {dir : String} {tables : List Table}
    (htables : ∀ table ∈ tables, table ∈ Table.all)
    (hlines : ∀ table ∈ tables, ∀ text, t.readText [] (dir ++ "/" ++ table.fileName) = .ok text →
      ∀ l ∈ recordLines text, Q table l.2)
    {s s' : Store} {done done' : ImportSummary} (h : P s)
    (hok : readTables t dir tables s done = .ok (s', done')) : P s' := by
  induction tables generalizing s done with
  | nil =>
    obtain ⟨rfl, -⟩ := Prod.mk.inj (Except.ok.inj hok)
    exact h
  | cons table rest ih =>
    obtain ⟨htable, hrest⟩ := List.forall_mem_cons.mp htables
    obtain ⟨hfile, hfiles⟩ := List.forall_mem_cons.mp hlines
    rw [Sync.readTables] at hok
    dsimp only at hok
    split at hok
    · split at hok
      · simp at hok
      · next text htext =>
        refine ih hrest hfiles ?_ hok
        exact applyLines_keeps_of_forall happly htable _ (hfile text htext) h _
    · exact ih hrest hfiles h hok

/-- What the lines of a directory and the deletions keep holds after its import. -/
theorem importFrom_keeps_of_forall {t : Files.Tree} {dir : String} {summary : ImportSummary}
    (hlines : ∀ table ∈ Table.all, ∀ text,
      t.readText [] (dir ++ "/" ++ table.fileName) = .ok text →
        ∀ l ∈ recordLines text, Q table l.2)
    (hdelete : ∀ keys, P (applyDeletions s keys).1)
    (hok : importFrom s t dir = .ok (summary, s')) : P s' := by
  rw [Sync.importFrom] at hok
  split at hok
  · obtain ⟨text, -, hok⟩ := Store.bind_eq_ok.mp hok
    dsimp only at hok
    obtain ⟨⟨s1, done⟩, hread, hok⟩ := Store.bind_eq_ok.mp hok
    obtain ⟨-, rfl⟩ := Prod.mk.inj (Except.ok.inj hok)
    exact readTables_keeps happly (fun _ ht => ht) hlines (hdelete _) hread
  · simp at hok

end Lines

variable {P : Store → Prop}
  (happly : ∀ (s s' : Store) (table : Table) (line : String), table ∈ Table.all → P s →
    table.apply s line = .ok s' → P s')
include happly

theorem applyLines_keeps {table : Table} (htable : table ∈ Table.all) (lines : List (Nat × String))
    {s : Store} (h : P s) (done : ImportSummary) : P (applyLines table lines s done).1 :=
  applyLines_keeps_of_forall (Q := fun _ _ => True)
    (fun s s' table line ht _ => happly s s' table line ht) htable lines (fun _ _ => trivial) h done

/-- What every record and the deletions keep holds after an import, whatever the directory holds. -/
theorem importFrom_keeps {t : Files.Tree} {dir : String} {summary : ImportSummary}
    (hdelete : ∀ keys, P (applyDeletions s keys).1)
    (hok : importFrom s t dir = .ok (summary, s')) : P s' :=
  importFrom_keeps_of_forall (Q := fun _ _ => True)
    (fun s s' table line ht _ => happly s s' table line ht) (fun _ _ _ _ _ _ => trivial) hdelete hok

end Invariant

/-! Deletions -/

theorem Sound.applyDeletion (h : s.Sound) (key : Deletion) : (key.apply s).1.Sound := by
  cases key with
  | repository fullName =>
    rw [Deletion.apply]
    split
    · exact h.removeRepository fullName
    · exact h
  | file repo path =>
    rw [Deletion.apply]
    split
    · exact h.removeFiles _
    · exact h
  | symbol repo filePath name lineStart =>
    rw [Deletion.apply]
    split
    · exact h.removeSymbols _
    · exact h
  | reference repo filePath line column kind name =>
    rw [Deletion.apply]
    split
    · exact h
    · exact h.filterReferences _
  | edge repo edgeKey =>
    rw [Deletion.apply]
    split
    · exact h
    · exact h.filterEdges _
  | project name =>
    rw [Deletion.apply]
    split
    · exact h.removeProject name
    · exact h
  | membership proj repo =>
    rw [Deletion.apply]
    split
    · exact h.filterMemberships _
    · exact h

/-- Applying deletions is applying them one after the other. -/
theorem applyDeletions_fst (s : Store) (keys : List Deletion) :
    (applyDeletions s keys).1 = keys.foldl (fun s key => (key.apply s).1) s := by
  unfold applyDeletions
  generalize 0 = n
  induction keys generalizing s n with
  | nil => rfl
  | cons key rest ih => exact ih ..

theorem Sound.applyDeletions (h : s.Sound) (keys : List Deletion) :
    (applyDeletions s keys).1.Sound := by
  rw [applyDeletions_fst]
  induction keys generalizing s with
  | nil => exact h
  | cons key rest ih => exact ih (Sound.applyDeletion h key)

/-- An import keeps the invariant, whatever the directory holds. -/
theorem Sound.importFrom {t : Files.Tree} {dir : String} {summary : ImportSummary} (h : s.Sound)
    (hok : importFrom s t dir = .ok (summary, s')) : s'.Sound :=
  importFrom_keeps (fun _ _ _ _ htable hs hone => Sound.apply hs htable hone)
    (Sound.applyDeletions h) hok

end CodeIndex.Sync
