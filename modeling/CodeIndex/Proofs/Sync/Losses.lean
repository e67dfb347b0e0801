import CodeIndex.Proofs.Store.Acceptance
import CodeIndex.Proofs.Sync.Queue
import CodeIndex.Proofs.Sync.Tracking

/-!
What a run queues. The keys of lost files come from the paths that the run no longer has, those of
lost symbols, references and edges from a comparison of the keys before and after. Both tell rows by
their natural keys and not by their ids, which a run gives out anew. A run leaves its repository
with exactly its own keys, so the keys that are queued are exactly those that the repository has
lost, and a run that is stored again loses nothing.
-/
namespace CodeIndex.Store

variable {s s' : Store} {r : RepositoryRow} {k : Sync.Deletion}

/-- A repository has a file, a symbol, a reference or an edge with the key. An edge has the key that
it is stored under. -/
inductive Holds (s : Store) (r : RepositoryRow) : Sync.Deletion → Prop
  | file {f : FileRow} (hf : f ∈ s.files) (hown : f.repositoryId = r.id) :
      Holds s r (.file r.fullName f.path)
  | symbol {x : SymbolRow} {f : FileRow} (hx : x ∈ s.symbols) (hown : x.repositoryId = r.id)
      (hf : f ∈ s.files) (hfile : f.id = x.fileId) :
      Holds s r (.symbol r.fullName f.path x.name x.lineStart)
  | reference {x : ReferenceRow} {f : FileRow} (hx : x ∈ s.references)
      (hown : x.repositoryId = r.id) (hf : f ∈ s.files) (hfile : f.id = x.fileId) :
      Holds s r (.reference r.fullName f.path x.line x.column x.kind.name x.name)
  | edge {e : EdgeRow} (he : e ∈ s.edges) (hown : e.repositoryId = r.id) :
      Holds s r (.edge r.fullName e.key)

/-- A run for the repository of the name has a file, a symbol, a reference or an edge with the
key. -/
inductive Run.Has (run : Run) (name : String) : Sync.Deletion → Prop
  | file {f : SourceFile} (hf : f ∈ run.files) : Has run name (.file name f.path)
  | symbol {x : Symbol} (hx : x ∈ run.symbols) :
      Has run name (.symbol name x.filePath x.name x.lineStart)
  | reference {x : Reference} (hx : x ∈ run.references) :
      Has run name (.reference name x.filePath x.line x.column x.kind.name x.name)
  | edge {e : Edge} (he : e ∈ run.edges) : Has run name (.edge name e.key)

theorem Holds.owners (h : s.Holds r k) : k.owners = [.repository r.fullName] := by
  cases h <;> rfl

/-! The keys that are compared -/

theorem mem_derivedKeys_iff : k ∈ s.derivedKeys r ↔
    (∃ x ∈ s.symbols, x.repositoryId = r.id ∧ ∃ f, s.fileById? x.fileId = some f ∧
      .symbol r.fullName f.path x.name x.lineStart = k) ∨
    (∃ x ∈ s.references, x.repositoryId = r.id ∧ ∃ f, s.fileById? x.fileId = some f ∧
      .reference r.fullName f.path x.line x.column x.kind.name x.name = k) ∨
    ∃ e ∈ s.edges, e.repositoryId = r.id ∧ .edge r.fullName e.key = k := by
  simp [derivedKeys, and_assoc]

theorem file_not_mem_derivedKeys {name path : String} : .file name path ∉ s.derivedKeys r := by
  simp [mem_derivedKeys_iff]

/-- The keys of a repository are those of its files and those that are compared. -/
theorem Sound.holds_iff (h : s.Sound) : s.Holds r k ↔
    (∃ f ∈ s.files, f.repositoryId = r.id ∧ .file r.fullName f.path = k) ∨
      k ∈ s.derivedKeys r := by
  simp only [mem_derivedKeys_iff, h.fileById?_eq_some]
  constructor
  · rintro (⟨hf, hown⟩ | ⟨hx, hown, hf, hfile⟩ | ⟨hx, hown, hf, hfile⟩ | ⟨he, hown⟩)
    · exact .inl ⟨_, hf, hown, rfl⟩
    · exact .inr (.inl ⟨_, hx, hown, _, ⟨hf, hfile⟩, rfl⟩)
    · exact .inr (.inr (.inl ⟨_, hx, hown, _, ⟨hf, hfile⟩, rfl⟩))
    · exact .inr (.inr (.inr ⟨_, he, hown, rfl⟩))
  · rintro (⟨f, hf, hown, rfl⟩ | ⟨x, hx, hown, f, ⟨hf, hfile⟩, rfl⟩ |
      ⟨x, hx, hown, f, ⟨hf, hfile⟩, rfl⟩ | ⟨e, he, hown, rfl⟩)
    · exact .file hf hown
    · exact .symbol hx hown hf hfile
    · exact .reference hx hown hf hfile
    · exact .edge he hown

/-- Of two files of one repository with the same path there is one. -/
theorem Sound.fileId_eq (h : s.Sound) {i j owner : Id} (hi : s.HasFile i owner)
    (hj : s.HasFile j owner) {f g : FileRow} (hf : s.fileById? i = some f)
    (hg : s.fileById? j = some g) (hpath : f.path = g.path) : i = j := by
  obtain ⟨f', hf', rfl, hown⟩ := hi
  obtain ⟨g', hg', rfl, hown'⟩ := hj
  obtain rfl := Option.some.inj (hf.symm.trans (h.fileById?_eq_some.mpr ⟨hf', rfl⟩))
  obtain rfl := Option.some.inj (hg.symm.trans (h.fileById?_eq_some.mpr ⟨hg', rfl⟩))
  rw [eq_of_key h.file_places hf' hg' (Prod.ext (hown.trans hown'.symm) hpath)]

theorem nodup_filterMap {α β : Type} {rows : List α} {key : α → Option β} (h : rows.Nodup)
    (hkey : ∀ a ∈ rows, ∀ b ∈ rows, ∀ k, key a = some k → key b = some k → a = b) :
    (rows.filterMap key).Nodup := by
  rw [List.Nodup, List.pairwise_filterMap]
  refine h.pairwise_of_forall_ne fun a ha b hb hne k hk k' hk' heq => ?_
  exact hne (hkey a ha b hb k hk (heq ▸ hk'))

/-- Keys of rows that stand in the files of one repository: the path tells the file, so it is
enough that the file and the rest of the key tell the row. -/
theorem Sound.nodup_pathKeys (h : s.Sound) {α : Type} {rows : List α} {own fileId : α → Id}
    {key : α → String → Sync.Deletion} (owner : Id) (hrows : rows.Nodup)
    (hfile : ∀ a ∈ rows, s.HasFile (fileId a) (own a))
    (hkey : ∀ a ∈ rows, ∀ b ∈ rows, ∀ p q, key a p = key b q →
      p = q ∧ (fileId a = fileId b → a = b)) :
    ((rows.filter fun a => own a == owner).filterMap fun a =>
      ((s.fileById? (fileId a)).map FileRow.path).map (key a)).Nodup := by
  refine nodup_filterMap (hrows.filter _) ?_
  intro a ha b hb k hka hkb
  simp only [List.mem_filter, beq_iff_eq] at ha hb
  simp only [Option.map_map, Option.map_eq_some_iff, Function.comp_apply] at hka hkb
  obtain ⟨f, hf, rfl⟩ := hka
  obtain ⟨g, hg, heq⟩ := hkb
  obtain ⟨hpath, hsame⟩ := hkey b hb.1 a ha.1 g.path f.path heq
  have hb' : s.HasFile (fileId b) owner := hb.2 ▸ hfile b hb.1
  have ha' : s.HasFile (fileId a) owner := ha.2 ▸ hfile a ha.1
  exact (hsame (h.fileId_eq hb' ha' hg hf hpath)).symm

/-- The keys that are compared tell the rows. -/
theorem Sound.nodup_derivedKeys (h : s.Sound) (r : RepositoryRow) : (s.derivedKeys r).Nodup := by
  unfold derivedKeys
  dsimp only
  refine List.nodup_append.mpr ⟨List.nodup_append.mpr ⟨?symbols, ?references, ?_⟩, ?edges, ?_⟩
  case symbols =>
    refine h.nodup_pathKeys r.id (List.Nodup.of_map _ h.symbol_ids) h.symbol_file ?_
    intro x hx y hy p q heq
    obtain ⟨-, hpath, hname, hline⟩ := Sync.Deletion.symbol.inj heq
    refine ⟨hpath, fun hfile => eq_of_key h.symbol_places hx hy ?_⟩
    exact Prod.ext hfile (Prod.ext hname hline)
  case references =>
    refine h.nodup_pathKeys r.id (List.Nodup.of_map _ h.use_places) h.reference_file ?_
    intro x hx y hy p q heq
    obtain ⟨-, hpath, hline, hcolumn, hkind, hname⟩ := Sync.Deletion.reference.inj heq
    refine ⟨hpath, fun hfile => eq_of_key h.use_places hx hy ?_⟩
    simp only [usePlace, hfile, hline, hcolumn, hname, Sync.ReferenceKind.name_inj.mp hkind]
  case edges =>
    refine List.Nodup.map_on ?_ ((List.Nodup.of_map _ h.edge_places).filter _)
    intro d hd e he heq
    simp only [List.mem_filter, beq_iff_eq] at hd he
    exact eq_of_key h.edge_places hd.1 he.1
      (Prod.ext (hd.2.trans he.2.symm) (Sync.Deletion.edge.inj heq).2)
  -- keys of different kinds of rows differ
  · intro k hk k' hk' heq
    simp only [List.mem_filterMap, Option.map_map, Option.map_eq_some_iff] at hk hk'
    obtain ⟨_, -, _, -, rfl⟩ := hk
    obtain ⟨_, -, _, -, rfl⟩ := hk'
    cases heq
  · intro k hk k' hk' heq
    obtain ⟨e, -, rfl⟩ := List.mem_map.mp hk'
    subst heq
    rcases List.mem_append.mp hk with hk | hk
    · simp [List.mem_filterMap] at hk
    · simp [List.mem_filterMap] at hk

/-- The paths of a repository tell its files. -/
theorem Sound.nodup_lostFiles (h : s.Sound) (repositoryId : Id) (run : Run) (name : String) :
    ((s.lostFiles repositoryId run).map fun e => Sync.Deletion.file name e.1).Nodup := by
  refine List.Nodup.map_on ?_ ?_
  · intro a ha b hb heq
    have hmarkA := mem_storedIds.mp (List.mem_of_mem_filter ha)
    have hmarkB := mem_storedIds.mp (List.mem_of_mem_filter hb)
    have hpath : a.1 = b.1 := (Sync.Deletion.file.inj heq).2
    exact Prod.ext hpath (h.mark_id (hpath ▸ hmarkA) hmarkB)
  · refine List.Nodup.filter _ (List.Nodup.of_map Prod.snd ?_)
    rw [storedIds, List.map_map]
    exact nodup_map_filter h.file_ids _

/-! What a run leaves -/

/-- Each path of a run has a row when the files are written. -/
theorem exists_mark_putFiles {repositoryId : Id} {existing : FileIds} {s : Store} {ids : FileIds}
    {files : List SourceFile} {path : String} (hpath : path ∈ files.map SourceFile.path) :
    ∃ id, (id, repositoryId, path) ∈
      (putFiles repositoryId existing s ids files).1.files.map fileMark := by
  obtain ⟨f, hf, rfl⟩ := List.mem_map.mp (mem_map_lastFiles.mpr hpath)
  have hput : ∃ row ∈ (putFiles repositoryId existing s ids files).1.files,
      row.repositoryId = repositoryId ∧ sourceOf row = f := exists_mem_putFiles_of_last hf
  obtain ⟨row, hrow, rfl, hsource⟩ := hput
  refine ⟨row.id, List.mem_map.mpr ⟨row, hrow, ?_⟩⟩
  rw [fileMark, show row.path = f.path from congrArg SourceFile.path hsource]

namespace Outcome

variable {repositoryId : Id} {now : Int} {run : Run} (o : Outcome s repositoryId now run s')
include o

/-- The paths of the repository are those of the run. -/
theorem exists_file_iff (h : s.Sound) {path : String} :
    (∃ f ∈ s'.files, f.repositoryId = repositoryId ∧ f.path = path) ↔ path ∈ run.paths := by
  constructor
  · rintro ⟨f, hf, hown, rfl⟩
    exact ((o.mem_files_iff h hown).mp hf).2
  · intro hpath
    have hmark : ∃ id, (id, repositoryId, path) ∈
        (s.withFiles repositoryId run).1.files.map fileMark := exists_mark_putFiles hpath
    obtain ⟨id, hmark⟩ := hmark
    obtain ⟨f, hf, heq⟩ := List.mem_map.mp hmark
    simp only [fileMark, Prod.mk.injEq] at heq
    obtain ⟨-, hown, rfl⟩ := heq
    exact ⟨f, (o.mem_files_iff h hown).mpr ⟨hf, hpath⟩, hown, rfl⟩

/-- The places of its symbols are those of the symbols of the run. -/
theorem exists_symbol_iff {path name : String} {line : Nat} :
    (∃ x ∈ s'.symbols, x.repositoryId = repositoryId ∧ ∃ f ∈ s'.files, f.id = x.fileId ∧
      f.path = path ∧ x.name = name ∧ x.lineStart = line) ↔
      ⟨path, name, line⟩ ∈ run.symbols.map Symbol.key := by
  rw [← mem_map_firstsBy, ← o.symbols_read]
  simp only [List.mem_map, List.mem_filterMap, List.mem_filter, beq_iff_eq, symbolOf?,
    Option.map_eq_some_iff, o.written.sound.fileById?_eq_some]
  constructor
  · rintro ⟨x, hx, hown, f, hf, hfile, rfl, rfl, rfl⟩
    exact ⟨_, ⟨x, ⟨hx, hown⟩, f, ⟨hf, hfile⟩, rfl⟩, rfl⟩
  · rintro ⟨_, ⟨x, ⟨hx, hown⟩, f, ⟨hf, hfile⟩, rfl⟩, hkey⟩
    obtain ⟨hpath, hname, hline⟩ := SymbolKey.mk.inj hkey
    exact ⟨x, hx, hown, f, hf, hfile, hpath, hname, hline⟩

/-- The places of its references are those of the references of the run. -/
theorem exists_reference_iff {path name : String} {line column : Nat} {kind : ReferenceKind} :
    (∃ x ∈ s'.references, x.repositoryId = repositoryId ∧ ∃ f ∈ s'.files, f.id = x.fileId ∧
      f.path = path ∧ x.line = line ∧ x.column = column ∧ x.kind = kind ∧ x.name = name) ↔
      (path, line, column, kind, name) ∈ run.references.map useKey := by
  have hread : ((firstsBy useKey [] run.references).map run.storedReference).map useKey =
      (firstsBy useKey [] run.references).map useKey := List.map_map
  rw [← mem_map_firstsBy, ← hread, ← o.references_read]
  simp only [List.mem_map, List.mem_filterMap, List.mem_filter, beq_iff_eq, referenceOf?,
    Option.map_eq_some_iff, o.written.sound.fileById?_eq_some]
  constructor
  · rintro ⟨x, hx, hown, f, hf, hfile, rfl, rfl, rfl, rfl, rfl⟩
    exact ⟨_, ⟨x, ⟨hx, hown⟩, f, ⟨hf, hfile⟩, rfl⟩, rfl⟩
  · rintro ⟨_, ⟨x, ⟨hx, hown⟩, f, ⟨hf, hfile⟩, rfl⟩, hkey⟩
    simp only [useKey, Prod.mk.injEq] at hkey
    exact ⟨x, hx, hown, f, hf, hfile, hkey⟩

/-- The keys of its edges are those of the edges of the run. -/
theorem exists_edge_iff {key : String} :
    (∃ e ∈ s'.edges, e.repositoryId = repositoryId ∧ e.key = key) ↔
      key ∈ run.edges.map Edge.key := by
  have hread := congrArg (List.map Prod.fst) o.edges_read
  rw [List.map_map, List.map_map] at hread
  have hkeys : (s'.edges.filter fun e => e.repositoryId == repositoryId).map EdgeRow.key =
      (firstsBy Edge.key [] run.edges).map Edge.key := hread
  rw [← mem_map_firstsBy, ← hkeys]
  simp [and_assoc]

/-- A run leaves its repository with exactly its own keys. -/
theorem holds_iff (h : s.Sound) {r : RepositoryRow} (hid : r.id = repositoryId) :
    s'.Holds r k ↔ run.Has r.fullName k := by
  subst hid
  constructor
  · rintro (⟨hf, hown⟩ | ⟨hx, hown, hf, hfile⟩ | ⟨hx, hown, hf, hfile⟩ | ⟨he, hown⟩)
    · obtain ⟨f, hf, hpath⟩ := List.mem_map.mp ((o.exists_file_iff h).mp ⟨_, hf, hown, rfl⟩)
      exact hpath ▸ .file hf
    · obtain ⟨x, hx, hkey⟩ := List.mem_map.mp
        (o.exists_symbol_iff.mp ⟨_, hx, hown, _, hf, hfile, rfl, rfl, rfl⟩)
      obtain ⟨hpath, hname, hline⟩ := SymbolKey.mk.inj hkey
      exact hpath ▸ hname ▸ hline ▸ .symbol hx
    · obtain ⟨x, hx, hkey⟩ := List.mem_map.mp
        (o.exists_reference_iff.mp ⟨_, hx, hown, _, hf, hfile, rfl, rfl, rfl, rfl, rfl⟩)
      simp only [useKey, Prod.mk.injEq] at hkey
      obtain ⟨hpath, hline, hcolumn, hkind, hname⟩ := hkey
      exact hpath ▸ hline ▸ hcolumn ▸ hkind ▸ hname ▸ .reference hx
    · obtain ⟨e, he, hkey⟩ := List.mem_map.mp (o.exists_edge_iff.mp ⟨_, he, hown, rfl⟩)
      exact hkey ▸ .edge he
  · rintro (⟨hf⟩ | ⟨hx⟩ | ⟨hx⟩ | ⟨he⟩)
    · obtain ⟨f, hf, hown, hpath⟩ := (o.exists_file_iff h).mpr (List.mem_map_of_mem hf)
      exact hpath ▸ .file hf hown
    · obtain ⟨x, hx, hown, f, hf, hfile, hpath, hname, hline⟩ :=
        o.exists_symbol_iff.mpr (List.mem_map_of_mem (f := Symbol.key) hx)
      exact hpath ▸ hname ▸ hline ▸ .symbol hx hown hf hfile
    · obtain ⟨x, hx, hown, f, hf, hfile, hpath, hline, hcolumn, hkind, hname⟩ :=
        o.exists_reference_iff.mpr (List.mem_map_of_mem (f := useKey) hx)
      exact hpath ▸ hline ▸ hcolumn ▸ hkind ▸ hname ▸ .reference hx hown hf hfile
    · obtain ⟨e, he, hown, hkey⟩ := o.exists_edge_iff.mpr (List.mem_map_of_mem he)
      exact hkey ▸ .edge he hown

/-! What a run queues -/

/-- A lost file is one that the repository had before and not afterwards. -/
theorem mem_lostFiles_iff (h : s.Sound) {path : String} :
    path ∈ (s.lostFiles repositoryId run).map Prod.fst ↔
      (∃ f ∈ s.files, f.repositoryId = repositoryId ∧ f.path = path) ∧
        ¬∃ f ∈ s'.files, f.repositoryId = repositoryId ∧ f.path = path := by
  rw [o.exists_file_iff h, Run.paths, ← isSome_path]
  simp only [lostFiles, storedIds, List.mem_map, List.mem_filter, beq_iff_eq, Bool.not_eq_true,
    Option.isSome_eq_false_iff]
  constructor
  · rintro ⟨_, ⟨⟨f, ⟨hf, hown⟩, rfl⟩, hlost⟩, rfl⟩
    exact ⟨⟨f, hf, hown, rfl⟩, hlost⟩
  · rintro ⟨⟨f, hf, hown, rfl⟩, hlost⟩
    exact ⟨_, ⟨⟨f, ⟨hf, hown⟩, rfl⟩, hlost⟩, rfl⟩

/-- The keys that a run queues are those that its repository has lost, once each. -/
theorem exists_keys (h : s.Sound) : ∃ keys : List Sync.Deletion,
    s'.pending.map Pending.key = s.pending.map Pending.key ++ keys ∧ keys.Nodup ∧
      ∀ k, k ∈ keys ↔ s.Holds o.repository k ∧ ¬s'.Holds o.repository k := by
  have hid : o.repository.id = repositoryId := (h.repositoryById?_eq_some.mp o.found).2
  refine ⟨(s.lostFiles repositoryId run).map (fun e => .file o.repository.fullName e.1) ++
    (s.derivedKeys o.repository).filter fun k => !(s'.derivedKeys o.repository).contains k,
    o.pending_eq.trans (List.append_assoc _ _ _), ?_, fun k => ?_⟩
  · refine List.nodup_append.mpr ⟨h.nodup_lostFiles _ run _, (h.nodup_derivedKeys _).filter _, ?_⟩
    intro k hk k' hk' heq
    obtain ⟨e, -, rfl⟩ := List.mem_map.mp hk
    exact file_not_mem_derivedKeys (heq ▸ List.mem_of_mem_filter hk')
  · have hfile : ∀ path, (∃ e ∈ s.lostFiles repositoryId run, e.1 = path) ↔
        (∃ f ∈ s.files, f.repositoryId = repositoryId ∧ f.path = path) ∧
          ¬∃ f ∈ s'.files, f.repositoryId = repositoryId ∧ f.path = path :=
      fun path => List.mem_map.symm.trans (o.mem_lostFiles_iff h)
    rw [h.holds_iff, o.written.sound.holds_iff, hid, List.mem_append, List.mem_map,
      List.mem_filter, Bool.not_eq_true', ← Bool.not_eq_true, List.contains_iff_mem]
    -- A key is that of a file or one of those that are compared, and not both.
    by_cases hk : ∃ path, k = .file o.repository.fullName path
    · obtain ⟨path, rfl⟩ := hk
      simpa [file_not_mem_derivedKeys] using hfile path
    · have hnone : ∀ path, Sync.Deletion.file o.repository.fullName path ≠ k :=
        fun path heq => hk ⟨path, heq.symm⟩
      simp [hnone]

end Outcome

section Runs

variable {repositoryId : Id} {now : Int} {run : Run} {counts : RunCounts}

/-- What stands in the queue after a run, behind all that waited before. -/
theorem Sound.exists_queued (h : s.Sound)
    (hok : s.storeRun repositoryId now run = .ok (counts, s')) :
    ∃ r ∈ s.repositories, r.id = repositoryId ∧ ∃ more, s'.pending = s.pending ++ more ∧
      (more.map Pending.key).Nodup ∧
      ∀ k, k ∈ more.map Pending.key ↔ s.Holds r k ∧ ¬s'.Holds r k := by
  obtain ⟨o⟩ := h.storeRun_outcome hok
  obtain ⟨hmem, hid⟩ := h.repositoryById?_eq_some.mp o.found
  obtain ⟨keys, hwaiting, hnodup, hkeys⟩ := o.exists_keys h
  obtain ⟨_, hqueues⟩ := storeRun_queues hok
  obtain ⟨more, hpending, -, -⟩ := hqueues.behind
  rw [hpending, List.map_append] at hwaiting
  obtain rfl := List.append_cancel_left hwaiting
  exact ⟨o.repository, hmem, hid, more, hpending, hnodup, hkeys⟩

/-- A run that was stored can be stored again. -/
theorem Sound.storeRun_again (h : s.Sound)
    (hok : s.storeRun repositoryId now run = .ok (counts, s')) (now' : Int) :
    ∃ out, s'.storeRun repositoryId now' run = .ok out := by
  obtain ⟨o⟩ := h.storeRun_outcome hok
  have h' := o.written.sound
  obtain ⟨-, hrun⟩ := h.fits_of_storeRun hok
  have howner : s'.HasRepository repositoryId := by
    obtain ⟨r, hr, hid⟩ := o.owner
    refine ⟨noteTime repositoryId now r, ?_, ?_⟩
    · rw [o.repositories_eq]
      exact List.mem_map_of_mem hr
    · rw [noteTime]
      split <;> exact hid
  refine h'.storeRun_isOk_of_held now' howner (fun repository path hpath => ?_) hrun
  rw [mem_withFiles_paths] at hpath
  obtain ⟨f, hf, hown, rfl⟩ := (o.exists_file_iff h).mpr hpath
  have hmark : (f.id, repositoryId, f.path) ∈ s'.files.map fileMark :=
    hown ▸ List.mem_map_of_mem (f := fileMark) hf
  exact h'.holdsFile_of_stored howner repository hmark hpath

/-- A run that is stored on top of itself loses nothing. -/
theorem Sound.pending_storeRun_again (h : s.Sound)
    (hok : s.storeRun repositoryId now run = .ok (counts, s')) {now' : Int} {counts' : RunCounts}
    {s'' : Store} (hagain : s'.storeRun repositoryId now' run = .ok (counts', s'')) :
    s''.pending = s'.pending := by
  have h' := h.storeRun hok
  obtain ⟨o⟩ := h.storeRun_outcome hok
  obtain ⟨o'⟩ := h'.storeRun_outcome hagain
  obtain ⟨r, -, hid, more, hpending, -, hkeys⟩ := h'.exists_queued hagain
  have hnone : more.map Pending.key = [] := by
    refine List.eq_nil_iff_forall_not_mem.mpr fun k hk => ?_
    obtain ⟨hbefore, hafter⟩ := (hkeys k).mp hk
    -- Both times the repository is left with the keys of the run.
    exact hafter ((o'.holds_iff h' hid).mpr ((o.holds_iff h hid).mp hbefore))
  rw [hpending, List.map_eq_nil_iff.mp hnone, List.append_nil]

/-- A run queues exactly what it takes away. The keys that it adds to the queue are, once each, the
keys of the files, symbols, references and edges that its repository had before the run and has not
after it; all of them are keys of this repository. The same run stored again queues nothing. -/
theorem storeRun_queues_losses (h : Reachable s)
    (hok : s.storeRun repositoryId now run = .ok (counts, s')) :
    ∃ r ∈ s.repositories, r.id = repositoryId ∧ ∃ more, s'.pending = s.pending ++ more ∧
      (more.map Pending.key).Nodup ∧
      (∀ k, k ∈ more.map Pending.key ↔ s.Holds r k ∧ ¬s'.Holds r k) ∧
      (∀ p ∈ more, p.key.owners = [.repository r.fullName]) ∧
      ∀ now', ∃ counts' s'', s'.storeRun repositoryId now' run = .ok (counts', s'') ∧
        s''.pending = s'.pending := by
  obtain ⟨r, hr, hid, more, hpending, hnodup, hkeys⟩ := h.sound.exists_queued hok
  refine ⟨r, hr, hid, more, hpending, hnodup, hkeys, fun p hp => ?_, fun now' => ?_⟩
  · exact ((hkeys p.key).mp (List.mem_map_of_mem hp)).1.owners
  · obtain ⟨⟨counts', s''⟩, hagain⟩ := h.sound.storeRun_again hok now'
    exact ⟨counts', s'', hagain, h.sound.pending_storeRun_again hok hagain⟩

end Runs

/-- The later run has moved the function and dropped both edges of the file to itself. The call is
still there, without its target, so its key is not queued. -/
theorem storeRun_queues_losses_laterRun : ∃ s s' : Store, Reachable s ∧ s.pending = [] ∧
    (∃ counts, s.storeRun (.given "1") 1 laterRun = .ok (counts, s')) ∧
    s'.pending.map Pending.key = [.symbol "r" "a.ts" "f" 1, .edge "r" "file_import|a.ts|a.ts||",
      .edge "r" "symbol_usage|||a.ts#f@1|a.ts#f@1"] ∧
    (∃ r ∈ s.repositories, r.fullName = "r" ∧
      ∀ k ∈ s'.pending.map Pending.key, s.Holds r k ∧ ¬s'.Holds r k) ∧
    ∃ counts' s'', s'.storeRun (.given "1") 2 laterRun = .ok (counts', s'') ∧
      s''.pending = s'.pending := by
  have h : Reachable _ :=
    .step (.storeRepository (.ofFullName "r" "") (.given "1") 0 sampleRun) (.empty 0)
      (by intro n hn; cases hn) rfl
  obtain ⟨r, hr, hid, more, hpending, -, hkeys, -, hagain⟩ :=
    @storeRun_queues_losses _ _ (.given "1") 1 laterRun _ h rfl
  obtain rfl := List.mem_singleton.mp hr
  refine ⟨_, _, h, rfl, ⟨_, rfl⟩, by decide +kernel, ⟨_, hr, rfl, fun k hk => ?_⟩, hagain 2⟩
  rw [hpending] at hk
  exact (hkeys k).mp hk

end CodeIndex.Store
