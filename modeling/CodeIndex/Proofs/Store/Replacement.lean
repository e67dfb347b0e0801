import CodeIndex.Proofs.Operation

/-!
A stored run is a full replacement: what the loaders return for its repository afterwards is a
function of the run. The rows of the run are, before they are sorted, the first values of every key
in the order of the run, so the loaders return these values sorted.
-/
namespace CodeIndex.Store

/-- The symbol that a run knows under a key, as the loaders give it back. -/
def Run.keep (run : Run) (key : Option SymbolKey) : Option SymbolKey :=
  key.filter fun k => decide (k ∈ run.symbols.map Symbol.key)

/-- A reference as it is given back: it keeps a target that is a symbol of the run. -/
def Run.storedReference (run : Run) (r : Reference) : Reference :=
  { r with targetSymbol := run.keep r.targetSymbol }

/-- An edge as it is given back: it keeps the ends that are symbols of the run. -/
def Run.storedEdge (run : Run) (repositoryId : String) (e : Edge) : Edge :=
  { e with
    repositoryId
    fromSymbol := run.keep e.fromSymbol
    toSymbol := run.keep e.toSymbol }

theorem Run.keep_eq_self {run : Run} {key : Option SymbolKey}
    (h : ∀ k, key = some k → k ∈ run.symbols.map Symbol.key) : run.keep key = key := by
  cases key with
  | none => rfl
  | some k => rw [Run.keep, Option.filter_some, if_pos (by simpa using h k rfl)]

/-- An edge whose symbols the run has is given back as it is. -/
theorem Run.storedEdge_eq_self {run : Run} {repositoryId : String} {e : Edge}
    (h : ∀ key, e.fromSymbol = some key ∨ e.toSymbol = some key →
      key ∈ run.symbols.map Symbol.key) :
    run.storedEdge repositoryId e = { e with repositoryId } := by
  rw [Run.storedEdge, Run.keep_eq_self fun k hk => h k (.inl hk),
    Run.keep_eq_self fun k hk => h k (.inr hk)]

/-! Lists of rows and the values they stand for -/

theorem filter_own_append {α : Type} {own : α → Id} {owner : Id} {others rows : List α}
    (hrows : ∀ a ∈ rows, own a = owner) :
    ((others.filter fun a => own a != owner) ++ rows).filter (fun a => own a == owner) = rows := by
  have hothers : (others.filter fun a => own a != owner).filter (fun a => own a == owner) = [] := by
    rw [List.filter_eq_nil_iff]
    intro a ha
    simpa using (List.mem_filter.mp ha).2
  have hself : rows.filter (fun a => own a == owner) = rows :=
    List.filter_eq_self.mpr fun a ha => beq_iff_eq.mpr (hrows a ha)
  rw [List.filter_append, hothers, hself, List.nil_append]

theorem map_eq_map_of_forall₂ {α β γ : Type} {f : α → γ} {g : β → γ} {rows : List α} {xs : List β}
    (h : List.Forall₂ (fun a b => f a = g b) rows xs) : rows.map f = xs.map g := by
  induction h with
  | nil => rfl
  | cons hab _ ih => rw [List.map_cons, List.map_cons, hab, ih]

theorem filterMap_eq_map_of_forall₂ {α β γ : Type} {f : α → Option γ} {g : β → γ} {rows : List α}
    {xs : List β} (h : List.Forall₂ (fun a b => f a = some (g b)) rows xs) :
    rows.filterMap f = xs.map g := by
  induction h with
  | nil => rfl
  | cons hab _ ih => rw [List.filterMap_cons, hab, List.map_cons, ih]

theorem forall_left_of_forall₂ {α β : Type} {R : α → β → Prop} {P : α → Prop} {rows : List α}
    {xs : List β} (h : List.Forall₂ R rows xs) (hP : ∀ a b, R a b → P a) : ∀ a ∈ rows, P a := by
  intro a ha
  induction h with
  | nil => exact absurd ha List.not_mem_nil
  | cons hab _ ih =>
    rcases List.mem_cons.mp ha with rfl | ha
    · exact hP _ _ hab
    · exact ih ha

/-! The keys that rows stand for -/

/-- A named symbol is known outside the store under its key. -/
theorem SymbolsWritten.symbolKey? {repositoryId : Id} {files : FileIds} {s : Store}
    {ids : SymbolIds} (h : SymbolsWritten repositoryId files s ids) {key : SymbolKey} {id : Id}
    (hid : (key, id) ∈ ids) : s.symbolKey? (some id) = some key := by
  obtain ⟨x, hx, hxid, -, hname, hline, hmark⟩ := h.named key id hid
  obtain ⟨f, hf, -, hpath⟩ := h.sound.fileById?_of_mark hmark
  have hfound := h.sound.symbolById?_eq_some.mpr ⟨hx, hxid⟩
  simp [Store.symbolKey?, hfound, hf, hpath, hname, hline]

namespace Outcome

variable {s s' : Store} {repositoryId : Id} {now : Int} {run : Run}
  (o : Outcome s repositoryId now run s')
include o

/-- The symbol map of a run has the keys of its symbols. -/
theorem mem_keys {key : SymbolKey} :
    key ∈ o.ids.map Prod.fst ↔ key ∈ run.symbols.map Symbol.key := by
  rw [o.keys, mem_map_firstsBy]

/-- An end that was looked up in the symbol map is given back if the run knows it. -/
theorem symbolKey?_bind (key : Option SymbolKey) :
    s'.symbolKey? (key.bind (symbolId? o.ids)) = run.keep key := by
  cases key with
  | none => rfl
  | some k =>
    rw [Option.bind_some]
    cases hid : symbolId? o.ids k with
    | none =>
      have hnot : k ∉ run.symbols.map Symbol.key := by
        rw [← o.mem_keys]
        intro hmem
        obtain ⟨e, he, rfl⟩ := List.mem_map.mp hmem
        have hnone := List.find?_eq_none.mp (Option.map_eq_none_iff.mp hid) e he
        simp at hnone
      rw [Run.keep, Option.filter_some, if_neg (by simpa using hnot)]
      rfl
    | some id =>
      have hmem := mem_of_symbolId? hid
      have hknown : k ∈ run.symbols.map Symbol.key :=
        o.mem_keys.mp (List.mem_map_of_mem (f := Prod.fst) hmem)
      rw [o.written.symbolKey? hmem, Run.keep, Option.filter_some, if_pos (by simpa using hknown)]

/-- The path of a file end is given back. -/
theorem filePath?_end {path : Option String} {id : Option Id}
    (hend : FileEnd (s.withFiles repositoryId run).2 path id)
    (hstored : ∀ i, id = some i → (s'.fileById? i).isSome = true) : s'.filePath? id = path := by
  cases path with
  | none =>
    rw [FileEnd] at hend
    rw [hend]
    rfl
  | some p =>
    obtain ⟨i, hi, rfl⟩ := hend
    have hmark := o.written.files_named.mark hi (hstored i rfl)
    obtain ⟨f, hf, -, hpath⟩ := o.written.sound.fileById?_of_mark hmark
    simp [filePath?, hf, hpath]

/-! The rows that a run writes belong to its repository -/

theorem symbolRows_own : ∀ row ∈ o.symbolRows, row.repositoryId = repositoryId := by
  apply forall_left_of_forall₂ (P := fun row => row.repositoryId = _) o.symbols_stand
  rintro row x ⟨hrow, -⟩
  rw [hrow]
  rfl

theorem referenceRows_own : ∀ row ∈ o.referenceRows, row.repositoryId = repositoryId := by
  apply forall_left_of_forall₂ (P := fun row => row.repositoryId = _) o.references_stand
  rintro row x ⟨hrow, -⟩
  rw [hrow]
  rfl

theorem edgeRows_own : ∀ row ∈ o.edgeRows, row.repositoryId = repositoryId := by
  apply forall_left_of_forall₂ (P := fun row => row.repositoryId = _) o.edges_stand
  rintro row e ⟨hrow, -⟩
  rw [hrow]
  rfl

/-! What the loaders read -/

theorem symbols_read :
    (s'.symbols.filter fun x => x.repositoryId == repositoryId).filterMap s'.symbolOf? =
      firstsBy Symbol.key [] run.symbols := by
  rw [o.symbols_eq, filter_own_append o.symbolRows_own,
    ← List.map_id (firstsBy Symbol.key [] run.symbols)]
  apply filterMap_eq_map_of_forall₂
  apply o.symbols_stand.imp
  rintro row x ⟨hrow, hmark⟩
  obtain ⟨f, hf, -, hpath⟩ := o.written.sound.fileById?_of_mark hmark
  rw [hrow]
  simp [symbolOf?, symbolRow, hf, hpath]

theorem references_read :
    (s'.references.filter fun x => x.repositoryId == repositoryId).filterMap s'.referenceOf? =
      (firstsBy useKey [] run.references).map run.storedReference := by
  rw [o.references_eq, filter_own_append o.referenceRows_own]
  apply filterMap_eq_map_of_forall₂
  apply o.references_stand.imp
  rintro row x ⟨hrow, hmark⟩
  obtain ⟨f, hf, -, hpath⟩ := o.written.sound.fileById?_of_mark hmark
  rw [hrow]
  simp [referenceOf?, referenceRow, hf, hpath, Run.storedReference, o.symbolKey?_bind]

/-- The edges of a run with their keys. -/
theorem edges_read :
    (s'.edges.filter fun e => e.repositoryId == repositoryId).map
        (fun row => (row.key, s'.edgeOf repositoryId.text row)) =
      (firstsBy Edge.key [] run.edges).map
        fun e => (e.key, run.storedEdge repositoryId.text e) := by
  rw [o.edges_eq, filter_own_append o.edgeRows_own]
  apply map_eq_map_of_forall₂
  apply o.edges_stand.imp
  rintro row e ⟨hrow, hfrom, hto, hstored⟩
  have hfromPath := o.filePath?_end hfrom fun i hi => hstored i (.inl hi)
  have htoPath := o.filePath?_end hto fun i hi => hstored i (.inr hi)
  rw [hrow]
  simp [edgeOf, edgeRow, Run.storedEdge, hfromPath, htoPath, o.symbolKey?_bind]

theorem owner : s.HasRepository repositoryId :=
  ⟨o.repository, List.mem_of_find?_eq_some o.found, by simpa using List.find?_some o.found⟩

omit o in
/-- The file map of a run has the paths of its files. -/
theorem isSome_path {path : String} :
    (fileId? (s.withFiles repositoryId run).2 path).isSome = true ↔
      path ∈ run.files.map SourceFile.path := by
  rw [isSome_fileId?, withFiles, mem_putFiles_paths]
  simp

/-- A row of the repository stays when its path is one of the run, and only then. -/
theorem mem_files_iff (h : s.Sound) {row : FileRow} (hown : row.repositoryId = repositoryId) :
    row ∈ s'.files ↔ row ∈ (s.withFiles repositoryId run).1.files ∧
      row.path ∈ run.files.map SourceFile.path := by
  rw [o.files_eq, List.mem_filter]
  apply and_congr_right
  intro hrow
  rw [← isSome_path]
  simp only [Bool.not_eq_true', ← Bool.not_eq_true, List.contains_iff_mem]
  constructor
  · intro hkept
    rcases mem_putFiles_marks (List.mem_map_of_mem (f := fileMark) hrow) with
      hmark | ⟨f, hf, hplace⟩
    · by_contra hnone
      apply hkept
      have hstored : (row.path, row.id) ∈ s.storedIds repositoryId :=
        mem_storedIds.mpr (hown ▸ hmark)
      exact List.mem_map_of_mem (f := Prod.snd)
        (List.mem_filter.mpr ⟨hstored, by simpa using hnone⟩)
    · rw [isSome_path]
      have hpath : row.path = f.path := congrArg Prod.snd hplace
      exact hpath ▸ List.mem_map_of_mem hf
  · intro hsome hlost
    have hnone := (List.mem_filter.mp (h.mark_of_lost o.owner run hrow hlost).1).2
    simp [Option.isSome_iff_ne_none.mp hsome] at hnone

/-- The rows of the repository are the last files of the run, one for each path. -/
theorem files_read_last (h : s.Sound) :
    ((s'.files.filter fun f => f.repositoryId == repositoryId).map sourceOf).Perm
      (lastFiles run.files) := by
  have hs := o.written.sound
  have hplace : ∀ a ∈ s'.files.filter (fun f => f.repositoryId == repositoryId),
      a ∈ s'.files ∧ a.repositoryId = repositoryId := by
    intro a ha
    simpa using List.mem_filter.mp ha
  have hrows : ((s'.files.filter fun f => f.repositoryId == repositoryId).map sourceOf).Nodup := by
    apply List.Nodup.map_on
    · intro a ha b hb heq
      have hpath : a.path = b.path := congrArg SourceFile.path heq
      exact eq_of_key hs.file_places (hplace a ha).1 (hplace b hb).1
        (Prod.ext ((hplace a ha).2.trans (hplace b hb).2.symm) hpath)
    · exact (List.Nodup.of_map _ hs.file_ids).filter _
  rw [List.perm_ext_iff_of_nodup hrows (List.Nodup.of_map _ (nodup_lastFiles run.files))]
  -- The row that a file of the run was written to.
  have hwritten : ∀ f ∈ lastFiles run.files, ∃ row ∈ s'.files, row.repositoryId = repositoryId ∧
      sourceOf row = f := by
    intro f hf
    have hput : ∃ row ∈ (s.withFiles repositoryId run).1.files, row.repositoryId = repositoryId ∧
        sourceOf row = f := exists_mem_putFiles_of_last hf
    obtain ⟨row, hrow, hown, rfl⟩ := hput
    have hpath := mem_map_lastFiles.mp (List.mem_map_of_mem (f := SourceFile.path) hf)
    exact ⟨row, (o.mem_files_iff h hown).mpr ⟨hrow, hpath⟩, hown, rfl⟩
  intro f
  constructor
  · intro hf
    obtain ⟨row, hrow, rfl⟩ := List.mem_map.mp hf
    obtain ⟨hmem, hown⟩ := hplace row hrow
    obtain ⟨g, hg, hpath⟩ :=
      List.mem_map.mp (mem_map_lastFiles.mpr ((o.mem_files_iff h hown).mp hmem).2)
    obtain ⟨row', hmem', hown', rfl⟩ := hwritten g hg
    have hsame : row' = row :=
      eq_of_key hs.file_places hmem' hmem (Prod.ext (hown'.trans hown.symm) hpath)
    exact hsame ▸ hg
  · intro hf
    obtain ⟨row, hrow, hown, rfl⟩ := hwritten f hf
    exact List.mem_map_of_mem (List.mem_filter.mpr ⟨hrow, by simpa using hown⟩)

/-- The rows of the repository are the files of a run with distinct paths. -/
theorem files_read (h : s.Sound) (hpaths : (run.files.map SourceFile.path).Nodup) :
    ((s'.files.filter fun f => f.repositoryId == repositoryId).map sourceOf).Perm run.files := by
  have hlast := o.files_read_last h
  rwa [lastFiles_eq_self hpaths] at hlast

/-- A path that was stored before keeps its id. -/
theorem file_id_kept (h : s.Sound) {path : String} {f : FileRow}
    (hf : s.file? repositoryId path = some f) (hpath : path ∈ run.files.map SourceFile.path) :
    ∃ f', s'.file? repositoryId path = some f' ∧ f'.id = f.id := by
  obtain ⟨hmem, hown, rfl⟩ := h.file?_eq_some.mp hf
  have hmark : fileMark f ∈ (s.withFiles repositoryId run).1.files.map fileMark :=
    mem_putFiles_marks_of_mem (List.mem_map_of_mem hmem)
  obtain ⟨row, hrow, hmark⟩ := List.mem_map.mp hmark
  simp only [fileMark, Prod.mk.injEq] at hmark
  obtain ⟨hid, hrowOwn, hrowPath⟩ := hmark
  have hstays := (o.mem_files_iff h (hrowOwn.trans hown)).mpr ⟨hrow, hrowPath.symm ▸ hpath⟩
  exact ⟨row, o.written.sound.file?_eq_some.mpr ⟨hstays, hrowOwn.trans hown, hrowPath⟩, hid⟩

end Outcome

/-- The repository of a run is found under its name, with the time of the run. -/
theorem Outcome.requireRepository {s s' : Store} {now : Int} {run : Run} {r : RepositoryRow}
    (o : Outcome s r.id now run s') (hr : r ∈ s.repositories) :
    s'.requireRepository r.fullName = .ok { r with lastIndexedAt := some now } := by
  have hmem : noteTime r.id now r ∈ s'.repositories := by
    rw [o.repositories_eq]
    exact List.mem_map_of_mem hr
  have hnoted : noteTime r.id now r = { r with lastIndexedAt := some now } := by
    simp [noteTime]
  rw [hnoted] at hmem
  have hfound := o.written.sound.repository?_eq_some.mpr ⟨hmem, rfl⟩
  rw [Store.requireRepository, show s'.repository? r.fullName = _ from hfound]

/-- The rows of edges sorted by their keys are the edges sorted by theirs. -/
theorem map_mergeSort_of_map_eq {α β γ : Type} {f : α → String × γ} {g : β → String × γ}
    {rows : List α} {xs : List β} (h : rows.map f = xs.map g) :
    (rows.mergeSort fun a b => (compare (f a).1 (f b).1).isLE).map (fun a => (f a).2) =
      (xs.mergeSort fun a b => (compare (g a).1 (g b).1).isLE).map fun b => (g b).2 := by
  have hf := List.map_mergeSort (f := f) (l := rows)
    (r := fun a b => (compare (f a).1 (f b).1).isLE) (s := fun a b => (compare a.1 b.1).isLE)
    fun _ _ _ _ => rfl
  have hg := List.map_mergeSort (f := g) (l := xs)
    (r := fun a b => (compare (g a).1 (g b).1).isLE) (s := fun a b => (compare a.1 b.1).isLE)
    fun _ _ _ _ => rfl
  have hsorted := hf.trans ((congrArg (List.mergeSort · _) h).trans hg.symm)
  have hsnd := congrArg (List.map Prod.snd) hsorted
  rw [List.map_map, List.map_map] at hsnd
  exact hsnd

/-- What the loaders return for a repository after a run depends on the run alone: its files, the
first symbol, reference and edge of every key in order, and the ends that are symbols of the run.
A path that was stored before keeps the id of its row. -/
theorem storeRun_replaces {s s' : Store} (h : Reachable s) {r : RepositoryRow}
    (hr : r ∈ s.repositories) {now : Int} {run : Run} {counts : RunCounts}
    (hpaths : (run.files.map SourceFile.path).Nodup)
    (hok : s.storeRun r.id now run = .ok (counts, s')) :
    ((s'.files.filter fun f => f.repositoryId == r.id).map sourceOf).Perm run.files ∧
      s'.loadSymbols r.fullName =
        .ok ((run.symbols.eraseDupsBy fun a b => a.key == b.key).mergeSort
          fun a b => (compareSymbols a b).isLE) ∧
      s'.loadReferences r.fullName =
        .ok (((run.references.eraseDupsBy fun a b => useKey a == useKey b).map
          run.storedReference).mergeSort fun a b => (compareReferences a b).isLE) ∧
      s'.loadEdges r.fullName =
        .ok ({ r with lastIndexedAt := some now },
          ((run.edges.eraseDupsBy fun a b => a.key == b.key).mergeSort
            fun a b => (compare a.key b.key).isLE).map (run.storedEdge r.id.text)) ∧
      ∀ f ∈ s.files, f.repositoryId = r.id → f.path ∈ run.files.map SourceFile.path →
        ∃ f' ∈ s'.files, f'.repositoryId = r.id ∧ f'.path = f.path ∧ f'.id = f.id := by
  have hs := h.sound
  obtain ⟨o⟩ := hs.storeRun_outcome hok
  have hrepository := o.requireRepository hr
  have hfirsts : ∀ {α κ : Type} [DecidableEq κ] [BEq κ] [LawfulBEq κ] (key : α → κ) (xs : List α),
      xs.eraseDupsBy (fun a b => key a == key b) = firstsBy key [] xs := by
    intro α κ _ _ _ key xs
    rw [firstsBy_eq_eraseDupsBy]
    simp
  refine ⟨o.files_read hs hpaths, ?_, ?_, ?_, ?_⟩
  · rw [hfirsts, ← o.symbols_read, loadSymbols, hrepository]
    rfl
  · rw [hfirsts, ← o.references_read, loadReferences, hrepository]
    rfl
  · rw [hfirsts, loadEdges, hrepository]
    have hedges := map_mergeSort_of_map_eq o.edges_read
    exact congrArg (fun edges => Except.ok (_, edges)) hedges
  · intro f hf hown hpath
    obtain ⟨f', hf', hid⟩ := o.file_id_kept hs (hs.file?_eq_some.mpr ⟨hf, hown, rfl⟩) hpath
    obtain ⟨hmem, hown', hpath'⟩ := o.written.sound.file?_eq_some.mp hf'
    exact ⟨f', hmem, hown', hpath', hid⟩

/-- A run in which the called function has moved: the later of two symbols with one key and a target
that is no symbol of the run are lost. -/
def laterRun : Run where
  files := [⟨"a.ts", "g()", .typescript, 3, "", 1⟩, ⟨"b.ts", "", .typescript, 0, "", 1⟩]
  symbols := [⟨"a.ts", "g", .function, 2, 2, none, none, true⟩,
    ⟨"a.ts", "g", .constant, 2, 3, none, none, false⟩]
  references := [{ filePath := "a.ts", name := "f", kind := .call, line := 1, column := 0,
                   targetSymbol := some ⟨"a.ts", "f", 1⟩ }]
  edges := [.fileImport "" "a.ts" "b.ts"]

theorem storeRun_replaces_laterRun : ∃ s s' : Store, Reachable s ∧ s.symbols.length = 1 ∧
    (∃ counts, s.storeRun (.given "1") 1 laterRun = .ok (counts, s')) ∧
    s'.loadSymbols "r" = .ok [⟨"a.ts", "g", .function, 2, 2, none, none, true⟩] ∧
    s'.loadReferences "r" =
      .ok [{ filePath := "a.ts", name := "f", kind := .call, line := 1, column := 0 }] := by
  have h : Reachable _ :=
    .step (.storeRepository (.ofFullName "r" "") (.given "1") 0 sampleRun) (.empty 0)
      (by intro n hn; cases hn) rfl
  obtain ⟨-, hsymbols, hreferences, -⟩ :=
    @storeRun_replaces _ _ h _ List.mem_cons_self 1 laterRun _ (by decide) rfl
  refine ⟨_, _, h, rfl, ⟨_, rfl⟩, hsymbols.trans ?_, hreferences.trans ?_⟩
  · exact congrArg Except.ok (List.mergeSort_singleton _)
  · exact congrArg Except.ok (List.mergeSort_singleton _)

end CodeIndex.Store
