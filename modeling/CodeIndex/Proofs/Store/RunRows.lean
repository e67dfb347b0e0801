import CodeIndex.Proofs.Store.RunFiles

/-!
Writing the symbols, references and edges of a run. Each of the three loops adds one row for the
first value of every key and passes over the later ones; the loop invariants say which keys have
been seen and which rows stand for them.
-/
namespace CodeIndex.Store

/-- The first value of each key, of those whose keys have not been seen. -/
def firstsBy {α κ : Type} [DecidableEq κ] (key : α → κ) : List κ → List α → List α
  | _, [] => []
  | seen, x :: rest =>
    if key x ∈ seen then firstsBy key seen rest
    else x :: firstsBy key (seen ++ [key x]) rest

section Firsts

variable {α κ : Type} [DecidableEq κ] {key : α → κ}

theorem firstsBy_cons_seen {seen : List κ} {x : α} {rest : List α} (h : key x ∈ seen) :
    firstsBy key seen (x :: rest) = firstsBy key seen rest := by
  rw [firstsBy, if_pos h]

theorem firstsBy_cons_new {seen : List κ} {x : α} {rest : List α} (h : key x ∉ seen) :
    firstsBy key seen (x :: rest) = x :: firstsBy key (seen ++ [key x]) rest := by
  rw [firstsBy, if_neg h]

/-- Taking the first values is removing the values whose key stood before. -/
theorem firstsBy_eq_eraseDupsBy [BEq κ] [LawfulBEq κ] (seen : List κ) (xs : List α) :
    firstsBy key seen xs =
      (xs.filter fun x => !decide (key x ∈ seen)).eraseDupsBy fun a b => key a == key b := by
  induction xs generalizing seen with
  | nil => rfl
  | cons x rest ih =>
    by_cases hseen : key x ∈ seen
    · rw [firstsBy_cons_seen hseen, ih, List.filter_cons_of_neg (by simpa using hseen)]
    · rw [firstsBy_cons_new hseen, ih, List.filter_cons_of_pos (by simpa using hseen),
        List.eraseDupsBy_cons, List.filter_filter]
      congr 2
      apply List.filter_congr
      intro y _
      simp [Bool.and_comm]

/-- Where different values have different keys, the keys that were seen tell the values. -/
theorem firstsBy_map_seen [DecidableEq α] {seen xs : List α}
    (h : ∀ a ∈ xs, ∀ b ∈ seen ++ xs, key a = key b → a = b) :
    firstsBy key (seen.map key) xs = firstsBy id seen xs := by
  induction xs generalizing seen with
  | nil => rfl
  | cons x rest ih =>
    have hmem : key x ∈ seen.map key ↔ id x ∈ seen := by
      refine ⟨fun hx => ?_, fun hx => List.mem_map_of_mem hx⟩
      obtain ⟨y, hy, hsame⟩ := List.mem_map.mp hx
      rwa [id, h x List.mem_cons_self y (List.mem_append_left _ hy) hsame.symm]
    by_cases hx : id x ∈ seen
    · rw [firstsBy_cons_seen (hmem.mpr hx), firstsBy_cons_seen hx]
      exact ih fun a ha b hb => h a (.tail x ha) b (by grind)
    · rw [firstsBy_cons_new (mt hmem.mp hx), firstsBy_cons_new hx, id, ← List.map_singleton,
        ← List.map_append, ih fun a ha b hb => h a (.tail x ha) b (by grind)]

/-- Where different values have different keys, taking the first values removes repetitions only. -/
theorem firstsBy_eq_eraseDups [DecidableEq α] {xs : List α}
    (h : ∀ a ∈ xs, ∀ b ∈ xs, key a = key b → a = b) : firstsBy key [] xs = xs.eraseDups := by
  have hvalues : firstsBy key (List.map key []) xs = firstsBy id [] xs := firstsBy_map_seen h
  rw [List.map_nil] at hvalues
  rw [hvalues, firstsBy_eq_eraseDupsBy]
  simp [List.eraseDups]

theorem mem_of_mem_firstsBy {seen : List κ} {xs : List α} {x : α}
    (h : x ∈ firstsBy key seen xs) : x ∈ xs := by
  induction xs generalizing seen with
  | nil => exact h
  | cons y rest ih =>
    by_cases hseen : key y ∈ seen
    · rw [firstsBy_cons_seen hseen] at h
      exact List.mem_cons_of_mem _ (ih h)
    · rw [firstsBy_cons_new hseen] at h
      rcases List.mem_cons.mp h with rfl | h
      · exact List.mem_cons_self
      · exact List.mem_cons_of_mem _ (ih h)

/-- Every key of a list is seen or the key of a first value. -/
theorem mem_seen_or_firstsBy {seen : List κ} {xs : List α} {k : κ} :
    k ∈ seen ++ (firstsBy key seen xs).map key ↔ k ∈ seen ∨ k ∈ xs.map key := by
  induction xs generalizing seen with
  | nil => simp [firstsBy]
  | cons y rest ih =>
    by_cases hseen : key y ∈ seen
    · rw [firstsBy_cons_seen hseen, ih]
      constructor
      · rintro (h | h)
        · exact .inl h
        · exact .inr (List.mem_cons_of_mem _ h)
      · rintro (h | h)
        · exact .inl h
        · rcases List.mem_cons.mp h with rfl | h
          · exact .inl hseen
          · exact .inr h
    · rw [firstsBy_cons_new hseen, List.map_cons, ← List.singleton_append, ← List.append_assoc, ih]
      simp [or_assoc]

/-- The keys of the first values are the keys of the list. -/
theorem mem_map_firstsBy {xs : List α} {k : κ} :
    k ∈ (firstsBy key [] xs).map key ↔ k ∈ xs.map key := by
  have hkeys : k ∈ [] ++ (firstsBy key [] xs).map key ↔ _ := mem_seen_or_firstsBy
  simpa using hkeys

/-- No two first values have the same key. -/
theorem nodup_firstsBy (seen : List κ) (xs : List α) :
    (seen ++ (firstsBy key seen xs).map key).Nodup ↔ seen.Nodup := by
  induction xs generalizing seen with
  | nil => simp [firstsBy]
  | cons x rest ih =>
    by_cases hseen : key x ∈ seen
    · rw [firstsBy_cons_seen hseen, ih]
    · rw [firstsBy_cons_new hseen, List.map_cons, ← List.singleton_append, ← List.append_assoc, ih]
      simp only [List.nodup_append, List.nodup_singleton, List.mem_singleton, true_and,
        and_iff_left_iff_imp, forall_eq]
      rintro - a ha rfl
      exact hseen ha

/-- A list without repeated keys consists of first values. -/
theorem firstsBy_eq_self {seen : List κ} {xs : List α} (h : (seen ++ xs.map key).Nodup) :
    firstsBy key seen xs = xs := by
  induction xs generalizing seen with
  | nil => rfl
  | cons x rest ih =>
    have hnew : key x ∉ seen := by
      intro hmem
      exact (List.nodup_append.mp h).2.2 _ hmem _ List.mem_cons_self rfl
    rw [firstsBy_cons_new hnew, ih]
    simpa using h

end Firsts

/-! The symbols -/

/-- The symbol of a key in a repository has the id. -/
def SymbolNamed (s : Store) (repositoryId : Id) (key : SymbolKey) (id : Id) : Prop :=
  ∃ x ∈ s.symbols, x.id = id ∧ x.repositoryId = repositoryId ∧ x.name = key.name ∧
    x.lineStart = key.lineStart ∧ (x.fileId, repositoryId, key.filePath) ∈ s.files.map fileMark

theorem SymbolNamed.hasSymbol {s : Store} {repositoryId id : Id} {key : SymbolKey}
    (h : s.SymbolNamed repositoryId key id) : s.HasSymbol id repositoryId := by
  obtain ⟨x, hx, hid, hown, -⟩ := h
  exact ⟨x, hx, hid, hown⟩

/-- What holds while a run writes its symbols. -/
structure SymbolsWritten (repositoryId : Id) (files : FileIds) (s : Store) (ids : SymbolIds) :
    Prop where
  sound : s.Sound
  files_named : s.NamesFiles repositoryId files
  named : ∀ key id, (key, id) ∈ ids → s.SymbolNamed repositoryId key id
  listed : ∀ x ∈ s.symbols, x.repositoryId = repositoryId → ∀ path,
    (x.fileId, repositoryId, path) ∈ s.files.map fileMark →
      (⟨path, x.name, x.lineStart⟩, x.id) ∈ ids

/-- The row stands for the symbol, in the file of its path. -/
def StandsForSymbol (s : Store) (repositoryId : Id) (row : SymbolRow) (x : Symbol) : Prop :=
  row = symbolRow repositoryId row.fileId row.id x ∧
    (row.fileId, repositoryId, x.filePath) ∈ s.files.map fileMark

namespace SymbolsWritten

variable {repositoryId : Id} {files : FileIds} {s : Store} {ids : SymbolIds}

/-- The store and the map after one more symbol. -/
theorem step (h : SymbolsWritten repositoryId files s ids) {x : Symbol} {fileId : Id}
    (hfile : fileId? files x.filePath = some fileId)
    (hfree : s.symbol? fileId x.name x.lineStart = none)
    (hstored : (s.fileById? fileId).isSome = true) :
    SymbolsWritten repositoryId files (s.withSymbol repositoryId fileId x)
      (ids ++ [(x.key, s.freshId.1)]) := by
  have hmark := h.files_named.mark hfile hstored
  refine ⟨?_, h.files_named, ?_, ?_⟩
  · apply h.sound.freshId.addSymbol
    · intro y hy heq
      simp only [symbolPlace, symbolRow, Prod.mk.injEq] at heq
      have hsome := h.sound.symbol?_eq_some.mpr ⟨hy, heq⟩
      rw [hfree] at hsome
      simp at hsome
    · intro y hy
      exact ne_freshId (h.sound.symbol_old y hy)
    · exact old_freshId s
    · exact hasFile_of_mark hmark
  · intro key id hid
    rcases List.mem_append.mp hid with hid | hid
    · obtain ⟨y, hy, hrest⟩ := h.named key id hid
      exact ⟨y, List.mem_append_left _ hy, hrest⟩
    · obtain ⟨rfl, rfl⟩ := Prod.mk.inj (List.mem_singleton.mp hid)
      exact ⟨_, List.mem_append_right _ (List.mem_singleton_self _), rfl, rfl, rfl, rfl, hmark⟩
  · intro y hy hown path hpath
    rcases List.mem_append.mp hy with hy | hy
    · exact List.mem_append_left _ (h.listed y hy hown path hpath)
    · rw [List.mem_singleton.mp hy] at hpath ⊢
      -- Both marks have the id of the file, so they name the same path.
      have hsame := h.files_named _ _ (mem_of_fileId? hfile) _ hpath rfl
      obtain rfl : path = x.filePath := congrArg Prod.snd hsame
      exact List.mem_append_right _ (List.mem_singleton_self _)

/-- The key of a symbol whose place is taken is in the map. -/
theorem taken (h : SymbolsWritten repositoryId files s ids) {x : Symbol} {fileId : Id}
    (hfile : fileId? files x.filePath = some fileId)
    (htaken : (s.symbol? fileId x.name x.lineStart).isSome = true) :
    x.key ∈ ids.map Prod.fst := by
  obtain ⟨y, hfound⟩ := Option.isSome_iff_exists.mp htaken
  obtain ⟨hy, rfl, hname, hline⟩ := h.sound.symbol?_eq_some.mp hfound
  obtain ⟨f, hf, hid, hown⟩ := h.sound.symbol_file y hy
  have hmem := List.mem_map_of_mem (f := fileMark) hf
  have hsame := h.files_named _ _ (mem_of_fileId? hfile) _ hmem hid
  have hmark : (y.fileId, repositoryId, x.filePath) ∈ s.files.map fileMark := by
    rwa [show fileMark f = (y.fileId, repositoryId, x.filePath) from Prod.ext hid hsame] at hmem
  have howner : y.repositoryId = repositoryId := hown.symm.trans (congrArg Prod.fst hsame)
  have hlisted := h.listed y hy howner x.filePath hmark
  rw [hname, hline] at hlisted
  exact List.mem_map_of_mem (f := Prod.fst) hlisted

/-- The key of a symbol whose place is free is not in the map. -/
theorem free (h : SymbolsWritten repositoryId files s ids) {x : Symbol} {fileId : Id}
    (hfile : fileId? files x.filePath = some fileId)
    (hfree : s.symbol? fileId x.name x.lineStart = none)
    (hstored : (s.fileById? fileId).isSome = true) : x.key ∉ ids.map Prod.fst := by
  intro hkey
  obtain ⟨⟨key, id⟩, hmem, rfl⟩ := List.mem_map.mp hkey
  obtain ⟨y, hy, -, -, hname, hline, hmark⟩ := h.named _ _ hmem
  have hid := h.sound.mark_id hmark (h.files_named.mark hfile hstored)
  have hsome := h.sound.symbol?_eq_some.mpr ⟨hy, hid, hname, hline⟩
  have hnone : s.symbol? fileId x.name x.lineStart = some y := hsome
  rw [hfree] at hnone
  simp at hnone

end SymbolsWritten

/-- Writing the symbols of a run adds a row for the first symbol of every new key and puts the keys
into the map. -/
theorem putSymbols_written {repositoryId : Id} {files : FileIds} {s s' : Store}
    {ids ids' : SymbolIds} {symbols : List Symbol} (h : SymbolsWritten repositoryId files s ids)
    (hok : putSymbols repositoryId files s ids symbols = .ok (s', ids')) :
    SymbolsWritten repositoryId files s' ids' ∧
      ids'.map Prod.fst =
        ids.map Prod.fst ++ (firstsBy Symbol.key (ids.map Prod.fst) symbols).map Symbol.key ∧
      ∃ rows n, s' = { s with symbols := s.symbols ++ rows, nextSerial := n } ∧
        List.Forall₂ (s.StandsForSymbol repositoryId) rows
          (firstsBy Symbol.key (ids.map Prod.fst) symbols) := by
  induction symbols generalizing s ids with
  | nil =>
    obtain ⟨rfl, rfl⟩ := Prod.mk.inj (Except.ok.inj hok)
    exact ⟨h, by simp [firstsBy], [], s.nextSerial, by simp, .nil⟩
  | cons x rest ih =>
    obtain ⟨fileId, hfile, ⟨htaken, hok⟩ | ⟨hfree, hstored, hok⟩⟩ := putSymbols_cons hok
    · rw [firstsBy_cons_seen (h.taken hfile htaken)]
      exact ih h hok
    · have hmark := h.files_named.mark hfile hstored
      rw [firstsBy_cons_new (h.free hfile hfree hstored)]
      obtain ⟨hs, hkeys, rows, n, hframe, hrows⟩ := ih (h.step hfile hfree hstored) hok
      rw [List.map_append] at hkeys hrows
      refine ⟨hs, ?_, symbolRow repositoryId fileId s.freshId.1 x :: rows, n, ?_, ?_⟩
      · simpa using hkeys
      · rw [hframe]
        simp [withSymbol, freshId]
      · exact .cons ⟨rfl, hmark⟩ hrows

/-- The id of a key in the map of symbols belongs to the symbol of that key. -/
theorem SymbolsWritten.symbolId?_named {repositoryId : Id} {files : FileIds} {s : Store}
    {ids : SymbolIds} (h : SymbolsWritten repositoryId files s ids) {key : Option SymbolKey}
    {id : Id} (hid : key.bind (symbolId? ids) = some id) : s.HasSymbol id repositoryId := by
  obtain ⟨k, -, hk⟩ := Option.bind_eq_some_iff.mp hid
  exact (h.named k id (mem_of_symbolId? hk)).hasSymbol

/-! The references -/

/-- What identifies a reference of a run. -/
def useKey (r : Reference) : String × Nat × Nat × ReferenceKind × String :=
  (r.filePath, r.line, r.column, r.kind, r.name)

/-- The row stands for the reference, in the file of its path. -/
def StandsForReference (s : Store) (repositoryId : Id) (symbols : SymbolIds) (row : ReferenceRow)
    (r : Reference) : Prop :=
  row = referenceRow repositoryId row.fileId symbols r ∧
    (row.fileId, repositoryId, r.filePath) ∈ s.files.map fileMark

/-- What holds while a run writes its references; the keys of those that have been written are
listed. -/
structure ReferencesWritten (repositoryId : Id) (files : FileIds) (symbols : SymbolIds) (s : Store)
    (seen : List (String × Nat × Nat × ReferenceKind × String)) : Prop where
  symbols_written : SymbolsWritten repositoryId files s symbols
  seen_iff : ∀ path place, (path, place) ∈ seen ↔
    ∃ row ∈ s.references, (row.fileId, repositoryId, path) ∈ s.files.map fileMark ∧
      usePlace row = (row.fileId, place)

namespace ReferencesWritten

variable {repositoryId : Id} {files : FileIds} {symbols : SymbolIds} {s : Store}
  {seen : List (String × Nat × Nat × ReferenceKind × String)}

/-- A reference has been seen when a row has its place. -/
theorem mem_seen_iff (h : ReferencesWritten repositoryId files symbols s seen) {r : Reference}
    {fileId : Id} (hmark : (fileId, repositoryId, r.filePath) ∈ s.files.map fileMark) :
    useKey r ∈ seen ↔
      ∃ row ∈ s.references,
        usePlace row = usePlace (referenceRow repositoryId fileId symbols r) := by
  rw [useKey, h.seen_iff]
  constructor
  · rintro ⟨row, hrow, hrowMark, hplace⟩
    refine ⟨row, hrow, hplace.trans ?_⟩
    rw [h.symbols_written.sound.mark_id hrowMark hmark]
    rfl
  · rintro ⟨row, hrow, hplace⟩
    have hfile : row.fileId = fileId := congrArg Prod.fst hplace
    exact ⟨row, hrow, hfile ▸ hmark, hplace.trans (by rw [hfile]; rfl)⟩

/-- The store after one more reference. -/
theorem step (h : ReferencesWritten repositoryId files symbols s seen) {r : Reference} {fileId : Id}
    (hmark : (fileId, repositoryId, r.filePath) ∈ s.files.map fileMark)
    (hfree : ∀ x ∈ s.references,
      usePlace x ≠ usePlace (referenceRow repositoryId fileId symbols r)) :
    ReferencesWritten repositoryId files symbols
      { s with references := s.references ++ [referenceRow repositoryId fileId symbols r] }
      (seen ++ [useKey r]) := by
  have hw := h.symbols_written
  refine ⟨⟨?_, hw.files_named, hw.named, hw.listed⟩, ?_⟩
  · exact hw.sound.addReference hfree (hasFile_of_mark hmark) fun i hi => hw.symbolId?_named hi
  · intro path place
    rw [List.mem_append, h.seen_iff, List.mem_singleton]
    constructor
    · rintro (⟨row, hrow, hrest⟩ | heq)
      · exact ⟨row, List.mem_append_left _ hrow, hrest⟩
      · obtain ⟨rfl, rfl⟩ := Prod.mk.inj heq
        exact ⟨_, List.mem_append_right _ (List.mem_singleton_self _), hmark, rfl⟩
    · rintro ⟨row, hrow, hrowMark, hplace⟩
      rcases List.mem_append.mp hrow with hrow | hrow
      · exact .inl ⟨row, hrow, hrowMark, hplace⟩
      · rw [List.mem_singleton.mp hrow] at hrowMark hplace
        have hpath := hw.sound.mark_place hrowMark hmark
        refine .inr (Prod.ext (congrArg Prod.snd hpath) ?_)
        exact (congrArg Prod.snd hplace).symm

end ReferencesWritten

/-- Writing the references of a run adds a row for the first reference of every new key and counts
the rows. -/
theorem putReferences_written {repositoryId : Id} {files : FileIds} {symbols : SymbolIds}
    {s s' : Store} {seen : List (String × Nat × Nat × ReferenceKind × String)} {n n' : Nat}
    {references : List Reference} (h : ReferencesWritten repositoryId files symbols s seen)
    (hok : putReferences repositoryId files symbols s n references = .ok (s', n')) :
    SymbolsWritten repositoryId files s' symbols ∧
      n' = n + (firstsBy useKey seen references).length ∧
      ∃ rows, s' = { s with references := s.references ++ rows } ∧
        List.Forall₂ (s.StandsForReference repositoryId symbols) rows
          (firstsBy useKey seen references) := by
  induction references generalizing s seen n with
  | nil =>
    obtain ⟨rfl, rfl⟩ := Prod.mk.inj (Except.ok.inj hok)
    exact ⟨h.symbols_written, rfl, [], by simp, .nil⟩
  | cons r rest ih =>
    have hw := h.symbols_written
    obtain ⟨fileId, hfile, ⟨htaken, hok⟩ | ⟨hfree, hstored, hok⟩⟩ := putReferences_cons hok
    · have hmark : (fileId, repositoryId, r.filePath) ∈ s.files.map fileMark := by
        obtain ⟨row, hrow, hplace⟩ := htaken
        have hid : row.fileId = fileId := congrArg Prod.fst hplace
        obtain ⟨f, hf, hfid, -⟩ := hw.sound.reference_file row hrow
        exact hw.files_named.mark hfile
          (Option.isSome_iff_exists.mpr ⟨f, hw.sound.fileById?_eq_some.mpr ⟨hf, hfid.trans hid⟩⟩)
      rw [firstsBy_cons_seen ((h.mem_seen_iff hmark).mpr htaken)]
      exact ih h hok
    · have hmark := hw.files_named.mark hfile hstored
      have hnew : useKey r ∉ seen := by
        intro hmem
        obtain ⟨row, hrow, hplace⟩ := (h.mem_seen_iff hmark).mp hmem
        exact hfree row hrow hplace
      rw [firstsBy_cons_new hnew]
      obtain ⟨hs, hcount, rows, hframe, hrows⟩ := ih (h.step hmark hfree) hok
      refine ⟨hs, ?_, referenceRow repositoryId fileId symbols r :: rows, ?_,
        .cons ⟨rfl, hmark⟩ hrows⟩
      · rw [hcount, List.length_cons]
        omega
      · rw [hframe]
        simp

/-! The edges -/

/-- The row stands for the edge, with the files of its paths. -/
def StandsForEdge (s : Store) (repositoryId : Id) (files : FileIds) (symbols : SymbolIds)
    (row : EdgeRow) (e : Edge) : Prop :=
  row = edgeRow repositoryId row.fromFileId row.toFileId symbols e ∧
    FileEnd files e.fromFile row.fromFileId ∧ FileEnd files e.toFile row.toFileId ∧
    ∀ i, row.fromFileId = some i ∨ row.toFileId = some i → (s.fileById? i).isSome = true

/-- The file end of an edge marks the row of its path. -/
theorem NamesFiles.fileEnd {s : Store} {repositoryId : Id} {files : FileIds} {path : Option String}
    {id : Option Id} {i : Id} (h : s.NamesFiles repositoryId files) (hend : FileEnd files path id)
    (hid : id = some i) (hstored : (s.fileById? i).isSome = true) :
    ∃ p, path = some p ∧ (i, repositoryId, p) ∈ s.files.map fileMark := by
  cases path with
  | none =>
    rw [FileEnd] at hend
    simp [hend] at hid
  | some p =>
    obtain ⟨j, hj, rfl⟩ := hend
    obtain rfl := Option.some.inj hid
    exact ⟨p, rfl, h.mark hj hstored⟩

/-- The keys of the edges of a repository with one more row. -/
theorem seen_edgeRow {repositoryId : Id} {seen : List String} {rows : List EdgeRow} {e : Edge}
    {fromId toId : Option Id} {symbols : SymbolIds}
    (h : ∀ k, k ∈ seen ↔ ∃ x ∈ rows, edgePlace x = (repositoryId, k)) (k : String) :
    k ∈ seen ++ [e.key] ↔ ∃ x ∈ rows ++ [edgeRow repositoryId fromId toId symbols e],
      edgePlace x = (repositoryId, k) := by
  simp only [List.mem_append, List.mem_singleton, h, or_and_right, exists_or, exists_eq_left]
  simp [edgePlace, edgeRow, eq_comm]

/-- Writing the edges of a run adds a row for the first edge of every new key and counts the rows. -/
theorem putEdges_written {repositoryId : Id} {files : FileIds} {symbols : SymbolIds} {s s' : Store}
    {seen : List String} {n n' : Nat} {edges : List Edge}
    (hw : SymbolsWritten repositoryId files s symbols) (howner : s.HasRepository repositoryId)
    (hseen : ∀ k, k ∈ seen ↔ ∃ x ∈ s.edges, edgePlace x = (repositoryId, k))
    (hok : putEdges repositoryId files symbols s n edges = .ok (s', n')) :
    SymbolsWritten repositoryId files s' symbols ∧
      n' = n + (firstsBy Edge.key seen edges).length ∧
      ∃ rows, s' = { s with edges := s.edges ++ rows } ∧
        List.Forall₂ (s.StandsForEdge repositoryId files symbols) rows
          (firstsBy Edge.key seen edges) := by
  induction edges generalizing s seen n with
  | nil =>
    obtain ⟨rfl, rfl⟩ := Prod.mk.inj (Except.ok.inj hok)
    exact ⟨hw, rfl, [], by simp, .nil⟩
  | cons e rest ih =>
    obtain ⟨fromId, toId, hfrom, hto, hcomplete, ⟨htaken, hok⟩ | ⟨hfree, hstored, hok⟩⟩ :=
      putEdges_cons hok
    · rw [firstsBy_cons_seen ((hseen e.key).mpr htaken)]
      exact ih hw howner hseen hok
    · have hnew : e.key ∉ seen := by
        intro hmem
        obtain ⟨x, hx, hplace⟩ := (hseen e.key).mp hmem
        exact hfree x hx hplace
      have hfits : s.EdgeFits (edgeRow repositoryId fromId toId symbols e) := by
        refine ⟨howner, hcomplete, ?_, ?_⟩
        · rintro i (hi | hi)
          · obtain ⟨p, -, hmark⟩ := hw.files_named.fileEnd hfrom hi (hstored i (.inl hi))
            exact hasFile_of_mark hmark
          · obtain ⟨p, -, hmark⟩ := hw.files_named.fileEnd hto hi (hstored i (.inr hi))
            exact hasFile_of_mark hmark
        · rintro i (hi | hi)
          · exact hw.symbolId?_named hi
          · exact hw.symbolId?_named hi
      have hstep : SymbolsWritten repositoryId files
          { s with edges := s.edges ++ [edgeRow repositoryId fromId toId symbols e] } symbols :=
        ⟨hw.sound.addEdge hfree hfits, hw.files_named, hw.named, hw.listed⟩
      rw [firstsBy_cons_new hnew]
      obtain ⟨hs, hcount, rows, hframe, hrows⟩ := ih hstep howner (seen_edgeRow hseen) hok
      refine ⟨hs, ?_, edgeRow repositoryId fromId toId symbols e :: rows, ?_,
        .cons ⟨rfl, hfrom, hto, hstored⟩ hrows⟩
      · rw [hcount, List.length_cons]
        omega
      · rw [hframe]
        simp

end CodeIndex.Store
