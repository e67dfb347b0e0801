import CodeIndex.Proofs.Store.Removal

/-!
One step of storing a run: what it means that a symbol, a reference or an edge of a run was written.
A step passes over a value whose place is taken and adds a row otherwise.
-/
namespace CodeIndex.Store


/-- A sequence of two steps succeeds when both do. -/
theorem bind_eq_ok {ε α β : Type} {x : Except ε α} {f : α → Except ε β} {b : β} :
    x >>= f = .ok b ↔ ∃ a, x = .ok a ∧ f a = .ok b := by
  cases x <;> simp [bind, Except.bind]

theorem throw_bind_ne_ok {ε α β : Type} {e : ε} {f : α → Except ε β} {b : β} :
    (throw e >>= f) ≠ .ok b := by
  simp [throw, throwThe, MonadExceptOf.throw, bind, Except.bind]

theorem requireFile_eq_ok {ids : FileIds} {path : String} {id : Id} :
    requireFile ids path = .ok id ↔ fileId? ids path = some id := by
  unfold requireFile
  split <;> simp_all

theorem isSome_fileId? {ids : FileIds} {path : String} :
    (fileId? ids path).isSome = true ↔ path ∈ ids.map Prod.fst := by
  simp only [fileId?, Option.isSome_map, List.find?_isSome, beq_iff_eq, List.mem_map]

theorem checkFile_eq_ok {s : Store} {id : Id} :
    checkFile s id = .ok () ↔ (s.fileById? id).isSome = true := by
  unfold checkFile
  split <;> simp_all

theorem mem_of_fileId? {ids : FileIds} {path : String} {id : Id}
    (h : fileId? ids path = some id) : (path, id) ∈ ids := by
  obtain ⟨e, he, rfl⟩ := Option.map_eq_some_iff.mp h
  have hpath : e.1 = path := by simpa using List.find?_some he
  exact hpath ▸ List.mem_of_find?_eq_some he

theorem mem_of_symbolId? {ids : SymbolIds} {key : SymbolKey} {id : Id}
    (h : symbolId? ids key = some id) : (key, id) ∈ ids := by
  obtain ⟨e, he, rfl⟩ := Option.map_eq_some_iff.mp h
  have hkey : e.1 = key := by simpa using List.find?_some he
  exact hkey ▸ List.mem_of_find?_eq_some he

/-! One step of each kind -/

/-- The row of a symbol of a run. -/
def symbolRow (repositoryId fileId id : Id) (x : Symbol) : SymbolRow :=
  { id, fileId, repositoryId, name := x.name, kind := x.kind, lineStart := x.lineStart,
    lineEnd := x.lineEnd, signature := x.signature, documentation := x.documentation,
    isExported := x.isExported }

/-- The store with one more symbol under a new id. -/
def withSymbol (s : Store) (repositoryId fileId : Id) (x : Symbol) : Store :=
  { s.freshId.2 with
    symbols := s.symbols ++ [symbolRow repositoryId fileId s.freshId.1 x] }

/-- A symbol of a run is passed over when its place is taken and added otherwise. -/
theorem putSymbols_cons {repositoryId : Id} {files : FileIds} {s : Store} {ids : SymbolIds}
    {x : Symbol} {rest : List Symbol} {out : Store × SymbolIds}
    (h : putSymbols repositoryId files s ids (x :: rest) = .ok out) :
    ∃ fileId, fileId? files x.filePath = some fileId ∧
      (((s.symbol? fileId x.name x.lineStart).isSome = true ∧
          putSymbols repositoryId files s ids rest = .ok out) ∨
        (s.symbol? fileId x.name x.lineStart = none ∧ (s.fileById? fileId).isSome = true ∧
          putSymbols repositoryId files (s.withSymbol repositoryId fileId x)
            (ids ++ [(x.key, s.freshId.1)]) rest = .ok out)) := by
  rw [putSymbols] at h
  obtain ⟨fileId, hfile, h⟩ := bind_eq_ok.mp h
  refine ⟨fileId, requireFile_eq_ok.mp hfile, ?_⟩
  split at h
  · next htaken => exact .inl ⟨htaken, h⟩
  · next hfree =>
    obtain ⟨⟨⟩, hcheck, h⟩ := bind_eq_ok.mp h
    exact .inr ⟨by simpa using hfree, checkFile_eq_ok.mp hcheck, h⟩

/-- The row of a reference of a run. -/
def referenceRow (repositoryId fileId : Id) (symbols : SymbolIds) (r : Reference) : ReferenceRow :=
  { fileId, repositoryId, name := r.name, kind := r.kind, line := r.line, column := r.column,
    targetFilePath := r.targetFilePath,
    targetSymbolId := r.targetSymbol.bind (symbolId? symbols), metadata := r.metadata }

theorem sameUse_iff {a b : ReferenceRow} : sameUse a b = true ↔ usePlace a = usePlace b := by
  simp [sameUse, usePlace, and_assoc]

/-- A reference of a run is passed over when its place is taken and added otherwise. -/
theorem putReferences_cons {repositoryId : Id} {files : FileIds} {symbols : SymbolIds} {s : Store}
    {n : Nat} {r : Reference} {rest : List Reference} {out : Store × Nat}
    (h : putReferences repositoryId files symbols s n (r :: rest) = .ok out) :
    ∃ fileId, fileId? files r.filePath = some fileId ∧
      (((∃ x ∈ s.references, usePlace x = usePlace (referenceRow repositoryId fileId symbols r)) ∧
          putReferences repositoryId files symbols s n rest = .ok out) ∨
        ((∀ x ∈ s.references, usePlace x ≠ usePlace (referenceRow repositoryId fileId symbols r)) ∧
          (s.fileById? fileId).isSome = true ∧
          putReferences repositoryId files symbols
            { s with references := s.references ++ [referenceRow repositoryId fileId symbols r] }
            (n + 1) rest = .ok out)) := by
  rw [putReferences] at h
  obtain ⟨fileId, hfile, h⟩ := bind_eq_ok.mp h
  refine ⟨fileId, requireFile_eq_ok.mp hfile, ?_⟩
  dsimp only at h
  have hany : s.references.any (sameUse (referenceRow repositoryId fileId symbols r)) = true ↔
      ∃ x ∈ s.references, usePlace x = usePlace (referenceRow repositoryId fileId symbols r) := by
    simp only [List.any_eq_true, sameUse_iff]
    exact exists_congr fun x => and_congr_right fun _ => eq_comm
  split at h
  · next htaken => exact .inl ⟨hany.mp htaken, h⟩
  · next hfree =>
    obtain ⟨⟨⟩, hcheck, h⟩ := bind_eq_ok.mp h
    refine .inr ⟨?_, checkFile_eq_ok.mp hcheck, h⟩
    intro x hx heq
    exact hfree (hany.mpr ⟨x, hx, heq⟩)

/-- The row of an edge of a run, given the ids of its files. -/
def edgeRow (repositoryId : Id) (fromFileId toFileId : Option Id) (symbols : SymbolIds) (e : Edge) :
    EdgeRow :=
  { repositoryId, key := e.key, kind := e.kind, fromFileId, toFileId,
    fromSymbolId := e.fromSymbol.bind (symbolId? symbols),
    toSymbolId := e.toSymbol.bind (symbolId? symbols) }

/-- The id of a file that an edge may name. -/
def FileEnd (files : FileIds) (path : Option String) (id : Option Id) : Prop :=
  match path with
  | none => id = none
  | some p => ∃ i, fileId? files p = some i ∧ id = some i

theorem requireFile?_eq_ok {files : FileIds} {path : Option String} {id : Option Id} :
    requireFile? files path = .ok id ↔ FileEnd files path id := by
  cases path with
  | none => simp [requireFile?, FileEnd, eq_comm]
  | some p =>
    simp only [requireFile?, requireFile, FileEnd]
    split
    · next i hi => simp [hi, Except.map, eq_comm]
    · next hi => simp [hi, Except.map]

/-- The end of an edge has an id where the edge names a file. -/
theorem FileEnd.isSome {files : FileIds} {path : Option String} {id : Option Id}
    (h : FileEnd files path id) : id.isSome = path.isSome := by
  cases path with
  | none => simp [show id = none from h]
  | some p =>
    obtain ⟨i, -, rfl⟩ := h
    rfl

theorem isSome_symbolId? {ids : SymbolIds} {key : Option SymbolKey} :
    (key.bind (symbolId? ids)).isSome = true ↔ ∃ k ∈ ids.map Prod.fst, key = some k := by
  cases key with
  | none => simp
  | some k => simp [symbolId?, List.find?_isSome]

theorem checkFile?_eq_ok {s : Store} {id : Option Id} :
    checkFile? s id = .ok () ↔ ∀ i, id = some i → (s.fileById? i).isSome = true := by
  cases id with
  | none => simp [checkFile?]
  | some i => simp [checkFile?, checkFile_eq_ok]

/-- An edge of a run is well formed and gives a complete row. It is passed over when its key is
taken and added otherwise. -/
theorem putEdges_cons {repositoryId : Id} {files : FileIds} {symbols : SymbolIds} {s : Store}
    {n : Nat} {e : Edge} {rest : List Edge} {out : Store × Nat}
    (h : putEdges repositoryId files symbols s n (e :: rest) = .ok out) :
    ∃ fromFileId toFileId, FileEnd files e.fromFile fromFileId ∧ FileEnd files e.toFile toFileId ∧
      EdgeRow.isComplete (edgeRow repositoryId fromFileId toFileId symbols e) = true ∧
      (((∃ x ∈ s.edges, edgePlace x = (repositoryId, e.key)) ∧
          putEdges repositoryId files symbols s n rest = .ok out) ∨
        ((∀ x ∈ s.edges, edgePlace x ≠ (repositoryId, e.key)) ∧
          (∀ i, fromFileId = some i ∨ toFileId = some i → (s.fileById? i).isSome = true) ∧
          putEdges repositoryId files symbols
            { s with edges := s.edges ++ [edgeRow repositoryId fromFileId toFileId symbols e] }
            (n + 1) rest = .ok out)) := by
  rw [putEdges] at h
  split at h
  · exact absurd h throw_bind_ne_ok
  · obtain ⟨fromFileId, hfrom, h⟩ := bind_eq_ok.mp h
    obtain ⟨toFileId, hto, h⟩ := bind_eq_ok.mp h
    refine ⟨fromFileId, toFileId, requireFile?_eq_ok.mp hfrom, requireFile?_eq_ok.mp hto, ?_⟩
    have hany : (s.edges.any fun x => x.repositoryId == repositoryId && x.key == e.key) = true ↔
        ∃ x ∈ s.edges, edgePlace x = (repositoryId, e.key) := by
      simp [List.any_eq_true, edgePlace]
    dsimp only at h
    split at h
    · exact absurd h throw_bind_ne_ok
    · next hcomplete =>
      refine ⟨by simpa [edgeRow] using hcomplete, ?_⟩
      split at h
      · next htaken => exact .inl ⟨hany.mp htaken, h⟩
      · next hfree =>
        obtain ⟨⟨⟩, hcheckFrom, h⟩ := bind_eq_ok.mp h
        obtain ⟨⟨⟩, hcheckTo, h⟩ := bind_eq_ok.mp h
        refine .inr ⟨?_, ?_, h⟩
        · intro x hx heq
          exact hfree (hany.mpr ⟨x, hx, heq⟩)
        · rintro i (hi | hi)
          · exact checkFile?_eq_ok.mp hcheckFrom i hi
          · exact checkFile?_eq_ok.mp hcheckTo i hi

end CodeIndex.Store
