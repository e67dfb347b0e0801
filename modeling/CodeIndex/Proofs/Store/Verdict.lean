import CodeIndex.Proofs.Store.RunPaths

/-!
The verdict on a run. A run fails with the first thing that is wrong with it, in the order in which
its values are written, and what is wrong with a value can be told from the run and from its stray
paths: each loop is compared with a search that writes nothing.
-/
namespace CodeIndex.Store

/-- The error of a result that has one. -/
def failure? {α : Type} : Except Error α → Option Error
  | .ok _ => none
  | .error e => some e

theorem failure?_eq_some {α : Type} {x : Except Error α} {e : Error} :
    failure? x = some e ↔ x = .error e := by
  cases x <;> simp [failure?]

theorem failure?_eq_none {α : Type} {x : Except Error α} :
    failure? x = none ↔ ∃ a, x = .ok a := by
  cases x <;> simp [failure?]

/-- A sequence of two steps fails as the first of them or, after it, as the second. -/
theorem failure?_bind {α β : Type} {x : Except Error α} {f : α → Except Error β}
    {flaw : Option Error} (h : ∀ a, x = .ok a → failure? (f a) = flaw) :
    failure? (x >>= f) = (failure? x).or flaw := by
  cases x with
  | ok a => exact h a rfl
  | error e => rfl

/-- Nothing is added to the failure of a step by what cannot fail. -/
theorem failure?_bind_of_none {α β : Type} {x : Except Error α} {f : α → Except Error β}
    (h : ∀ a, failure? (f a) = none) : failure? (x >>= f) = failure? x :=
  (failure?_bind fun a _ => h a).trans Option.or_none

theorem findSome?_cons_or {α β : Type} (f : α → Option β) (a : α) (rest : List α) :
    (a :: rest).findSome? f = (f a).or (rest.findSome? f) := by
  rw [List.findSome?_cons]
  cases f a <;> rfl

theorem checkFile_eq_error {s : Store} {id : Id} (h : ¬(s.fileById? id).isSome = true) :
    checkFile s id = .error (.storage .missingParent) := by
  rw [checkFile, if_neg h]

/-! What a run is asked for -/

/-- What is wrong with a path that a value names. -/
def pathFlaw? (paths : List String) (path : String) : Option Error :=
  if path ∈ paths then none else some (.notInRun path)

theorem pathFlaw?_eq_none {paths : List String} {path : String} :
    pathFlaw? paths path = none ↔ path ∈ paths := by
  simp [pathFlaw?]

theorem pathFlaw?_eq_some {paths : List String} {path : String} {e : Error} :
    pathFlaw? paths path = some e ↔ path ∉ paths ∧ e = .notInRun path := by
  simp [pathFlaw?, eq_comm]

/-- The files that an edge names. -/
def edgePaths (e : Edge) : List String := e.fromFile.toList ++ e.toFile.toList

/-- What is wrong with an edge, whatever rows are there. -/
def edgeFlaw? (paths : List String) (keys : List SymbolKey) (e : Edge) : Option Error :=
  if e.isWellFormed = false then some (.openEdge e.key)
  else ((edgePaths e).findSome? (pathFlaw? paths)).or
    (if (e.fromFile.isSome = true ∧ e.toFile.isSome = true) ∨
        (∃ k ∈ keys, e.fromSymbol = some k) ∧ ∃ k ∈ keys, e.toSymbol = some k then none
      else some (.storage .incompleteEdge))

/-- One thing that is asked for: that a value has no flaw, or that the row of a path is there. -/
inductive Check where
  | value (flaw : Option Error)
  | row (path : String)

/-- How a check ends when the rows of the stray paths are not there. -/
def Check.flaw? (stray : List String) : Check → Option Error
  | value flaw => flaw
  | row path => if path ∈ stray then some (.storage .missingParent) else none

/-- What is asked for a symbol or a reference that stands in the file of the path. -/
def pathChecks (paths : List String) (path : String) : List Check :=
  [.value (pathFlaw? paths path), .row path]

/-- What is asked for edges. The rows of its files are needed by the first edge of every key only. -/
def edgeChecks (flaw? : Edge → Option Error) : List String → List Edge → List Check
  | _, [] => []
  | seen, e :: rest =>
    .value (flaw? e) ::
      if e.key ∈ seen then edgeChecks flaw? seen rest
      else (edgePaths e).map .row ++ edgeChecks flaw? (seen ++ [e.key]) rest

/-- All that a run is asked for, in order. -/
def Run.checks (run : Run) : List Check :=
  (run.symbols.flatMap fun x => pathChecks run.paths x.filePath) ++
    ((run.references.flatMap fun r => pathChecks run.paths r.filePath) ++
      edgeChecks (edgeFlaw? run.paths (run.symbols.map Symbol.key)) [] run.edges)

/-- What is first wrong with a run when the rows of the given paths are not there. -/
def Run.flaw? (run : Run) (stray : List String) : Option Error :=
  run.checks.findSome? (Check.flaw? stray)

theorem findSome?_pathChecks (stray paths : List String) (path : String) (rest : List Check) :
    (pathChecks paths path ++ rest).findSome? (Check.flaw? stray) =
      (pathFlaw? paths path).or
        ((Check.flaw? stray (.row path)).or (rest.findSome? (Check.flaw? stray))) := by
  rw [pathChecks, List.cons_append, findSome?_cons_or, List.cons_append, findSome?_cons_or]
  rfl

/-! The loops -/

/-- The file map of a run knows its paths, and the ids of all but the stray ones belong to rows. -/
structure Placed (s : Store) (files : FileIds) (paths stray : List String) : Prop where
  known : ∀ p, p ∈ files.map Prod.fst ↔ p ∈ paths
  held : ∀ p ∈ paths, s.HoldsFile files p ↔ p ∉ stray

namespace Placed

variable {s : Store} {files : FileIds} {paths stray : List String}

theorem same {s' : Store} (h : Placed s files paths stray) (hfiles : s'.files = s.files) :
    Placed s' files paths stray := by
  refine ⟨h.known, fun p hp => ?_⟩
  rw [← h.held p hp]
  unfold HoldsFile fileById?
  rw [hfiles]

/-- The row of a path is there unless the path is stray. -/
theorem isSome_fileById? (h : Placed s files paths stray) {path : String} {id : Id}
    (hid : fileId? files path = some id) : (s.fileById? id).isSome = true ↔ path ∉ stray := by
  have hknown := (h.known path).mp (isSome_fileId?.mp (Option.isSome_iff_exists.mpr ⟨id, hid⟩))
  rw [← h.held path hknown]
  simp [HoldsFile, hid]

/-- Looking up a path and then its row fails as the checks of the path do. What is done with the id
may ask for the row at once or need none that is not there. -/
theorem failure?_requireFile (h : Placed s files paths stray) {β : Type} {path : String}
    {f : Id → Except Error β} {flaw : Option Error}
    (hheld : ∀ id, (s.fileById? id).isSome = true → failure? (f id) = flaw)
    (hstray : ∀ id, ¬(s.fileById? id).isSome = true →
      failure? (f id) = some (.storage .missingParent)) :
    failure? (requireFile files path >>= f) =
      (pathFlaw? paths path).or ((Check.flaw? stray (.row path)).or flaw) := by
  rw [requireFile, pathFlaw?]
  cases hid : fileId? files path with
  | none =>
    have hout : path ∉ paths := by
      rw [← h.known, ← isSome_fileId?, hid]
      simp
    rw [if_neg hout]
    rfl
  | some id =>
    have hin : path ∈ paths :=
      (h.known path).mp (isSome_fileId?.mp (Option.isSome_iff_exists.mpr ⟨id, hid⟩))
    rw [if_pos hin, Option.none_or, Check.flaw?]
    by_cases hpath : path ∈ stray
    · rw [if_pos hpath]
      exact hstray id (mt (h.isSome_fileById? hid).mp (not_not_intro hpath))
    · rw [if_neg hpath]
      exact hheld id ((h.isSome_fileById? hid).mpr hpath)

end Placed

section Loops

variable {repositoryId : Id} {files : FileIds} {paths stray : List String} {s : Store}
  {ids : SymbolIds}

/-- Writing symbols fails as the checks of their paths do. -/
theorem failure?_putSymbols (h : Placed s files paths stray)
    (hrows : ∀ x ∈ s.symbols, (s.fileById? x.fileId).isSome = true) (symbols : List Symbol) :
    failure? (putSymbols repositoryId files s ids symbols) =
      (symbols.flatMap fun x => pathChecks paths x.filePath).findSome? (Check.flaw? stray) := by
  induction symbols generalizing s ids with
  | nil => rfl
  | cons x rest ih =>
    rw [putSymbols, List.flatMap_cons, findSome?_pathChecks]
    apply h.failure?_requireFile
    · intro id hstored
      split
      · exact ih h hrows
      · rw [checkFile_eq_ok.mpr hstored]
        refine ih (h.same rfl) ?_
        exact forall_mem_append_one hrows hstored
    · intro id hmissing
      -- No row has the id of a file that is not there, so the place is free.
      have hfree : ¬(s.symbol? id x.name x.lineStart).isSome = true := by
        intro htaken
        obtain ⟨y, hy⟩ := Option.isSome_iff_exists.mp htaken
        have hplace := List.find?_some hy
        simp only [Bool.and_eq_true, beq_iff_eq] at hplace
        exact hmissing (hplace.1.1 ▸ hrows y (List.mem_of_find?_eq_some hy))
      rw [if_neg hfree, checkFile_eq_error hmissing]
      rfl

/-- Writing references fails as the checks of their paths do. -/
theorem failure?_putReferences {n : Nat} (h : Placed s files paths stray)
    (hrows : ∀ r ∈ s.references, (s.fileById? r.fileId).isSome = true)
    (references : List Reference) :
    failure? (putReferences repositoryId files ids s n references) =
      (references.flatMap fun r => pathChecks paths r.filePath).findSome?
        (Check.flaw? stray) := by
  induction references generalizing s n with
  | nil => rfl
  | cons r rest ih =>
    rw [putReferences, List.flatMap_cons, findSome?_pathChecks]
    apply h.failure?_requireFile
    · intro id hstored
      dsimp only
      split
      · exact ih h hrows
      · rw [checkFile_eq_ok.mpr hstored]
        refine ih (h.same rfl) ?_
        exact forall_mem_append_one hrows hstored
    · intro id hmissing
      dsimp only
      split
      · next htaken =>
        obtain ⟨row, hrow, hsame⟩ := List.any_eq_true.mp htaken
        have hfile : id = row.fileId := congrArg Prod.fst (sameUse_iff.mp hsame)
        exact absurd (hfile ▸ hrows row hrow) hmissing
      · rw [checkFile_eq_error hmissing]
        rfl

/-- A row of an edge is complete where both of its files or both of its symbols are there. -/
theorem isComplete_edgeRow (repositoryId : Id) (ids : SymbolIds) {fromId toId : Option Id}
    {e : Edge} (hfrom : FileEnd files e.fromFile fromId) (hto : FileEnd files e.toFile toId) :
    EdgeRow.isComplete (edgeRow repositoryId fromId toId ids e) = true ↔
      (e.fromFile.isSome = true ∧ e.toFile.isSome = true) ∨
        (∃ k ∈ ids.map Prod.fst, e.fromSymbol = some k) ∧
          ∃ k ∈ ids.map Prod.fst, e.toSymbol = some k := by
  simp only [EdgeRow.isComplete, edgeRow, hfrom.isSome, hto.isSome, Bool.or_eq_true,
    Bool.and_eq_true, isSome_symbolId?]

/-- An end of an edge is looked up as its path is one of the run. -/
theorem Placed.failure?_requireFile? (h : Placed s files paths stray) (path : Option String) :
    failure? (requireFile? files path) = path.toList.findSome? (pathFlaw? paths) := by
  cases path with
  | none => rfl
  | some p =>
    have hmap : failure? (requireFile? files (some p)) = failure? (requireFile files p) := by
      rw [requireFile?]
      cases requireFile files p <;> rfl
    rw [hmap, requireFile]
    by_cases hin : p ∈ paths
    · obtain ⟨id, hid⟩ := Option.isSome_iff_exists.mp (isSome_fileId?.mpr ((h.known p).mpr hin))
      rw [hid]
      simp [failure?, pathFlaw?, hin]
    · have hnone : fileId? files p = none := by
        rw [← Option.not_isSome_iff_eq_none, isSome_fileId?, h.known]
        exact hin
      rw [hnone]
      simp [failure?, pathFlaw?, hin]

/-- The row of an end is there unless the path of the end is stray. -/
theorem Placed.failure?_checkFile? (h : Placed s files paths stray) {path : Option String}
    {id : Option Id} (hend : FileEnd files path id) :
    failure? (checkFile? s id) = (path.toList.map Check.row).findSome? (Check.flaw? stray) := by
  cases path with
  | none =>
    rw [show id = none from hend]
    rfl
  | some p =>
    obtain ⟨i, hi, rfl⟩ := hend
    have hstored := h.isSome_fileById? hi
    by_cases hpath : p ∈ stray
    · rw [checkFile?, checkFile_eq_error (mt hstored.mp (not_not_intro hpath))]
      simp [failure?, Check.flaw?, hpath]
    · rw [checkFile?, checkFile_eq_ok.mpr (hstored.mpr hpath)]
      simp [failure?, Check.flaw?, hpath]

/-- Writing edges fails as their checks do. -/
theorem failure?_putEdges {n : Nat} {seen : List String} {keys : List SymbolKey}
    (h : Placed s files paths stray) (hkeys : ∀ k, k ∈ ids.map Prod.fst ↔ k ∈ keys)
    (hseen : ∀ k, k ∈ seen ↔ ∃ x ∈ s.edges, edgePlace x = (repositoryId, k)) (edges : List Edge) :
    failure? (putEdges repositoryId files ids s n edges) =
      (edgeChecks (edgeFlaw? paths keys) seen edges).findSome? (Check.flaw? stray) := by
  induction edges generalizing s n seen with
  | nil => rfl
  | cons e rest ih =>
    have hany : (s.edges.any fun x => x.repositoryId == repositoryId && x.key == e.key) = true ↔
        e.key ∈ seen := by
      rw [hseen]
      simp [List.any_eq_true, edgePlace]
    rw [putEdges, edgeChecks, findSome?_cons_or, Check.flaw?, edgeFlaw?]
    by_cases hformed : e.isWellFormed = true
    · have hpaths : (edgePaths e).findSome? (pathFlaw? paths) =
          (e.fromFile.toList.findSome? (pathFlaw? paths)).or
            (e.toFile.toList.findSome? (pathFlaw? paths)) := List.findSome?_append
      simp only [hformed, Bool.not_true, Bool.false_eq_true, if_false, Bool.true_eq_false]
      rw [hpaths, Option.or_assoc, Option.or_assoc, failure?_bind, h.failure?_requireFile?]
      intro fromId hfrom
      rw [failure?_bind, h.failure?_requireFile?]
      intro toId hto
      rw [requireFile?_eq_ok] at hfrom hto
      have hcomplete := isComplete_edgeRow repositoryId ids hfrom hto
      simp only [hkeys] at hcomplete
      change failure? (if (!EdgeRow.isComplete (edgeRow repositoryId fromId toId ids e)) = true
        then _ else _) = _
      by_cases hrow : EdgeRow.isComplete (edgeRow repositoryId fromId toId ids e) = true
      · rw [if_neg (by simp [hrow]), if_pos (hcomplete.mp hrow), Option.none_or]
        by_cases hmem : e.key ∈ seen
        · rw [if_pos hmem, if_pos (hany.mpr hmem)]
          exact ih h hseen
        -- Only here are the rows of the ends asked for.
        · rw [if_neg hmem, if_neg (mt hany.mp hmem), edgePaths, List.map_append, List.append_assoc,
            List.findSome?_append, List.findSome?_append, ← h.failure?_checkFile? hfrom,
            ← h.failure?_checkFile? hto]
          refine failure?_bind fun _ _ => failure?_bind fun _ _ => ?_
          exact ih (h.same rfl) (seen_edgeRow hseen)
      · rw [if_pos (by simp [hrow]), if_neg (mt hcomplete.mpr hrow)]
        rfl
    · simp only [hformed]
      rfl

end Loops

/-! The whole run -/

theorem Sound.isSome_of_hasFile {s : Store} (h : s.Sound) {id owner : Id}
    (hfile : s.HasFile id owner) : (s.fileById? id).isSome = true := by
  obtain ⟨f, hf, hid, -⟩ := hfile
  exact Option.isSome_iff_exists.mpr ⟨f, h.fileById?_eq_some.mpr ⟨hf, hid⟩⟩

section Whole

variable {s : Store} (h : s.Sound) {repositoryId : Id} (howner : s.HasRepository repositoryId)
include h howner

theorem Sound.placed_cleared (repository : RepositoryRow) (run : Run) :
    Placed (s.cleared repository repositoryId run) (s.withFiles repositoryId run).2 run.paths
      (s.strayPaths repositoryId run) :=
  ⟨fun _ => mem_withFiles_paths, fun _ hp => h.holdsFile_iff howner repository hp⟩

/-- A run fails with what is first wrong with it. -/
theorem Sound.failure?_storeRun (now : Int) (run : Run) :
    failure? (s.storeRun repositoryId now run) = run.flaw? (s.strayPaths repositoryId run) := by
  have ⟨repository, hr, hid⟩ := howner
  have hplaced := h.placed_cleared howner repository run
  have hsound := h.cleared howner run repository
  rw [Store.storeRun, h.repositoryById?_eq_some.mpr ⟨hr, hid⟩, Run.flaw?, Run.checks,
    List.findSome?_append, List.findSome?_append]
  refine (failure?_bind ?_).trans (congrArg₂ Option.or (failure?_putSymbols hplaced
    (fun x hx => hsound.isSome_of_hasFile (hsound.symbol_file x hx)) run.symbols) rfl)
  rintro ⟨t3, ids⟩ hput3
  obtain ⟨hsymbols, hkeys, _, _, hframe3, -⟩ :=
    putSymbols_written (h.cleared_written howner run repository) hput3
  have hplaced3 := hplaced.same (show t3.files = _ by rw [hframe3])
  have hsound3 := hsymbols.sound
  refine (failure?_bind ?_).trans (congrArg₂ Option.or (failure?_putReferences hplaced3
    (fun r hr => hsound3.isSome_of_hasFile (hsound3.reference_file r hr)) run.references) rfl)
  rintro ⟨t4, n4⟩ hput4
  have hreferences3 : t3.references = (s.cleared repository repositoryId run).references := by
    rw [hframe3]
  obtain ⟨-, -, _, hframe4, -⟩ :=
    putReferences_written (h.references_start howner hsymbols hreferences3) hput4
  have hknown : ∀ k, k ∈ ids.map Prod.fst ↔ k ∈ run.symbols.map Symbol.key := by
    intro k
    rw [hkeys, List.map_nil, List.nil_append, mem_map_firstsBy]
  have hedges4 : t4.edges = (s.cleared repository repositoryId run).edges := by
    rw [hframe4, hframe3]
  have hplaced4 := hplaced3.same (show t4.files = _ by rw [hframe4])
  refine (failure?_bind_of_none fun _ => rfl).trans ?_
  exact failure?_putEdges hplaced4 hknown (h.edges_start howner hedges4) run.edges

end Whole

/-! What the checks of a run find -/

section Stray

variable {checks : List Check} {stray : List String}

/-- Where the rows of stray paths are not there, a search finds what it finds otherwise or, before
that, a row that is not there. -/
theorem flaw_cases (checks : List Check) (stray : List String) :
    checks.findSome? (Check.flaw? stray) = checks.findSome? (Check.flaw? []) ∨
      checks.findSome? (Check.flaw? stray) = some (.storage .missingParent) := by
  induction checks with
  | nil => exact .inl rfl
  | cons c rest ih =>
    rw [findSome?_cons_or, findSome?_cons_or]
    cases c with
    | value flaw =>
      cases flaw with
      | none => exact ih
      | some e => exact .inl rfl
    | row p =>
      simp only [Check.flaw?, List.not_mem_nil, if_false, Option.none_or]
      by_cases hpath : p ∈ stray
      · rw [if_pos hpath]
        exact .inr rfl
      · rw [if_neg hpath]
        exact ih

/-- A search that asks for no row of a stray path finds what it finds otherwise. -/
theorem flaw_eq_of_not_mem (h : ∀ p ∈ stray, .row p ∉ checks) :
    checks.findSome? (Check.flaw? stray) = checks.findSome? (Check.flaw? []) := by
  induction checks with
  | nil => rfl
  | cons c rest ih =>
    have hrest := ih fun p hp hmem => h p hp (List.mem_cons_of_mem _ hmem)
    rw [findSome?_cons_or, findSome?_cons_or, hrest]
    cases c with
    | value flaw => rfl
    | row p =>
      have hpath : p ∉ stray := fun hp => h p hp List.mem_cons_self
      rw [Check.flaw?, Check.flaw?, if_neg hpath, if_neg List.not_mem_nil]

/-- A search that asks for the row of a stray path finds something. -/
theorem flaw_ne_none_of_mem {path : String} (hpath : path ∈ stray) (h : .row path ∈ checks) :
    checks.findSome? (Check.flaw? stray) ≠ none := by
  intro hnone
  have hrow := List.findSome?_eq_none_iff.mp hnone _ h
  rw [Check.flaw?, if_pos hpath] at hrow
  cases hrow

end Stray

theorem row_mem_pathChecks {paths : List String} {p path : String} :
    .row p ∈ pathChecks paths path ↔ path = p := by
  simp [pathChecks, eq_comm]

theorem value_mem_pathChecks {paths : List String} {path : String} {flaw : Option Error} :
    .value flaw ∈ pathChecks paths path ↔ flaw = pathFlaw? paths path := by
  simp [pathChecks]

theorem value_mem_edgeChecks {flaw? : Edge → Option Error} {flaw : Option Error}
    {seen : List String} {edges : List Edge} :
    .value flaw ∈ edgeChecks flaw? seen edges ↔ ∃ e ∈ edges, flaw = flaw? e := by
  induction edges generalizing seen with
  | nil => simp [edgeChecks]
  | cons e rest ih =>
    rw [edgeChecks, List.exists_mem_cons_iff]
    by_cases hseen : e.key ∈ seen
    · rw [if_pos hseen, List.mem_cons, ih]
      simp
    · rw [if_neg hseen, List.mem_cons, List.mem_append, ih]
      simp

/-- The rows that edges ask for are those of the files that the first edge of every key names. -/
theorem row_mem_edgeChecks {flaw? : Edge → Option Error} {p : String} {seen : List String}
    {edges : List Edge} :
    .row p ∈ edgeChecks flaw? seen edges ↔ ∃ e ∈ firstsBy Edge.key seen edges, p ∈ edgePaths e := by
  induction edges generalizing seen with
  | nil => simp [edgeChecks, firstsBy]
  | cons e rest ih =>
    rw [edgeChecks]
    by_cases hseen : e.key ∈ seen
    · rw [if_pos hseen, firstsBy_cons_seen hseen, ← ih]
      simp
    · rw [if_neg hseen, firstsBy_cons_new hseen, List.exists_mem_cons_iff, ← ih]
      simp

/-- The values that the checks of a run look at are all that it has. -/
theorem Run.value_mem_checks {run : Run} {flaw : Option Error} :
    .value flaw ∈ run.checks ↔
      (∃ x ∈ run.symbols, flaw = pathFlaw? run.paths x.filePath) ∨
        (∃ r ∈ run.references, flaw = pathFlaw? run.paths r.filePath) ∨
          ∃ e ∈ run.edges, flaw = edgeFlaw? run.paths (run.symbols.map Symbol.key) e := by
  simp only [Run.checks, List.mem_append, List.mem_flatMap, value_mem_pathChecks,
    value_mem_edgeChecks]

/-- A value of a run that is not passed over names one of the paths. -/
def Run.Names (run : Run) (paths : List String) : Prop :=
  (∃ x ∈ run.symbols, x.filePath ∈ paths) ∨ (∃ r ∈ run.references, r.filePath ∈ paths) ∨
    ∃ e ∈ firstsBy Edge.key [] run.edges, ∃ p ∈ edgePaths e, p ∈ paths

/-- A run asks for the rows of the paths that its values name. -/
theorem Run.names_iff {run : Run} {paths : List String} :
    run.Names paths ↔ ∃ p ∈ paths, .row p ∈ run.checks := by
  simp only [Run.Names, Run.checks, List.mem_append, List.mem_flatMap, row_mem_pathChecks,
    row_mem_edgeChecks]
  constructor
  · rintro (⟨x, hx, hpath⟩ | ⟨r, hr, hpath⟩ | ⟨e, he, p, hp, hpath⟩)
    · exact ⟨_, hpath, .inl ⟨x, hx, rfl⟩⟩
    · exact ⟨_, hpath, .inr (.inl ⟨r, hr, rfl⟩)⟩
    · exact ⟨p, hpath, .inr (.inr ⟨e, he, hp⟩)⟩
  · rintro ⟨p, hpath, ⟨x, hx, rfl⟩ | ⟨r, hr, rfl⟩ | ⟨e, he, hp⟩⟩
    · exact .inl ⟨x, hx, hpath⟩
    · exact .inr (.inl ⟨r, hr, hpath⟩)
    · exact .inr (.inr ⟨e, he, p, hp, hpath⟩)

end CodeIndex.Store
