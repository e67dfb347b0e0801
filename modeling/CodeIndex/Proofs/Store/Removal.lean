import CodeIndex.Proofs.Store.Rows

/-!
Removing rows from a sound store leaves it sound: what stands below a removed row goes with it, and
a reference loses a target that goes away. The lemmas follow the layers of a removal, from symbols
through files to a whole repository.
-/
namespace CodeIndex.Store

variable {s : Store}

@[simp] theorem endGone_some (gone : List Id) (i : Id) : endGone gone (some i) = gone.contains i :=
  rfl

@[simp] theorem endGone_none (gone : List Id) : endGone gone none = false := rfl

/-- An end that stays is none of the rows that go away. -/
theorem not_mem_of_endGone {gone : List Id} {e : Option Id} {i : Id} (h : endGone gone e = false)
    (hi : e = some i) : i ∉ gone := by
  rw [hi, endGone_some] at h
  simpa using h

/-! Symbols -/

section Symbols

variable (s) (test : SymbolRow → Bool)

@[simp] theorem removeSymbols_repositories :
    (s.removeSymbols test).repositories = s.repositories := rfl

@[simp] theorem removeSymbols_files : (s.removeSymbols test).files = s.files := rfl

@[simp] theorem removeSymbols_projects : (s.removeSymbols test).projects = s.projects := rfl

@[simp] theorem removeSymbols_memberships :
    (s.removeSymbols test).memberships = s.memberships := rfl

@[simp] theorem removeSymbols_symbols :
    (s.removeSymbols test).symbols = s.symbols.filter fun x => !test x := rfl

end Symbols

/-- The ids of the rows that a removal of symbols takes away. -/
def symbolsGone (s : Store) (test : SymbolRow → Bool) : List Id :=
  (s.symbols.filter test).map SymbolRow.id

/-- A reference after a removal of symbols. -/
def dropTarget (gone : List Id) (r : ReferenceRow) : ReferenceRow :=
  if endGone gone r.targetSymbolId then { r with targetSymbolId := none } else r

theorem removeSymbols_references (s : Store) (test : SymbolRow → Bool) :
    (s.removeSymbols test).references = s.references.map (dropTarget (s.symbolsGone test)) := rfl

theorem mem_removeSymbols_edges {test : SymbolRow → Bool} {e : EdgeRow} :
    e ∈ (s.removeSymbols test).edges ↔ e ∈ s.edges ∧
      endGone (s.symbolsGone test) e.fromSymbolId = false ∧
      endGone (s.symbolsGone test) e.toSymbolId = false := by
  simp [removeSymbols, symbolsGone, List.mem_filter]

theorem dropTarget_usePlace (gone : List Id) (r : ReferenceRow) :
    usePlace (dropTarget gone r) = usePlace r := by
  unfold dropTarget
  split <;> rfl

theorem dropTarget_repositoryId (gone : List Id) (r : ReferenceRow) :
    (dropTarget gone r).repositoryId = r.repositoryId := by
  unfold dropTarget
  split <;> rfl

theorem dropTarget_fileId (gone : List Id) (r : ReferenceRow) :
    (dropTarget gone r).fileId = r.fileId := by
  unfold dropTarget
  split <;> rfl

/-- A target that a reference still has was its target and stays. -/
theorem dropTarget_target {gone : List Id} {r : ReferenceRow} {i : Id}
    (h : (dropTarget gone r).targetSymbolId = some i) :
    r.targetSymbolId = some i ∧ i ∉ gone := by
  unfold dropTarget at h
  split at h
  · simp at h
  · next hgone => exact ⟨h, not_mem_of_endGone (by simpa using hgone) h⟩

/-- A symbol outside the rows that go away stays. -/
theorem HasSymbol.removeSymbols {i owner : Id} {test : SymbolRow → Bool}
    (h : s.HasSymbol i owner) (hi : i ∉ s.symbolsGone test) :
    (s.removeSymbols test).HasSymbol i owner := by
  obtain ⟨x, hx, rfl, hown⟩ := h
  have htest : test x = false := by
    by_contra hne
    apply hi
    exact List.mem_map_of_mem (List.mem_filter.mpr ⟨hx, by simpa using hne⟩)
  exact ⟨x, List.mem_filter.mpr ⟨hx, by simp [htest]⟩, rfl, hown⟩

theorem Sound.removeSymbols (h : s.Sound) (test : SymbolRow → Bool) :
    (s.removeSymbols test).Sound := by
  refine { h with
    symbol_places := nodup_map_filter h.symbol_places _
    symbol_ids := nodup_map_filter h.symbol_ids _
    symbol_old := fun x hx => h.symbol_old x (List.mem_of_mem_filter hx)
    symbol_file := fun x hx => h.symbol_file x (List.mem_of_mem_filter hx)
    use_places := ?_
    reference_file := ?_
    reference_target := ?_
    edge_places := nodup_map_filter h.edge_places _
    edge_fits := ?_ }
  · rw [removeSymbols_references, map_key_map fun r _ => dropTarget_usePlace _ r]
    exact h.use_places
  · rw [removeSymbols_references]
    apply forall_mem_map
    intro r hr
    rw [dropTarget_fileId, dropTarget_repositoryId]
    exact h.reference_file r hr
  · rw [removeSymbols_references]
    apply forall_mem_map
    intro r hr i hi
    obtain ⟨htarget, hstays⟩ := dropTarget_target hi
    rw [dropTarget_repositoryId]
    exact (h.reference_target r hr i htarget).removeSymbols hstays
  · intro e he
    obtain ⟨he, hfrom, hto⟩ := mem_removeSymbols_edges.mp he
    have hfits := h.edge_fits e he
    refine ⟨hfits.owner, hfits.complete, hfits.files, ?_⟩
    intro i hi
    apply (hfits.symbols i hi).removeSymbols
    rcases hi with hi | hi
    · exact not_mem_of_endGone hfrom hi
    · exact not_mem_of_endGone hto hi

/-! Files -/

/-- The ids of the rows that a removal of files takes away. -/
def filesGone (s : Store) (test : FileRow → Bool) : List Id :=
  (s.files.filter test).map FileRow.id

/-- The symbols of files that go away go first. -/
def aboveFiles (s : Store) (test : FileRow → Bool) : Store :=
  s.removeSymbols fun x => (s.filesGone test).contains x.fileId

theorem removeFiles_eq (s : Store) (test : FileRow → Bool) :
    s.removeFiles test =
      { s.aboveFiles test with
        files := s.files.filter fun f => !test f
        references := (s.aboveFiles test).references.filter fun r =>
          !(s.filesGone test).contains r.fileId
        edges := (s.aboveFiles test).edges.filter fun e =>
          !endGone (s.filesGone test) e.fromFileId && !endGone (s.filesGone test) e.toFileId } :=
  rfl

@[simp] theorem removeFiles_repositories (s : Store) (test : FileRow → Bool) :
    (s.removeFiles test).repositories = s.repositories := rfl

@[simp] theorem removeFiles_files (s : Store) (test : FileRow → Bool) :
    (s.removeFiles test).files = s.files.filter fun f => !test f := rfl

@[simp] theorem removeFiles_symbols (s : Store) (test : FileRow → Bool) :
    (s.removeFiles test).symbols =
      s.symbols.filter fun x => !(s.filesGone test).contains x.fileId := rfl

@[simp] theorem removeFiles_projects (s : Store) (test : FileRow → Bool) :
    (s.removeFiles test).projects = s.projects := rfl

@[simp] theorem removeFiles_memberships (s : Store) (test : FileRow → Bool) :
    (s.removeFiles test).memberships = s.memberships := rfl

theorem HasFile.removeFiles {i owner : Id} {test : FileRow → Bool} (h : s.HasFile i owner)
    (hi : i ∉ s.filesGone test) : (s.removeFiles test).HasFile i owner := by
  obtain ⟨f, hf, rfl, hown⟩ := h
  have htest : test f = false := by
    by_contra hne
    apply hi
    exact List.mem_map_of_mem (List.mem_filter.mpr ⟨hf, by simpa using hne⟩)
  exact ⟨f, List.mem_filter.mpr ⟨hf, by simp [htest]⟩, rfl, hown⟩

theorem mem_removeFiles_references {test : FileRow → Bool} {r : ReferenceRow} :
    r ∈ (s.removeFiles test).references ↔
      r ∈ (s.aboveFiles test).references ∧ r.fileId ∉ s.filesGone test := by
  simp [removeFiles_eq, List.mem_filter]

theorem mem_removeFiles_edges {test : FileRow → Bool} {e : EdgeRow} :
    e ∈ (s.removeFiles test).edges ↔ e ∈ (s.aboveFiles test).edges ∧
      endGone (s.filesGone test) e.fromFileId = false ∧
      endGone (s.filesGone test) e.toFileId = false := by
  simp [removeFiles_eq, List.mem_filter]

theorem Sound.removeFiles (h : s.Sound) (test : FileRow → Bool) : (s.removeFiles test).Sound := by
  have ha : (s.aboveFiles test).Sound := h.removeSymbols _
  have hsymbols : ∀ i owner, (s.aboveFiles test).HasSymbol i owner →
      (s.removeFiles test).HasSymbol i owner := fun _ _ hi => hi
  refine { ha with
    file_places := nodup_map_filter h.file_places _
    file_ids := nodup_map_filter h.file_ids _
    file_old := fun f hf => h.file_old f (List.mem_of_mem_filter hf)
    file_owner := fun f hf => h.file_owner f (List.mem_of_mem_filter hf)
    symbol_file := ?_
    use_places := nodup_map_filter ha.use_places _
    reference_file := ?_
    reference_target := ?_
    edge_places := nodup_map_filter ha.edge_places _
    edge_fits := ?_ }
  · intro x hx
    rw [removeFiles_symbols] at hx
    obtain ⟨hx, hstays⟩ := List.mem_filter.mp hx
    exact (h.symbol_file x hx).removeFiles (by simpa using hstays)
  · intro r hr
    obtain ⟨hr, hstays⟩ := mem_removeFiles_references.mp hr
    have hfile : s.HasFile r.fileId r.repositoryId := ha.reference_file r hr
    exact hfile.removeFiles hstays
  · intro r hr i hi
    obtain ⟨hr, -⟩ := mem_removeFiles_references.mp hr
    exact ha.reference_target r hr i hi
  · intro e he
    obtain ⟨he, hfrom, hto⟩ := mem_removeFiles_edges.mp he
    have hfits := ha.edge_fits e he
    refine ⟨hfits.owner, hfits.complete, ?_, hfits.symbols⟩
    intro i hi
    have hfile : s.HasFile i e.repositoryId := hfits.files i hi
    apply hfile.removeFiles
    rcases hi with hi | hi
    · exact not_mem_of_endGone hfrom hi
    · exact not_mem_of_endGone hto hi

/-! References, edges and memberships have nothing below them -/

theorem Sound.filterReferences (h : s.Sound) (test : ReferenceRow → Bool) :
    ({ s with references := s.references.filter test } : Store).Sound :=
  { h with
    use_places := nodup_map_filter h.use_places _
    reference_file := fun r hr => h.reference_file r (List.mem_of_mem_filter hr)
    reference_target := fun r hr => h.reference_target r (List.mem_of_mem_filter hr)
    edge_fits := fun e he => (h.edge_fits e he).same rfl rfl rfl }

theorem Sound.filterEdges (h : s.Sound) (test : EdgeRow → Bool) :
    ({ s with edges := s.edges.filter test } : Store).Sound :=
  { h with
    edge_places := nodup_map_filter h.edge_places _
    edge_fits := fun e he => (h.edge_fits e (List.mem_of_mem_filter he)).same rfl rfl rfl }

theorem Sound.filterMemberships (h : s.Sound) (test : MembershipRow → Bool) :
    ({ s with memberships := s.memberships.filter test } : Store).Sound :=
  { h with
    memberships_nodup := h.memberships_nodup.filter _
    membership_project := fun m hm => h.membership_project m (List.mem_of_mem_filter hm)
    membership_repository := fun m hm => h.membership_repository m (List.mem_of_mem_filter hm)
    edge_fits := fun e he => (h.edge_fits e he).same rfl rfl rfl }

/-! Repositories and projects -/

theorem Sound.removeDerived (h : s.Sound) (repositoryId : Id) :
    (s.removeDerived repositoryId).Sound :=
  ((h.removeSymbols _).filterReferences _).filterEdges _

@[simp] theorem removeDerived_repositories (s : Store) (id : Id) :
    (s.removeDerived id).repositories = s.repositories := rfl

@[simp] theorem removeDerived_files (s : Store) (id : Id) :
    (s.removeDerived id).files = s.files := rfl

@[simp] theorem removeDerived_symbols (s : Store) (id : Id) :
    (s.removeDerived id).symbols = s.symbols.filter fun x => !(x.repositoryId == id) := rfl

theorem removeDerived_edges_owner {id : Id} {e : EdgeRow}
    (h : e ∈ (s.removeDerived id).edges) : e.repositoryId ≠ id := by
  have := (List.mem_filter.mp h).2
  simpa using this

/-- Nothing of a repository is left when its derived rows and its files are removed. -/
theorem Sound.removeRepository (h : s.Sound) (fullName : String) :
    (s.removeRepository fullName).Sound := by
  unfold Store.removeRepository
  split
  · exact h
  · next r hr =>
    obtain ⟨hmem, hname⟩ := h.repository?_eq_some.mp hr
    have hb : ((s.removeDerived r.id).removeFiles fun f => f.repositoryId == r.id).Sound :=
      (h.removeDerived r.id).removeFiles _
    have hkept : ∀ i, s.HasRepository i → i ≠ r.id →
        ∃ x ∈ s.repositories.filter (fun x => x.fullName != fullName), x.id = i := by
      rintro i ⟨x, hx, rfl⟩ hne
      refine ⟨x, List.mem_filter.mpr ⟨hx, ?_⟩, rfl⟩
      simp only [bne_iff_ne, ne_eq]
      intro heq
      exact hne (congrArg RepositoryRow.id (eq_of_key h.repository_names hx hmem
        (heq.trans hname.symm)))
    refine { hb with
      repository_names := nodup_map_filter h.repository_names _
      repository_ids := nodup_map_filter h.repository_ids _
      repository_old := fun x hx => h.repository_old x (List.mem_of_mem_filter hx)
      file_owner := ?_
      edge_fits := ?_
      memberships_nodup := h.memberships_nodup.filter _
      membership_project := fun m hm => h.membership_project m (List.mem_of_mem_filter hm)
      membership_repository := ?_ }
    · intro f hf
      obtain ⟨hf, howner⟩ := List.mem_filter.mp hf
      exact hkept _ (h.file_owner f hf) (by simpa using howner)
    · intro e he
      have hfits := hb.edge_fits e he
      have howner : e.repositoryId ≠ r.id := by
        obtain ⟨he, -⟩ := mem_removeFiles_edges.mp he
        exact removeDerived_edges_owner (mem_removeSymbols_edges.mp he).1
      exact ⟨hkept _ hfits.owner howner, hfits.complete, hfits.files, hfits.symbols⟩
    · intro m hm
      obtain ⟨hm, howner⟩ := List.mem_filter.mp hm
      exact hkept _ (h.membership_repository m hm) (by simpa using howner)

theorem Sound.removeProject (h : s.Sound) (name : String) : (s.removeProject name).Sound := by
  unfold Store.removeProject
  split
  · exact h
  · next p hp =>
    obtain ⟨hmem, hname⟩ := h.project?_eq_some.mp hp
    refine { h with
      project_names := nodup_map_filter h.project_names _
      project_ids := nodup_map_filter h.project_ids _
      project_old := fun x hx => h.project_old x (List.mem_of_mem_filter hx)
      memberships_nodup := h.memberships_nodup.filter _
      membership_project := ?_
      membership_repository := fun m hm => h.membership_repository m (List.mem_of_mem_filter hm)
      edge_fits := fun e he => (h.edge_fits e he).same rfl rfl rfl }
    intro m hm
    obtain ⟨hm, howner⟩ := List.mem_filter.mp hm
    obtain ⟨x, hx, hid⟩ := h.membership_project m hm
    refine ⟨x, List.mem_filter.mpr ⟨hx, ?_⟩, hid⟩
    simp only [bne_iff_ne, ne_eq] at howner ⊢
    intro heq
    apply howner
    rw [← hid, eq_of_key h.project_names hx hmem (heq.trans hname.symm)]

end CodeIndex.Store
