import CodeIndex.Proofs.Store.Invariant

/-!
A sound store stays sound when a row is added that names rows of its own repository, and when rows
are changed without touching what identifies them.
-/
namespace CodeIndex.Store

variable {s : Store}

/-! Rows that stay where they are -/

theorem HasRepository.append {id : Id} (h : s.HasRepository id) (row : RepositoryRow) :
    ({ s with repositories := s.repositories ++ [row] } : Store).HasRepository id := by
  obtain ⟨r, hr, hid⟩ := h
  exact ⟨r, List.mem_append_left _ hr, hid⟩

theorem HasFile.append {id owner : Id} (h : s.HasFile id owner) (row : FileRow) :
    ({ s with files := s.files ++ [row] } : Store).HasFile id owner := by
  obtain ⟨f, hf, hid⟩ := h
  exact ⟨f, List.mem_append_left _ hf, hid⟩

theorem HasSymbol.append {id owner : Id} (h : s.HasSymbol id owner) (row : SymbolRow) :
    ({ s with symbols := s.symbols ++ [row] } : Store).HasSymbol id owner := by
  obtain ⟨x, hx, hid⟩ := h
  exact ⟨x, List.mem_append_left _ hx, hid⟩

theorem HasProject.append {id : Id} (h : s.HasProject id) (row : ProjectRow) :
    ({ s with projects := s.projects ++ [row] } : Store).HasProject id := by
  obtain ⟨p, hp, hid⟩ := h
  exact ⟨p, List.mem_append_left _ hp, hid⟩

theorem HasRepository.map {id : Id} (h : s.HasRepository id) {f : RepositoryRow → RepositoryRow}
    (hf : ∀ r ∈ s.repositories, (f r).id = r.id) :
    ({ s with repositories := s.repositories.map f } : Store).HasRepository id := by
  obtain ⟨r, hr, hid⟩ := h
  exact ⟨f r, List.mem_map_of_mem hr, (hf r hr).trans hid⟩

theorem HasFile.map {id owner : Id} (h : s.HasFile id owner) {g : FileRow → FileRow}
    (hg : ∀ f ∈ s.files, (g f).id = f.id ∧ (g f).repositoryId = f.repositoryId) :
    ({ s with files := s.files.map g } : Store).HasFile id owner := by
  obtain ⟨f, hf, hid, hown⟩ := h
  exact ⟨g f, List.mem_map_of_mem hf, (hg f hf).1.trans hid, (hg f hf).2.trans hown⟩

theorem HasSymbol.map {id owner : Id} (h : s.HasSymbol id owner) {g : SymbolRow → SymbolRow}
    (hg : ∀ x ∈ s.symbols, (g x).id = x.id ∧ (g x).repositoryId = x.repositoryId) :
    ({ s with symbols := s.symbols.map g } : Store).HasSymbol id owner := by
  obtain ⟨x, hx, hid, hown⟩ := h
  exact ⟨g x, List.mem_map_of_mem hx, (hg x hx).1.trans hid, (hg x hx).2.trans hown⟩

theorem HasProject.map {id : Id} (h : s.HasProject id) {g : ProjectRow → ProjectRow}
    (hg : ∀ p ∈ s.projects, (g p).id = p.id) :
    ({ s with projects := s.projects.map g } : Store).HasProject id := by
  obtain ⟨p, hp, hid⟩ := h
  exact ⟨g p, List.mem_map_of_mem hp, (hg p hp).trans hid⟩

/-- A property of all rows and of a further one is one of the rows with it. -/
theorem forall_mem_append_one {α : Type} {rows : List α} {row : α} {P : α → Prop}
    (h : ∀ a ∈ rows, P a) (hrow : P row) : ∀ a ∈ rows ++ [row], P a := by
  intro a ha
  rcases List.mem_append.mp ha with ha | ha
  · exact h a ha
  · rw [List.mem_singleton.mp ha]
    exact hrow

theorem forall_mem_map {α : Type} {rows : List α} {g : α → α} {P : α → Prop}
    (h : ∀ a ∈ rows, P (g a)) : ∀ a ∈ rows.map g, P a := by
  intro a ha
  obtain ⟨b, hb, rfl⟩ := List.mem_map.mp ha
  exact h b hb

namespace Sound

/-! Repositories -/

theorem addRepository (h : s.Sound) {row : RepositoryRow}
    (hname : ∀ r ∈ s.repositories, r.fullName ≠ row.fullName)
    (hid : ∀ r ∈ s.repositories, r.id ≠ row.id) (hold : s.Old row.id) :
    ({ s with repositories := s.repositories ++ [row] } : Store).Sound :=
  { h with
    repository_names := nodup_map_append_one h.repository_names hname
    repository_ids := nodup_map_append_one h.repository_ids hid
    repository_old := forall_mem_append_one h.repository_old hold
    file_owner := fun f hf => (h.file_owner f hf).append row
    edge_fits := fun e he => (h.edge_fits e he).mono (fun _ hi => hi.append row)
      (fun _ _ hi => hi) (fun _ _ hi => hi)
    membership_repository := fun m hm => (h.membership_repository m hm).append row }

theorem mapRepositories (h : s.Sound) {g : RepositoryRow → RepositoryRow}
    (hid : ∀ r ∈ s.repositories, (g r).id = r.id)
    (hname : ∀ r ∈ s.repositories, (g r).fullName = r.fullName) :
    ({ s with repositories := s.repositories.map g } : Store).Sound :=
  { h with
    repository_names := (map_key_map hname).symm ▸ h.repository_names
    repository_ids := (map_key_map hid).symm ▸ h.repository_ids
    repository_old := forall_mem_map fun r hr => (hid r hr).symm ▸ h.repository_old r hr
    file_owner := fun f hf => (h.file_owner f hf).map hid
    edge_fits := fun e he => (h.edge_fits e he).mono (fun _ hi => hi.map hid)
      (fun _ _ hi => hi) (fun _ _ hi => hi)
    membership_repository := fun m hm => (h.membership_repository m hm).map hid }

/-! Files -/

theorem addFile (h : s.Sound) {row : FileRow} (hplace : ∀ f ∈ s.files, filePlace f ≠ filePlace row)
    (hid : ∀ f ∈ s.files, f.id ≠ row.id) (hold : s.Old row.id)
    (howner : s.HasRepository row.repositoryId) :
    ({ s with files := s.files ++ [row] } : Store).Sound :=
  { h with
    file_places := nodup_map_append_one h.file_places hplace
    file_ids := nodup_map_append_one h.file_ids hid
    file_old := forall_mem_append_one h.file_old hold
    file_owner := forall_mem_append_one h.file_owner howner
    symbol_file := fun x hx => (h.symbol_file x hx).append row
    reference_file := fun r hr => (h.reference_file r hr).append row
    edge_fits := fun e he => (h.edge_fits e he).mono (fun _ hi => hi)
      (fun _ _ hi => hi.append row) (fun _ _ hi => hi) }

theorem mapFiles (h : s.Sound) {g : FileRow → FileRow} (hid : ∀ f ∈ s.files, (g f).id = f.id)
    (hplace : ∀ f ∈ s.files, filePlace (g f) = filePlace f) :
    ({ s with files := s.files.map g } : Store).Sound := by
  have hown : ∀ f ∈ s.files, (g f).repositoryId = f.repositoryId :=
    fun f hf => congrArg Prod.fst (hplace f hf)
  have hboth : ∀ f ∈ s.files, (g f).id = f.id ∧ (g f).repositoryId = f.repositoryId :=
    fun f hf => ⟨hid f hf, hown f hf⟩
  exact { h with
    file_places := (map_key_map hplace).symm ▸ h.file_places
    file_ids := (map_key_map hid).symm ▸ h.file_ids
    file_old := forall_mem_map fun f hf => (hid f hf).symm ▸ h.file_old f hf
    file_owner := forall_mem_map fun f hf => (hown f hf).symm ▸ h.file_owner f hf
    symbol_file := fun x hx => (h.symbol_file x hx).map hboth
    reference_file := fun r hr => (h.reference_file r hr).map hboth
    edge_fits := fun e he => (h.edge_fits e he).mono (fun _ hi => hi)
      (fun _ _ hi => hi.map hboth) (fun _ _ hi => hi) }

/-! Symbols -/

theorem addSymbol (h : s.Sound) {row : SymbolRow}
    (hplace : ∀ x ∈ s.symbols, symbolPlace x ≠ symbolPlace row)
    (hid : ∀ x ∈ s.symbols, x.id ≠ row.id) (hold : s.Old row.id)
    (hfile : s.HasFile row.fileId row.repositoryId) :
    ({ s with symbols := s.symbols ++ [row] } : Store).Sound :=
  { h with
    symbol_places := nodup_map_append_one h.symbol_places hplace
    symbol_ids := nodup_map_append_one h.symbol_ids hid
    symbol_old := forall_mem_append_one h.symbol_old hold
    symbol_file := forall_mem_append_one h.symbol_file hfile
    reference_target := fun r hr i hi => (h.reference_target r hr i hi).append row
    edge_fits := fun e he => (h.edge_fits e he).mono (fun _ hi => hi) (fun _ _ hi => hi)
      (fun _ _ hi => hi.append row) }

theorem mapSymbols (h : s.Sound) {g : SymbolRow → SymbolRow}
    (hid : ∀ x ∈ s.symbols, (g x).id = x.id)
    (hplace : ∀ x ∈ s.symbols, symbolPlace (g x) = symbolPlace x)
    (hown : ∀ x ∈ s.symbols, (g x).repositoryId = x.repositoryId) :
    ({ s with symbols := s.symbols.map g } : Store).Sound := by
  have hboth : ∀ x ∈ s.symbols, (g x).id = x.id ∧ (g x).repositoryId = x.repositoryId :=
    fun x hx => ⟨hid x hx, hown x hx⟩
  have hfile : ∀ x ∈ s.symbols, s.HasFile (g x).fileId (g x).repositoryId := by
    intro x hx
    rw [hown x hx, show (g x).fileId = x.fileId from congrArg Prod.fst (hplace x hx)]
    exact h.symbol_file x hx
  exact { h with
    symbol_places := (map_key_map hplace).symm ▸ h.symbol_places
    symbol_ids := (map_key_map hid).symm ▸ h.symbol_ids
    symbol_old := forall_mem_map fun x hx => (hid x hx).symm ▸ h.symbol_old x hx
    symbol_file := forall_mem_map hfile
    reference_target := fun r hr i hi => (h.reference_target r hr i hi).map hboth
    edge_fits := fun e he => (h.edge_fits e he).mono (fun _ hi => hi) (fun _ _ hi => hi)
      (fun _ _ hi => hi.map hboth) }

/-! References -/

theorem addReference (h : s.Sound) {row : ReferenceRow}
    (hplace : ∀ r ∈ s.references, usePlace r ≠ usePlace row)
    (hfile : s.HasFile row.fileId row.repositoryId)
    (htarget : ∀ i, row.targetSymbolId = some i → s.HasSymbol i row.repositoryId) :
    ({ s with references := s.references ++ [row] } : Store).Sound :=
  { h with
    use_places := nodup_map_append_one h.use_places hplace
    edge_fits := fun e he => (h.edge_fits e he).same rfl rfl rfl
    reference_file := forall_mem_append_one h.reference_file hfile
    reference_target := forall_mem_append_one h.reference_target htarget }

theorem mapReferences (h : s.Sound) {g : ReferenceRow → ReferenceRow}
    (hplace : ∀ r ∈ s.references, usePlace (g r) = usePlace r)
    (hown : ∀ r ∈ s.references, (g r).repositoryId = r.repositoryId)
    (htarget : ∀ r ∈ s.references, ∀ i, (g r).targetSymbolId = some i →
      s.HasSymbol i r.repositoryId) :
    ({ s with references := s.references.map g } : Store).Sound := by
  have hfile : ∀ r ∈ s.references, s.HasFile (g r).fileId (g r).repositoryId := by
    intro r hr
    rw [hown r hr, show (g r).fileId = r.fileId from congrArg Prod.fst (hplace r hr)]
    exact h.reference_file r hr
  exact { h with
    use_places := (map_key_map hplace).symm ▸ h.use_places
    edge_fits := fun e he => (h.edge_fits e he).same rfl rfl rfl
    reference_file := forall_mem_map hfile
    reference_target := forall_mem_map fun r hr i hi => (hown r hr).symm ▸ htarget r hr i hi }

/-! Edges -/

theorem addEdge (h : s.Sound) {row : EdgeRow} (hplace : ∀ e ∈ s.edges, edgePlace e ≠ edgePlace row)
    (hfits : s.EdgeFits row) : ({ s with edges := s.edges ++ [row] } : Store).Sound :=
  { h with
    edge_places := nodup_map_append_one h.edge_places hplace
    edge_fits := forall_mem_append_one
      (fun e he => (h.edge_fits e he).same rfl rfl rfl) (hfits.same rfl rfl rfl) }

theorem mapEdges (h : s.Sound) {g : EdgeRow → EdgeRow}
    (hplace : ∀ e ∈ s.edges, edgePlace (g e) = edgePlace e)
    (hfits : ∀ e ∈ s.edges, s.EdgeFits (g e)) :
    ({ s with edges := s.edges.map g } : Store).Sound :=
  { h with
    edge_places := (map_key_map hplace).symm ▸ h.edge_places
    edge_fits := forall_mem_map fun e he => (hfits e he).same rfl rfl rfl }

/-! Projects and memberships -/

theorem addProject (h : s.Sound) {row : ProjectRow} (hname : ∀ p ∈ s.projects, p.name ≠ row.name)
    (hid : ∀ p ∈ s.projects, p.id ≠ row.id) (hold : s.Old row.id) :
    ({ s with projects := s.projects ++ [row] } : Store).Sound :=
  { h with
    project_names := nodup_map_append_one h.project_names hname
    project_ids := nodup_map_append_one h.project_ids hid
    project_old := forall_mem_append_one h.project_old hold
    edge_fits := fun e he => (h.edge_fits e he).same rfl rfl rfl
    membership_project := fun m hm => (h.membership_project m hm).append row }

theorem mapProjects (h : s.Sound) {g : ProjectRow → ProjectRow}
    (hid : ∀ p ∈ s.projects, (g p).id = p.id) (hname : ∀ p ∈ s.projects, (g p).name = p.name) :
    ({ s with projects := s.projects.map g } : Store).Sound :=
  { h with
    project_names := (map_key_map hname).symm ▸ h.project_names
    project_ids := (map_key_map hid).symm ▸ h.project_ids
    project_old := forall_mem_map fun p hp => (hid p hp).symm ▸ h.project_old p hp
    edge_fits := fun e he => (h.edge_fits e he).same rfl rfl rfl
    membership_project := fun m hm => (h.membership_project m hm).map hid }

theorem addMembership (h : s.Sound) {project repository : Id} (hp : s.HasProject project)
    (hr : s.HasRepository repository) : (s.addMembership project repository).Sound := by
  unfold Store.addMembership
  split
  · exact h
  · next hnew =>
    have hmem : (⟨project, repository⟩ : MembershipRow) ∉ s.memberships := by
      simpa using hnew
    refine { h with
      memberships_nodup := ?_
      edge_fits := fun e he => (h.edge_fits e he).same rfl rfl rfl
      membership_project := forall_mem_append_one h.membership_project hp
      membership_repository := forall_mem_append_one h.membership_repository hr }
    refine List.nodup_append.mpr ⟨h.memberships_nodup, List.nodup_singleton _, ?_⟩
    intro m hm m' hm' heq
    rw [List.mem_singleton.mp hm'] at heq
    exact hmem (heq ▸ hm)

end Sound

end CodeIndex.Store
