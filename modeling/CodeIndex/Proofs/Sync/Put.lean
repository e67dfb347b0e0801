import CodeIndex.Proofs.Sync.Placing

/-!
Putting a record that is there already: it can be put again and changes nothing.
-/
namespace CodeIndex.Sync

open Store (fileMark eq_of_key)

variable {s : Store}

/-! Putting a record that is there -/

theorem map_ite_eq_self {α : Type} {rows : List α} {p : α → Bool} {g : α → α}
    (h : ∀ row ∈ rows, p row = true → g row = row) :
    (rows.map fun row => if p row then g row else row) = rows := by
  conv_rhs => rw [← List.map_id rows]
  apply List.map_congr_left
  intro row hrow
  split
  · next hp => exact h row hrow hp
  · rfl

section Ends

variable (h : s.Sound) {owner : Id} {name : String} (hname : ownerOf s owner = some name)
include h hname

theorem FileEndIs.eq_of_filePath? {id id' : Option Id} (hid : ∀ i, id = some i → s.HasFile i owner)
    (hend : FileEndIs s name (s.filePath? id) id') : id' = id := by
  cases id with
  | none => exact hend
  | some i =>
    obtain ⟨path, hpath⟩ := exists_filePath? h (hid i rfl)
    obtain ⟨f, hf, rfl⟩ := file?_of_hasFile h hname (hid i rfl) hpath
    rw [hpath] at hend
    obtain ⟨f', hf', rfl⟩ := hend
    rw [Option.some.inj (hf'.symm.trans hf)]

theorem SymbolEndIs.eq_of_symbolKey? {id id' : Option Id}
    (hid : ∀ i, id = some i → s.HasSymbol i owner)
    (hend : SymbolEndIs s name (s.symbolKey? id) id') : id' = id := by
  cases id with
  | none => exact hend
  | some i =>
    obtain ⟨key, hkey⟩ := exists_symbolKey? h (hid i rfl)
    obtain ⟨x, hx, rfl⟩ := symbol?_of_hasSymbol h hname (hid i rfl) hkey
    rw [hkey] at hend
    obtain ⟨x', hx', rfl⟩ := hend
    rw [Option.some.inj (hx'.symm.trans hx)]

/-- The target of a stored reference is found again. -/
theorem targetId?_of_symbolKey? {x : ReferenceRecord} {id : Option Id}
    (hid : ∀ i, id = some i → s.HasSymbol i owner) (hrepository : x.repository = name)
    (htarget : x.targetSymbol = s.symbolKey? id) : targetId? s x = id := by
  cases id with
  | none =>
    rw [targetId?, htarget]
    rfl
  | some i =>
    obtain ⟨key, hkey⟩ := exists_symbolKey? h (hid i rfl)
    obtain ⟨y, hy, rfl⟩ := symbol?_of_hasSymbol h hname (hid i rfl) hkey
    rw [targetId?, htarget, hkey, Option.bind_some, hrepository, hy, Option.map_some]

end Ends

section Again

variable {s' : Store} (h : Faithful s)
include h

theorem upsertRepository_self {y : RepositoryRecord} (hy : .repository y ∈ records s)
    (hok : upsertRepository s y = .ok s') : s' = s := by
  obtain ⟨r, hr, rfl⟩ := mem_records.mp hy
  obtain ⟨-, rfl⟩ | ⟨hnone, -⟩ := upsertRepository_cases hok
  · rw [map_ite_eq_self]
    intro row hrow hp
    rw [eq_of_key h.repository_names hrow hr (beq_iff_eq.mp hp)]
    rfl
  · have hfound := h.repository?_eq_some.mpr ⟨hr, rfl⟩
    rw [show s.repository? r.fullName = none from hnone] at hfound
    simp at hfound

theorem upsertProject_self {y : ProjectRecord} (hy : .project y ∈ records s)
    (hok : upsertProject s y = .ok s') : s' = s := by
  obtain ⟨p, hp, rfl⟩ := mem_records.mp hy
  obtain ⟨-, rfl⟩ | ⟨hnone, -⟩ := upsertProject_cases hok
  · rw [map_ite_eq_self]
    intro row hrow hname
    rw [eq_of_key h.project_names hrow hp (beq_iff_eq.mp hname)]
    rfl
  · have hfound := h.project?_eq_some.mpr ⟨hp, rfl⟩
    rw [show s.project? p.name = none from hnone] at hfound
    simp at hfound

theorem upsertFile_self {y : FileRecord} (hy : .file y ∈ records s)
    (hok : upsertFile s y = .ok s') : s' = s := by
  obtain ⟨f, hf, hy⟩ := mem_records.mp hy
  obtain ⟨name, hname, rfl⟩ := Option.map_eq_some_iff.mp hy
  obtain ⟨-, r, hr, hcases⟩ := upsertFile_cases hok
  have hown := (ownerOf_iff h.toSound hr).mp hname
  obtain ⟨-, rfl⟩ | ⟨hnone, -⟩ := hcases
  · rw [map_ite_eq_self]
    intro row hrow hp
    simp only [Bool.and_eq_true, beq_iff_eq] at hp
    rw [eq_of_key h.file_places hrow hf (Prod.ext (hp.1.trans hown.symm) hp.2)]
    simp [setFile]
  · have hfound := h.file?_eq_some.mpr ⟨hf, hown, rfl⟩
    rw [hnone] at hfound
    simp at hfound

theorem upsertSymbol_self {y : SymbolRecord} (hy : .symbol y ∈ records s)
    (hok : upsertSymbol s y = .ok s') : s' = s := by
  obtain ⟨x, hx, hy⟩ := mem_records.mp hy
  obtain ⟨home, hhome, rfl⟩ := Option.map_eq_some_iff.mp hy
  obtain ⟨f, hf, hcases⟩ := upsertSymbol_cases hok
  have hfile := (fileHome?_iff h.toSound hf).mp hhome
  obtain ⟨-, rfl⟩ | ⟨hnone, -⟩ := hcases
  · rw [map_ite_eq_self]
    intro row hrow hp
    simp only [Bool.and_eq_true, beq_iff_eq] at hp
    rw [eq_of_key h.symbol_places hrow hx
      (Prod.ext (hp.1.1.trans hfile.symm) (Prod.ext hp.1.2 hp.2))]
    rfl
  · have hfound := h.symbol?_eq_some.mpr ⟨hx, hfile, rfl, rfl⟩
    rw [hnone] at hfound
    simp at hfound

theorem upsertReference_self {y : ReferenceRecord} (hy : .reference y ∈ records s)
    (hok : upsertReference s y = .ok s') : s' = s := by
  obtain ⟨x, hx, hy⟩ := mem_records.mp hy
  obtain ⟨home, hhome, rfl⟩ := Option.map_eq_some_iff.mp hy
  obtain ⟨f, hf, hcases⟩ := upsertReference_cases hok
  have hfile := (fileHome?_iff h.toSound hf).mp hhome
  have howner := ownerOf_of_fileHome? h.toSound (h.reference_file x hx) hhome
  have hplace : Store.usePlace x = (f.id, x.line, x.column, x.kind, x.name) := by
    rw [Store.usePlace, hfile]
  obtain ⟨-, rfl⟩ | ⟨hnone, -⟩ := hcases
  · rw [map_ite_eq_self]
    intro row hrow hp
    rw [eq_of_key h.use_places hrow hx ((atUse_iff.mp hp).trans hplace.symm),
      targetId?_of_symbolKey? h.toSound howner (h.reference_target x hx) rfl rfl]
    rfl
  · have hfound := hnone x hx
    rw [atUse_iff.mpr hplace] at hfound
    simp at hfound

omit h in
theorem upsertEdge_self (h : s.Sound) (hkeys : ∀ e ∈ s.edges, (s.edgeOf "" e).key = e.key)
    {y : EdgeRecord} (hy : .edge y ∈ records s) (hok : upsertEdge s y = .ok s') : s' = s := by
  obtain ⟨e, he, hy⟩ := mem_records.mp hy
  obtain ⟨name, hname, rfl⟩ := Option.map_eq_some_iff.mp hy
  obtain ⟨-, r, ends, hr, hends, hcases⟩ := upsertEdge_cases hok
  have hfits := h.edge_fits e he
  have hkey := hkeys e he
  have hplace : Store.edgePlace e = (r.id, (s.edgeOf "" e).key) :=
    Prod.ext ((ownerOf_iff h hr).mp hname) hkey.symm
  obtain ⟨-, rfl⟩ | ⟨hnone, -⟩ := hcases
  · rw [map_ite_eq_self]
    intro row hrow hp
    simp only [Bool.and_eq_true, beq_iff_eq] at hp
    rw [eq_of_key h.edge_places hrow he ((Prod.ext hp.1 hp.2).trans hplace.symm), setEdge,
      hends.fromFile.eq_of_filePath? h hname fun i hi => hfits.files i (.inl hi),
      hends.toFile.eq_of_filePath? h hname fun i hi => hfits.files i (.inr hi),
      hends.fromSymbol.eq_of_symbolKey? h hname fun i hi => hfits.symbols i (.inl hi),
      hends.toSymbol.eq_of_symbolKey? h hname fun i hi => hfits.symbols i (.inr hi)]
  · exact absurd hplace (hnone e he)

theorem upsertMembership_self {y : MembershipRecord} (hy : .membership y ∈ records s)
    (hok : upsertMembership s y = .ok s') : s' = s := by
  obtain ⟨p, r, hp, hr, hm⟩ := (live_membership h.toSound).mp (live_of_mem hy)
  obtain ⟨p', r', hp', hr', rfl⟩ := upsertMembership_cases hok
  rw [Option.some.inj (hp'.symm.trans hp), Option.some.inj (hr'.symm.trans hr),
    Store.addMembership, if_pos (List.contains_iff_mem.mpr hm)]

/-- A record that is there can be put again and changes nothing. -/
theorem put_self {x : Record} (hx : x ∈ records s) : x.put s = .ok s := by
  obtain ⟨s', hok⟩ := put_ok h.toSound (h.intact hx) (live_parents h.toSound hx)
  suffices hsame : s' = s from hsame ▸ hok
  cases x with
  | repository y => exact upsertRepository_self h hx hok
  | file y => exact upsertFile_self h hx hok
  | symbol y => exact upsertSymbol_self h hx hok
  | reference y => exact upsertReference_self h hx hok
  | edge y => exact upsertEdge_self h.toSound h.edge_keys hx hok
  | project y => exact upsertProject_self h hx hok
  | membership y => exact upsertMembership_self h hx hok

end Again

end CodeIndex.Sync
