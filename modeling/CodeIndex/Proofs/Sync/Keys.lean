import CodeIndex.Proofs.Sync.Lookup

/-!
Natural keys of a store. A key is live when a record has it; live keys are those that the lookups
find. The records of a faithful store have different keys, and the rows that a record names are
live.
-/
namespace CodeIndex.Sync

open Store (fileMark eq_of_key)

/-- A record of the store has the key. -/
def Live (s : Store) (k : Deletion) : Prop := ∃ x ∈ records s, x.key = k

theorem live_of_mem {s : Store} {x : Record} (hx : x ∈ records s) : Live s x.key := ⟨x, hx, rfl⟩

variable {s : Store}

/-! Live keys and lookups -/

section Lookups

variable (h : s.Sound)
include h

/-- The key of an edge apart, a key is live when the store holds something under it. -/
theorem live_iff_content {k : Deletion} (hk : ∀ repo key, k ≠ .edge repo key) :
    Live s k ↔ ∃ x, content s k = some x := by
  simp only [content_eq_some h]
  constructor
  · rintro ⟨x, hx, rfl⟩
    refine ⟨x, ?_⟩
    cases x with
    | edge y => exact absurd rfl (hk y.repository y.edge.key)
    | _ => exact ⟨hx, rfl⟩
  · rintro ⟨x, hrow⟩
    cases x with
    | edge y =>
      obtain ⟨e, -, -, rfl⟩ := hrow
      exact absurd rfl (hk _ _)
    | _ => exact ⟨_, hrow.1, hrow.2.symm⟩

theorem live_repository {name : String} :
    Live s (.repository name) ↔ ∃ r, s.repository? name = some r := by
  simp [live_iff_content h, ← Option.isSome_iff_exists, isSome_content_repository]

theorem live_project {name : String} : Live s (.project name) ↔ ∃ p, s.project? name = some p := by
  simp [live_iff_content h, ← Option.isSome_iff_exists, isSome_content_project]

theorem live_file {repository path : String} :
    Live s (.file repository path) ↔ ∃ f, file? s repository path = some f := by
  simp [live_iff_content h, ← Option.isSome_iff_exists, isSome_content_file h]

theorem live_symbol {repository filePath name : String} {line : Nat} :
    Live s (.symbol repository filePath name line) ↔
      ∃ x, symbol? s repository ⟨filePath, name, line⟩ = some x := by
  simp [live_iff_content h, ← Option.isSome_iff_exists, isSome_content_symbol h]

theorem live_reference {repository filePath kind name : String} {line column : Nat} :
    Live s (.reference repository filePath line column kind name) ↔
      ∃ f, file? s repository filePath = some f ∧ ∃ row ∈ s.references,
        row.fileId = f.id ∧ row.line = line ∧ row.column = column ∧ row.kind.name = kind ∧
          row.name = name := by
  simp only [live_iff_content h, content, Option.map_eq_some_iff, Option.bind_eq_some_iff, ne_eq,
    reduceCtorEq, not_false_eq_true, implies_true, referenceRow?_eq_some h]
  constructor
  · rintro ⟨-, -, ⟨row, ⟨f, hf, hrow, hplace⟩, -⟩, -⟩
    exact ⟨f, hf, row, hrow, hplace⟩
  · rintro ⟨f, hf, row, hrow, hplace⟩
    obtain ⟨y, hy⟩ := exists_referenceRecord? h hrow
    exact ⟨_, y, ⟨row, ⟨f, hf, hrow, hplace⟩, hy⟩, rfl⟩

theorem live_membership {project repository : String} :
    Live s (.membership project repository) ↔
      ∃ p r, s.project? project = some p ∧ s.repository? repository = some r ∧
        ⟨p.id, r.id⟩ ∈ s.memberships := by
  simp only [live_iff_content h, content, Option.map_eq_some_iff, Option.bind_eq_some_iff, ne_eq,
    reduceCtorEq, not_false_eq_true, implies_true, membershipRow?_eq_some h]
  constructor
  · rintro ⟨-, -, ⟨-, ⟨p, r, hp, hr, hm, rfl⟩, -⟩, -⟩
    exact ⟨p, r, hp, hr, hm⟩
  · rintro ⟨p, r, hp, hr, hm⟩
    have hrecord : membershipRecord? s ⟨p.id, r.id⟩ = some ⟨project, repository⟩ := by
      simp [membershipRecord?, (project?_iff h hp).mpr rfl, (ownerOf_iff h hr).mpr rfl]
    exact ⟨_, _, ⟨_, ⟨p, r, hp, hr, hm, rfl⟩, hrecord⟩, rfl⟩

end Lookups

/-- Where edges stand under the keys that their ends have, these keys are live. -/
theorem live_edge_of_keys (h : s.Sound) (hkeys : ∀ e ∈ s.edges, (s.edgeOf "" e).key = e.key)
    {repository key : String} :
    Live s (.edge repository key) ↔
      ∃ r, s.repository? repository = some r ∧
        ∃ e ∈ s.edges, e.repositoryId = r.id ∧ e.key = key := by
  constructor
  · rintro ⟨x, hx, hkey⟩
    cases x with
    | edge y =>
      obtain ⟨e, he, hy⟩ := mem_records.mp hx
      obtain ⟨hname, hedge⟩ := edgeRecord?_eq_some.mp hy
      simp only [Record.key, Deletion.edge.injEq] at hkey
      obtain ⟨rfl, rfl⟩ := hkey
      obtain ⟨r, hr, hid⟩ := repository?_of_ownerOf h hname
      exact ⟨r, hr, e, he, hid.symm, by rw [← hedge, hkeys e he]⟩
    | _ => simp [Record.key] at hkey
  · rintro ⟨r, hr, e, he, hid, rfl⟩
    have hname := (ownerOf_iff h hr).mpr hid
    let y : EdgeRecord := ⟨repository, e.kind, s.filePath? e.fromFileId, s.filePath? e.toFileId,
      s.symbolKey? e.fromSymbolId, s.symbolKey? e.toSymbolId⟩
    have hrecord : edgeRecord? s e = some y := edgeRecord?_eq_some.mpr ⟨hname, rfl⟩
    refine ⟨.edge y, mem_records.mpr ⟨e, he, hrecord⟩, ?_⟩
    have hkey : y.edge.key = e.key := hkeys e he
    simp only [Record.key, hkey]
    rfl

theorem live_edge (h : Faithful s) {repository key : String} :
    Live s (.edge repository key) ↔
      ∃ r, s.repository? repository = some r ∧
        ∃ e ∈ s.edges, e.repositoryId = r.id ∧ e.key = key :=
  live_edge_of_keys h.toSound h.edge_keys

/-! The rows that a record names -/

namespace Record

def symbolParent (repository : String) (k : SymbolKey) : Deletion :=
  .symbol repository k.filePath k.name k.lineStart

/-- The keys of the rows that a record names. -/
def parents : Record → List Deletion
  | repository _ => []
  | file f => [.repository f.repository]
  | symbol x => [.file x.repository x.filePath]
  | reference x =>
    .file x.repository x.filePath :: x.targetSymbol.toList.map (symbolParent x.repository)
  | edge e =>
    .repository e.repository :: (e.fromFile.toList ++ e.toFile.toList).map (.file e.repository) ++
      (e.fromSymbol.toList ++ e.toSymbol.toList).map (symbolParent e.repository)
  | project _ => []
  | membership m => [.project m.project, .repository m.repository]

/-- What a record must fulfil by itself to be put into a store. -/
def Intact : Record → Prop
  | file f => Digest.Sha256.hex f.content = f.contentHash
  | edge e => e.edge.isWellFormed = true
  | _ => True

end Record

theorem live_symbolParent (h : s.Sound) {repository : String} {k : SymbolKey} :
    Live s (Record.symbolParent repository k) ↔ ∃ x, symbol? s repository k = some x :=
  live_symbol h

section Closed

variable (h : s.Sound)
include h

theorem live_filePath {owner : Id} {name path : String} {id : Option Id}
    (hname : ownerOf s owner = some name) (hid : ∀ i, id = some i → s.HasFile i owner)
    (hpath : s.filePath? id = some path) : Live s (.file name path) := by
  cases id with
  | none => simp [Store.filePath?] at hpath
  | some i =>
    obtain ⟨f, hf, -⟩ := file?_of_hasFile h hname (hid i rfl) hpath
    exact (live_file h).mpr ⟨f, hf⟩

theorem live_symbolKey {owner : Id} {name : String} {key : SymbolKey} {id : Option Id}
    (hname : ownerOf s owner = some name) (hid : ∀ i, id = some i → s.HasSymbol i owner)
    (hkey : s.symbolKey? id = some key) : Live s (Record.symbolParent name key) := by
  cases id with
  | none => simp [Store.symbolKey?] at hkey
  | some i =>
    obtain ⟨x, hx, -⟩ := symbol?_of_hasSymbol h hname (hid i rfl) hkey
    exact (live_symbolParent h).mpr ⟨x, hx⟩

/-- The file of a row lies in the repository that the row says. -/
theorem ownerOf_of_fileHome? {id owner : Id} {repository path : String}
    (hfile : s.HasFile id owner) (hhome : fileHome? s id = some (repository, path)) :
    ownerOf s owner = some repository := by
  obtain ⟨f, hf, rfl, rfl⟩ := hfile
  obtain ⟨owner, hmark, hname⟩ := (fileHome?_eq_some h).mp hhome
  have hplace := h.mark_place (List.mem_map_of_mem (f := fileMark) hf) hmark
  rw [show f.repositoryId = owner from congrArg Prod.fst hplace]
  exact (ownerOf_eq_some h).mpr hname

/-- The rows that a record names are live. -/
theorem live_parents {x : Record} (hx : x ∈ records s) : ∀ k ∈ x.parents, Live s k := by
  have hrow := mem_records.mp hx
  cases x with
  | repository y => simp [Record.parents]
  | project y => simp [Record.parents]
  | file y =>
    obtain ⟨f, hf, hy⟩ := hrow
    obtain ⟨name, hname, rfl⟩ := Option.map_eq_some_iff.mp hy
    obtain ⟨r, hr, -⟩ := repository?_of_ownerOf h hname
    simpa [Record.parents] using (live_repository h).mpr ⟨r, hr⟩
  | symbol y =>
    obtain ⟨row, hrow, hy⟩ := hrow
    obtain ⟨home, hhome, rfl⟩ := Option.map_eq_some_iff.mp hy
    obtain ⟨f, hf, -⟩ := file?_of_fileHome? h hhome
    simpa [Record.parents] using (live_file h).mpr ⟨f, hf⟩
  | reference y =>
    obtain ⟨row, hrow, hy⟩ := hrow
    obtain ⟨home, hhome, rfl⟩ := Option.map_eq_some_iff.mp hy
    obtain ⟨f, hf, -⟩ := file?_of_fileHome? h hhome
    have howner := ownerOf_of_fileHome? h (h.reference_file row hrow) hhome
    intro k hk
    simp only [Record.parents, List.mem_cons, List.mem_map, Option.mem_toList] at hk
    rcases hk with rfl | ⟨key, hkey, rfl⟩
    · exact (live_file h).mpr ⟨f, hf⟩
    · exact live_symbolKey h howner (h.reference_target row hrow) hkey
  | edge y =>
    obtain ⟨e, he, hy⟩ := hrow
    obtain ⟨name, hname, rfl⟩ := Option.map_eq_some_iff.mp hy
    have hfits := h.edge_fits e he
    intro k hk
    simp only [Record.parents, List.mem_cons, List.mem_map, List.mem_append, Option.mem_toList,
      List.cons_append] at hk
    rcases hk with rfl | ⟨path, hpath | hpath, rfl⟩ | ⟨key, hkey | hkey, rfl⟩
    · obtain ⟨r, hr, -⟩ := repository?_of_ownerOf h hname
      exact (live_repository h).mpr ⟨r, hr⟩
    · exact live_filePath h hname (fun i hi => hfits.files i (.inl hi)) hpath
    · exact live_filePath h hname (fun i hi => hfits.files i (.inr hi)) hpath
    · exact live_symbolKey h hname (fun i hi => hfits.symbols i (.inl hi)) hkey
    · exact live_symbolKey h hname (fun i hi => hfits.symbols i (.inr hi)) hkey
  | membership y =>
    have hlive := live_of_mem hx
    obtain ⟨p, r, hp, hr, -⟩ := (live_membership h).mp hlive
    intro k hk
    simp only [Record.parents, List.mem_cons, List.not_mem_nil, or_false] at hk
    rcases hk with rfl | rfl
    · exact (live_project h).mpr ⟨p, hp⟩
    · exact (live_repository h).mpr ⟨r, hr⟩

theorem isSome_filePath? {owner : Id} {id : Option Id}
    (hid : ∀ i, id = some i → s.HasFile i owner) :
    (s.filePath? id).isSome = id.isSome := by
  cases id with
  | none => rfl
  | some i =>
    obtain ⟨path, hpath⟩ := exists_filePath? h (hid i rfl)
    rw [hpath]
    rfl

theorem isSome_symbolKey? {owner : Id} {id : Option Id}
    (hid : ∀ i, id = some i → s.HasSymbol i owner) : (s.symbolKey? id).isSome = id.isSome := by
  cases id with
  | none => rfl
  | some i =>
    obtain ⟨key, hkey⟩ := exists_symbolKey? h (hid i rfl)
    rw [hkey]
    rfl

end Closed

/-- The edges of a store have both ends. -/
theorem intact_edge (h : s.Sound) {y : EdgeRecord} (hy : .edge y ∈ records s) :
    (Record.edge y).Intact := by
  obtain ⟨e, he, hy⟩ := mem_records.mp hy
  obtain ⟨-, hedge⟩ := edgeRecord?_eq_some.mp hy
  have hfits := h.edge_fits e he
  have hcomplete := hfits.complete
  rw [Record.Intact, ← hedge, Edge.isWellFormed]
  rw [Store.EdgeRow.isComplete] at hcomplete
  simp only [Store.edgeOf, isSome_filePath? h fun i hi => hfits.files i (.inl hi),
    isSome_filePath? h fun i hi => hfits.files i (.inr hi),
    isSome_symbolKey? h fun i hi => hfits.symbols i (.inl hi),
    isSome_symbolKey? h fun i hi => hfits.symbols i (.inr hi)]
  exact hcomplete

theorem Faithful.intact (h : Faithful s) {x : Record} (hx : x ∈ records s) : x.Intact := by
  cases x with
  | file y =>
    obtain ⟨f, hf, hy⟩ := mem_records.mp hx
    obtain ⟨name, hname, rfl⟩ := Option.map_eq_some_iff.mp hy
    exact h.hashes f hf
  | edge y => exact intact_edge h.toSound hx
  | _ => trivial

/-! The keys of the records are different -/

/-- Rows with different places have records with different keys. -/
theorem nodup_keys_filterMap {ρ α κ κ' : Type} {rows : List ρ} {r : ρ → Option α} {place : ρ → κ}
    {key : α → κ'} (h : (rows.map place).Nodup)
    (hplace : ∀ a ∈ rows, ∀ b ∈ rows, ∀ x y, r a = some x → r b = some y → key x = key y →
      place a = place b) : ((rows.filterMap r).map key).Nodup := by
  rw [List.Nodup, List.pairwise_map, List.pairwise_filterMap]
  rw [List.Nodup, List.pairwise_map] at h
  apply h.imp_of_mem
  intro a b ha hb hne x hx y hy heq
  exact hne (hplace a ha b hb x y hx hy heq)

section Tables

variable (h : Faithful s)
include h

theorem nodup_fileKeys : ((loadFiles s).map fun f => (Record.file f).key).Nodup := by
  rw [((loadFiles_perm s).map _).nodup_iff]
  apply nodup_keys_filterMap h.file_places
  intro a _ b _ x y hx hy heq
  obtain ⟨n, hn, rfl⟩ := Option.map_eq_some_iff.mp hx
  obtain ⟨m, hm, rfl⟩ := Option.map_eq_some_iff.mp hy
  simp only [Record.key, Deletion.file.injEq] at heq
  obtain ⟨rfl, hpath⟩ := heq
  obtain ⟨r, hr, hid⟩ := repository?_of_ownerOf h.toSound hn
  have hown := (ownerOf_iff h.toSound hr).mp hm
  exact Prod.ext (hid.symm.trans hown.symm) hpath

/-- Rows whose files have one home stand in one file. -/
theorem fileId_eq_of_home {a b : Id} {home home' : String × String}
    (ha : fileHome? s a = some home) (hb : fileHome? s b = some home')
    (hrepository : home.1 = home'.1) (hpath : home.2 = home'.2) : a = b := by
  obtain rfl : home = home' := Prod.ext hrepository hpath
  obtain ⟨f, hf, hid⟩ := file?_of_fileHome? h.toSound ha
  exact hid.symm.trans ((fileHome?_iff h.toSound hf).mp hb).symm

theorem nodup_symbolKeys : ((loadSymbols s).map fun x => (Record.symbol x).key).Nodup := by
  rw [((loadSymbols_perm s).map _).nodup_iff]
  apply nodup_keys_filterMap h.symbol_places
  intro a _ b _ x y hx hy heq
  obtain ⟨n, hn, rfl⟩ := Option.map_eq_some_iff.mp hx
  obtain ⟨m, hm, rfl⟩ := Option.map_eq_some_iff.mp hy
  simp only [Record.key, Deletion.symbol.injEq] at heq
  obtain ⟨hrepository, hpath, hname, hline⟩ := heq
  exact Prod.ext (fileId_eq_of_home h hn hm hrepository hpath) (Prod.ext hname hline)

theorem nodup_referenceKeys :
    ((loadReferences s).map fun x => (Record.reference x).key).Nodup := by
  rw [((loadReferences_perm s).map _).nodup_iff]
  apply nodup_keys_filterMap h.use_places
  intro a _ b _ x y hx hy heq
  obtain ⟨n, hn, rfl⟩ := Option.map_eq_some_iff.mp hx
  obtain ⟨m, hm, rfl⟩ := Option.map_eq_some_iff.mp hy
  simp only [Record.key, Deletion.reference.injEq, ReferenceKind.name_inj] at heq
  obtain ⟨hrepository, hpath, hline, hcolumn, hkind, hname⟩ := heq
  simp only [Store.usePlace, Prod.mk.injEq]
  exact ⟨fileId_eq_of_home h hn hm hrepository hpath, hline, hcolumn, hkind, hname⟩

theorem nodup_edgeKeys : ((loadEdges s).map fun e => (Record.edge e).key).Nodup := by
  rw [((loadEdges_perm s).map _).nodup_iff]
  apply nodup_keys_filterMap h.edge_places
  intro a ha b hb x y hx hy heq
  obtain ⟨hn, hx⟩ := edgeRecord?_eq_some.mp hx
  obtain ⟨hm, hy⟩ := edgeRecord?_eq_some.mp hy
  simp only [Record.key, Deletion.edge.injEq, ← hx, ← hy, h.edge_keys a ha, h.edge_keys b hb] at heq
  obtain ⟨hname, hkey⟩ := heq
  obtain ⟨r, hr, hid⟩ := repository?_of_ownerOf h.toSound hn
  have hown := (ownerOf_iff h.toSound hr).mp (hname ▸ hm)
  exact Prod.ext (hid.symm.trans hown.symm) hkey

theorem nodup_membershipKeys :
    ((loadMemberships s).map fun m => (Record.membership m).key).Nodup := by
  rw [((loadMemberships_perm s).map _).nodup_iff]
  have hplaces : (s.memberships.map id).Nodup := by
    rw [List.map_id]
    exact h.memberships_nodup
  apply nodup_keys_filterMap hplaces
  intro a _ b _ x y hx hy heq
  obtain ⟨hpa, hra⟩ := membershipRecord?_eq_some.mp hx
  obtain ⟨hpb, hrb⟩ := membershipRecord?_eq_some.mp hy
  obtain ⟨hname, howner⟩ := Deletion.membership.inj heq
  rw [← hname] at hpb
  rw [← howner] at hrb
  obtain ⟨r, hr, hid⟩ := repository?_of_ownerOf h.toSound hra
  have hrepository := (ownerOf_iff h.toSound hr).mp hrb
  obtain ⟨p, hp, hmark⟩ := List.mem_map.mp ((projectName?_eq_some h.toSound).mp hpa)
  obtain ⟨hpid, hpname⟩ := Prod.mk.inj hmark
  have hproject := (project?_iff h.toSound (h.project?_eq_some.mpr ⟨hp, hpname⟩)).mp hpb
  have hfirst : a.projectId = b.projectId := hpid.symm.trans hproject.symm
  have hsecond : a.repositoryId = b.repositoryId := hid.symm.trans hrepository.symm
  cases a
  cases b
  simp_all

/-- Different records of a faithful store have different keys. -/
theorem nodup_keys : ((records s).map Record.key).Nodup := by
  have hrepositories : ((loadRepositories s).map fun r => (Record.repository r).key).Nodup := by
    rw [((loadRepositories_perm s).map _).nodup_iff, List.map_map]
    have hnames :=
      h.repository_names.map (f := Deletion.repository) fun _ _ => Deletion.repository.inj
    rwa [List.map_map] at hnames
  have hprojects : ((loadProjects s).map fun p => (Record.project p).key).Nodup := by
    rw [((loadProjects_perm s).map _).nodup_iff, List.map_map]
    have hnames := h.project_names.map (f := Deletion.project) fun _ _ => Deletion.project.inj
    rwa [List.map_map] at hnames
  simp only [records, List.map_append, List.map_map, List.nodup_append]
  refine ⟨⟨⟨⟨⟨⟨hrepositories, nodup_fileKeys h, ?_⟩, nodup_symbolKeys h, ?_⟩,
    nodup_referenceKeys h, ?_⟩, nodup_edgeKeys h, ?_⟩, hprojects, ?_⟩, nodup_membershipKeys h, ?_⟩
  -- The keys of two tables differ in their constructors.
  all_goals
    simp only [List.mem_append, List.mem_map, Function.comp_apply, Record.key]
    grind

end Tables

/-- A record is the only one with its key. -/
theorem filter_key (h : Faithful s) {x : Record} (hx : x ∈ records s) :
    (records s).filter (fun y => y.key = x.key) = [x] := by
  have hperm : ((records s).filter fun y => y.key = x.key).Perm [x] := by
    rw [List.perm_ext_iff_of_nodup ((List.Nodup.of_map _ (nodup_keys h)).filter _)
      (List.nodup_singleton x)]
    intro y
    simp only [List.mem_filter, decide_eq_true_eq, List.mem_singleton]
    constructor
    · rintro ⟨hy, heq⟩
      exact eq_of_key (nodup_keys h) hy hx heq
    · rintro rfl
      exact ⟨hx, rfl⟩
  exact List.perm_singleton.mp hperm

end CodeIndex.Sync
