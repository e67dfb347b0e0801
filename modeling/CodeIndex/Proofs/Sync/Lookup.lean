import CodeIndex.Proofs.Sync.Links

/-!
The content of a store, looked up by natural keys. An edge stands under the key that its row holds,
every other row under the key of its record. In a sound store a lookup finds the one row that has
the key.
-/
namespace CodeIndex.Sync

open Store (fileMark eq_of_key)

/-- The record under each natural key. -/
abbrev Content := Deletion → Option Record

section Rows

variable (s : Store)

def referenceRow? (repository filePath : String) (line column : Nat) (kind name : String) :
    Option ReferenceRow :=
  (file? s repository filePath).bind fun f =>
    s.references.find? fun r =>
      r.fileId == f.id && r.line == line && r.column == column && r.kind.name == kind
        && r.name == name

def edgeRow? (repository key : String) : Option EdgeRow :=
  (s.repository? repository).bind fun r =>
    s.edges.find? fun e => e.repositoryId == r.id && e.key == key

def membershipRow? (project repository : String) : Option MembershipRow :=
  (s.project? project).bind fun p =>
    (s.repository? repository).bind fun r =>
      s.memberships.find? fun m => m == (⟨p.id, r.id⟩ : MembershipRow)

/-- What the store holds under a natural key. -/
def content : Content
  | .repository name => (s.repository? name).map fun r => .repository (repositoryRecord r)
  | .file repo path => ((file? s repo path).bind (fileRecord? s)).map .file
  | .symbol repo filePath name line =>
    ((symbol? s repo ⟨filePath, name, line⟩).bind (symbolRecord? s)).map .symbol
  | .reference repo filePath line column kind name =>
    ((referenceRow? s repo filePath line column kind name).bind (referenceRecord? s)).map .reference
  | .edge repo key => ((edgeRow? s repo key).bind (edgeRecord? s)).map .edge
  | .project name => (s.project? name).map fun p => .project (projectRecord p)
  | .membership proj repo =>
    ((membershipRow? s proj repo).bind (membershipRecord? s)).map .membership

/-- A row of the store stands under the key and has the record. -/
def HasRow (k : Deletion) : Record → Prop
  | .edge y => ∃ e ∈ s.edges, edgeRecord? s e = some y ∧ k = .edge y.repository e.key
  | x => x ∈ records s ∧ k = x.key

end Rows

variable {s : Store}

theorem hasRow_repository {r : RepositoryRow} (hr : r ∈ s.repositories) :
    HasRow s (.repository r.fullName) (.repository (repositoryRecord r)) :=
  ⟨mem_records.mpr ⟨r, hr, rfl⟩, rfl⟩

theorem hasRow_file {f : FileRow} {y : FileRecord} (hf : f ∈ s.files)
    (hy : fileRecord? s f = some y) : HasRow s (Record.file y).key (.file y) :=
  ⟨mem_records.mpr ⟨f, hf, hy⟩, rfl⟩

theorem hasRow_reference {x : ReferenceRow} {y : ReferenceRecord} (hx : x ∈ s.references)
    (hy : referenceRecord? s x = some y) : HasRow s (Record.reference y).key (.reference y) :=
  ⟨mem_records.mpr ⟨x, hx, hy⟩, rfl⟩

theorem hasRow_edge {e : EdgeRow} {y : EdgeRecord} (he : e ∈ s.edges)
    (hy : edgeRecord? s e = some y) : HasRow s (.edge y.repository e.key) (.edge y) :=
  ⟨e, he, hy, rfl⟩

theorem hasRow_project {p : ProjectRow} (hp : p ∈ s.projects) :
    HasRow s (.project p.name) (.project (projectRecord p)) :=
  ⟨mem_records.mpr ⟨p, hp, rfl⟩, rfl⟩

theorem hasRow_membership {m : MembershipRow} {y : MembershipRecord} (hm : m ∈ s.memberships)
    (hy : membershipRecord? s m = some y) : HasRow s (Record.membership y).key (.membership y) :=
  ⟨mem_records.mpr ⟨m, hm, hy⟩, rfl⟩

/-! The rows that names lead to -/

section Names

variable (h : s.Sound)
include h

/-- A name of a stored repository is found. -/
theorem repository?_of_ownerOf {id : Id} {name : String} (hname : ownerOf s id = some name) :
    ∃ r, s.repository? name = some r ∧ r.id = id := by
  obtain ⟨r, hr, heq⟩ := List.mem_map.mp ((ownerOf_eq_some h).mp hname)
  obtain ⟨rfl, rfl⟩ := Prod.mk.inj heq
  exact ⟨r, h.repository?_eq_some.mpr ⟨hr, rfl⟩, rfl⟩

/-- A name of a stored project is found. -/
theorem project?_of_projectName? {id : Id} {name : String} (hname : projectName? s id = some name) :
    ∃ p, s.project? name = some p ∧ p.id = id := by
  obtain ⟨p, hp, heq⟩ := List.mem_map.mp ((projectName?_eq_some h).mp hname)
  obtain ⟨rfl, rfl⟩ := Prod.mk.inj heq
  exact ⟨p, h.project?_eq_some.mpr ⟨hp, rfl⟩, rfl⟩

/-- A file with a home is found there. -/
theorem file?_of_fileHome? {id : Id} {repository path : String}
    (hhome : fileHome? s id = some (repository, path)) :
    ∃ f, file? s repository path = some f ∧ f.id = id := by
  obtain ⟨owner, hfile, howner⟩ := (fileHome?_eq_some h).mp hhome
  obtain ⟨f, hf, heq⟩ := List.mem_map.mp hfile
  simp only [fileMark, Prod.mk.injEq] at heq
  obtain ⟨r, hr, hreq⟩ := List.mem_map.mp howner
  obtain ⟨hid, hname⟩ := Prod.mk.inj hreq
  exact ⟨f, (file?_spec h).mpr ⟨r, hr, hname, hf, heq.2.1.trans hid.symm, heq.2.2⟩, heq.1⟩

/-- A file of a repository is found under its path. -/
theorem file?_of_hasFile {id owner : Id} {name path : String} (hname : ownerOf s owner = some name)
    (hfile : s.HasFile id owner) (hpath : s.filePath? (some id) = some path) :
    ∃ f, file? s name path = some f ∧ f.id = id := by
  obtain ⟨f, hf, rfl, rfl⟩ := hfile
  have hown : f.path = path := by
    obtain ⟨owner', hmark⟩ := (filePath?_eq_some h).mp hpath
    exact congrArg Prod.snd (h.mark_place (List.mem_map_of_mem (f := fileMark) hf) hmark)
  obtain ⟨r, hr, hid⟩ := repository?_of_ownerOf h hname
  obtain ⟨hrmem, hrname⟩ := h.repository?_eq_some.mp hr
  exact ⟨f, (file?_spec h).mpr ⟨r, hrmem, hrname, hf, hid.symm, hown⟩, rfl⟩

/-- A symbol of a repository is found under its key. -/
theorem symbol?_of_hasSymbol {id owner : Id} {name : String} {key : SymbolKey}
    (hname : ownerOf s owner = some name) (hsymbol : s.HasSymbol id owner)
    (hkey : s.symbolKey? (some id) = some key) : ∃ x, symbol? s name key = some x ∧ x.id = id := by
  obtain ⟨x, hx, rfl, rfl⟩ := hsymbol
  obtain ⟨fileId, owner', hmark, hfile⟩ := (symbolKey?_eq_some h).mp hkey
  obtain ⟨x', hx', heq⟩ := List.mem_map.mp hmark
  simp only [symbolMark, Prod.mk.injEq] at heq
  obtain rfl : x' = x := eq_of_key h.symbol_ids hx' hx heq.1
  obtain ⟨f, hf, hfid⟩ := file?_of_hasFile h hname (h.symbol_file x' hx)
    ((filePath?_eq_some h).mpr ⟨owner', heq.2.1 ▸ hfile⟩)
  exact ⟨x', (symbol?_spec h).mpr ⟨f, hf, hx, hfid.symm, heq.2.2.1, heq.2.2.2⟩, rfl⟩

/-! What the rows are found by -/

theorem referenceRow?_eq_some {repository filePath kind name : String} {line column : Nat}
    {row : ReferenceRow} :
    referenceRow? s repository filePath line column kind name = some row ↔
      ∃ f, file? s repository filePath = some f ∧ row ∈ s.references ∧ row.fileId = f.id ∧
        row.line = line ∧ row.column = column ∧ row.kind.name = kind ∧ row.name = name := by
  simp only [referenceRow?, Option.bind_eq_some_iff]
  refine exists_congr fun f => and_congr_right fun _ => ?_
  constructor
  · intro hfound
    have htest := List.find?_some hfound
    simp only [Bool.and_eq_true, beq_iff_eq, and_assoc] at htest
    exact ⟨List.mem_of_find?_eq_some hfound, htest⟩
  · rintro ⟨hrow, hplace⟩
    cases hfound : s.references.find? fun r => r.fileId == f.id && r.line == line
        && r.column == column && r.kind.name == kind && r.name == name with
    | none =>
      have hnone := List.find?_eq_none.mp hfound row hrow
      simp [hplace] at hnone
    | some row' =>
      have htest := List.find?_some hfound
      simp only [Bool.and_eq_true, beq_iff_eq, and_assoc] at htest
      have hkind := ReferenceKind.name_inj.mp (htest.2.2.2.1.trans hplace.2.2.2.1.symm)
      rw [eq_of_key h.use_places (List.mem_of_find?_eq_some hfound) hrow]
      simp [Store.usePlace, htest, hplace, hkind]

theorem edgeRow?_eq_some {repository key : String} {row : EdgeRow} :
    edgeRow? s repository key = some row ↔
      ∃ r, s.repository? repository = some r ∧ row ∈ s.edges ∧ row.repositoryId = r.id ∧
        row.key = key := by
  simp only [edgeRow?, Option.bind_eq_some_iff]
  refine exists_congr fun r => and_congr_right fun _ => ?_
  have hkey := Store.find?_key_eq_some h.edge_places (k := (r.id, key)) (a := row)
    (p := fun e => e.repositoryId == r.id && e.key == key) (by simp [Store.edgePlace])
  simpa only [Store.edgePlace, Prod.mk.injEq] using hkey

theorem membershipRow?_eq_some {project repository : String} {row : MembershipRow} :
    membershipRow? s project repository = some row ↔
      ∃ p r, s.project? project = some p ∧ s.repository? repository = some r ∧
        row ∈ s.memberships ∧ row = ⟨p.id, r.id⟩ := by
  have hnodup : (s.memberships.map id).Nodup := by
    rw [List.map_id]
    exact h.memberships_nodup
  have hfind : ∀ m : MembershipRow, s.memberships.find? (fun x => x == m) = some row ↔
      row ∈ s.memberships ∧ row = m :=
    fun m => Store.find?_key_eq_some hnodup (by simp)
  simp only [membershipRow?, Option.bind_eq_some_iff, hfind]
  constructor
  · rintro ⟨p, hp, r, hr, hrow⟩
    exact ⟨p, r, hp, hr, hrow⟩
  · rintro ⟨p, r, hp, hr, hrow⟩
    exact ⟨p, hp, r, hr, hrow⟩

/-! Content and rows -/

theorem content_repository {name : String} {x : Record} :
    content s (.repository name) = some x ↔ HasRow s (.repository name) x := by
  simp only [content, Option.map_eq_some_iff, h.repository?_eq_some]
  constructor
  · rintro ⟨r, ⟨hr, rfl⟩, rfl⟩
    exact ⟨mem_records.mpr ⟨r, hr, rfl⟩, rfl⟩
  · intro hrow
    cases x with
    | repository y =>
      obtain ⟨hy, hkey⟩ := hrow
      obtain ⟨r, hr, rfl⟩ := mem_records.mp hy
      exact ⟨r, ⟨hr, (Deletion.repository.inj hkey).symm⟩, rfl⟩
    | _ => simp [HasRow, Record.key] at hrow

theorem content_project {name : String} {x : Record} :
    content s (.project name) = some x ↔ HasRow s (.project name) x := by
  simp only [content, Option.map_eq_some_iff, h.project?_eq_some]
  constructor
  · rintro ⟨p, ⟨hp, rfl⟩, rfl⟩
    exact ⟨mem_records.mpr ⟨p, hp, rfl⟩, rfl⟩
  · intro hrow
    cases x with
    | project y =>
      obtain ⟨hy, hkey⟩ := hrow
      obtain ⟨p, hp, rfl⟩ := mem_records.mp hy
      exact ⟨p, ⟨hp, (Deletion.project.inj hkey).symm⟩, rfl⟩
    | _ => simp [HasRow, Record.key] at hrow

theorem content_file {repository path : String} {x : Record} :
    content s (.file repository path) = some x ↔ HasRow s (.file repository path) x := by
  simp only [content, Option.map_eq_some_iff, Option.bind_eq_some_iff]
  constructor
  · rintro ⟨y, ⟨f, hf, hy⟩, rfl⟩
    obtain ⟨r, hr, rfl, hmem, hown, rfl⟩ := (file?_spec h).mp hf
    refine ⟨mem_records.mpr ⟨f, hmem, hy⟩, ?_⟩
    obtain ⟨name, hname, rfl⟩ := Option.map_eq_some_iff.mp hy
    rw [hown, (ownerOf_iff h (h.repository?_eq_some.mpr ⟨hr, rfl⟩)).mpr rfl] at hname
    simp [Record.key, Option.some.inj hname]
  · intro hrow
    cases x with
    | file y =>
      obtain ⟨hy, hkey⟩ := hrow
      obtain ⟨f, hf, hy⟩ := mem_records.mp hy
      refine ⟨y, ⟨f, ?_, hy⟩, rfl⟩
      obtain ⟨name, hname, rfl⟩ := Option.map_eq_some_iff.mp hy
      obtain ⟨rfl, rfl⟩ := Deletion.file.inj hkey
      obtain ⟨r, hr, hid⟩ := repository?_of_ownerOf h hname
      obtain ⟨hrmem, hrname⟩ := h.repository?_eq_some.mp hr
      exact (file?_spec h).mpr ⟨r, hrmem, hrname, hf, hid.symm, rfl⟩
    | _ => simp [HasRow, Record.key] at hrow

theorem content_symbol {repository filePath name : String} {line : Nat} {x : Record} :
    content s (.symbol repository filePath name line) = some x ↔
      HasRow s (.symbol repository filePath name line) x := by
  simp only [content, Option.map_eq_some_iff, Option.bind_eq_some_iff]
  constructor
  · rintro ⟨y, ⟨row, hrow, hy⟩, rfl⟩
    obtain ⟨f, hf, hmem, hid, rfl, rfl⟩ := (symbol?_spec h).mp hrow
    refine ⟨mem_records.mpr ⟨row, hmem, hy⟩, ?_⟩
    rw [symbolRecord?, (fileHome?_iff h hf).mpr hid] at hy
    rw [← Option.some.inj hy]
    rfl
  · intro hrow
    cases x with
    | symbol y =>
      obtain ⟨hy, hkey⟩ := hrow
      obtain ⟨row, hrow, hy⟩ := mem_records.mp hy
      refine ⟨y, ⟨row, ?_, hy⟩, rfl⟩
      obtain ⟨home, hhome, rfl⟩ := Option.map_eq_some_iff.mp hy
      obtain ⟨rfl, rfl, rfl, rfl⟩ := Deletion.symbol.inj hkey
      obtain ⟨f, hf, hid⟩ := file?_of_fileHome? h hhome
      exact (symbol?_spec h).mpr ⟨f, hf, hrow, hid.symm, rfl, rfl⟩
    | _ => simp [HasRow, Record.key] at hrow

theorem content_reference {repository filePath kind name : String} {line column : Nat}
    {x : Record} :
    content s (.reference repository filePath line column kind name) = some x ↔
      HasRow s (.reference repository filePath line column kind name) x := by
  simp only [content, Option.map_eq_some_iff, Option.bind_eq_some_iff, referenceRow?_eq_some h]
  constructor
  · rintro ⟨y, ⟨row, ⟨f, hf, hmem, hid, rfl, rfl, rfl, rfl⟩, hy⟩, rfl⟩
    refine ⟨mem_records.mpr ⟨row, hmem, hy⟩, ?_⟩
    rw [referenceRecord?, (fileHome?_iff h hf).mpr hid] at hy
    rw [← Option.some.inj hy]
    rfl
  · intro hrow
    cases x with
    | reference y =>
      obtain ⟨hy, hkey⟩ := hrow
      obtain ⟨row, hrow, hy⟩ := mem_records.mp hy
      refine ⟨y, ⟨row, ?_, hy⟩, rfl⟩
      obtain ⟨home, hhome, rfl⟩ := Option.map_eq_some_iff.mp hy
      obtain ⟨rfl, rfl, rfl, rfl, rfl, rfl⟩ := Deletion.reference.inj hkey
      obtain ⟨f, hf, hid⟩ := file?_of_fileHome? h hhome
      exact ⟨f, hf, hrow, hid.symm, rfl, rfl, rfl, rfl⟩
    | _ => simp [HasRow, Record.key] at hrow

theorem content_edge {repository key : String} {x : Record} :
    content s (.edge repository key) = some x ↔ HasRow s (.edge repository key) x := by
  simp only [content, Option.map_eq_some_iff, Option.bind_eq_some_iff, edgeRow?_eq_some h]
  constructor
  · rintro ⟨y, ⟨e, ⟨r, hr, hmem, hid, rfl⟩, hy⟩, rfl⟩
    refine ⟨e, hmem, hy, ?_⟩
    have hname := (edgeRecord?_eq_some.mp hy).1
    rw [(ownerOf_iff h hr).mpr hid] at hname
    rw [Option.some.inj hname]
  · intro hrow
    cases x with
    | edge y =>
      obtain ⟨e, he, hy, hkey⟩ := hrow
      obtain ⟨rfl, rfl⟩ := Deletion.edge.inj hkey
      obtain ⟨r, hr, hid⟩ := repository?_of_ownerOf h (edgeRecord?_eq_some.mp hy).1
      exact ⟨y, ⟨e, ⟨r, hr, he, hid.symm, rfl⟩, hy⟩, rfl⟩
    | _ => simp [HasRow, Record.key] at hrow

theorem content_membership {project repository : String} {x : Record} :
    content s (.membership project repository) = some x ↔
      HasRow s (.membership project repository) x := by
  simp only [content, Option.map_eq_some_iff, Option.bind_eq_some_iff, membershipRow?_eq_some h]
  constructor
  · rintro ⟨y, ⟨m, ⟨p, r, hp, hr, hmem, rfl⟩, hy⟩, rfl⟩
    refine ⟨mem_records.mpr ⟨_, hmem, hy⟩, ?_⟩
    simp only [membershipRecord?, (project?_iff h hp).mpr rfl, (ownerOf_iff h hr).mpr rfl] at hy
    rw [← Option.some.inj hy]
    rfl
  · intro hrow
    cases x with
    | membership y =>
      obtain ⟨hy, hkey⟩ := hrow
      obtain ⟨m, hm, hy⟩ := mem_records.mp hy
      refine ⟨y, ⟨m, ?_, hy⟩, rfl⟩
      obtain ⟨hpn, hrn⟩ := membershipRecord?_eq_some.mp hy
      obtain ⟨rfl, rfl⟩ := Deletion.membership.inj hkey
      obtain ⟨p, hp, hpid⟩ := project?_of_projectName? h hpn
      obtain ⟨r, hr, hrid⟩ := repository?_of_ownerOf h hrn
      exact ⟨p, r, hp, hr, hm, by rw [hpid, hrid]⟩
    | _ => simp [HasRow, Record.key] at hrow

/-- A sound store holds under a key what the row with the key has. -/
theorem content_eq_some {k : Deletion} {x : Record} : content s k = some x ↔ HasRow s k x := by
  cases k with
  | repository name => exact content_repository h
  | file repo path => exact content_file h
  | symbol repo filePath name line => exact content_symbol h
  | reference repo filePath line column kind name => exact content_reference h
  | edge repo key => exact content_edge h
  | project name => exact content_project h
  | membership proj repo => exact content_membership h

/-! What is held -/

theorem exists_fileRecord? {f : FileRow} (hf : f ∈ s.files) : ∃ y, fileRecord? s f = some y := by
  obtain ⟨name, hname⟩ := exists_ownerOf h (h.file_owner f hf)
  exact ⟨_, by rw [fileRecord?, hname]; rfl⟩

theorem exists_symbolRecord? {x : SymbolRow} (hx : x ∈ s.symbols) :
    ∃ y, symbolRecord? s x = some y := by
  obtain ⟨home, hhome⟩ := exists_fileHome? h (h.symbol_file x hx)
  exact ⟨_, by rw [symbolRecord?, hhome]; rfl⟩

theorem exists_referenceRecord? {x : ReferenceRow} (hx : x ∈ s.references) :
    ∃ y, referenceRecord? s x = some y := by
  obtain ⟨home, hhome⟩ := exists_fileHome? h (h.reference_file x hx)
  exact ⟨_, by rw [referenceRecord?, hhome]; rfl⟩

theorem exists_edgeRecord? {e : EdgeRow} (he : e ∈ s.edges) : ∃ y, edgeRecord? s e = some y := by
  obtain ⟨name, hname⟩ := exists_ownerOf h (h.edge_fits e he).owner
  exact ⟨_, by rw [edgeRecord?, hname]; rfl⟩

theorem exists_membershipRecord? {m : MembershipRow} (hm : m ∈ s.memberships) :
    ∃ y, membershipRecord? s m = some y := by
  obtain ⟨name, hname⟩ := exists_ownerOf h (h.membership_repository m hm)
  obtain ⟨p, hp, hid⟩ := h.membership_project m hm
  refine ⟨⟨p.name, name⟩, membershipRecord?_eq_some.mpr ⟨?_, hname⟩⟩
  rw [← hid]
  exact (projectName?_eq_some h).mpr (List.mem_map_of_mem (f := projectMark) hp)

omit h in
theorem isSome_content_repository {name : String} :
    (content s (.repository name)).isSome = (s.repository? name).isSome := by
  simp [content]

omit h in
theorem isSome_content_project {name : String} :
    (content s (.project name)).isSome = (s.project? name).isSome := by
  simp [content]

theorem isSome_content_file {repository path : String} :
    (content s (.file repository path)).isSome = (file? s repository path).isSome := by
  rw [content, Option.isSome_map]
  cases hf : file? s repository path with
  | none => rfl
  | some f =>
    obtain ⟨-, -, -, hmem, -⟩ := (file?_spec h).mp hf
    obtain ⟨y, hy⟩ := exists_fileRecord? h hmem
    simp [hy]

theorem isSome_content_symbol {repository filePath name : String} {line : Nat} :
    (content s (.symbol repository filePath name line)).isSome =
      (symbol? s repository ⟨filePath, name, line⟩).isSome := by
  rw [content, Option.isSome_map]
  cases hx : symbol? s repository ⟨filePath, name, line⟩ with
  | none => rfl
  | some x =>
    obtain ⟨-, -, hmem, -⟩ := (symbol?_spec h).mp hx
    obtain ⟨y, hy⟩ := exists_symbolRecord? h hmem
    simp [hy]

end Names

end CodeIndex.Sync
