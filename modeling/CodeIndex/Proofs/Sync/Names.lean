import CodeIndex.Proofs.Store.RunFiles
import CodeIndex.Proofs.Sync.Soundness

/-!
Natural names of rows. The id of a row leads to its mark, which holds what the row is known by
outside the store. A store that has the marks of another one gives its ids the same names.
-/
namespace CodeIndex.Sync

open Store (fileMark eq_of_key)

def repositoryMark (r : RepositoryRow) : Id × String := (r.id, r.fullName)

def symbolMark (x : SymbolRow) : Id × Id × String × Nat := (x.id, x.fileId, x.name, x.lineStart)

def projectMark (p : ProjectRow) : Id × String := (p.id, p.name)

/-- The repository and the path of a file, by its id. -/
def fileHome? (s : Store) (id : Id) : Option (String × String) := do
  let f ← s.fileById? id
  let r ← ownerOf s f.repositoryId
  return (r, f.path)

/-- The name of a project, by its id. -/
def projectName? (s : Store) (id : Id) : Option String :=
  (s.projects.find? fun p => p.id == id).map ProjectRow.name

/-! Names and marks -/

section Marks

variable {s : Store} (h : s.Sound)
include h

theorem ownerOf_eq_some {id : Id} {name : String} :
    ownerOf s id = some name ↔ (id, name) ∈ s.repositories.map repositoryMark := by
  simp only [ownerOf, Option.map_eq_some_iff, h.repositoryById?_eq_some, List.mem_map,
    repositoryMark, Prod.mk.injEq, and_assoc]

theorem projectName?_eq_some {id : Id} {name : String} :
    projectName? s id = some name ↔ (id, name) ∈ s.projects.map projectMark := by
  have hfind : ∀ p, (s.projects.find? fun p => p.id == id) = some p ↔ p ∈ s.projects ∧ p.id = id :=
    fun p => Store.find?_key_eq_some h.project_ids (by simp)
  simp only [projectName?, Option.map_eq_some_iff, hfind, List.mem_map, projectMark,
    Prod.mk.injEq, and_assoc]

theorem filePath?_eq_some {id : Id} {path : String} :
    s.filePath? (some id) = some path ↔ ∃ owner, (id, owner, path) ∈ s.files.map fileMark := by
  simp only [Store.filePath?, Option.bind_eq_bind, Option.bind_some, Option.pure_def,
    Option.bind_eq_some_iff, h.fileById?_eq_some, List.mem_map, fileMark, Prod.mk.injEq,
    Option.some.injEq]
  constructor
  · rintro ⟨f, ⟨hf, hid⟩, hpath⟩
    exact ⟨f.repositoryId, f, hf, hid, rfl, hpath⟩
  · rintro ⟨owner, f, hf, hid, -, hpath⟩
    exact ⟨f, ⟨hf, hid⟩, hpath⟩

theorem fileHome?_eq_some {id : Id} {repository path : String} :
    fileHome? s id = some (repository, path) ↔
      ∃ owner, (id, owner, path) ∈ s.files.map fileMark ∧
        (owner, repository) ∈ s.repositories.map repositoryMark := by
  simp only [fileHome?, Option.bind_eq_bind, Option.pure_def, Option.bind_eq_some_iff,
    h.fileById?_eq_some, ownerOf_eq_some h, List.mem_map, fileMark, Prod.mk.injEq,
    Option.some.injEq]
  constructor
  · rintro ⟨f, ⟨hf, hid⟩, r, hr, rfl, hpath⟩
    exact ⟨f.repositoryId, ⟨f, hf, hid, rfl, hpath⟩, hr⟩
  · rintro ⟨owner, ⟨f, hf, hid, rfl, hpath⟩, hr⟩
    exact ⟨f, ⟨hf, hid⟩, repository, hr, rfl, hpath⟩

theorem symbolKey?_eq_some {id : Id} {key : SymbolKey} :
    s.symbolKey? (some id) = some key ↔
      ∃ fileId owner, (id, fileId, key.name, key.lineStart) ∈ s.symbols.map symbolMark ∧
        (fileId, owner, key.filePath) ∈ s.files.map fileMark := by
  simp only [Store.symbolKey?, Option.bind_eq_bind, Option.bind_some, Option.pure_def,
    Option.bind_eq_some_iff, h.symbolById?_eq_some, h.fileById?_eq_some, List.mem_map, symbolMark,
    fileMark, Prod.mk.injEq, Option.some.injEq]
  constructor
  · rintro ⟨x, ⟨hx, hid⟩, f, ⟨hf, hfid⟩, rfl⟩
    exact ⟨x.fileId, f.repositoryId, ⟨x, hx, hid, rfl, rfl, rfl⟩, f, hf, hfid, rfl, rfl⟩
  · rintro ⟨fileId, owner, ⟨x, hx, hid, rfl, hname, hline⟩, f, hf, hfid, -, hpath⟩
    exact ⟨x, ⟨hx, hid⟩, f, ⟨hf, hfid⟩, by rw [hname, hline, hpath]⟩

/-! Rows that are there have names -/

theorem exists_ownerOf {id : Id} (hid : s.HasRepository id) : ∃ name, ownerOf s id = some name := by
  obtain ⟨r, hr, rfl⟩ := hid
  exact ⟨r.fullName, (ownerOf_eq_some h).mpr (List.mem_map_of_mem hr)⟩

theorem exists_fileHome? {id owner : Id} (hid : s.HasFile id owner) :
    ∃ home, fileHome? s id = some home := by
  obtain ⟨f, hf, rfl, rfl⟩ := hid
  obtain ⟨name, hname⟩ := exists_ownerOf h (h.file_owner f hf)
  exact ⟨(name, f.path), (fileHome?_eq_some h).mpr
    ⟨f.repositoryId, List.mem_map_of_mem hf, (ownerOf_eq_some h).mp hname⟩⟩

theorem exists_filePath? {id owner : Id} (hid : s.HasFile id owner) :
    ∃ path, s.filePath? (some id) = some path := by
  obtain ⟨f, hf, rfl, rfl⟩ := hid
  exact ⟨f.path, (filePath?_eq_some h).mpr ⟨f.repositoryId, List.mem_map_of_mem hf⟩⟩

theorem exists_symbolKey? {id owner : Id} (hid : s.HasSymbol id owner) :
    ∃ key, s.symbolKey? (some id) = some key := by
  obtain ⟨x, hx, rfl, rfl⟩ := hid
  obtain ⟨f, hf, hfid, -⟩ := h.symbol_file x hx
  refine ⟨⟨f.path, x.name, x.lineStart⟩, (symbolKey?_eq_some h).mpr
    ⟨x.fileId, f.repositoryId, List.mem_map_of_mem hx, ?_⟩⟩
  exact hfid ▸ List.mem_map_of_mem (f := fileMark) hf

end Marks

/-! Stores that give the same names -/

/-- The second store has the marks of the first one. -/
structure Agrees (s s' : Store) : Prop where
  repositories : s.repositories.map repositoryMark ⊆ s'.repositories.map repositoryMark
  files : s.files.map fileMark ⊆ s'.files.map fileMark
  symbols : s.symbols.map symbolMark ⊆ s'.symbols.map symbolMark
  projects : s.projects.map projectMark ⊆ s'.projects.map projectMark

theorem Agrees.refl (s : Store) : Agrees s s :=
  ⟨List.Subset.refl _, List.Subset.refl _, List.Subset.refl _, List.Subset.refl _⟩

namespace Agrees

variable {s s' : Store} (ha : Agrees s s') (h : s.Sound) (h' : s'.Sound)
include ha h h'

theorem ownerOf {id : Id} (hid : s.HasRepository id) : ownerOf s' id = ownerOf s id := by
  obtain ⟨name, hname⟩ := exists_ownerOf h hid
  rw [hname]
  exact (ownerOf_eq_some h').mpr (ha.repositories ((ownerOf_eq_some h).mp hname))

theorem projectName? {id : Id} (hid : s.HasProject id) :
    projectName? s' id = projectName? s id := by
  obtain ⟨p, hp, rfl⟩ := hid
  have hmark := List.mem_map_of_mem (f := projectMark) hp
  rw [(projectName?_eq_some h).mpr hmark]
  exact (projectName?_eq_some h').mpr (ha.projects hmark)

theorem fileHome? {id owner : Id} (hid : s.HasFile id owner) :
    fileHome? s' id = fileHome? s id := by
  obtain ⟨⟨repository, path⟩, hhome⟩ := exists_fileHome? h hid
  obtain ⟨owner', hmark, hname⟩ := (fileHome?_eq_some h).mp hhome
  rw [hhome]
  exact (fileHome?_eq_some h').mpr ⟨owner', ha.files hmark, ha.repositories hname⟩

theorem filePath? {id : Option Id} (hid : ∀ i, id = some i → ∃ owner, s.HasFile i owner) :
    s'.filePath? id = s.filePath? id := by
  cases id with
  | none => rfl
  | some i =>
    obtain ⟨owner, hi⟩ := hid i rfl
    obtain ⟨path, hpath⟩ := exists_filePath? h hi
    obtain ⟨owner', hmark⟩ := (filePath?_eq_some h).mp hpath
    rw [hpath]
    exact (filePath?_eq_some h').mpr ⟨owner', ha.files hmark⟩

theorem symbolKey? {id : Option Id} (hid : ∀ i, id = some i → ∃ owner, s.HasSymbol i owner) :
    s'.symbolKey? id = s.symbolKey? id := by
  cases id with
  | none => rfl
  | some i =>
    obtain ⟨owner, hi⟩ := hid i rfl
    obtain ⟨key, hkey⟩ := exists_symbolKey? h hi
    obtain ⟨fileId, owner', hmark, hfile⟩ := (symbolKey?_eq_some h).mp hkey
    rw [hkey]
    exact (symbolKey?_eq_some h').mpr ⟨fileId, owner', ha.symbols hmark, ha.files hfile⟩

end Agrees

end CodeIndex.Sync
