import CodeIndex.Store.Run
import CodeIndex.Store.Project
import Mathlib.Data.List.Nodup

/-!
The invariant of a store. `Consistent` says that natural keys are unique in every table and that
every row names rows that are there and that belong to the same repository. `Sound` adds what keeps
this so under every operation: ids are unique, and none of them is still to be made. The lookups of
a sound store find exactly the row that has the key.
-/
namespace CodeIndex.Store

/-- A repository has the id. -/
def HasRepository (s : Store) (id : Id) : Prop := ∃ r ∈ s.repositories, r.id = id

/-- A file of the given repository has the id. -/
def HasFile (s : Store) (id owner : Id) : Prop :=
  ∃ f ∈ s.files, f.id = id ∧ f.repositoryId = owner

/-- A symbol of the given repository has the id. -/
def HasSymbol (s : Store) (id owner : Id) : Prop :=
  ∃ x ∈ s.symbols, x.id = id ∧ x.repositoryId = owner

/-- A project has the id. -/
def HasProject (s : Store) (id : Id) : Prop := ∃ p ∈ s.projects, p.id = id

/-- The id is not one that the store has yet to make. -/
def Old (s : Store) (id : Id) : Prop := ∀ n, id = .made s.origin n → n < s.nextSerial

def filePlace (f : FileRow) : Id × String := (f.repositoryId, f.path)

def symbolPlace (x : SymbolRow) : Id × String × Nat := (x.fileId, x.name, x.lineStart)

def usePlace (r : ReferenceRow) : Id × Nat × Nat × ReferenceKind × String :=
  (r.fileId, r.line, r.column, r.kind, r.name)

def edgePlace (e : EdgeRow) : Id × String := (e.repositoryId, e.key)

/-- An edge has a complete pair of ends, and its ends lie in its own repository. -/
structure EdgeFits (s : Store) (e : EdgeRow) : Prop where
  owner : s.HasRepository e.repositoryId
  complete : EdgeRow.isComplete e = true
  files : ∀ i, e.fromFileId = some i ∨ e.toFileId = some i → s.HasFile i e.repositoryId
  symbols : ∀ i, e.fromSymbolId = some i ∨ e.toSymbolId = some i → s.HasSymbol i e.repositoryId

/-- Natural keys are unique, and rows name rows of their own repository. -/
structure Consistent (s : Store) : Prop where
  repository_names : (s.repositories.map RepositoryRow.fullName).Nodup
  file_places : (s.files.map filePlace).Nodup
  symbol_places : (s.symbols.map symbolPlace).Nodup
  use_places : (s.references.map usePlace).Nodup
  edge_places : (s.edges.map edgePlace).Nodup
  project_names : (s.projects.map ProjectRow.name).Nodup
  memberships_nodup : s.memberships.Nodup
  file_owner : ∀ f ∈ s.files, s.HasRepository f.repositoryId
  symbol_file : ∀ x ∈ s.symbols, s.HasFile x.fileId x.repositoryId
  reference_file : ∀ r ∈ s.references, s.HasFile r.fileId r.repositoryId
  reference_target : ∀ r ∈ s.references, ∀ i, r.targetSymbolId = some i →
    s.HasSymbol i r.repositoryId
  edge_fits : ∀ e ∈ s.edges, s.EdgeFits e
  membership_project : ∀ m ∈ s.memberships, s.HasProject m.projectId
  membership_repository : ∀ m ∈ s.memberships, s.HasRepository m.repositoryId

/-- A consistent store whose ids are unique and all made already. -/
structure Sound (s : Store) : Prop extends Consistent s where
  repository_ids : (s.repositories.map RepositoryRow.id).Nodup
  file_ids : (s.files.map FileRow.id).Nodup
  symbol_ids : (s.symbols.map SymbolRow.id).Nodup
  project_ids : (s.projects.map ProjectRow.id).Nodup
  repository_old : ∀ r ∈ s.repositories, s.Old r.id
  file_old : ∀ f ∈ s.files, s.Old f.id
  symbol_old : ∀ x ∈ s.symbols, s.Old x.id
  project_old : ∀ p ∈ s.projects, s.Old p.id

/-- An edge still fits when the rows it names are still there. -/
theorem EdgeFits.mono {s s' : Store} {e : EdgeRow} (h : s.EdgeFits e)
    (hrepository : ∀ i, s.HasRepository i → s'.HasRepository i)
    (hfile : ∀ i owner, s.HasFile i owner → s'.HasFile i owner)
    (hsymbol : ∀ i owner, s.HasSymbol i owner → s'.HasSymbol i owner) : s'.EdgeFits e where
  owner := hrepository _ h.owner
  complete := h.complete
  files i hi := hfile i _ (h.files i hi)
  symbols i hi := hsymbol i _ (h.symbols i hi)

theorem EdgeFits.same {s s' : Store} {e : EdgeRow} (h : s.EdgeFits e)
    (hrepositories : s'.repositories = s.repositories) (hfiles : s'.files = s.files)
    (hsymbols : s'.symbols = s.symbols) : s'.EdgeFits e := by
  apply h.mono
  · intro i hi
    rwa [HasRepository, hrepositories]
  · intro i owner hi
    rwa [HasFile, hfiles]
  · intro i owner hi
    rwa [HasSymbol, hsymbols]

theorem sound_empty (origin : Nat) : (empty origin).Sound := by
  constructor
  · constructor <;> simp [empty]
  all_goals simp [empty]

/-! Keys and lists of rows -/

/-- Rows that agree in a key without repetitions are the same row. -/
theorem eq_of_key {α κ : Type} {key : α → κ} {rows : List α} (h : (rows.map key).Nodup) {a b : α}
    (ha : a ∈ rows) (hb : b ∈ rows) (hk : key a = key b) : a = b :=
  List.inj_on_of_nodup_map h ha hb hk

/-- A test for a key without repetitions finds exactly the row that has the key. -/
theorem find?_key_eq_some {α κ : Type} {key : α → κ} {rows : List α} (h : (rows.map key).Nodup)
    {p : α → Bool} {k : κ} (htest : ∀ a, p a = true ↔ key a = k) {a : α} :
    rows.find? p = some a ↔ a ∈ rows ∧ key a = k := by
  constructor
  · intro hf
    exact ⟨List.mem_of_find?_eq_some hf, (htest a).mp (List.find?_some hf)⟩
  · rintro ⟨ha, hk⟩
    cases hf : rows.find? p with
    | none => exact absurd ((htest a).mpr hk) (List.find?_eq_none.mp hf a ha)
    | some b =>
      have hb : key b = k := (htest b).mp (List.find?_some hf)
      rw [eq_of_key h (List.mem_of_find?_eq_some hf) ha (hb.trans hk.symm)]

theorem nodup_map_append_one {α κ : Type} {key : α → κ} {rows : List α}
    (h : (rows.map key).Nodup) {a : α} (ha : ∀ b ∈ rows, key b ≠ key a) :
    ((rows ++ [a]).map key).Nodup := by
  rw [List.map_append, List.map_singleton]
  refine List.nodup_append.mpr ⟨h, List.nodup_singleton _, ?_⟩
  intro k hk k' hk'
  obtain ⟨b, hb, rfl⟩ := List.mem_map.mp hk
  rw [List.mem_singleton.mp hk']
  exact ha b hb

theorem map_key_map {α κ : Type} {key : α → κ} {rows : List α} {f : α → α}
    (hf : ∀ a ∈ rows, key (f a) = key a) : (rows.map f).map key = rows.map key := by
  rw [List.map_map]
  exact List.map_congr_left hf

theorem nodup_map_filter {α κ : Type} {key : α → κ} {rows : List α} (h : (rows.map key).Nodup)
    (test : α → Bool) : ((rows.filter test).map key).Nodup :=
  h.sublist (List.filter_sublist.map key)

/-! Fresh ids -/

@[simp] theorem freshId_fst (s : Store) : s.freshId.1 = .made s.origin s.nextSerial := rfl

theorem ne_freshId {s : Store} {id : Id} (h : s.Old id) : id ≠ s.freshId.1 := by
  intro heq
  exact absurd (h _ heq) (Nat.lt_irrefl _)

theorem old_freshId (s : Store) : s.freshId.2.Old s.freshId.1 := by
  intro n hn
  simp only [freshId, Id.made.injEq, true_and] at hn ⊢
  omega

theorem Old.freshId {s : Store} {id : Id} (h : s.Old id) : s.freshId.2.Old id := by
  intro n hn
  exact Nat.lt_succ_of_lt (h n hn)

theorem Sound.freshId {s : Store} (h : s.Sound) : s.freshId.2.Sound :=
  { h with
    edge_fits := fun e he => (h.edge_fits e he).same rfl rfl rfl
    repository_old := fun r hr => (h.repository_old r hr).freshId
    file_old := fun f hf => (h.file_old f hf).freshId
    symbol_old := fun x hx => (h.symbol_old x hx).freshId
    project_old := fun p hp => (h.project_old p hp).freshId }

/-- The queue of deletions takes no part in the invariant. -/
theorem Sound.withPending {s : Store} (h : s.Sound) (pending : List Pending) (next : Nat) :
    ({ s with pending, nextPending := next } : Store).Sound :=
  { h with edge_fits := fun e he => (h.edge_fits e he).same rfl rfl rfl }

theorem Sound.enqueueAll {s : Store} (h : s.Sound) (keys : List Sync.Deletion) :
    (s.enqueueAll keys).Sound := by
  induction keys generalizing s with
  | nil => exact h
  | cons key rest ih => exact ih (h.withPending _ _)

/-! What the lookups of a sound store find -/

namespace Sound

variable {s : Store}

theorem repository?_eq_some (h : s.Sound) {name : String} {r : RepositoryRow} :
    s.repository? name = some r ↔ r ∈ s.repositories ∧ r.fullName = name :=
  find?_key_eq_some h.repository_names (by simp)

theorem repositoryById?_eq_some (h : s.Sound) {id : Id} {r : RepositoryRow} :
    s.repositoryById? id = some r ↔ r ∈ s.repositories ∧ r.id = id :=
  find?_key_eq_some h.repository_ids (by simp)

theorem file?_eq_some (h : s.Sound) {owner : Id} {path : String} {f : FileRow} :
    s.file? owner path = some f ↔ f ∈ s.files ∧ f.repositoryId = owner ∧ f.path = path := by
  have hkey := find?_key_eq_some h.file_places (k := (owner, path)) (a := f)
    (p := fun f => f.repositoryId == owner && f.path == path) (by simp [filePlace])
  simpa only [file?, filePlace, Prod.mk.injEq] using hkey

theorem fileById?_eq_some (h : s.Sound) {id : Id} {f : FileRow} :
    s.fileById? id = some f ↔ f ∈ s.files ∧ f.id = id :=
  find?_key_eq_some h.file_ids (by simp)

theorem symbolById?_eq_some (h : s.Sound) {id : Id} {x : SymbolRow} :
    s.symbolById? id = some x ↔ x ∈ s.symbols ∧ x.id = id :=
  find?_key_eq_some h.symbol_ids (by simp)

theorem symbol?_eq_some (h : s.Sound) {file : Id} {name : String} {line : Nat} {x : SymbolRow} :
    s.symbol? file name line = some x ↔
      x ∈ s.symbols ∧ x.fileId = file ∧ x.name = name ∧ x.lineStart = line := by
  have hkey := find?_key_eq_some h.symbol_places (k := (file, name, line)) (a := x)
    (p := fun x => x.fileId == file && x.name == name && x.lineStart == line)
    (by simp [symbolPlace, and_assoc])
  simpa only [symbol?, symbolPlace, Prod.mk.injEq] using hkey

theorem project?_eq_some (h : s.Sound) {name : String} {p : ProjectRow} :
    s.project? name = some p ↔ p ∈ s.projects ∧ p.name = name :=
  find?_key_eq_some h.project_names (by simp)

end Sound

end CodeIndex.Store
