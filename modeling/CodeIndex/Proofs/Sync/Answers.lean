import CodeIndex.Proofs.Sync.Keys

/-!
What the loaders answer depends on the records of a store alone, ids apart. Each of them sorts what
it finds, and no two of its finds have the same place in the order; so it does not matter in which
order the rows stand.
-/
namespace CodeIndex.Sync

open Store (FileSummary Project compareSymbols compareReferences compareRecent limited)

/-- Two stores with the same records. -/
def SameRecords (s u : Store) : Prop := ∀ x, x ∈ records u ↔ x ∈ records s

/-! Sorting rows that stand in another order -/

theorem isLE_total {α : Type} (cmp : α → α → Ordering) [Std.TransCmp cmp] (a b : α) :
    ((cmp a b).isLE || (cmp b a).isLE) = true := by
  have hswap : cmp a b = (cmp b a).swap := Std.OrientedCmp.eq_swap
  rw [hswap]
  cases cmp b a <;> rfl

theorem pairwise_mergeSort {α : Type} (cmp : α → α → Ordering) [Std.TransCmp cmp] (xs : List α) :
    (xs.mergeSort fun a b => (cmp a b).isLE).Pairwise fun a b => (cmp a b).isLE = true :=
  List.pairwise_mergeSort (fun _ _ _ => Std.TransCmp.isLE_trans) (isLE_total cmp) xs

theorem mergeSort_eq_of_perm {α : Type} (cmp : α → α → Ordering) [Std.TransCmp cmp] {l l' : List α}
    (hperm : l.Perm l') (hplace : ∀ a ∈ l, ∀ b ∈ l, cmp a b = .eq → a = b) :
    l.mergeSort (fun a b => (cmp a b).isLE) = l'.mergeSort fun a b => (cmp a b).isLE := by
  refine List.Perm.eq_of_pairwise ?_ (pairwise_mergeSort cmp l) (pairwise_mergeSort cmp l')
    ((List.mergeSort_perm ..).trans (hperm.trans (List.mergeSort_perm ..).symm))
  intro a b ha hb hab hba
  exact hplace a (List.mem_mergeSort.mp ha) b (hperm.mem_iff.mpr (List.mem_mergeSort.mp hb))
    (Std.OrientedCmp.isLE_antisymm hab hba)

/-- What is sorted in two stores comes from the same records, and records with one place in the
order have one key. -/
theorem mergeSort_eq_of_records {α β κ : Type} (cmp : β → β → Ordering) [Std.TransCmp cmp]
    {rows rows' : List β} {found found' : List α} {g : α → Option β} {key : α → κ}
    (hrows : rows.Perm (found.filterMap g)) (hrows' : rows'.Perm (found'.filterMap g))
    (hsame : found.Perm found') (hkeys : (found.map key).Nodup)
    (hplace : ∀ x ∈ found, ∀ y ∈ found, ∀ a b, g x = some a → g y = some b → cmp a b = .eq →
      key x = key y) :
    rows.mergeSort (fun a b => (cmp a b).isLE) = rows'.mergeSort fun a b => (cmp a b).isLE := by
  apply mergeSort_eq_of_perm cmp (hrows.trans ((hsame.filterMap g).trans hrows'.symm))
  intro a ha b hb heq
  obtain ⟨x, hx, ha⟩ := List.mem_filterMap.mp (hrows.mem_iff.mp ha)
  obtain ⟨y, hy, hb⟩ := List.mem_filterMap.mp (hrows.mem_iff.mp hb)
  have hxy : x = y := Store.eq_of_key hkeys hx hy (hplace x hx y hy a b ha hb heq)
  exact Option.some.inj (ha.symm.trans ((congrArg g hxy).trans hb))

instance : Std.TransCmp compareSymbols :=
  inferInstanceAs (Std.TransCmp (compareLex (compareOn Symbol.filePath)
    (compareLex (compareOn Symbol.lineStart) (compareOn Symbol.name))))

instance : Std.TransCmp compareReferences :=
  inferInstanceAs (Std.TransCmp (compareLex (compareOn Reference.filePath)
    (compareLex (compareOn Reference.line) (compareLex (compareOn Reference.column)
      (compareLex (compareOn fun r : Reference => r.kind.name) (compareOn Reference.name))))))

instance : Std.TransCmp fun a b : FileSummary => compare b.indexedAt a.indexedAt :=
  @Std.TransCmp.opposite _ (compareOn FileSummary.indexedAt) inferInstance

instance : Std.TransCmp compareRecent :=
  inferInstanceAs (Std.TransCmp (compareLex (fun a b => compare b.indexedAt a.indexedAt)
    (compareLex (compareOn FileSummary.repository) (compareOn FileSummary.path))))

/-! The rows that a loader finds -/

/-- The symbol of a record, if it stands in the repository. -/
def symbolIn (name : String) (y : SymbolRecord) : Option Symbol :=
  if y.repository = name then
    some ⟨y.filePath, y.name, y.kind, y.lineStart, y.lineEnd, y.signature, y.documentation,
      y.isExported⟩
  else none

def referenceIn (name : String) (y : ReferenceRecord) : Option Reference :=
  if y.repository = name then
    some ⟨y.filePath, y.name, y.kind, y.line, y.column, y.targetFilePath, y.targetSymbol,
      y.metadata⟩
  else none

/-- An edge without the id of its repository. -/
def anonymousEdge (e : Edge) : Edge := { e with repositoryId := "" }

def edgeIn (name : String) (y : EdgeRecord) : Option Edge :=
  if y.repository = name then some y.edge else none

/-- A summary without the id of its file. -/
def anonymousFile (x : FileSummary) : FileSummary := { x with id := .given "" }

def summaryIn (repository : Option String) (y : FileRecord) : Option FileSummary :=
  if (repository.map (· == y.repository)).getD true then
    some (anonymousFile ⟨.given "", y.repository, y.path, y.language, y.size, y.contentHash,
      y.indexedAt⟩)
  else none

/-- A project without its id. -/
def anonymousProject (p : Project) : Project := { p with id := .given "" }

def memberIn (name : String) (m : MembershipRecord) : Option String :=
  if m.project = name then some m.repository else none

section Rows

variable {s : Store} (h : s.Sound) {name : String} {r : RepositoryRow}
  (hr : s.repository? name = some r)
include h hr

/-- A row of a file stands in the repository if its file does. -/
theorem fileHome?_of_hasFile {id owner : Id} (hfile : s.HasFile id owner) :
    ∃ f n, s.fileById? id = some f ∧ fileHome? s id = some (n, f.path) ∧
      (n = name ↔ owner = r.id) := by
  obtain ⟨f, hf, rfl, rfl⟩ := hfile
  obtain ⟨n, hn⟩ := exists_ownerOf h (h.file_owner f hf)
  refine ⟨f, n, h.fileById?_eq_some.mpr ⟨hf, rfl⟩, ?_, ?_⟩
  · exact (fileHome?_eq_some h).mpr
      ⟨f.repositoryId, List.mem_map_of_mem hf, (ownerOf_eq_some h).mp hn⟩
  · rw [← ownerOf_iff h hr, hn, Option.some.injEq]

theorem symbols_perm :
    ((s.symbols.filter fun x => x.repositoryId == r.id).filterMap s.symbolOf?).Perm
      ((loadSymbols s).filterMap (symbolIn name)) := by
  refine .trans (.of_eq ?_) ((loadSymbols_perm s).filterMap _).symm
  rw [List.filterMap_filterMap, List.filterMap_filter]
  apply List.filterMap_congr
  intro row hrow
  obtain ⟨f, n, hfile, hhome, hown⟩ := fileHome?_of_hasFile h hr (h.symbol_file row hrow)
  simp [symbolRecord?, hhome, symbolIn, Store.symbolOf?, hfile, hown]

theorem references_perm :
    ((s.references.filter fun x => x.repositoryId == r.id).filterMap s.referenceOf?).Perm
      ((loadReferences s).filterMap (referenceIn name)) := by
  refine .trans (.of_eq ?_) ((loadReferences_perm s).filterMap _).symm
  rw [List.filterMap_filterMap, List.filterMap_filter]
  apply List.filterMap_congr
  intro row hrow
  obtain ⟨f, n, hfile, hhome, hown⟩ := fileHome?_of_hasFile h hr (h.reference_file row hrow)
  simp [referenceRecord?, hhome, referenceIn, Store.referenceOf?, hfile, hown]

theorem edges_perm :
    ((s.edges.filter fun e => e.repositoryId == r.id).map (s.edgeOf "")).Perm
      ((loadEdges s).filterMap (edgeIn name)) := by
  refine .trans (.of_eq ?_) ((loadEdges_perm s).filterMap _).symm
  rw [List.filterMap_filterMap, ← List.filterMap_eq_map, List.filterMap_filter]
  apply List.filterMap_congr
  intro e he
  obtain ⟨n, hn⟩ := exists_ownerOf h (h.edge_fits e he).owner
  have hown : n = name ↔ e.repositoryId = r.id := by
    rw [← ownerOf_iff h hr, hn, Option.some.injEq]
  simp [edgeRecord?, hn, edgeIn, hown, Store.edgeOf, EdgeRecord.edge]

end Rows

/-- The files of a store before they are sorted. -/
def summaries (s : Store) (repository : Option String) : List FileSummary :=
  s.files.filterMap fun f => do
    let r ← s.repositoryById? f.repositoryId
    if (repository.map (· == r.fullName)).getD true then
      return { id := f.id, repository := r.fullName, path := f.path, language := f.language,
               size := f.size, contentHash := f.contentHash, indexedAt := f.indexedAt }
    else none

theorem summaries_perm (s : Store) (repository : Option String) :
    ((summaries s repository).map anonymousFile).Perm
      ((loadFiles s).filterMap (summaryIn repository)) := by
  refine .trans (.of_eq ?_) ((loadFiles_perm s).filterMap _).symm
  rw [summaries, List.map_filterMap, List.filterMap_filterMap]
  apply List.filterMap_congr
  intro f _
  unfold fileRecord? ownerOf
  cases s.repositoryById? f.repositoryId with
  | none => rfl
  | some r =>
    simp only [Option.bind_eq_bind, Option.bind_some, Option.map_some, summaryIn]
    split <;> rfl

theorem recentFiles_eq (s : Store) (limit : Nat) (repository : Option String) :
    (s.recentFiles limit repository).map anonymousFile =
      limited limit (((summaries s repository).map anonymousFile).mergeSort
        fun a b => (compareRecent a b).isLE) := by
  have hsort := List.map_mergeSort (f := anonymousFile) (l := summaries s repository)
    (r := fun a b => (compareRecent a b).isLE) (s := fun a b => (compareRecent a b).isLE)
    fun _ _ _ _ => rfl
  rw [← hsort, Store.recentFiles]
  unfold limited
  split
  · exact List.map_take
  · rfl

theorem members_perm {s : Store} (h : s.Sound) {p : ProjectRow} (hp : p ∈ s.projects) :
    ((s.memberships.filter fun m => m.projectId == p.id).filterMap fun m =>
        (s.repositoryById? m.repositoryId).map RepositoryRow.fullName).Perm
      ((loadMemberships s).filterMap (memberIn p.name)) := by
  refine .trans (.of_eq ?_) ((loadMemberships_perm s).filterMap _).symm
  rw [List.filterMap_filterMap, List.filterMap_filter]
  apply List.filterMap_congr
  intro m hm
  obtain ⟨q, hq, hid⟩ := h.membership_project m hm
  have hname : projectName? s m.projectId = some q.name :=
    (projectName?_eq_some h).mpr (hid ▸ List.mem_map_of_mem (f := projectMark) hq)
  have hown : q.name = p.name ↔ m.projectId = p.id := by
    rw [← project?_iff h (h.project?_eq_some.mpr ⟨hp, rfl⟩), hname, Option.some.injEq]
  obtain ⟨n, hn⟩ := exists_ownerOf h (h.membership_repository m hm)
  rw [ownerOf] at hn
  simp [membershipRecord?, hname, ownerOf, hn, memberIn, hown]

/-- The repositories of a project by its name. -/
def membersIn (s : Store) (name : String) : List String :=
  ((loadMemberships s).filterMap (memberIn name)).mergeSort fun a b => (compare a b).isLE

theorem loadProjects_eq (s : Store) :
    loadProjects s =
      (s.projects.map projectRecord).mergeSort fun a b => (compareOn ProjectRecord.name a b).isLE :=
  List.map_mergeSort fun _ _ _ _ => rfl

theorem listProjects_eq {s : Store} (h : s.Sound) :
    s.listProjects.map anonymousProject = (loadProjects s).map fun p =>
      ⟨.given "", p.name, p.description, p.createdAt, membersIn s p.name⟩ := by
  rw [Store.listProjects, loadProjects, List.map_map, List.map_map]
  apply List.map_congr_left
  intro p hp
  have hmembers : s.membersOf p.id = membersIn s p.name := by
    apply mergeSort_eq_of_perm compare (members_perm h (List.mem_mergeSort.mp hp))
    intro a _ b _ heq
    exact Std.compare_eq_iff_eq.mp heq
  simp [anonymousProject, hmembers]

/-- The edges of a repository are sorted by the keys that their ends give. -/
theorem edges_sorted {s : Store} (h : Faithful s) (r : RepositoryRow) :
    (((s.edges.filter fun e => e.repositoryId == r.id).mergeSort
        fun a b => (compare a.key b.key).isLE).map (s.edgeOf r.id.text)).map anonymousEdge =
      ((s.edges.filter fun e => e.repositoryId == r.id).map (s.edgeOf "")).mergeSort
        fun a b => (compareOn Edge.key a b).isLE := by
  rw [List.map_map]
  apply List.map_mergeSort
  intro a ha b hb
  rw [← h.edge_keys a (List.mem_of_mem_filter ha), ← h.edge_keys b (List.mem_of_mem_filter hb)]
  rfl

/-! Stores with the same records -/

/-- The loaders answer the same for both stores, ids apart. -/
structure SameAnswers (s u : Store) : Prop where
  symbols : ∀ name, u.loadSymbols name = s.loadSymbols name
  references : ∀ name, u.loadReferences name = s.loadReferences name
  edges : ∀ name, (u.loadEdges name).map (fun out => out.2.map anonymousEdge) =
    (s.loadEdges name).map fun out => out.2.map anonymousEdge
  files : ∀ limit repository, (u.recentFiles limit repository).map anonymousFile =
    (s.recentFiles limit repository).map anonymousFile
  projects : u.listProjects.map anonymousProject = s.listProjects.map anonymousProject

namespace SameRecords

variable {s u : Store} (h : SameRecords s u) (hs : Faithful s) (hu : Faithful u)
include h hs hu

omit hs hu in
theorem live {k : Deletion} : Live u k ↔ Live s k :=
  exists_congr fun x => and_congr_left fun _ => h x

omit hs hu in
/-- A table that is loaded without repetitions has the same records in both stores. -/
theorem table {α κ : Type} (load : Store → List α) (make : α → Record) {key : α → κ}
    (hmem : ∀ t a, make a ∈ records t ↔ a ∈ load t) (hkeys : ((load s).map key).Nodup)
    (hkeys' : ((load u).map key).Nodup) : (load s).Perm (load u) := by
  rw [List.perm_ext_iff_of_nodup (.of_map _ hkeys) (.of_map _ hkeys')]
  intro a
  rw [← hmem, ← hmem]
  exact (h (make a)).symm

theorem files : (loadFiles s).Perm (loadFiles u) :=
  h.table loadFiles .file (fun t a => by simp [records]) (nodup_fileKeys hs) (nodup_fileKeys hu)

theorem symbols : (loadSymbols s).Perm (loadSymbols u) :=
  h.table loadSymbols .symbol (fun t a => by simp [records]) (nodup_symbolKeys hs)
    (nodup_symbolKeys hu)

theorem references : (loadReferences s).Perm (loadReferences u) :=
  h.table loadReferences .reference (fun t a => by simp [records]) (nodup_referenceKeys hs)
    (nodup_referenceKeys hu)

theorem edges : (loadEdges s).Perm (loadEdges u) :=
  h.table loadEdges .edge (fun t a => by simp [records]) (nodup_edgeKeys hs) (nodup_edgeKeys hu)

theorem memberships : (loadMemberships s).Perm (loadMemberships u) :=
  h.table loadMemberships .membership (fun t a => by simp [records]) (nodup_membershipKeys hs)
    (nodup_membershipKeys hu)

/-- A repository that one store has is one of the other one. -/
theorem repository? (name : String) :
    (s.repository? name = none ∧ u.repository? name = none) ∨
      ∃ r r', s.repository? name = some r ∧ u.repository? name = some r' := by
  have hlive := h.live (k := .repository name)
  rw [live_repository hs.toSound, live_repository hu.toSound] at hlive
  cases hr : s.repository? name with
  | none =>
    rw [hr] at hlive
    left
    refine ⟨rfl, Option.eq_none_iff_forall_ne_some.mpr fun r' hr' => ?_⟩
    simpa using hlive.mp ⟨r', hr'⟩
  | some r =>
    obtain ⟨r', hr'⟩ := hlive.mpr ⟨r, hr⟩
    exact .inr ⟨r, r', rfl, hr'⟩

theorem loadSymbols (name : String) : u.loadSymbols name = s.loadSymbols name := by
  unfold Store.loadSymbols Store.requireRepository
  rcases h.repository? hs hu name with ⟨hr, hr'⟩ | ⟨r, r', hr, hr'⟩
  · rw [hr, hr']
    rfl
  · rw [hr, hr']
    refine congrArg Except.ok (Eq.symm ?_)
    refine mergeSort_eq_of_records compareSymbols (symbols_perm hs.toSound hr)
      (symbols_perm hu.toSound hr') (h.symbols hs hu) (nodup_symbolKeys hs) ?_
    intro x _ y _ a b ha hb heq
    simp only [symbolIn, Option.ite_none_right_eq_some, Option.some.injEq] at ha hb
    obtain ⟨hx, rfl⟩ := ha
    obtain ⟨hy, rfl⟩ := hb
    simp only [compareSymbols, Ordering.then_eq_eq, Std.compare_eq_iff_eq] at heq
    simp [Record.key, hx, hy, heq]

theorem loadReferences (name : String) : u.loadReferences name = s.loadReferences name := by
  unfold Store.loadReferences Store.requireRepository
  rcases h.repository? hs hu name with ⟨hr, hr'⟩ | ⟨r, r', hr, hr'⟩
  · rw [hr, hr']
    rfl
  · rw [hr, hr']
    refine congrArg Except.ok (Eq.symm ?_)
    refine mergeSort_eq_of_records compareReferences (references_perm hs.toSound hr)
      (references_perm hu.toSound hr') (h.references hs hu) (nodup_referenceKeys hs) ?_
    intro x _ y _ a b ha hb heq
    simp only [referenceIn, Option.ite_none_right_eq_some, Option.some.injEq] at ha hb
    obtain ⟨hx, rfl⟩ := ha
    obtain ⟨hy, rfl⟩ := hb
    simp only [compareReferences, Ordering.then_eq_eq, Std.compare_eq_iff_eq] at heq
    simp [Record.key, hx, hy, heq]

theorem recentFiles (limit : Nat) (repository : Option String) :
    (u.recentFiles limit repository).map anonymousFile =
      (s.recentFiles limit repository).map anonymousFile := by
  rw [recentFiles_eq, recentFiles_eq]
  refine congrArg (limited limit) (Eq.symm ?_)
  refine mergeSort_eq_of_records compareRecent (summaries_perm s repository)
    (summaries_perm u repository) (h.files hs hu) (nodup_fileKeys hs) ?_
  intro x _ y _ a b ha hb heq
  simp only [summaryIn, Option.ite_none_right_eq_some, Option.some.injEq] at ha hb
  obtain ⟨-, rfl⟩ := ha
  obtain ⟨-, rfl⟩ := hb
  simp only [compareRecent, Ordering.then_eq_eq, Std.compare_eq_iff_eq, anonymousFile] at heq
  simp [Record.key, heq]

theorem loadEdges (name : String) :
    (u.loadEdges name).map (fun out => out.2.map anonymousEdge) =
      (s.loadEdges name).map fun out => out.2.map anonymousEdge := by
  unfold Store.loadEdges Store.requireRepository
  rcases h.repository? hs hu name with ⟨hr, hr'⟩ | ⟨r, r', hr, hr'⟩
  · rw [hr, hr']
    rfl
  · rw [hr, hr']
    refine congrArg Except.ok (Eq.symm ?_)
    dsimp only
    rw [edges_sorted hs, edges_sorted hu]
    refine mergeSort_eq_of_records (compareOn Edge.key) (edges_perm hs.toSound hr)
      (edges_perm hu.toSound hr') (h.edges hs hu) (nodup_edgeKeys hs) ?_
    intro x _ y _ a b ha hb heq
    simp only [edgeIn, Option.ite_none_right_eq_some, Option.some.injEq] at ha hb
    obtain ⟨hx, rfl⟩ := ha
    obtain ⟨hy, rfl⟩ := hb
    rw [compareOn, Std.compare_eq_iff_eq] at heq
    simp [Record.key, hx, hy, heq]

theorem loadProjects : Sync.loadProjects u = Sync.loadProjects s := by
  have hnodup : ∀ {t : Store}, Faithful t →
      ((t.projects.map projectRecord).map ProjectRecord.name).Nodup := by
    intro t ht
    rw [List.map_map]
    exact ht.project_names
  have hperm := h.table (fun t => t.projects.map projectRecord) .project
    (fun t p => by simp [records, (loadProjects_perm t).mem_iff]) (hnodup hs) (hnodup hu)
  rw [loadProjects_eq, loadProjects_eq]
  refine Eq.symm (mergeSort_eq_of_perm (compareOn ProjectRecord.name) hperm ?_)
  intro a ha b hb heq
  rw [compareOn, Std.compare_eq_iff_eq] at heq
  exact Store.eq_of_key (hnodup hs) ha hb heq

theorem members (name : String) : membersIn u name = membersIn s name := by
  apply Eq.symm
  refine mergeSort_eq_of_perm compare ((h.memberships hs hu).filterMap (memberIn name)) ?_
  intro a _ b _ heq
  exact Std.compare_eq_iff_eq.mp heq

/-- The loaders answer the same for stores with the same records. -/
theorem answers : SameAnswers s u where
  symbols := h.loadSymbols hs hu
  references := h.loadReferences hs hu
  edges := h.loadEdges hs hu
  files := h.recentFiles hs hu
  projects := by
    rw [listProjects_eq hu.toSound, listProjects_eq hs.toSound, h.loadProjects hs hu]
    apply List.map_congr_left
    intro p _
    rw [h.members hs hu]

end SameRecords

end CodeIndex.Sync
