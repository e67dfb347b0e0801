import CodeIndex.Proofs.Sync.Reached

/-!
What a store remembers of the rows that it loses. The key of a lost row waits in the queue of
deletions, unless the row was taken along with a repository or a project: then only the key of the
latter waits there.
-/
namespace CodeIndex

namespace Sync

namespace Deletion

/-- The keys of the repository and the project below which a row stands. -/
def owners : Deletion → List Deletion
  | file repo _ | symbol repo .. | reference repo .. | edge repo _ => [.repository repo]
  | membership proj repo => [.project proj, .repository repo]
  | repository _ | project _ => []

/-- Deleting the first key takes away the row with the second one. -/
def Covers (d k : Deletion) : Prop := d = k ∨ d ∈ k.owners

theorem owners_of_mem {d k : Deletion} (h : d ∈ k.owners) : d.owners = [] := by
  cases k <;> simp only [owners, List.mem_cons, List.not_mem_nil, or_false] at h
  case membership =>
    rcases h with rfl | rfl
    · rfl
    · rfl
  all_goals
    rw [h]
    rfl

end Deletion

/-- The keys in the queue of a store. -/
abbrev waiting (s : Store) : List Deletion := s.pending.map Pending.key

variable {s s' s'' : Store}

/-- The repository and the project of a row are there with it. -/
theorem live_owner (h : Faithful s) {d k : Deletion} (hk : Live s k) (hd : d ∈ k.owners) :
    Live s d := by
  have hs := h.toSound
  have hfile : ∀ {repository path : String} {f : FileRow}, file? s repository path = some f →
      Live s (.repository repository) := by
    intro repository path f hf
    obtain ⟨r, hr, -⟩ := file?_eq_some.mp hf
    exact (live_repository hs).mpr ⟨r, hr⟩
  cases k with
  | repository => simp [Deletion.owners] at hd
  | project => simp [Deletion.owners] at hd
  | file repository path =>
    obtain rfl := List.mem_singleton.mp hd
    obtain ⟨f, hf⟩ := (live_file hs).mp hk
    exact hfile hf
  | symbol repository filePath name line =>
    obtain rfl := List.mem_singleton.mp hd
    obtain ⟨x, hx⟩ := (live_symbol hs).mp hk
    obtain ⟨f, hf, -⟩ := (symbol?_spec hs).mp hx
    exact hfile hf
  | reference repository filePath line column kind name =>
    obtain rfl := List.mem_singleton.mp hd
    obtain ⟨f, hf, -⟩ := (live_reference hs).mp hk
    exact hfile hf
  | edge repository key =>
    obtain rfl := List.mem_singleton.mp hd
    obtain ⟨r, hr, -⟩ := (live_edge h).mp hk
    exact (live_repository hs).mpr ⟨r, hr⟩
  | membership project repository =>
    obtain ⟨p, r, hp, hr, -⟩ := (live_membership hs).mp hk
    simp only [Deletion.owners, List.mem_cons, List.not_mem_nil, or_false] at hd
    rcases hd with rfl | rfl
    · exact (live_project hs).mpr ⟨p, hp⟩
    · exact (live_repository hs).mpr ⟨r, hr⟩

/-! What an operation leaves in the queue -/

/-- The keys know of a lost row: its key is one of them, or the row was taken along with one. -/
def Remembered (along keys : List Deletion) (k : Deletion) : Prop :=
  k ∈ keys ∨ (k ∈ along ∧ ∃ d ∈ k.owners, d ∈ keys)

theorem Remembered.mono {along along' keys keys' : List Deletion} {k : Deletion}
    (h : Remembered along keys k) (halong : along ⊆ along') (hkeys : keys ⊆ keys') :
    Remembered along' keys' k := by
  rcases h with hk | ⟨hk, d, howner, hd⟩
  · exact .inl (hkeys hk)
  · exact .inr ⟨halong hk, d, howner, hkeys hd⟩

/-- The second store remembers what it has lost of the first one. The given keys are those of rows
that were taken along. -/
structure Tracks (along : List Deletion) (s s' : Store) : Prop where
  kept : waiting s ⊆ waiting s'
  remembered : ∀ k, Live s k → Live s' k ∨ Remembered along (waiting s') k

namespace Tracks

variable {along : List Deletion}

theorem trans (h : Tracks along s s') (h' : Tracks along s' s'') : Tracks along s s'' := by
  refine ⟨List.Subset.trans h.kept h'.kept, fun k hk => ?_⟩
  rcases h.remembered k hk with hk | hk
  · exact h'.remembered k hk
  · exact .inr (hk.mono (List.Subset.refl _) h'.kept)

/-- A store that only grows has nothing to remember. -/
theorem of_contains (h : Contains s s') (hs : s.Sound) (hs' : s'.Sound)
    (hpending : s'.pending = s.pending) : Tracks along s s' := by
  have hwaiting : waiting s' = waiting s := congrArg (List.map Pending.key) hpending
  exact ⟨hwaiting ▸ List.Subset.refl _, fun k hk => .inl (h.live hs hs' hk)⟩

/-- One key is queued for all that is lost. -/
theorem of_enqueue {d : Deletion} (halong : ∀ k, Live s k → d ∈ k.owners → k ∈ along)
    (hpending : s'.pending = s.pending) (hkept : ∀ k, Live s k → ¬d.Covers k → Live s' k) :
    Tracks along s (s'.enqueue d) := by
  have hwaiting : waiting (s'.enqueue d) = waiting s ++ [d] := by
    simp [waiting, Store.enqueue, hpending]
  refine ⟨hwaiting ▸ List.subset_append_left _ _, fun k hk => ?_⟩
  have hd : d ∈ waiting (s'.enqueue d) :=
    hwaiting ▸ List.mem_append_right _ (List.mem_singleton_self d)
  by_cases hcovers : d.Covers k
  · rcases hcovers with rfl | howner
    · exact .inr (.inl hd)
    · exact .inr (.inr ⟨halong k hk howner, d, howner, hd⟩)
  · exact .inl (hkept k hk hcovers)

end Tracks

/-! Operations on one repository -/

/-- A row of a file belongs to the repository of the file. -/
theorem owner_of_file? (h : s.Sound) {id owner : Id} (hfile : s.HasFile id owner)
    {repository path : String} {f : FileRow} (hf : file? s repository path = some f)
    (hid : id = f.id) : owner = f.repositoryId := by
  obtain ⟨g, hg, rfl, rfl⟩ := hfile
  obtain ⟨_, _, _, hmem, _⟩ := (file?_spec h).mp hf
  rw [Store.eq_of_key h.file_ids hg hmem hid]

/-- The second store has all rows of the first one that do not belong to one repository. -/
structure KeepsOthers (name : String) (owner : Id) (s s' : Store) : Prop where
  repositories : ∀ r ∈ s.repositories, r.fullName ≠ name → r ∈ s'.repositories
  files : ∀ f ∈ s.files, f.repositoryId ≠ owner → f ∈ s'.files
  symbols : ∀ x ∈ s.symbols, x.repositoryId ≠ owner → x ∈ s'.symbols
  references : ∀ r ∈ s.references, r.repositoryId ≠ owner → r ∈ s'.references
  edges : ∀ e ∈ s.edges, e.repositoryId ≠ owner → e ∈ s'.edges
  projects : s.projects ⊆ s'.projects
  memberships : ∀ m ∈ s.memberships, m.repositoryId ≠ owner → m ∈ s'.memberships

namespace KeepsOthers

variable {r : RepositoryRow} (hkeeps : KeepsOthers r.fullName r.id s s') (hr : r ∈ s.repositories)
  (h : Faithful s) (h' : Faithful s')
include hkeeps hr h h'

/-- Another repository is not the one that changes. -/
theorem repository? {name : String} {other : RepositoryRow} (hname : name ≠ r.fullName)
    (hother : s.repository? name = some other) :
    s'.repository? name = some other ∧ other.id ≠ r.id := by
  obtain ⟨hmem, rfl⟩ := h.repository?_eq_some.mp hother
  refine ⟨h'.repository?_eq_some.mpr ⟨hkeeps.repositories other hmem hname, rfl⟩, fun hid => ?_⟩
  exact hname (congrArg RepositoryRow.fullName (Store.eq_of_key h.repository_ids hmem hr hid))

theorem file? {name path : String} {f : FileRow} (hname : name ≠ r.fullName)
    (hf : Sync.file? s name path = some f) :
    Sync.file? s' name path = some f ∧ f.repositoryId ≠ r.id := by
  obtain ⟨other, hother, hfile⟩ := file?_eq_some.mp hf
  obtain ⟨hmem, hown, hpath⟩ := h.file?_eq_some.mp hfile
  obtain ⟨hother', hne⟩ := hkeeps.repository? hr h h' hname hother
  have hne : f.repositoryId ≠ r.id := hown ▸ hne
  refine ⟨file?_eq_some.mpr ⟨other, hother', ?_⟩, hne⟩
  exact h'.file?_eq_some.mpr ⟨hkeeps.files f hmem hne, hown, hpath⟩

/-- All keys that the repository does not cover stay live. -/
theorem live {k : Deletion} (hk : Live s k) (hcovers : ¬(Deletion.repository r.fullName).Covers k) :
    Live s' k := by
  rw [Deletion.Covers, not_or] at hcovers
  obtain ⟨hkey, howner⟩ := hcovers
  cases k with
  | repository name =>
    obtain ⟨other, hother⟩ := (live_repository h.toSound).mp hk
    have hname : name ≠ r.fullName := fun heq => hkey (by rw [heq])
    exact (live_repository h'.toSound).mpr ⟨other, (hkeeps.repository? hr h h' hname hother).1⟩
  | project name =>
    obtain ⟨p, hp⟩ := (live_project h.toSound).mp hk
    obtain ⟨hmem, hname⟩ := h.project?_eq_some.mp hp
    exact (live_project h'.toSound).mpr ⟨p, h'.project?_eq_some.mpr ⟨hkeeps.projects hmem, hname⟩⟩
  | file name path =>
    obtain ⟨f, hf⟩ := (live_file h.toSound).mp hk
    have hname : name ≠ r.fullName := fun heq => howner (by simp [Deletion.owners, heq])
    exact (live_file h'.toSound).mpr ⟨f, (hkeeps.file? hr h h' hname hf).1⟩
  | symbol name filePath symbolName line =>
    obtain ⟨x, hx⟩ := (live_symbol h.toSound).mp hk
    obtain ⟨f, hf, hmem, hfile, hrest⟩ := (symbol?_spec h.toSound).mp hx
    have hname : name ≠ r.fullName := fun heq => howner (by simp [Deletion.owners, heq])
    obtain ⟨hf', hne⟩ := hkeeps.file? hr h h' hname hf
    have hown := owner_of_file? h.toSound (h.symbol_file x hmem) hf hfile
    exact (live_symbol h'.toSound).mpr ⟨x, (symbol?_spec h'.toSound).mpr
      ⟨f, hf', hkeeps.symbols x hmem (hown ▸ hne), hfile, hrest⟩⟩
  | reference name filePath line column kind refName =>
    obtain ⟨f, hf, x, hmem, hfile, hrest⟩ := (live_reference h.toSound).mp hk
    have hname : name ≠ r.fullName := fun heq => howner (by simp [Deletion.owners, heq])
    obtain ⟨hf', hne⟩ := hkeeps.file? hr h h' hname hf
    have hown := owner_of_file? h.toSound (h.reference_file x hmem) hf hfile
    exact (live_reference h'.toSound).mpr
      ⟨f, hf', x, hkeeps.references x hmem (hown ▸ hne), hfile, hrest⟩
  | edge name key =>
    obtain ⟨other, hother, e, hmem, hown, hrest⟩ := (live_edge h).mp hk
    have hname : name ≠ r.fullName := fun heq => howner (by simp [Deletion.owners, heq])
    obtain ⟨hother', hne⟩ := hkeeps.repository? hr h h' hname hother
    exact (live_edge h').mpr ⟨other, hother', e, hkeeps.edges e hmem (hown ▸ hne), hown, hrest⟩
  | membership project name =>
    obtain ⟨p, other, hp, hother, hmem⟩ := (live_membership h.toSound).mp hk
    obtain ⟨hproject, hprojectName⟩ := h.project?_eq_some.mp hp
    have hname : name ≠ r.fullName := fun heq => howner (by simp [Deletion.owners, heq])
    obtain ⟨hother', hne⟩ := hkeeps.repository? hr h h' hname hother
    exact (live_membership h'.toSound).mpr ⟨p, other,
      h'.project?_eq_some.mpr ⟨hkeeps.projects hproject, hprojectName⟩, hother',
      hkeeps.memberships _ hmem hne⟩

end KeepsOthers

theorem keepsOthers_removeRepository (h : s.Sound) {r : RepositoryRow} (hr : r ∈ s.repositories) :
    KeepsOthers r.fullName r.id s (s.removeRepository r.fullName) := by
  have hfound : s.repository? r.fullName = some r := h.repository?_eq_some.mpr ⟨hr, rfl⟩
  rw [h.removeRepository_eq hfound]
  constructor
  · exact fun x hx hne => List.mem_filter.mpr ⟨hx, by simpa using hne⟩
  · exact fun f hf hne => List.mem_filter.mpr ⟨hf, by simpa using hne⟩
  · exact fun x hx hne => List.mem_filter.mpr ⟨hx, by simpa using hne⟩
  · exact fun x hx hne => List.mem_filter.mpr ⟨hx, by simpa using hne⟩
  · exact fun e he hne => List.mem_filter.mpr ⟨he, by simpa using hne⟩
  · exact List.Subset.refl _
  · exact fun m hm hne => List.mem_filter.mpr ⟨hm, by simpa using hne⟩

/-- The keys of the rows that stand below a repository or a project. -/
def keysBelow (s : Store) (d : Deletion) : List Deletion :=
  ((records s).map Record.key).filter fun k => d ∈ k.owners

theorem mem_keysBelow {d k : Deletion} : k ∈ keysBelow s d ↔ Live s k ∧ d ∈ k.owners := by
  simp [keysBelow, Live]

theorem tracks_deleteRepository (h : Faithful s) (name : String) :
    Tracks (keysBelow s (.repository name)) s (s.deleteRepository name).2 := by
  unfold Store.deleteRepository
  split
  · exact .of_contains (Contains.refl s) h.toSound h.toSound rfl
  · next r hr =>
    obtain ⟨hmem, rfl⟩ := h.repository?_eq_some.mp hr
    have hshrinks := shrinks_removeRepository s r.fullName
    have h' := hshrinks.faithful h (h.toSound.removeRepository _)
    refine .of_enqueue (fun k hk howner => mem_keysBelow.mpr ⟨hk, howner⟩) hshrinks.pending ?_
    intro k hk hcovers
    exact (keepsOthers_removeRepository h.toSound hmem).live hmem h h' hk hcovers

/-! The keys of the rows that a run derives -/

/-- The key of a symbol, a reference or an edge of the repository. -/
def Deletion.DerivedOf (name : String) : Deletion → Prop
  | .symbol repo .. | .reference repo .. | .edge repo _ => repo = name
  | _ => False

/-- The file of a row stands in a repository if the row does. -/
theorem exists_file?_iff (h : s.Sound) {r : RepositoryRow} (hr : r ∈ s.repositories)
    {id owner : Id} (hfile : s.HasFile id owner) {path : String} :
    (∃ f, file? s r.fullName path = some f ∧ id = f.id) ↔
      owner = r.id ∧ (s.fileById? id).map FileRow.path = some path := by
  obtain ⟨g, hg, rfl, rfl⟩ := hfile
  rw [h.fileById?_eq_some.mpr ⟨hg, rfl⟩, Option.map_some, Option.some.injEq]
  constructor
  · rintro ⟨f, hf, hid⟩
    obtain ⟨other, hother, hname, hmem, hown, hpath⟩ := (file?_spec h).mp hf
    rw [Store.eq_of_key h.file_ids hg hmem hid,
      ← Store.eq_of_key h.repository_names hother hr hname]
    exact ⟨hown, hpath⟩
  · rintro ⟨hown, hpath⟩
    exact ⟨g, (file?_spec h).mpr ⟨r, hr, rfl, hg, hown, hpath⟩, rfl⟩

theorem symbol_mem_derivedKeys {r : RepositoryRow} {filePath name : String} {line : Nat} :
    .symbol r.fullName filePath name line ∈ s.derivedKeys r ↔
      ∃ x ∈ s.symbols, (x.repositoryId = r.id ∧
        (s.fileById? x.fileId).map FileRow.path = some filePath) ∧
          x.name = name ∧ x.lineStart = line := by
  simp [Store.derivedKeys, ← and_assoc]

theorem reference_mem_derivedKeys {r : RepositoryRow} {filePath kind name : String}
    {line column : Nat} :
    .reference r.fullName filePath line column kind name ∈ s.derivedKeys r ↔
      ∃ x ∈ s.references, (x.repositoryId = r.id ∧
        (s.fileById? x.fileId).map FileRow.path = some filePath) ∧
          x.line = line ∧ x.column = column ∧ x.kind.name = kind ∧ x.name = name := by
  simp [Store.derivedKeys, ← and_assoc]

/-- The keys that are compared before and after a run are those that are live. -/
theorem mem_derivedKeys (h : Faithful s) {r : RepositoryRow} (hr : r ∈ s.repositories)
    {k : Deletion} (hk : k.DerivedOf r.fullName) : k ∈ s.derivedKeys r ↔ Live s k := by
  have hs := h.toSound
  cases k with
  | symbol repo filePath name line =>
    obtain rfl : repo = r.fullName := hk
    rw [symbol_mem_derivedKeys, live_symbol hs]
    simp only [symbol?_spec hs]
    constructor
    · rintro ⟨x, hx, hrow, hrest⟩
      obtain ⟨f, hf, hid⟩ := (exists_file?_iff hs hr (hs.symbol_file x hx)).mpr hrow
      exact ⟨x, f, hf, hx, hid, hrest⟩
    · rintro ⟨x, f, hf, hx, hid, hrest⟩
      exact ⟨x, hx, (exists_file?_iff hs hr (hs.symbol_file x hx)).mp ⟨f, hf, hid⟩, hrest⟩
  | reference repo filePath line column kind name =>
    obtain rfl : repo = r.fullName := hk
    rw [reference_mem_derivedKeys, live_reference hs]
    constructor
    · rintro ⟨x, hx, hrow, hrest⟩
      obtain ⟨f, hf, hid⟩ := (exists_file?_iff hs hr (hs.reference_file x hx)).mpr hrow
      exact ⟨f, hf, x, hx, hid, hrest⟩
    · rintro ⟨f, hf, x, hx, hid, hrest⟩
      exact ⟨x, hx, (exists_file?_iff hs hr (hs.reference_file x hx)).mp ⟨f, hf, hid⟩, hrest⟩
  | edge repo key =>
    obtain rfl : repo = r.fullName := hk
    have hfound : s.repository? r.fullName = some r := hs.repository?_eq_some.mpr ⟨hr, rfl⟩
    rw [live_edge h]
    simp [Store.derivedKeys, hfound, and_assoc]
  | _ => exact absurd hk id

/-! Storing a run -/

section Stored

variable {now : Int} {run : Store.Run} {r : RepositoryRow} (hr : r ∈ s.repositories)
  (o : Store.Outcome s r.id now run s') (h : Faithful s) (h' : Faithful s')
include hr o h

theorem keepsOthers_storeRun : KeepsOthers r.fullName r.id s s' := by
  have hothers := contains_withoutOwn o h.toSound
  rw [withoutOwn_eq h.toSound] at hothers
  constructor
  · intro x hx hne
    have hid : x.id ≠ r.id := fun heq =>
      hne (congrArg RepositoryRow.fullName (Store.eq_of_key h.repository_ids hx hr heq))
    rw [o.repositories_eq]
    refine List.mem_map.mpr ⟨x, hx, ?_⟩
    simp [Store.noteTime, hid]
  · exact fun f hf hne => hothers.files (List.mem_filter.mpr ⟨hf, by simpa using hne⟩)
  · exact fun x hx hne => hothers.symbols (List.mem_filter.mpr ⟨hx, by simpa using hne⟩)
  · exact fun x hx hne => hothers.references (List.mem_filter.mpr ⟨hx, by simpa using hne⟩)
  · exact fun e he hne => hothers.edges (List.mem_filter.mpr ⟨he, by simpa using hne⟩)
  · exact hothers.projects
  · exact fun m hm _ => hothers.memberships hm

omit h in
/-- The repository stays, with the time of the run. -/
theorem repository_storeRun : { r with lastIndexedAt := some now } ∈ s'.repositories := by
  rw [o.repositories_eq]
  refine List.mem_map.mpr ⟨r, hr, ?_⟩
  simp [Store.noteTime]

theorem waiting_storeRun : waiting s' = waiting s ++
    (s.lostFiles r.id run).map (fun e => .file r.fullName e.1) ++
    (s.derivedKeys r).filter fun k => !(s'.derivedKeys r).contains k := by
  obtain ⟨hmem, hid⟩ := h.repositoryById?_eq_some.mp o.found
  obtain hrepository : o.repository = r := Store.eq_of_key h.repository_ids hmem hr hid
  rw [waiting, o.pending_eq, hrepository]

/-- A file that the run does not have is queued. -/
theorem file_storeRun (h' : Faithful s') {path : String} (hk : Live s (.file r.fullName path)) :
    Live s' (.file r.fullName path) ∨ .file r.fullName path ∈ waiting s' := by
  obtain ⟨f, hf⟩ := (live_file h.toSound).mp hk
  obtain ⟨other, hother, hname, hmem, hown, rfl⟩ := (file?_spec h.toSound).mp hf
  have hown : f.repositoryId = r.id := by
    rw [hown, Store.eq_of_key h.repository_names hother hr hname]
  by_cases hpath : f.path ∈ run.files.map SourceFile.path
  · obtain ⟨f', hf', -⟩ := o.file_id_kept h.toSound (h.file?_eq_some.mpr ⟨hmem, hown, rfl⟩) hpath
    obtain ⟨hmem', hown', hpath'⟩ := h'.file?_eq_some.mp hf'
    exact .inl ((live_file h'.toSound).mpr ⟨f', (file?_spec h'.toSound).mpr
      ⟨_, repository_storeRun hr o, rfl, hmem', hown', hpath'⟩⟩)
  · right
    have hlost : (f.path, f.id) ∈ s.lostFiles r.id run := by
      refine List.mem_filter.mpr ⟨?_, ?_⟩
      · exact List.mem_map.mpr ⟨f, List.mem_filter.mpr ⟨hmem, by simpa using hown⟩, rfl⟩
      · rw [← Store.Outcome.isSome_path] at hpath
        simpa using hpath
    rw [waiting_storeRun hr o h]
    exact List.mem_append_left _
      (List.mem_append_right _ (List.mem_map.mpr ⟨(f.path, f.id), hlost, rfl⟩))

/-- A row that the run does not derive again is queued. -/
theorem derived_storeRun (h' : Faithful s') {k : Deletion} (hderived : k.DerivedOf r.fullName)
    (hk : Live s k) : Live s' k ∨ k ∈ waiting s' := by
  by_cases hcurrent : k ∈ s'.derivedKeys r
  · exact .inl ((mem_derivedKeys h' (repository_storeRun hr o) hderived).mp hcurrent)
  · right
    rw [waiting_storeRun hr o h]
    refine List.mem_append_right _ (List.mem_filter.mpr ⟨?_, by simpa using hcurrent⟩)
    exact (mem_derivedKeys h hr hderived).mpr hk

/-- The repository stays a member of its projects. -/
theorem membership_storeRun (h' : Faithful s') {project : String}
    (hk : Live s (.membership project r.fullName)) : Live s' (.membership project r.fullName) := by
  obtain ⟨p, r', hp, hr', hm⟩ := (live_membership h.toSound).mp hk
  obtain ⟨hmem, hname⟩ := h.repository?_eq_some.mp hr'
  obtain rfl := Store.eq_of_key h.repository_names hmem hr hname
  refine (live_membership h'.toSound).mpr ⟨p, _, ?_,
    h'.repository?_eq_some.mpr ⟨repository_storeRun hr o, rfl⟩, ?_⟩
  · rw [Store.project?, o.projects_eq]
    exact hp
  · rw [o.memberships_eq]
    exact hm

theorem tracks_outcome (h' : Faithful s') (along : List Deletion) : Tracks along s s' := by
  refine ⟨?_, ?_⟩
  · rw [waiting_storeRun hr o h, List.append_assoc]
    exact List.subset_append_left _ _
  · intro k hk
    by_cases hcovers : (Deletion.repository r.fullName).Covers k
    · suffices hstays : Live s' k ∨ k ∈ waiting s' from hstays.imp_right .inl
      rcases hcovers with rfl | howner
      · exact .inl ((live_repository h'.toSound).mpr
          ⟨_, h'.repository?_eq_some.mpr ⟨repository_storeRun hr o, rfl⟩⟩)
      · cases k with
        | repository name => exact absurd howner List.not_mem_nil
        | project name => exact absurd howner List.not_mem_nil
        | membership project name =>
          obtain rfl : r.fullName = name := by simpa [Deletion.owners] using howner
          exact .inl (membership_storeRun hr o h h' hk)
        | file name path =>
          obtain rfl := Deletion.repository.inj (List.mem_singleton.mp howner)
          exact file_storeRun hr o h h' hk
        | symbol name =>
          obtain rfl := Deletion.repository.inj (List.mem_singleton.mp howner)
          exact derived_storeRun hr o h h' rfl hk
        | reference name =>
          obtain rfl := Deletion.repository.inj (List.mem_singleton.mp howner)
          exact derived_storeRun hr o h h' rfl hk
        | edge name =>
          obtain rfl := Deletion.repository.inj (List.mem_singleton.mp howner)
          exact derived_storeRun hr o h h' rfl hk
    · exact .inl ((keepsOthers_storeRun hr o h).live hr h h' hk hcovers)

end Stored

theorem tracks_storeRun (h : Faithful s) (h' : Faithful s') {owner : Id} {now : Int}
    {run : Store.Run} {counts : Store.RunCounts} (hok : s.storeRun owner now run = .ok (counts, s'))
    (along : List Deletion) : Tracks along s s' := by
  obtain ⟨r, hr, rfl⟩ : ∃ r ∈ s.repositories, r.id = owner := by
    obtain ⟨o⟩ := h.toSound.storeRun_outcome hok
    exact ⟨o.repository, h.repositoryById?_eq_some.mp o.found⟩
  obtain ⟨o⟩ := h.toSound.storeRun_outcome hok
  exact tracks_outcome hr o h h' along

/-! Projects and their members -/

/-- Where only projects and memberships are lost, all other keys stay live. -/
theorem live_of_projects (hshrinks : Shrinks s s') (h : s.Sound) (h' : s'.Sound)
    (hrows : s'.repositories = s.repositories ∧ s'.files = s.files ∧ s'.symbols = s.symbols ∧
      s'.references = s.references ∧ s'.edges = s.edges) {k : Deletion} (hk : Live s k) :
    Live s' k ∨ (∃ name, k = .project name) ∨ ∃ project name, k = .membership project name := by
  obtain ⟨hrepositories, hfiles, hsymbols, hreferences, hedges⟩ := hrows
  obtain ⟨x, hx, rfl⟩ := hk
  have hsame := fun hrows => (mem_records_of_sameRows hshrinks.agrees h' h hrows).mp hx
  cases x with
  | repository y => exact .inl (live_of_mem (hsame hrepositories.symm))
  | file y => exact .inl (live_of_mem (hsame hfiles.symm))
  | symbol y => exact .inl (live_of_mem (hsame hsymbols.symm))
  | reference y => exact .inl (live_of_mem (hsame hreferences.symm))
  | edge y => exact .inl (live_of_mem (hsame hedges.symm))
  | project y => exact .inr (.inl ⟨y.name, rfl⟩)
  | membership y => exact .inr (.inr ⟨y.project, y.repository, rfl⟩)

theorem tracks_deleteProject (h : Faithful s) (name : String) :
    Tracks (keysBelow s (.project name)) s (s.deleteProject name).2 := by
  unfold Store.deleteProject
  split
  · exact .of_contains (Contains.refl s) h.toSound h.toSound rfl
  · next old hold =>
    have hshrinks := shrinks_removeProject s name
    have h' := h.toSound.removeProject name
    have hremoved : s.removeProject name =
        { s with
          projects := s.projects.filter fun x => x.name != name
          memberships := s.memberships.filter fun m => m.projectId != old.id } := by
      rw [Store.removeProject, hold]
    rw [hremoved] at hshrinks h' ⊢
    refine .of_enqueue (fun k hk howner => mem_keysBelow.mpr ⟨hk, howner⟩) rfl ?_
    intro k hk hcovers
    -- A project of another name is another row.
    have hother : ∀ {project : String} {p : ProjectRow}, project ≠ name →
        s.project? project = some p → p.id ≠ old.id ∧
          p ∈ s.projects.filter fun x => x.name != name := by
      intro project p hne hp
      obtain ⟨hmem, rfl⟩ := h.project?_eq_some.mp hp
      obtain ⟨hmemOld, rfl⟩ := h.project?_eq_some.mp hold
      refine ⟨fun hid => hne ?_, List.mem_filter.mpr ⟨hmem, by simpa using hne⟩⟩
      rw [Store.eq_of_key h.project_ids hmem hmemOld hid]
    rcases live_of_projects hshrinks h.toSound h' ⟨rfl, rfl, rfl, rfl, rfl⟩ hk with
      hlive | ⟨project, rfl⟩ | ⟨project, repository, rfl⟩
    · exact hlive
    · obtain ⟨p, hp⟩ := (live_project h.toSound).mp hk
      have hne : project ≠ name := by
        rintro rfl
        exact hcovers (.inl rfl)
      exact (live_project h').mpr ⟨p, h'.project?_eq_some.mpr
        ⟨(hother hne hp).2, (h.project?_eq_some.mp hp).2⟩⟩
    · obtain ⟨p, r, hp, hr, hm⟩ := (live_membership h.toSound).mp hk
      have hne : project ≠ name := by
        rintro rfl
        exact hcovers (.inr (by simp [Deletion.owners]))
      refine (live_membership h').mpr ⟨p, r, h'.project?_eq_some.mpr
        ⟨(hother hne hp).2, (h.project?_eq_some.mp hp).2⟩, hr, ?_⟩
      exact List.mem_filter.mpr ⟨hm, by simpa using (hother hne hp).1⟩

theorem tracks_removeFromProject (h : Faithful s) {project fullName : String} {found : Bool}
    (hok : s.removeFromProject project fullName = .ok (found, s')) (along : List Deletion) :
    Tracks along s s' := by
  rcases Store.removeFromProject_eq_ok hok with rfl | ⟨p, r, hp, hr, rfl⟩
  · exact .of_contains (Contains.refl _) h.toSound h.toSound rfl
  · have hshrinks := shrinks_filterMemberships s fun m => m != (⟨p.id, r.id⟩ : MembershipRow)
    have h' := h.toSound.filterMemberships fun m => m != (⟨p.id, r.id⟩ : MembershipRow)
    -- No row stands below a membership.
    refine .of_enqueue (fun k _ howner => nomatch Deletion.owners_of_mem howner) rfl ?_
    intro k hk hcovers
    rcases live_of_projects hshrinks h.toSound h' ⟨rfl, rfl, rfl, rfl, rfl⟩ hk with
      hlive | ⟨name, rfl⟩ | ⟨name, repository, rfl⟩
    · exact hlive
    · exact (live_project h').mpr ((live_project h.toSound).mp hk)
    · obtain ⟨p', r', hp', hr', hm⟩ := (live_membership h.toSound).mp hk
      refine (live_membership h').mpr ⟨p', r', hp', hr', List.mem_filter.mpr ⟨hm, ?_⟩⟩
      rw [bne_iff_ne]
      intro heq
      obtain ⟨hpid, hrid⟩ := MembershipRow.mk.inj heq
      obtain ⟨hpmem, rfl⟩ := h.project?_eq_some.mp hp
      obtain ⟨hpmem', rfl⟩ := h.project?_eq_some.mp hp'
      obtain ⟨hrmem, rfl⟩ := h.repository?_eq_some.mp hr
      obtain ⟨hrmem', rfl⟩ := h.repository?_eq_some.mp hr'
      apply hcovers
      rw [Store.eq_of_key h.project_ids hpmem' hpmem hpid,
        Store.eq_of_key h.repository_ids hrmem' hrmem hrid]
      exact .inl rfl

/-! The other operations -/

theorem tracks_upsertRepositoryAs (h : Exportable s) {id : Id} {d : Descriptor}
    {row : RepositoryRow} (hold : s.Old id) (hok : s.upsertRepositoryAs id d = .ok (row, s'))
    (along : List Deletion) : Tracks along s s' := by
  have h' := h.upsertRepositoryAs hold hok
  obtain ⟨rows, rfl, hmarks, -⟩ := Store.upsertRepositoryAs_eq_ok h.sound hok
  exact .of_contains { Contains.refl s with repositories := hmarks } h.sound h'.sound rfl

theorem tracks_freshId (h : s.Sound) (along : List Deletion) : Tracks along s s.freshId.2 :=
  .of_contains { Contains.refl s with } h h.freshId rfl

theorem tracks_index (h : Exportable s) {t : Files.Tree} {config : IndexConfig} {d : Descriptor}
    {listed : Option (List String)} {now : Int} {stats : IndexStats} (hnow : FitsI64 now)
    (ht : t.Countable) (hok : s.index t config d listed now = .ok (stats, s'))
    (along : List Deletion) : Tracks along s s' := by
  have h' := h.index hnow ht hok
  obtain ⟨root, row, s1, counts, hupsert, hrun⟩ := Store.index_stages hok
  have hold := (h.sound.repositoryId d.fullName).2
  have h1 := (h.repositoryId d.fullName).upsertRepositoryAs hold hupsert
  have hid : Tracks along s (Indexing.repositoryId s d.fullName).2 := by
    unfold Indexing.repositoryId
    split
    · exact .of_contains (Contains.refl s) h.sound h.sound rfl
    · exact tracks_freshId h.sound along
  have hput := tracks_upsertRepositoryAs (h.repositoryId d.fullName) hold hupsert along
  exact (hid.trans hput).trans (tracks_storeRun h1.faithful h'.faithful hrun along)

theorem tracks_createProject (h : Exportable s) {name : String} {description : Option String}
    {now : Int} {p : Store.Project} (hnow : FitsI64 now)
    (hok : s.createProject name description now = .ok (p, s')) (along : List Deletion) :
    Tracks along s s' := by
  have h' := h.createProject hnow hok
  obtain ⟨row, -, rfl⟩ := Store.createProject_eq_ok hok
  exact .of_contains { Contains.refl s with projects := List.subset_append_left _ _ } h.sound
    h'.sound rfl

theorem tracks_addToProject (h : Exportable s) {project fullName : String}
    (hok : s.addToProject project fullName = .ok s') (along : List Deletion) :
    Tracks along s s' := by
  have h' := h.addToProject hok
  obtain ⟨rows, rfl, hrows⟩ := Store.addToProject_eq_ok hok
  exact .of_contains { Contains.refl s with memberships := hrows } h.sound h'.sound rfl

end Sync

namespace Operation

/-- The keys of the rows that an operation takes along with a repository or a project. -/
def takenAlong (s : Store) : Operation → List Sync.Deletion
  | deleteRepository name => Sync.keysBelow s (.repository name)
  | deleteProject name => Sync.keysBelow s (.project name)
  | _ => []

/-- A store remembers what it loses by an operation of its own. -/
theorem tracks_run {s s' : Store} {op : Operation} (h : Sync.Exportable s) (hop : op.Local)
    (hok : op.run s = .ok s') : Sync.Tracks (op.takenAlong s) s s' := by
  cases op with
  | index t config d listed now =>
    obtain ⟨⟨stats, t⟩, hrun, rfl⟩ := Store.map_eq_ok.mp hok
    exact Sync.tracks_index h hop.1 hop.2 hrun []
  | upsertRepository d =>
    obtain ⟨⟨row, t⟩, hrun, rfl⟩ := Store.map_eq_ok.mp hok
    exact (Sync.tracks_freshId h.sound []).trans
      (Sync.tracks_upsertRepositoryAs h.freshId (Store.old_freshId s) hrun [])
  | deleteRepository fullName =>
    obtain rfl := Except.ok.inj hok
    exact Sync.tracks_deleteRepository h.faithful fullName
  | createProject name description now =>
    obtain ⟨p, hrun⟩ := Store.createProject_of_run hok
    exact Sync.tracks_createProject h hop hrun []
  | addToProject project fullName => exact Sync.tracks_addToProject h hok []
  | removeFromProject project fullName =>
    obtain ⟨⟨found, t⟩, hrun, rfl⟩ := Store.map_eq_ok.mp hok
    exact Sync.tracks_removeFromProject h.faithful hrun []
  | deleteProject name =>
    obtain rfl := Except.ok.inj hok
    exact Sync.tracks_deleteProject h.faithful name
  | _ => exact absurd hop id

end Operation

end CodeIndex
