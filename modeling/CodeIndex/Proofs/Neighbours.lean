import CodeIndex.Proofs.Store.Replacement
import CodeIndex.Proofs.Sync.Merge

/-!
Operations on one repository leave the others alone. All repositories share the tables, with equal
paths and names in several of them, but rows are cleared and written by their owner: a removal takes
the rows of one owner, a run writes rows of one owner, and what stands in a file belongs to the
owner of the file. So the rows of every other owner stay, in their order.
-/
namespace CodeIndex

namespace Store

/-- The rows that a repository owns, in the order of their tables. -/
structure Owned where
  files : List FileRow
  symbols : List SymbolRow
  references : List ReferenceRow
  edges : List EdgeRow
  deriving DecidableEq

def owned (s : Store) (id : Id) : Owned where
  files := s.files.filter fun f => f.repositoryId == id
  symbols := s.symbols.filter fun x => x.repositoryId == id
  references := s.references.filter fun x => x.repositoryId == id
  edges := s.edges.filter fun e => e.repositoryId == id

/-- The second store differs from the first one in one repository at most, and in memberships. -/
structure LeavesOthers (name : String) (s s' : Store) : Prop where
  repositories : (s'.repositories.filter fun r => r.fullName != name) =
    s.repositories.filter fun r => r.fullName != name
  owned : ∀ r ∈ s.repositories, r.fullName ≠ name → s'.owned r.id = s.owned r.id
  projects : s'.projects = s.projects

namespace LeavesOthers

variable {name : String} {s s' s'' : Store}

/-- Only the repository tables differ. -/
theorem of_repositories {rows : List RepositoryRow}
    (h : (rows.filter fun r => r.fullName != name) =
      s.repositories.filter fun r => r.fullName != name) :
    LeavesOthers name s { s with repositories := rows } :=
  ⟨h, fun _ _ _ => rfl, rfl⟩

theorem mem (h : LeavesOthers name s s') {r : RepositoryRow} (hr : r ∈ s.repositories)
    (hne : r.fullName ≠ name) : r ∈ s'.repositories := by
  have hkept : r ∈ s.repositories.filter fun r => r.fullName != name :=
    List.mem_filter.mpr ⟨hr, by simpa using hne⟩
  rw [← h.repositories] at hkept
  exact List.mem_of_mem_filter hkept

theorem trans (h : LeavesOthers name s s') (h' : LeavesOthers name s' s'') :
    LeavesOthers name s s'' where
  repositories := h'.repositories.trans h.repositories
  owned r hr hne := (h'.owned r (h.mem hr hne) hne).trans (h.owned r hr hne)
  projects := h'.projects.trans h.projects

end LeavesOthers

/-! Rows of another owner -/

section Rows

variable {α : Type} {rows others : List α} {own : α → Id} {owner other : Id}

/-- Rows that a change leaves as they are stay in their order. -/
theorem filter_map_of_kept {p : α → Bool} {f : α → α} (hp : ∀ a ∈ rows, p (f a) = p a)
    (hkept : ∀ a ∈ rows, p a = true → f a = a) : (rows.map f).filter p = rows.filter p := by
  induction rows with
  | nil => rfl
  | cons a rest ih =>
    have hrest := ih (fun b hb => hp b (List.mem_cons_of_mem _ hb))
      fun b hb => hkept b (List.mem_cons_of_mem _ hb)
    rw [List.map_cons, List.filter_cons, List.filter_cons, hp a List.mem_cons_self, hrest]
    split
    · next ha => rw [hkept a List.mem_cons_self ha]
    · rfl

theorem filter_others (hne : other ≠ owner) :
    ((others.filter fun a => own a != owner).filter fun a => own a == other) =
      others.filter fun a => own a == other := by
  rw [List.filter_filter]
  apply List.filter_congr
  intro a _
  by_cases ha : own a = other
  · simp [ha, hne]
  · simp [ha]

theorem filter_others_append (hne : other ≠ owner) (hrows : ∀ a ∈ rows, own a = owner) :
    (((others.filter fun a => own a != owner) ++ rows).filter fun a => own a == other) =
      others.filter fun a => own a == other := by
  have hnone : (rows.filter fun a => own a == other) = [] := by
    rw [List.filter_eq_nil_iff]
    intro a ha
    simpa [hrows a ha] using Ne.symm hne
  rw [List.filter_append, filter_others hne, hnone, List.append_nil]

end Rows

/-! Files -/

theorem filter_putFile {owner other : Id} (hne : other ≠ owner) (s : Store) (id : Id)
    (f : SourceFile) :
    ((s.putFile owner id f).files.filter fun x => x.repositoryId == other) =
      s.files.filter fun x => x.repositoryId == other := by
  rw [putFile_eq]
  split
  · refine filter_map_of_kept (fun x _ => ?_) fun x _ hx => if_neg ?_
    · split <;> rfl
    · simp [beq_iff_eq.mp hx, hne]
  · simp [fileRow, Ne.symm hne]

/-- Whatever the paths of a run, its files are written beside those of another repository. -/
theorem filter_putFiles {owner other : Id} (hne : other ≠ owner) (existing : FileIds) (s : Store)
    (ids : FileIds) (files : List SourceFile) :
    ((putFiles owner existing s ids files).1.files.filter fun x => x.repositoryId == other) =
      s.files.filter fun x => x.repositoryId == other := by
  induction files generalizing s ids with
  | nil => rfl
  | cons f rest ih => rw [putFiles_cons, ih, filter_putFile hne, runId_files]

/-! Runs -/

section Runs

variable {s s' : Store} {repositoryId : Id} {now : Int} {run : Run}

/-- A run takes files of its own repository alone. -/
theorem Outcome.filter_files (o : Outcome s repositoryId now run s') (h : s.Sound) {other : Id}
    (hne : other ≠ repositoryId) :
    (s'.files.filter fun f => f.repositoryId == other) =
      s.files.filter fun f => f.repositoryId == other := by
  have hkept : ∀ f ∈ (s.withFiles repositoryId run).1.files, f.repositoryId = other →
      f.id ∉ (s.lostFiles repositoryId run).map Prod.snd := by
    rintro f hf rfl hlost
    exact hne (h.mark_of_lost o.owner run hf hlost).2
  rw [o.files_eq, List.filter_filter]
  refine (List.filter_congr fun f hf => ?_).trans (filter_putFiles hne _ _ _ _)
  by_cases hown : f.repositoryId = other
  · simp [hown, hkept f hf hown]
  · simp [hown]

theorem Outcome.owned_of_ne (o : Outcome s repositoryId now run s') (h : s.Sound) {other : Id}
    (hne : other ≠ repositoryId) : s'.owned other = s.owned other := by
  unfold owned
  rw [o.filter_files h hne, o.symbols_eq, o.references_eq, o.edges_eq,
    filter_others_append hne o.symbolRows_own, filter_others_append hne o.referenceRows_own,
    filter_others_append hne o.edgeRows_own]

theorem Outcome.leavesOthers (o : Outcome s repositoryId now run s') (h : s.Sound) :
    LeavesOthers o.repository.fullName s s' := by
  obtain ⟨hmem, hid⟩ := h.repositoryById?_eq_some.mp o.found
  have hsame : ∀ r ∈ s.repositories, r.id = repositoryId → r = o.repository := fun r hr heq =>
    eq_of_key h.repository_ids hr hmem (heq.trans hid.symm)
  refine ⟨?_, fun r hr hne => o.owned_of_ne h fun heq => ?_, o.projects_eq⟩
  · rw [o.repositories_eq]
    refine filter_map_of_kept (fun r _ => ?_) fun r hr hother => if_neg fun hown => ?_
    · rw [noteTime]
      split <;> rfl
    · rw [hsame r hr (beq_iff_eq.mp hown)] at hother
      simp at hother
  · exact hne (congrArg RepositoryRow.fullName (hsame r hr heq))

/-! Operations -/

/-- Storing leaves the memberships alone too. -/
structure StoresOnly (name : String) (s s' : Store) : Prop extends LeavesOthers name s s' where
  memberships : s'.memberships = s.memberships

theorem StoresOnly.trans {name : String} {s'' : Store} (h : StoresOnly name s s')
    (h' : StoresOnly name s' s'') : StoresOnly name s s'' :=
  ⟨h.toLeavesOthers.trans h'.toLeavesOthers, h'.memberships.trans h.memberships⟩

theorem upsertRepositoryAs_storesOnly (h : s.Sound) {id : Id} {d : Descriptor}
    {row : RepositoryRow} (hok : s.upsertRepositoryAs id d = .ok (row, s')) :
    StoresOnly d.fullName s s' ∧ row ∈ s'.repositories ∧ row.fullName = d.fullName := by
  unfold upsertRepositoryAs at hok
  split at hok
  · next old hfound =>
    obtain ⟨hmem, hname⟩ := h.repository?_eq_some.mp hfound
    obtain ⟨rfl, rfl⟩ := Prod.mk.inj (Except.ok.inj hok)
    refine ⟨⟨.of_repositories (filter_map_of_kept (fun r _ => ?_) fun r _ hother => if_neg ?_),
      rfl⟩, List.mem_map.mpr ⟨old, hmem, if_pos (beq_iff_eq.mpr hname)⟩, hname⟩
    · split
      · next heq => simp [beq_iff_eq.mp heq, hname]
      · rfl
    · simpa using hother
  · split at hok
    · simp at hok
    · obtain ⟨rfl, rfl⟩ := Prod.mk.inj (Except.ok.inj hok)
      exact ⟨⟨.of_repositories (by simp), rfl⟩,
        List.mem_append_right _ (List.mem_singleton_self _), rfl⟩

theorem storeRun_storesOnly (h : s.Sound) {r : RepositoryRow}
    (hr : s.repositoryById? repositoryId = some r) {counts : RunCounts}
    (hok : s.storeRun repositoryId now run = .ok (counts, s')) : StoresOnly r.fullName s s' := by
  obtain ⟨o⟩ := h.storeRun_outcome hok
  have hsame : o.repository = r := Option.some.inj (o.found.symm.trans hr)
  exact ⟨hsame ▸ o.leavesOthers h, o.memberships_eq⟩

theorem storeRepository_storesOnly (h : s.Sound) {d : Descriptor} {id : Id} (hold : s.Old id)
    {out : RepositoryRow × RunCounts × Store}
    (hok : s.storeRepository d id now run = .ok out) : StoresOnly d.fullName s out.2.2 := by
  unfold Store.storeRepository at hok
  obtain ⟨⟨row, s1⟩, hupsert, hok⟩ := bind_eq_ok.mp hok
  obtain ⟨⟨counts, s2⟩, hrun, hok⟩ := bind_eq_ok.mp hok
  obtain rfl := Except.ok.inj hok
  have h1 := h.upsertRepositoryAs hold hupsert
  obtain ⟨hput, hmem, hname⟩ := upsertRepositoryAs_storesOnly h hupsert
  have hfound := h1.repositoryById?_eq_some.mpr ⟨hmem, rfl⟩
  exact hput.trans (hname ▸ storeRun_storesOnly h1 hfound hrun)

/-- Making an id changes no table. -/
theorem freshId_storesOnly (name : String) (s : Store) : StoresOnly name s s.freshId.2 :=
  ⟨⟨rfl, fun _ _ _ => rfl, rfl⟩, rfl⟩

theorem repositoryId_storesOnly (name fullName : String) (s : Store) :
    StoresOnly name s (Indexing.repositoryId s fullName).2 := by
  unfold Indexing.repositoryId
  split
  · exact ⟨⟨rfl, fun _ _ _ => rfl, rfl⟩, rfl⟩
  · exact freshId_storesOnly name s

/-- A deletion takes the memberships of its repository and no others. -/
theorem deleteRepository_leavesOthers (h : s.Sound) (name : String) :
    LeavesOthers name s (s.deleteRepository name).2 ∧
      (s.deleteRepository name).2.memberships =
        s.memberships.filter fun m => Sync.ownerOf s m.repositoryId != some name := by
  unfold deleteRepository
  split
  · next hnone =>
    refine ⟨⟨rfl, fun _ _ _ => rfl, rfl⟩, (List.filter_eq_self.mpr fun m _ => ?_).symm⟩
    rw [bne_iff_ne]
    intro howner
    obtain ⟨r, hr, rfl⟩ := Option.map_eq_some_iff.mp howner
    have hfound := h.repository?_eq_some.mpr ⟨List.mem_of_find?_eq_some hr, rfl⟩
    rw [hnone] at hfound
    simp at hfound
  · next r hr =>
    obtain ⟨hmem, hname⟩ := h.repository?_eq_some.mp hr
    rw [h.removeRepository_eq hr]
    refine ⟨⟨?_, fun x hx hne => ?_, rfl⟩, List.filter_congr fun m _ => ?_⟩
    · exact List.filter_filter.trans (by simp)
    · have hid : x.id ≠ r.id := fun heq => hne <| by
        rw [eq_of_key h.repository_ids hx hmem heq, hname]
      simp only [owned, enqueue, filter_others hid]
    · rw [Bool.eq_iff_iff, bne_iff_ne, bne_iff_ne, ne_eq, ne_eq, Sync.ownerOf_iff h hr]

/-- The target of a reference of another repository is known under its key as before. -/
theorem LeavesOthers.symbolKey? {name : String} (hothers : LeavesOthers name s s') (h : s.Sound)
    (h' : s'.Sound) {r : RepositoryRow} (hr : r ∈ s.repositories) (hne : r.fullName ≠ name)
    {x : ReferenceRow} (hx : x ∈ (s.owned r.id).references) :
    s'.symbolKey? x.targetSymbolId = s.symbolKey? x.targetSymbolId := by
  obtain ⟨hx, hown⟩ := List.mem_filter.mp hx
  cases htarget : x.targetSymbolId with
  | none => rfl
  | some i =>
    obtain ⟨y, hy, rfl, hyown⟩ := h.reference_target x hx i htarget
    obtain ⟨f, hf, hfid, hfown⟩ := h.symbol_file y hy
    have hyr : y.repositoryId = r.id := hyown.trans (beq_iff_eq.mp hown)
    have howned := hothers.owned r hr hne
    have hy' : y ∈ (s'.owned r.id).symbols :=
      howned ▸ List.mem_filter.mpr ⟨hy, beq_iff_eq.mpr hyr⟩
    have hf' : f ∈ (s'.owned r.id).files :=
      howned ▸ List.mem_filter.mpr ⟨hf, beq_iff_eq.mpr (hfown.trans hyr)⟩
    -- Both stores find the same symbol in the same file.
    have hkey : ∀ {u : Store}, u.Sound → y ∈ u.symbols → f ∈ u.files →
        u.symbolKey? (some y.id) = some ⟨f.path, y.name, y.lineStart⟩ := by
      intro u hu hyu hfu
      have hsymbol := hu.symbolById?_eq_some.mpr ⟨hyu, rfl⟩
      have hfile := hu.fileById?_eq_some.mpr ⟨hfu, hfid⟩
      simp [Store.symbolKey?, hsymbol, hfile]
    rw [hkey h hy hf, hkey h' (List.mem_of_mem_filter hy') (List.mem_of_mem_filter hf')]

end Runs

end Store

namespace Operation

open Store

/-- The full name of the one repository that an operation is about. -/
def repository? (s : Store) : Operation → Option String
  | storeRun repositoryId _ _ => Sync.ownerOf s repositoryId
  | storeRepository d _ _ _ | index _ _ d _ _ | upsertRepository d => some d.fullName
  | deleteRepository fullName => some fullName
  | _ => none

/-- The memberships that an operation on one repository leaves. -/
def keptMemberships (s : Store) : Operation → List MembershipRow
  | deleteRepository fullName =>
    s.memberships.filter fun m => Sync.ownerOf s m.repositoryId != some fullName
  | _ => s.memberships

theorem leavesOthers_run {s s' : Store} {op : Operation} {name : String} (h : s.Sound)
    (hallowed : op.Allowed s) (hname : op.repository? s = some name) (hok : op.run s = .ok s') :
    LeavesOthers name s s' ∧ s'.memberships = op.keptMemberships s := by
  cases op with
  | storeRun repositoryId now run =>
    obtain ⟨⟨counts, t⟩, hrun, rfl⟩ := map_eq_ok.mp hok
    obtain ⟨r, hr, rfl⟩ := Option.map_eq_some_iff.mp hname
    have honly := storeRun_storesOnly h hr hrun
    exact ⟨honly.toLeavesOthers, honly.memberships⟩
  | storeRepository d id now run =>
    obtain ⟨out, hrun, rfl⟩ := map_eq_ok.mp hok
    obtain rfl := Option.some.inj hname
    have honly := storeRepository_storesOnly h hallowed hrun
    exact ⟨honly.toLeavesOthers, honly.memberships⟩
  | index t config d listed now =>
    obtain ⟨⟨stats, u⟩, hrun, rfl⟩ := map_eq_ok.mp hok
    obtain rfl := Option.some.inj hname
    obtain ⟨root, out, -, hstore, rfl⟩ := index_eq_ok hrun
    obtain ⟨hs, hold⟩ := h.repositoryId d.fullName
    have honly := (repositoryId_storesOnly d.fullName d.fullName s).trans
      (storeRepository_storesOnly hs hold hstore)
    exact ⟨honly.toLeavesOthers, honly.memberships⟩
  | upsertRepository d =>
    obtain ⟨⟨row, t⟩, hrun, rfl⟩ := map_eq_ok.mp hok
    obtain rfl := Option.some.inj hname
    have honly := (freshId_storesOnly d.fullName s).trans
      (upsertRepositoryAs_storesOnly h.freshId hrun).1
    exact ⟨honly.toLeavesOthers, honly.memberships⟩
  | deleteRepository fullName =>
    obtain rfl := Except.ok.inj hok
    obtain rfl := Option.some.inj hname
    exact deleteRepository_leavesOthers h fullName
  | _ => simp [repository?] at hname

end Operation

/-- An operation on one repository that succeeds leaves every other repository alone: the rows of
the repositories, all rows that they own, in their order and with their ids and targets, the symbols
that their references name, and all projects. Of the memberships those of a deleted repository go. -/
theorem run_leaves_others {s s' : Store} (h : Reachable s) {op : Operation} {name : String}
    (hallowed : op.Allowed s) (hname : op.repository? s = some name) (hok : op.run s = .ok s') :
    Store.LeavesOthers name s s' ∧
      (∀ r ∈ s.repositories, r.fullName ≠ name → ∀ x ∈ (s.owned r.id).references,
        s'.symbolKey? x.targetSymbolId = s.symbolKey? x.targetSymbolId) ∧
      s'.memberships = op.keptMemberships s := by
  have hsound := op.sound_run h.sound hallowed hok
  obtain ⟨hothers, hmemberships⟩ := op.leavesOthers_run h.sound hallowed hname hok
  exact ⟨hothers, fun r hr hne x hx => hothers.symbolKey? h.sound hsound hr hne hx, hmemberships⟩

/-- Two repositories of one project with the same run: the deletion of one leaves the other. -/
theorem run_leaves_others_sample : ∃ s s' : Store, Reachable s ∧
    (Operation.deleteRepository "r").run s = .ok s' ∧
    s'.owned (.given "2") = s.owned (.given "2") ∧
    (s.owned (.given "1")).references.length = 1 ∧ (s.owned (.given "2")).references.length = 1 ∧
    s.memberships.length = 2 ∧ s'.memberships.length = 1 ∧ s'.projects.length = 1 := by
  have h : Reachable _ :=
    .step (.addToProject "p" "q") (.step (.addToProject "p" "r")
      (.step (.createProject "p" none 0)
        (.step (.storeRepository (.ofFullName "q" "") (.given "2") 0 Store.laterRun)
          (.step (.storeRepository (.ofFullName "r" "") (.given "1") 0 sampleRun) (.empty 0)
            (by intro n hn; cases hn) rfl)
          (by intro n hn; cases hn) rfl)
        trivial rfl) trivial rfl) trivial rfl
  obtain ⟨hothers, -, hmemberships⟩ :=
    @run_leaves_others _ _ h (.deleteRepository "r") _ trivial rfl rfl
  refine ⟨_, _, h, rfl, hothers.owned ⟨.given "2", "q", "q", none, "main", some 0⟩ ?_ (by decide),
    rfl, rfl, rfl, congrArg List.length hmemberships, congrArg List.length hothers.projects⟩
  exact List.mem_cons_of_mem _ List.mem_cons_self

end CodeIndex
