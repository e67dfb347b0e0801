import CodeIndex.Proofs.Operation
import CodeIndex.Proofs.Sync.Cascade

/-!
The order of a manifest does not matter. Every deletion leaves the store without the rows that its
key hits, removals of this kind are put together to one, and so the keys of a manifest leave the
store without the rows that go away with them, however they are ordered and repeated.
-/
namespace CodeIndex.Sync

open Store (dropTarget eq_of_key endGone symbolsGone)

/-- A store without some of its rows. A reference whose target goes away loses the target. -/
def without (s : Store) (gone : Row → Bool) : Store :=
  { s with
    repositories := s.repositories.filter fun r => !gone (.repository r)
    files := s.files.filter fun f => !gone (.file f)
    symbols := s.symbols.filter fun x => !gone (.symbol x)
    references := (s.references.filter fun x => !gone (.reference x)).map
      (dropTarget (s.symbolsGone fun x => gone (.symbol x)))
    edges := s.edges.filter fun e => !gone (.edge e)
    projects := s.projects.filter fun p => !gone (.project p)
    memberships := s.memberships.filter fun m => !gone (.membership m) }

variable {s : Store}

/-! Stores without some of their rows -/

section Without

variable {p q : Row → Bool}

theorem symbolsGone_congr (hpq : ∀ x ∈ s.symbols, p (.symbol x) = q (.symbol x)) :
    (s.symbolsGone fun x => p (.symbol x)) = s.symbolsGone fun x => q (.symbol x) :=
  congrArg (List.map SymbolRow.id) (List.filter_congr hpq)

/-- Only the rows of the store count. -/
theorem without_congr (hpq : ∀ row : Row, row.In s → p row = q row) :
    without s p = without s q := by
  have hfilter : ∀ {ρ : Type} {rows : List ρ} (row : ρ → Row), (∀ x ∈ rows, (row x).In s) →
      rows.filter (fun x => !p (row x)) = rows.filter fun x => !q (row x) := by
    intro ρ rows row hin
    exact List.filter_congr fun x hx => congrArg not (hpq (row x) (hin x hx))
  unfold without
  rw [symbolsGone_congr fun x hx => hpq (.symbol x) hx, hfilter .repository fun _ h => h,
    hfilter .file fun _ h => h, hfilter .symbol fun _ h => h, hfilter .reference fun _ h => h,
    hfilter .edge fun _ h => h, hfilter .project fun _ h => h, hfilter .membership fun _ h => h]

theorem without_false : without s (fun _ => false) = s := by
  have hgone : (s.symbolsGone fun _ => false) = [] := by simp [symbolsGone]
  have hdrop : s.references.map (dropTarget []) = s.references :=
    (List.map_congr_left fun x _ => Store.dropTarget_eq_self (by simp)).trans (List.map_id _)
  simp only [without, hgone, Bool.not_false, List.filter_true, hdrop]

theorem dropTarget_dropTarget (gone gone' : List Id) (x : ReferenceRow) :
    dropTarget gone' (dropTarget gone x) = dropTarget (gone ++ gone') x := by
  unfold dropTarget
  cases hx : x.targetSymbolId with
  | none => simp [hx]
  | some i => by_cases hi : i ∈ gone <;> simp [hx, hi]

theorem dropTarget_congr {gone gone' : List Id} (h : ∀ i, i ∈ gone ↔ i ∈ gone')
    (x : ReferenceRow) : dropTarget gone x = dropTarget gone' x := by
  unfold dropTarget
  cases hx : x.targetSymbolId with
  | none => rfl
  | some i => simp [h i]

/-- The removals from a store and from what they leave are one removal. -/
theorem without_without
    (hq : ∀ gone x, q (.reference (dropTarget gone x)) = q (.reference x)) :
    without (without s p) q = without s fun row => p row || q row := by
  have hfilter : ∀ {ρ : Type} (rows : List ρ) (row : ρ → Row),
      (rows.filter fun x => !p (row x)).filter (fun x => !q (row x)) =
        rows.filter fun x => !(p (row x) || q (row x)) := by
    intro ρ rows row
    rw [List.filter_filter]
    exact List.filter_congr fun x _ => by rw [Bool.not_or, Bool.and_comm]
  have hgone : ∀ i, i ∈ (s.symbolsGone fun x => p (.symbol x)) ++
      ((without s p).symbolsGone fun x => q (.symbol x)) ↔
        i ∈ s.symbolsGone fun x => p (.symbol x) || q (.symbol x) := by
    intro i
    simp only [symbolsGone, without, List.mem_append, List.mem_map, List.mem_filter]
    grind
  have hreferences : ((s.references.filter fun x => !p (.reference x)).map
      (dropTarget (s.symbolsGone fun x => p (.symbol x)))).filter (fun x => !q (.reference x)) =
        (s.references.filter fun x => !(p (.reference x) || q (.reference x))).map
          (dropTarget (s.symbolsGone fun x => p (.symbol x))) := by
    rw [List.filter_map, ← hfilter]
    refine congrArg _ (List.filter_congr fun x _ => ?_)
    rw [Function.comp_apply, hq]
  have htargets : ((s.references.filter fun x => !(p (.reference x) || q (.reference x))).map
      (dropTarget (s.symbolsGone fun x => p (.symbol x)))).map
        (dropTarget ((without s p).symbolsGone fun x => q (.symbol x))) =
      (s.references.filter fun x => !(p (.reference x) || q (.reference x))).map
        (dropTarget (s.symbolsGone fun x => p (.symbol x) || q (.symbol x))) := by
    rw [List.map_map]
    refine List.map_congr_left fun x _ => ?_
    rw [Function.comp_apply, dropTarget_dropTarget, dropTarget_congr hgone]
  rw [without, without.eq_1 s fun row => p row || q row]
  congr 1
  · exact hfilter _ .repository
  · exact hfilter _ .file
  · exact hfilter _ .symbol
  · exact (congrArg _ hreferences).trans htargets
  · exact hfilter _ .edge
  · exact hfilter _ .project
  · exact hfilter _ .membership

end Without

/-! Single deletions -/

/-- A removal of symbols takes the edges that end there with them. -/
theorem removeSymbols_eq_without (test : SymbolRow → Bool) :
    s.removeSymbols test = without s fun
      | .symbol x => test x
      | .edge e =>
        endGone (s.symbolsGone test) e.fromSymbolId || endGone (s.symbolsGone test) e.toSymbolId
      | _ => false := by
  simp only [Store.removeSymbols, without, Bool.not_or, Bool.not_false, List.filter_true]
  rfl

/-- A removal of files takes what stands in them and the edges that end there with them. -/
theorem removeFiles_eq_without (test : FileRow → Bool) :
    s.removeFiles test = without s fun
      | .file f => test f
      | .symbol x => (s.filesGone test).contains x.fileId
      | .reference x => (s.filesGone test).contains x.fileId
      | .edge e =>
        let symbols := s.symbolsGone fun x => (s.filesGone test).contains x.fileId
        (endGone symbols e.fromSymbolId || endGone symbols e.toSymbolId) ||
          (endGone (s.filesGone test) e.fromFileId || endGone (s.filesGone test) e.toFileId)
      | _ => false := by
  have hreferences : ∀ gone gone' : List Id, (s.references.map (dropTarget gone)).filter
      (fun x => !gone'.contains x.fileId) =
        (s.references.filter fun x => !gone'.contains x.fileId).map (dropTarget gone) := by
    intro gone gone'
    rw [List.filter_map]
    refine congrArg _ (List.filter_congr fun x _ => ?_)
    rw [Function.comp_apply, Store.dropTarget_fileId]
  have hedges : ∀ a b : EdgeRow → Bool, (s.edges.filter fun e => !a e).filter (fun e => !b e) =
      s.edges.filter fun e => !(a e || b e) := by
    intro a b
    rw [List.filter_filter]
    exact List.filter_congr fun e _ => by rw [Bool.not_or, Bool.and_comm]
  rw [Store.removeFiles_eq, Store.aboveFiles, removeSymbols_eq_without]
  simp only [without, Bool.not_false, List.filter_true, ← Bool.not_or, hedges, hreferences]

theorem removeRepository_eq_without (h : s.Sound) {name : String} {r : RepositoryRow}
    (hr : s.repository? name = some r) :
    s.removeRepository name = without s fun
      | .repository x => x.fullName == name
      | .file f => f.repositoryId == r.id
      | .symbol x => x.repositoryId == r.id
      | .reference x => x.repositoryId == r.id
      | .edge e => e.repositoryId == r.id
      | .project _ => false
      | .membership m => m.repositoryId == r.id := by
  -- The references that stay have no target among the symbols that go.
  have hsame : (s.references.filter fun x => !(x.repositoryId == r.id)).map
      (dropTarget (s.symbolsGone fun x => x.repositoryId == r.id)) =
        s.references.filter fun x => !(x.repositoryId == r.id) := by
    refine (List.map_congr_left fun x hx => ?_).trans (List.map_id _)
    obtain ⟨hmem, hne⟩ := List.mem_filter.mp hx
    exact dropTarget_of_other h hmem (by simpa using hne)
  rw [h.removeRepository_eq hr]
  simp only [without, Bool.not_false, List.filter_true, hsame]
  rfl

/-- Rows below which nothing stands but memberships. -/
theorem eq_without_of_leaves (references : ReferenceRow → Bool) (edges : EdgeRow → Bool)
    (projects : ProjectRow → Bool) (memberships : MembershipRow → Bool) :
    { s with
      references := s.references.filter fun x => !references x
      edges := s.edges.filter fun e => !edges e
      projects := s.projects.filter fun p => !projects p
      memberships := s.memberships.filter fun m => !memberships m } =
    without s fun
      | .reference x => references x
      | .edge e => edges e
      | .project p => projects p
      | .membership m => memberships m
      | _ => false := by
  have hgone : (s.symbolsGone fun _ => false) = [] := by simp [symbolsGone]
  have hdrop : ∀ rows : List ReferenceRow, rows.map (dropTarget []) = rows := fun rows =>
    (List.map_congr_left fun x _ => Store.dropTarget_eq_self (by simp)).trans (List.map_id _)
  simp only [without, hgone, hdrop, Bool.not_false, List.filter_true]

/-- A deletion removes rows. -/
theorem exists_apply_eq_without (h : s.Sound) (d : Deletion) :
    ∃ gone, (d.apply s).1 = without s gone := by
  have hself : ∃ gone, s = without s gone := ⟨_, without_false.symm⟩
  have hnone : ∀ {ρ : Type} (rows : List ρ), (rows.filter fun _ => !false) = rows :=
    fun rows => List.filter_true rows
  cases d with
  | repository name =>
    cases hr : s.repository? name with
    | none => simpa [Deletion.apply, hr] using hself
    | some r =>
      have heq := removeRepository_eq_without h hr
      exact ⟨_, by rw [← heq, Deletion.apply, hr]⟩
  | file repo path =>
    cases hf : file? s repo path with
    | none => simpa [Deletion.apply, hf] using hself
    | some f =>
      have heq := removeFiles_eq_without (s := s) fun x => x.id == f.id
      exact ⟨_, by rw [← heq, Deletion.apply, hf]⟩
  | symbol repo filePath name line =>
    cases hx : symbol? s repo ⟨filePath, name, line⟩ with
    | none => simpa [Deletion.apply, hx] using hself
    | some x =>
      have heq := removeSymbols_eq_without (s := s) fun y => y.id == x.id
      exact ⟨_, by rw [← heq, Deletion.apply, hx]⟩
  | reference repo filePath line column kind name =>
    cases hf : file? s repo filePath with
    | none => simpa [Deletion.apply, hf] using hself
    | some f =>
      have heq := eq_without_of_leaves (s := s)
        (fun r => r.fileId == f.id && r.line == line && r.column == column
          && r.kind.name == kind && r.name == name)
        (fun _ => false) (fun _ => false) fun _ => false
      simp only [hnone] at heq
      exact ⟨_, by rw [← heq, Deletion.apply, hf]⟩
  | edge repo key =>
    cases hr : s.repository? repo with
    | none => simpa [Deletion.apply, hr] using hself
    | some r =>
      have heq := eq_without_of_leaves (s := s) (fun _ => false)
        (fun e => e.repositoryId == r.id && e.key == key) (fun _ => false) fun _ => false
      simp only [hnone] at heq
      exact ⟨_, by rw [← heq, Deletion.apply, hr]⟩
  | project name =>
    cases hp : s.project? name with
    | none => simpa [Deletion.apply, hp] using hself
    | some p =>
      have heq := eq_without_of_leaves (s := s) (fun _ => false) (fun _ => false)
        (fun x => x.name == name) fun m => m.projectId == p.id
      simp only [hnone] at heq
      refine ⟨_, Eq.trans ?_ heq⟩
      rw [Deletion.apply, hp]
      simp only [Store.removeProject, hp]
      rfl
  | membership proj repo =>
    cases hp : s.project? proj with
    | none => simpa [Deletion.apply, hp] using hself
    | some p =>
      cases hr : s.repository? repo with
      | none => simpa [Deletion.apply, hp, hr] using hself
      | some r =>
        have heq := eq_without_of_leaves (s := s) (fun _ => false) (fun _ => false)
          (fun _ => false) fun m => m.projectId == p.id && m.repositoryId == r.id
        simp only [hnone] at heq
        exact ⟨_, by rw [← heq, Deletion.apply, hp, hr]⟩

theorem hits_dropTarget (gone : List Id) (x : ReferenceRow) {d : Deletion} :
    Hits s d (.reference (dropTarget gone x)) ↔ Hits s d (.reference x) := by
  unfold dropTarget
  split
  · simp [Hits, Row.record?, referenceRecord?, Row.keyWith, Record.key, Record.above]
  · rfl

section Apply

variable (h : s.Sound)
include h

/-- References that differ by lost targets only are the same row. -/
theorem eq_of_dropTarget {gone gone' : List Id} {x y : ReferenceRow} (hx : x ∈ s.references)
    (hy : y ∈ s.references) (heq : dropTarget gone x = dropTarget gone' y) : x = y := by
  refine eq_of_key h.use_places hx hy ?_
  rw [← Store.dropTarget_usePlace gone x, heq, Store.dropTarget_usePlace]

/-- A row goes away with a deletion exactly when the key hits it. -/
theorem gone_iff_hits_of_apply {d : Deletion} {gone : Row → Bool}
    (heq : (d.apply s).1 = without s gone) {row : Row} (hrow : row.In s) :
    gone row = true ↔ Hits s d row := by
  obtain ⟨files, symbols, hp⟩ := prunes_apply h d
  rw [heq] at hp
  have hfilter : ∀ {ρ : Type} {rows : List ρ} {x : ρ} (row : ρ → Row), x ∈ rows →
      (¬gone (row x) = true ↔ x ∈ rows.filter fun x => !gone (row x)) := by
    intro ρ rows x row hx
    simp [List.mem_filter, hx]
  rw [← not_iff_not]
  cases row with
  | repository r =>
    rw [hits_repository]
    exact (hfilter .repository hrow).trans (hp.repository_kept r hrow)
  | project p =>
    rw [hits_project]
    exact (hfilter .project hrow).trans (hp.project_kept p hrow)
  | file f =>
    obtain ⟨y, hy⟩ := exists_fileRecord? h hrow
    rw [hits_of_record? (y := .file y) (by rw [Row.record?, hy]; rfl)]
    exact (hfilter .file hrow).trans (hp.file_kept_iff h hrow hy)
  | symbol x =>
    obtain ⟨y, hy⟩ := exists_symbolRecord? h hrow
    rw [hits_of_record? (y := .symbol y) (by rw [Row.record?, hy]; rfl)]
    exact (hfilter .symbol hrow).trans (hp.symbol_kept_iff h hrow hy)
  | reference x =>
    obtain ⟨y, hy⟩ := exists_referenceRecord? h hrow
    rw [hits_of_record? (y := .reference y) (by rw [Row.record?, hy]; rfl)]
    refine Iff.trans ?_ (hp.reference_kept_iff hrow hy)
    constructor
    · intro hstays
      have hmem := List.mem_map_of_mem (f := dropTarget (s.symbolsGone fun x => gone (.symbol x)))
        ((hfilter .reference hrow).mp hstays)
      obtain ⟨x', hx', heq'⟩ := hp.reference_from _ hmem
      obtain rfl := eq_of_dropTarget h hrow hx' heq'
      rw [← heq']
      exact hmem
    · intro hmem
      obtain ⟨x', hx', heq'⟩ := List.mem_map.mp hmem
      rw [← eq_of_dropTarget h (List.mem_of_mem_filter hx') hrow heq']
      exact (hfilter .reference (List.mem_of_mem_filter hx')).mpr hx'
  | edge e =>
    obtain ⟨y, hy⟩ := exists_edgeRecord? h hrow
    rw [hits_edge hy]
    exact (hfilter .edge hrow).trans (hp.edge_kept_iff h hrow hy)
  | membership m =>
    obtain ⟨y, hy⟩ := exists_membershipRecord? h hrow
    rw [hits_membership hy]
    exact (hfilter .membership hrow).trans (hp.membership_kept m hrow y hy)

end Apply

open Classical in
theorem apply_eq_without (h : s.Sound) (d : Deletion) :
    (d.apply s).1 = without s fun row => Hits s d row := by
  obtain ⟨gone, heq⟩ := exists_apply_eq_without h d
  rw [heq]
  refine without_congr fun row hrow => ?_
  rw [Bool.eq_iff_iff, gone_iff_hits_of_apply h heq hrow, decide_eq_true_iff]

/-! Rows of what is left -/

theorem agrees_without {gone : Row → Bool} : Agrees (without s gone) s :=
  ⟨List.map_subset _ (List.filter_subset_self _), List.map_subset _ (List.filter_subset_self _),
    List.map_subset _ (List.filter_subset_self _), List.map_subset _ (List.filter_subset_self _)⟩

/-- What is left of a store has the keys that it had. -/
theorem hits_without (h : s.Sound) {gone : Row → Bool} (h' : (without s gone).Sound) {d : Deletion}
    {row : Row} (hrow : row.In s) (hstays : gone row = false) :
    Hits (without s gone) d row ↔ Hits s d row := by
  have ha : Agrees (without s gone) s := agrees_without
  have hfilter : ∀ {ρ : Type} {rows : List ρ} {x : ρ} (row : ρ → Row), x ∈ rows →
      gone (row x) = false → x ∈ rows.filter fun x => !gone (row x) := by
    intro ρ rows x row hx hgone
    simp [List.mem_filter, hx, hgone]
  cases row with
  | repository r => rw [hits_repository, hits_repository]
  | project p => rw [hits_project, hits_project]
  | file f =>
    rw [Hits, Hits, Row.record?, Row.record?, ha.fileRecord? h' h (hfilter .file hrow hstays)]
  | symbol x =>
    rw [Hits, Hits, Row.record?, Row.record?, ha.symbolRecord? h' h (hfilter .symbol hrow hstays)]
  | reference x =>
    have hmem : dropTarget (s.symbolsGone fun x => gone (.symbol x)) x ∈
        (without s gone).references :=
      List.mem_map_of_mem (hfilter .reference hrow hstays)
    obtain ⟨home, hhome⟩ := exists_fileHome? h (h.reference_file x hrow)
    have hhome' : fileHome? (without s gone) x.fileId = some home := by
      rw [← ha.fileHome? h' h (Store.dropTarget_fileId _ x ▸ h'.reference_file _ hmem), hhome]
    rw [hits_reference hhome, hits_reference hhome']
  | edge e =>
    rw [Hits, Hits, Row.record?, Row.record?, ha.edgeRecord? h' h (hfilter .edge hrow hstays)]
  | membership m =>
    rw [Hits, Hits, Row.record?, Row.record?,
      ha.membershipRecord? h' h (hfilter .membership hrow hstays)]

open Classical in
/-- The keys of a manifest, applied in turn, take away the rows that one of them hits. -/
theorem applyDeletions_eq_without_hits (h : s.Sound) (keys : List Deletion) :
    (applyDeletions s keys).1 = without s fun row => ∃ d ∈ keys, Hits s d row := by
  rw [applyDeletions_fst]
  induction keys generalizing s with
  | nil => simp [without_false]
  | cons d rest ih =>
    have h' := Sound.applyDeletion h d
    rw [List.foldl_cons, ih h']
    rw [apply_eq_without h d] at h' ⊢
    rw [without_without]
    · refine without_congr fun row hrow => ?_
      rw [Bool.eq_iff_iff, Bool.or_eq_true, decide_eq_true_iff, decide_eq_true_iff,
        decide_eq_true_iff, List.exists_mem_cons_iff]
      by_cases hhits : Hits s d row
      · simp [hhits]
      · simp only [hhits, hits_without h h' hrow (decide_eq_false hhits)]
    · intro gone x
      simp only [hits_dropTarget]

open Classical in
/-- The keys of a manifest take away the rows that they name and the rows that go away with these.
References whose target goes away lose it, and nothing else changes. The order of the keys and how
often each is listed do not count. -/
theorem applyDeletions_eq_without (h : s.Sound) (keys : List Deletion) :
    (applyDeletions s keys).1 = (without s fun row => Gone s keys row) ∧
      ∀ keys', (∀ k, k ∈ keys' ↔ k ∈ keys) →
        (applyDeletions s keys').1 = (applyDeletions s keys).1 := by
  constructor
  · rw [applyDeletions_eq_without_hits h]
    exact without_congr fun row hrow => decide_eq_decide.mpr (gone_iff_hits h hrow).symm
  · intro keys' hkeys
    rw [applyDeletions_eq_without_hits h, applyDeletions_eq_without_hits h]
    simp only [hkeys]

/-- A symbol and a membership are deleted: the reference to the symbol loses its target, the edge
that ends in the symbol goes away and the edge between files stays. -/
theorem applyDeletions_eq_without_sample : ∃ s : Store, s.Sound ∧
    (applyDeletions s [.symbol "r" "a.ts" "f" 1, .membership "p" "r"]).1 =
      (applyDeletions s [.membership "p" "r", .symbol "r" "a.ts" "f" 1, .membership "p" "r"]).1 ∧
    s.edges.length = 2 ∧
    s.references.map (fun x => x.targetSymbolId.isSome) = [true] ∧
    let s' := (applyDeletions s [.symbol "r" "a.ts" "f" 1, .membership "p" "r"]).1
    s'.files.length = 1 ∧ s'.symbols = [] ∧ s'.edges.length = 1 ∧ s'.memberships = [] ∧
      s'.references.map (fun x => x.targetSymbolId.isSome) = [false] := by
  have h : Reachable _ :=
    .step (.addToProject "p" "r") (.step (.createProject "p" none 0)
      (.step (.storeRepository (.ofFullName "r" "") (.given "1") 0 sampleRun) (.empty 0)
        (by intro n hn; cases hn) rfl) trivial rfl) trivial rfl
  refine ⟨_, h.sound, ?_, rfl, rfl, rfl, rfl, rfl, rfl, rfl⟩
  exact (applyDeletions_eq_without h.sound _).2 _ (by simp [or_comm])

end CodeIndex.Sync
