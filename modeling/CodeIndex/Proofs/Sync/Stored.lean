import CodeIndex.Proofs.Store.Replacement
import CodeIndex.Proofs.Sync.Ranges

/-!
What storing a run does to the content of a store. The rows of other repositories stay as they are;
a key of the repository that is not live any more is queued. A run whose hashes and numbers are in
order leaves a store that can be exported.
-/
namespace CodeIndex.Sync

open Store (Run Outcome fileMark filePlace sourceOf firstsBy putFiles putFile noteTime)

variable {s s' : Store}

/-! Stores that only grow -/

/-- The second store has all rows of the first one; a repository may have changed in what does not
identify it. -/
structure Contains (s s' : Store) : Prop where
  repositories : s.repositories.map repositoryMark ⊆ s'.repositories.map repositoryMark
  files : s.files ⊆ s'.files
  symbols : s.symbols ⊆ s'.symbols
  references : s.references ⊆ s'.references
  edges : s.edges ⊆ s'.edges
  projects : s.projects ⊆ s'.projects
  memberships : s.memberships ⊆ s'.memberships

namespace Contains

theorem refl (s : Store) : Contains s s :=
  ⟨List.Subset.refl _, List.Subset.refl _, List.Subset.refl _, List.Subset.refl _,
    List.Subset.refl _, List.Subset.refl _, List.Subset.refl _⟩

theorem agrees (h : Contains s s') : Agrees s s' :=
  ⟨h.repositories, List.map_subset _ h.files, List.map_subset _ h.symbols,
    List.map_subset _ h.projects⟩

/-- What was live stays live. -/
theorem live (h : Contains s s') (hs : s.Sound) (hs' : s'.Sound) {k : Deletion} (hk : Live s k) :
    Live s' k := by
  obtain ⟨x, hx, rfl⟩ := hk
  have hrow := mem_records.mp hx
  cases x with
  | repository y =>
    obtain ⟨r, hr, rfl⟩ := hrow
    obtain ⟨r', hr', hmark⟩ := List.mem_map.mp (h.repositories (List.mem_map_of_mem hr))
    refine (live_repository hs').mpr ⟨r', hs'.repository?_eq_some.mpr ⟨hr', ?_⟩⟩
    exact congrArg Prod.snd hmark
  | file y =>
    obtain ⟨f, hf, hy⟩ := hrow
    rw [← h.agrees.fileRecord? hs hs' hf] at hy
    exact live_of_mem (mem_records.mpr ⟨f, h.files hf, hy⟩ : .file y ∈ records s')
  | symbol y =>
    obtain ⟨x, hx, hy⟩ := hrow
    rw [← h.agrees.symbolRecord? hs hs' hx] at hy
    exact live_of_mem (mem_records.mpr ⟨x, h.symbols hx, hy⟩ : .symbol y ∈ records s')
  | reference y =>
    obtain ⟨x, hx, hy⟩ := hrow
    rw [← h.agrees.referenceRecord? hs hs' hx] at hy
    exact live_of_mem (mem_records.mpr ⟨x, h.references hx, hy⟩ : .reference y ∈ records s')
  | edge y =>
    obtain ⟨e, he, hy⟩ := hrow
    rw [← h.agrees.edgeRecord? hs hs' he] at hy
    exact live_of_mem (mem_records.mpr ⟨e, h.edges he, hy⟩ : .edge y ∈ records s')
  | project y =>
    obtain ⟨p, hp, hy⟩ := hrow
    exact live_of_mem (mem_records.mpr ⟨p, h.projects hp, hy⟩ : .project y ∈ records s')
  | membership y =>
    obtain ⟨m, hm, hy⟩ := hrow
    rw [← h.agrees.membershipRecord? hs hs' hm] at hy
    exact live_of_mem (mem_records.mpr ⟨m, h.memberships hm, hy⟩ : .membership y ∈ records s')

end Contains

/-! Other repositories -/

theorem exists_of_forall₂ {α β : Type} {R : α → β → Prop} {rows : List α} {xs : List β}
    (h : List.Forall₂ R rows xs) {a : α} (ha : a ∈ rows) : ∃ b ∈ xs, R a b := by
  induction h with
  | nil => exact absurd ha List.not_mem_nil
  | cons hab _ ih =>
    rcases List.mem_cons.mp ha with rfl | ha
    · exact ⟨_, List.mem_cons_self, hab⟩
    · obtain ⟨b, hb, hab⟩ := ih ha
      exact ⟨b, List.mem_cons_of_mem _ hb, hab⟩

theorem Faithful.withoutOwn (h : Faithful s) (owner : Id) : Faithful (withoutOwn s owner) :=
  ((shrinks_removeDerived s owner).trans (shrinks_removeFiles _ _)).faithful h
    ((h.toSound.removeDerived owner).removeFiles _)

section Stored

variable {owner : Id} {now : Int} {run : Run} (o : Outcome s owner now run s') (h : s.Sound)
include o h

/-- The rows of other repositories stay. -/
theorem contains_withoutOwn : Contains (withoutOwn s owner) s' := by
  rw [withoutOwn_eq h]
  refine ⟨?_, ?_, ?_, ?_, ?_, ?_, ?_⟩
  · rw [o.repositories_eq, Store.map_key_map]
    · exact List.Subset.refl _
    · intro r _
      rw [noteTime]
      split <;> rfl
  · intro f hf
    obtain ⟨hmem, hown⟩ := List.mem_filter.mp hf
    have hne : f.repositoryId ≠ owner := by simpa using hown
    have hstart : f ∈ (s.removeDerived owner).files := hmem
    have hput : f ∈ (s.withFiles owner run).1.files :=
      Store.mem_putFiles_of_ne hstart fun g _ heq => hne (congrArg Prod.fst heq)
    rw [o.files_eq, List.mem_filter]
    refine ⟨hput, ?_⟩
    by_contra hlost
    exact hne (h.mark_of_lost o.owner run hput (by simpa using hlost)).2
  · rw [o.symbols_eq]
    exact List.subset_append_left _ _
  · rw [o.references_eq]
    exact List.subset_append_left _ _
  · rw [o.edges_eq]
    exact List.subset_append_left _ _
  · rw [o.projects_eq]
    exact List.Subset.refl _
  · rw [o.memberships_eq]
    exact List.Subset.refl _

/-- An edge of another repository was there before and has the same ends. -/
theorem edge_of_other {e : EdgeRow} (he : e ∈ s'.edges) (hown : e.repositoryId ≠ owner) :
    e ∈ (withoutOwn s owner).edges ∧ s'.edgeOf "" e = (withoutOwn s owner).edgeOf "" e := by
  have hold : e ∈ (withoutOwn s owner).edges := by
    rw [withoutOwn_eq h]
    rw [o.edges_eq] at he
    rcases List.mem_append.mp he with he | he
    · exact he
    · exact absurd (o.edgeRows_own e he) hown
  have hbelow : (withoutOwn s owner).Sound := (h.removeDerived owner).removeFiles _
  exact ⟨hold, (contains_withoutOwn o h).agrees.edgeEnds hbelow o.written.sound hold⟩

omit h in
/-- An edge of the repository has the key of an edge of the run and what the store keeps of it. -/
theorem edge_of_own {e : EdgeRow} (he : e ∈ s'.edges) (hown : e.repositoryId = owner) :
    ∃ x ∈ run.edges, x.key = e.key ∧ s'.edgeOf "" e = run.storedEdge "" x := by
  have hread : (e.key, s'.edgeOf owner.text e) ∈ (firstsBy Edge.key [] run.edges).map
      fun x => (x.key, run.storedEdge owner.text x) := by
    rw [← o.edges_read]
    exact List.mem_map_of_mem (List.mem_filter.mpr ⟨he, by simpa using hown⟩)
  obtain ⟨x, hx, heq⟩ := List.mem_map.mp hread
  obtain ⟨hkey, hedge⟩ := Prod.mk.inj heq
  refine ⟨x, Store.mem_of_mem_firstsBy hx, hkey, ?_⟩
  exact congrArg (fun y : Edge => { y with repositoryId := "" }) hedge.symm

end Stored

/-! Files and numbers -/

/-- What a run must have in order for a store to stay faithful and in range. -/
structure Run.Fits (run : Run) : Prop where
  hashes : ∀ f ∈ run.files, Digest.Sha256.hex f.content = f.contentHash
  files : ∀ f ∈ run.files, f.size < 2 ^ 64 ∧ FitsI64 f.indexedAt
  symbols : ∀ x ∈ run.symbols, x.lineStart < 2 ^ 32 ∧ x.lineEnd < 2 ^ 32
  references : ∀ r ∈ run.references,
    r.line < 2 ^ 32 ∧ r.column < 2 ^ 32 ∧ ∀ e ∈ r.metadata.enclosing, e.line < 2 ^ 32
  edge_symbols : ∀ e ∈ run.edges, ∀ key, e.fromSymbol = some key ∨ e.toSymbol = some key →
    key ∈ run.symbols.map Symbol.key

/-- The numbers of a run lie in their ranges. -/
structure Run.InRange (run : Run) : Prop where
  files : ∀ f ∈ run.files, f.size < 2 ^ 64 ∧ FitsI64 f.indexedAt
  symbols : ∀ x ∈ run.symbols, x.lineStart < 2 ^ 32 ∧ x.lineEnd < 2 ^ 32
  references : ∀ r ∈ run.references,
    r.line < 2 ^ 32 ∧ r.column < 2 ^ 32 ∧ ∀ e ∈ r.metadata.enclosing, e.line < 2 ^ 32

theorem Run.Fits.inRange {run : Run} (h : Run.Fits run) : Run.InRange run :=
  ⟨h.files, h.symbols, h.references⟩

theorem source_mem_putFile {repositoryId id : Id} {f : SourceFile} {row : FileRow}
    (hrow : row ∈ (s.putFile repositoryId id f).files) : row ∈ s.files ∨ sourceOf row = f := by
  rw [Store.putFile_eq] at hrow
  split at hrow
  · obtain ⟨old, hold, rfl⟩ := List.mem_map.mp hrow
    split
    · next hplace =>
      simp only [Bool.and_eq_true, beq_iff_eq] at hplace
      right
      simp [sourceOf, Store.overwrite, hplace]
    · exact .inl hold
  · rcases List.mem_append.mp hrow with hrow | hrow
    · exact .inl hrow
    · rw [List.mem_singleton.mp hrow]
      exact .inr rfl

/-- A file row is one from before or was written from a file of the run. -/
theorem source_mem_putFiles {repositoryId : Id} {existing ids : Store.FileIds}
    {files : List SourceFile} {row : FileRow}
    (hrow : row ∈ (putFiles repositoryId existing s ids files).1.files) :
    row ∈ s.files ∨ sourceOf row ∈ files := by
  induction files generalizing s ids with
  | nil => exact .inl hrow
  | cons f rest ih =>
    rw [Store.putFiles_cons] at hrow
    rcases ih hrow with hrow | hsource
    · rcases source_mem_putFile hrow with hrow | rfl
      · rw [Store.runId_files] at hrow
        exact .inl hrow
      · exact .inr List.mem_cons_self
    · exact .inr (List.mem_cons_of_mem _ hsource)

section Kept

variable {owner : Id} {now : Int} {run : Run} (o : Outcome s owner now run s')
include o

theorem source_mem_files {row : FileRow} (hrow : row ∈ s'.files) :
    row ∈ s.files ∨ sourceOf row ∈ run.files := by
  rw [o.files_eq] at hrow
  have hsource : row ∈ (s.removeDerived owner).files ∨ sourceOf row ∈ run.files :=
    source_mem_putFiles (List.mem_of_mem_filter hrow)
  exact hsource

end Kept

theorem Faithful.storeRun {owner : Id} {now : Int} {run : Run} {counts : Store.RunCounts}
    (h : Faithful s) (hrun : Run.Fits run) (hok : s.storeRun owner now run = .ok (counts, s')) :
    Faithful s' := by
  obtain ⟨o⟩ := h.toSound.storeRun_outcome hok
  refine { o.written.sound with edge_keys := ?_, hashes := ?_ }
  · intro e he
    by_cases hown : e.repositoryId = owner
    · obtain ⟨x, hx, hkey, hedge⟩ := edge_of_own o he hown
      rw [hedge, Run.storedEdge_eq_self (hrun.edge_symbols x hx)]
      exact hkey
    · obtain ⟨hold, hends⟩ := edge_of_other o h.toSound he hown
      rw [hends]
      exact (h.withoutOwn owner).edge_keys e hold
  · intro f hf
    rcases source_mem_files o hf with hold | hnew
    · exact h.hashes f hold
    · have hhash := hrun.hashes _ hnew
      dsimp only [sourceOf] at hhash
      exact hhash

/-- The keys of the rows of a repository are in range. -/
theorem InRange.derivedKeys (h : InRange s) (r : RepositoryRow) :
    ∀ k ∈ s.derivedKeys r, k.Fits := by
  intro k hk
  simp only [Store.derivedKeys, List.mem_append, List.mem_filterMap, List.mem_map,
    List.mem_filter, Option.map_eq_some_iff] at hk
  rcases hk with (⟨x, ⟨hx, -⟩, p, -, rfl⟩ | ⟨x, ⟨hx, -⟩, p, -, rfl⟩) | ⟨e, -, rfl⟩
  · exact (h.symbols x hx).1
  · exact ⟨(h.references x hx).1, (h.references x hx).2.1⟩
  · trivial

theorem inRange_pending_iff :
    (∀ p ∈ s.pending, p.key.Fits) ↔ ∀ k ∈ s.pending.map Pending.key, k.Fits :=
  List.forall_mem_map.symm

theorem InRange.storeRun {owner : Id} {now : Int} {run : Run} {counts : Store.RunCounts}
    (h : InRange s) (hs : s.Sound) (hnow : FitsI64 now) (hrun : Run.InRange run)
    (hok : s.storeRun owner now run = .ok (counts, s')) : InRange s' := by
  obtain ⟨o⟩ := hs.storeRun_outcome hok
  refine ⟨?_, ?_, ?_, ?_, ?_, ?_⟩
  · rw [o.repositories_eq]
    apply Store.forall_mem_map
    intro r hr
    rw [noteTime]
    split
    · intro t ht
      rw [← Option.some.inj ht]
      exact hnow
    · exact h.repositories r hr
  · intro f hf
    rcases source_mem_files o hf with hold | hnew
    · exact h.files f hold
    · exact hrun.files _ hnew
  · intro x hx
    rw [o.symbols_eq] at hx
    rcases List.mem_append.mp hx with hx | hx
    · exact h.symbols x (List.mem_of_mem_filter hx)
    · obtain ⟨y, hy, hrow, -⟩ := exists_of_forall₂ o.symbols_stand hx
      rw [hrow]
      exact hrun.symbols y (Store.mem_of_mem_firstsBy hy)
  · intro r hr
    rw [o.references_eq] at hr
    rcases List.mem_append.mp hr with hr | hr
    · exact h.references r (List.mem_of_mem_filter hr)
    · obtain ⟨y, hy, hrow, -⟩ := exists_of_forall₂ o.references_stand hr
      rw [hrow]
      exact hrun.references y (Store.mem_of_mem_firstsBy hy)
  · rw [o.projects_eq]
    exact h.projects
  · rw [inRange_pending_iff, o.pending_eq]
    intro k hk
    rcases List.mem_append.mp hk with hk | hk
    · rcases List.mem_append.mp hk with hk | hk
      · exact inRange_pending_iff.mp h.pending k hk
      · obtain ⟨e, -, rfl⟩ := List.mem_map.mp hk
        trivial
    · exact h.derivedKeys _ k (List.mem_of_mem_filter hk)

end CodeIndex.Sync
