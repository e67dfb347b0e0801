import CodeIndex.Proofs.Store.Ownership
import CodeIndex.Proofs.Sync.Keys

/-!
Stores that only lose rows. A removal takes rows away, and references may lose their targets; what
is left has the names that it had.
-/
namespace CodeIndex.Sync

open Store (dropTarget)

/-- The second store has rows of the first one only; references may have lost their targets. -/
structure Shrinks (s s' : Store) : Prop where
  repositories : s'.repositories ⊆ s.repositories
  files : s'.files ⊆ s.files
  symbols : s'.symbols ⊆ s.symbols
  references : ∀ r' ∈ s'.references, ∃ r ∈ s.references,
    r' = r ∨ r' = { r with targetSymbolId := none }
  edges : s'.edges ⊆ s.edges
  projects : s'.projects ⊆ s.projects
  memberships : s'.memberships ⊆ s.memberships
  pending : s'.pending = s.pending
  nextPending : s'.nextPending = s.nextPending

namespace Shrinks

variable {s s' s'' : Store}

theorem refl (s : Store) : Shrinks s s :=
  ⟨List.Subset.refl _, List.Subset.refl _, List.Subset.refl _, fun r hr => ⟨r, hr, .inl rfl⟩,
    List.Subset.refl _, List.Subset.refl _, List.Subset.refl _, rfl, rfl⟩

theorem trans (h : Shrinks s s') (h' : Shrinks s' s'') : Shrinks s s'' := by
  refine ⟨List.Subset.trans h'.repositories h.repositories, List.Subset.trans h'.files h.files,
    List.Subset.trans h'.symbols h.symbols, ?_, List.Subset.trans h'.edges h.edges,
    List.Subset.trans h'.projects h.projects, List.Subset.trans h'.memberships h.memberships,
    h'.pending.trans h.pending, h'.nextPending.trans h.nextPending⟩
  intro r'' hr''
  obtain ⟨r', hr', heq'⟩ := h'.references r'' hr''
  obtain ⟨r, hr, heq⟩ := h.references r' hr'
  refine ⟨r, hr, ?_⟩
  rcases heq' with rfl | rfl <;> rcases heq with rfl | rfl
  · exact .inl rfl
  · exact .inr rfl
  · exact .inr rfl
  · exact .inr rfl

theorem agrees (h : Shrinks s s') : Agrees s' s :=
  ⟨List.map_subset _ h.repositories, List.map_subset _ h.files, List.map_subset _ h.symbols,
    List.map_subset _ h.projects⟩

theorem faithful (h : Shrinks s s') (hs : Faithful s) (hs' : s'.Sound) : Faithful s' := by
  refine { hs' with edge_keys := ?_, hashes := fun f hf => hs.hashes f (h.files hf) }
  intro e he
  rw [← h.agrees.edgeEnds hs' hs.toSound he]
  exact hs.edge_keys e (h.edges he)

/-- A key that is live afterwards was live before. -/
theorem live (h : Shrinks s s') (hs : Faithful s) (hs' : s'.Sound) {k : Deletion}
    (hlive : Live s' k) : Live s k := by
  obtain ⟨x, hx, rfl⟩ := hlive
  have hrow := mem_records.mp hx
  cases x with
  | repository y =>
    obtain ⟨r, hr, hy⟩ := hrow
    exact live_of_mem (x := .repository y) (mem_records.mpr ⟨r, h.repositories hr, hy⟩)
  | project y =>
    obtain ⟨p, hp, hy⟩ := hrow
    exact live_of_mem (x := .project y) (mem_records.mpr ⟨p, h.projects hp, hy⟩)
  | file y =>
    obtain ⟨f, hf, hy⟩ := hrow
    rw [← h.agrees.fileRecord? hs' hs.toSound hf] at hy
    exact live_of_mem (x := .file y) (mem_records.mpr ⟨f, h.files hf, hy⟩)
  | symbol y =>
    obtain ⟨x, hx, hy⟩ := hrow
    rw [← h.agrees.symbolRecord? hs' hs.toSound hx] at hy
    exact live_of_mem (x := .symbol y) (mem_records.mpr ⟨x, h.symbols hx, hy⟩)
  | reference y =>
    obtain ⟨r', hr', hy⟩ := hrow
    obtain ⟨home, hhome, rfl⟩ := Option.map_eq_some_iff.mp hy
    rw [← h.agrees.fileHome? hs' hs.toSound (hs'.reference_file r' hr')] at hhome
    obtain ⟨f, hf, hid⟩ := file?_of_fileHome? hs.toSound hhome
    obtain ⟨r, hr, heq⟩ := h.references r' hr'
    refine (live_reference hs.toSound).mpr ⟨f, hf, r, hr, ?_⟩
    rcases heq with rfl | rfl
    · exact ⟨hid.symm, rfl, rfl, rfl, rfl⟩
    · exact ⟨hid.symm, rfl, rfl, rfl, rfl⟩
  | edge y =>
    obtain ⟨e, he, hy⟩ := hrow
    rw [← h.agrees.edgeRecord? hs' hs.toSound he] at hy
    exact live_of_mem (x := .edge y) (mem_records.mpr ⟨e, h.edges he, hy⟩)
  | membership y =>
    obtain ⟨m, hm, hy⟩ := hrow
    rw [← h.agrees.membershipRecord? hs' hs.toSound hm] at hy
    exact live_of_mem (x := .membership y) (mem_records.mpr ⟨m, h.memberships hm, hy⟩)

end Shrinks

/-! Removals -/

variable (s : Store)

theorem shrinks_removeSymbols (test : SymbolRow → Bool) : Shrinks s (s.removeSymbols test) where
  repositories := List.Subset.refl _
  files := List.Subset.refl _
  symbols := List.filter_subset_self _
  references := by
    intro r' hr'
    rw [Store.removeSymbols_references] at hr'
    obtain ⟨r, hr, rfl⟩ := List.mem_map.mp hr'
    refine ⟨r, hr, ?_⟩
    unfold dropTarget
    split
    · exact .inr rfl
    · exact .inl rfl
  edges := List.filter_subset_self _
  projects := List.Subset.refl _
  memberships := List.Subset.refl _
  pending := rfl
  nextPending := rfl

theorem shrinks_removeFiles (test : FileRow → Bool) : Shrinks s (s.removeFiles test) := by
  have hbelow := shrinks_removeSymbols s fun x =>
    ((s.files.filter test).map FileRow.id).contains x.fileId
  refine hbelow.trans ?_
  exact
    { Shrinks.refl _ with
      files := List.filter_subset_self _
      references := fun r hr => ⟨r, List.mem_of_mem_filter hr, .inl rfl⟩
      edges := List.filter_subset_self _ }

theorem shrinks_removeDerived (id : Id) : Shrinks s (s.removeDerived id) := by
  refine (shrinks_removeSymbols s fun x => x.repositoryId == id).trans ?_
  exact
    { Shrinks.refl _ with
      references := fun r hr => ⟨r, List.mem_of_mem_filter hr, .inl rfl⟩
      edges := List.filter_subset_self _ }

theorem shrinks_removeRepository (name : String) : Shrinks s (s.removeRepository name) := by
  unfold Store.removeRepository
  split
  · exact Shrinks.refl s
  · next r _ =>
    refine ((shrinks_removeDerived s r.id).trans
      (shrinks_removeFiles _ fun f => f.repositoryId == r.id)).trans ?_
    exact
      { Shrinks.refl _ with
        repositories := List.filter_subset_self _
        memberships := List.filter_subset_self _ }

theorem shrinks_removeProject (name : String) : Shrinks s (s.removeProject name) := by
  unfold Store.removeProject
  split
  · exact Shrinks.refl s
  · exact
      { Shrinks.refl s with
        projects := List.filter_subset_self _
        memberships := List.filter_subset_self _ }

/-- A deletion only takes away. -/
theorem shrinks_apply (k : Deletion) : Shrinks s (k.apply s).1 := by
  cases k with
  | repository name =>
    rw [Deletion.apply]
    split
    · exact shrinks_removeRepository s name
    · exact Shrinks.refl s
  | file repo path =>
    rw [Deletion.apply]
    split
    · exact shrinks_removeFiles s _
    · exact Shrinks.refl s
  | symbol repo filePath name line =>
    rw [Deletion.apply]
    split
    · exact shrinks_removeSymbols s _
    · exact Shrinks.refl s
  | reference repo filePath line column kind name =>
    rw [Deletion.apply]
    split
    · exact Shrinks.refl s
    · exact { Shrinks.refl s with
        references := fun r hr => ⟨r, List.mem_of_mem_filter hr, .inl rfl⟩ }
  | edge repo key =>
    rw [Deletion.apply]
    split
    · exact Shrinks.refl s
    · exact { Shrinks.refl s with edges := List.filter_subset_self _ }
  | project name =>
    rw [Deletion.apply]
    split
    · exact shrinks_removeProject s name
    · exact Shrinks.refl s
  | membership proj repo =>
    rw [Deletion.apply]
    split
    · exact { Shrinks.refl s with memberships := List.filter_subset_self _ }
    · exact Shrinks.refl s

/-! All that a repository holds -/

/-- The store without all that one repository holds. -/
def withoutOwn (s : Store) (owner : Id) : Store :=
  (s.removeDerived owner).removeFiles fun f => f.repositoryId == owner

theorem withoutOwn_eq {s : Store} (h : s.Sound) (owner : Id) :
    withoutOwn s owner =
      { s with
        files := s.files.filter fun f => f.repositoryId != owner
        symbols := s.symbols.filter fun x => x.repositoryId != owner
        references := s.references.filter fun r => r.repositoryId != owner
        edges := s.edges.filter fun e => e.repositoryId != owner } :=
  h.removeOwn_eq owner

end CodeIndex.Sync
