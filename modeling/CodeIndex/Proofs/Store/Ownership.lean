import CodeIndex.Proofs.Store.Removal

/-!
What the removals of a repository leave alone. In a sound store no row of another repository names a
row of this one, so removing its rows takes exactly the rows that it owns.
-/
namespace CodeIndex.Store

variable {s : Store}

theorem Sound.not_hasFile_of_ne (h : s.Sound) {i a b : Id} (ha : s.HasFile i a) (hab : a ≠ b) :
    ¬s.HasFile i b := by
  rintro ⟨g, hg, hgid, hgown⟩
  obtain ⟨f, hf, hfid, hfown⟩ := ha
  have hfg : f = g := eq_of_key h.file_ids hf hg (hfid.trans hgid.symm)
  exact hab (hfown.symm.trans (hfg ▸ hgown))

theorem Sound.not_hasSymbol_of_ne (h : s.Sound) {i a b : Id} (ha : s.HasSymbol i a) (hab : a ≠ b) :
    ¬s.HasSymbol i b := by
  rintro ⟨y, hy, hyid, hyown⟩
  obtain ⟨x, hx, hxid, hxown⟩ := ha
  have hxy : x = y := eq_of_key h.symbol_ids hx hy (hxid.trans hyid.symm)
  exact hab (hxown.symm.trans (hxy ▸ hyown))

theorem endGone_eq_false {gone : List Id} {e : Option Id} (h : ∀ i, e = some i → i ∉ gone) :
    endGone gone e = false := by
  cases e with
  | none => rfl
  | some i => simpa using h i rfl

theorem dropTarget_eq_self {gone : List Id} {r : ReferenceRow}
    (h : ∀ i, r.targetSymbolId = some i → i ∉ gone) : dropTarget gone r = r := by
  rw [dropTarget, endGone_eq_false h]
  rfl

/-- Removing the derived rows of a repository takes exactly the rows that it owns. -/
theorem Sound.removeDerived_eq (h : s.Sound) (owner : Id) :
    s.removeDerived owner =
      { s with
        symbols := s.symbols.filter fun x => x.repositoryId != owner
        references := s.references.filter fun r => r.repositoryId != owner
        edges := s.edges.filter fun e => e.repositoryId != owner } := by
  have hgone : ∀ i a, s.HasSymbol i a → a ≠ owner →
      i ∉ s.symbolsGone fun x => x.repositoryId == owner := by
    intro i a hi hne hmem
    obtain ⟨x, hx, rfl⟩ := List.mem_map.mp hmem
    obtain ⟨hx, hown⟩ := List.mem_filter.mp hx
    exact h.not_hasSymbol_of_ne hi hne ⟨x, hx, rfl, by simpa using hown⟩
  have hreferences : ((s.references.map (dropTarget (s.symbolsGone fun x =>
      x.repositoryId == owner))).filter fun r => r.repositoryId != owner) =
      s.references.filter fun r => r.repositoryId != owner := by
    rw [List.filter_map]
    have hsame : ∀ r ∈ s.references.filter ((fun r => r.repositoryId != owner) ∘
        dropTarget (s.symbolsGone fun x => x.repositoryId == owner)),
        dropTarget (s.symbolsGone fun x => x.repositoryId == owner) r = r := by
      intro r hr
      obtain ⟨hr, hown⟩ := List.mem_filter.mp hr
      apply dropTarget_eq_self
      intro i hi
      apply hgone i _ (h.reference_target r hr i hi)
      simpa [dropTarget_repositoryId] using hown
    rw [List.map_congr_left hsame, List.map_id']
    apply List.filter_congr
    intro r _
    simp [dropTarget_repositoryId]
  have hedges : ((s.edges.filter fun e =>
      !endGone (s.symbolsGone fun x => x.repositoryId == owner) e.fromSymbolId &&
        !endGone (s.symbolsGone fun x => x.repositoryId == owner) e.toSymbolId).filter
          fun e => e.repositoryId != owner) =
      s.edges.filter fun e => e.repositoryId != owner := by
    rw [List.filter_filter]
    apply List.filter_congr
    intro e he
    by_cases hown : e.repositoryId = owner
    · simp [hown]
    · have hfrom := endGone_eq_false fun i hi =>
        hgone i _ ((h.edge_fits e he).symbols i (.inl hi)) hown
      have hto := endGone_eq_false fun i hi =>
        hgone i _ ((h.edge_fits e he).symbols i (.inr hi)) hown
      simp [hfrom, hto]
  change ({ s with symbols := _, references := _, edges := _ } : Store) = _
  rw [← hreferences, ← hedges]
  rfl

/-- Removing files of a repository that owns no derived rows takes nothing else. -/
theorem Sound.removeFiles_eq_of_owner (h : s.Sound) {owner : Id} {test : FileRow → Bool}
    (htest : ∀ f ∈ s.files, test f = true → f.repositoryId = owner)
    (hsymbols : ∀ x ∈ s.symbols, x.repositoryId ≠ owner)
    (hreferences : ∀ r ∈ s.references, r.repositoryId ≠ owner)
    (hedges : ∀ e ∈ s.edges, e.repositoryId ≠ owner) :
    s.removeFiles test = { s with files := s.files.filter fun f => !test f } := by
  have hgone : ∀ i a, s.HasFile i a → a ≠ owner → i ∉ s.filesGone test := by
    intro i a hi hne hmem
    obtain ⟨f, hf, rfl⟩ := List.mem_map.mp hmem
    obtain ⟨hf, htrue⟩ := List.mem_filter.mp hf
    exact h.not_hasFile_of_ne hi hne ⟨f, hf, rfl, htest f hf htrue⟩
  have hnone : s.symbolsGone (fun x => (s.filesGone test).contains x.fileId) = [] := by
    rw [symbolsGone, List.filter_eq_nil_iff.mpr, List.map_nil]
    intro x hx
    simpa using hgone _ _ (h.symbol_file x hx) (hsymbols x hx)
  have habove : s.aboveFiles test = s := by
    have hkept : s.symbols.filter (fun x => !(s.filesGone test).contains x.fileId) = s.symbols := by
      apply List.filter_eq_self.mpr
      intro x hx
      simpa using hgone _ _ (h.symbol_file x hx) (hsymbols x hx)
    have hsame : s.references.map (dropTarget []) = s.references := by
      have hid : ∀ r ∈ s.references, dropTarget [] r = id r :=
        fun r _ => dropTarget_eq_self (by simp)
      rw [List.map_congr_left hid, List.map_id]
    have hends : s.edges.filter (fun e => !endGone [] e.fromSymbolId && !endGone [] e.toSymbolId) =
        s.edges := by
      apply List.filter_eq_self.mpr
      intro e _
      have hnever : ∀ e, endGone [] e = false := fun e => endGone_eq_false (by simp)
      simp [hnever]
    rw [← hnone] at hsame hends
    calc s.aboveFiles test
        = { s with
            symbols := s.symbols.filter fun x => !(s.filesGone test).contains x.fileId
            references := s.references.map (dropTarget (s.symbolsGone fun x =>
              (s.filesGone test).contains x.fileId))
            edges := s.edges.filter fun e =>
              !endGone (s.symbolsGone fun x => (s.filesGone test).contains x.fileId)
                  e.fromSymbolId &&
                !endGone (s.symbolsGone fun x => (s.filesGone test).contains x.fileId)
                  e.toSymbolId } := rfl
      _ = s := by rw [hkept, hsame, hends]
  have hreferences' : s.references.filter (fun r => !(s.filesGone test).contains r.fileId) =
      s.references := by
    apply List.filter_eq_self.mpr
    intro r hr
    simpa using hgone _ _ (h.reference_file r hr) (hreferences r hr)
  have hedges' : s.edges.filter (fun e => !endGone (s.filesGone test) e.fromFileId &&
      !endGone (s.filesGone test) e.toFileId) = s.edges := by
    apply List.filter_eq_self.mpr
    intro e he
    have hfrom := endGone_eq_false fun i hi =>
      hgone i _ ((h.edge_fits e he).files i (.inl hi)) (hedges e he)
    have hto := endGone_eq_false fun i hi =>
      hgone i _ ((h.edge_fits e he).files i (.inr hi)) (hedges e he)
    simp [hfrom, hto]
  rw [removeFiles_eq, habove, hreferences', hedges']

/-- Removing all that a repository owns takes nothing else. -/
theorem Sound.removeOwn_eq (h : s.Sound) (owner : Id) :
    ((s.removeDerived owner).removeFiles fun f => f.repositoryId == owner) =
      { s with
        files := s.files.filter fun f => f.repositoryId != owner
        symbols := s.symbols.filter fun x => x.repositoryId != owner
        references := s.references.filter fun r => r.repositoryId != owner
        edges := s.edges.filter fun e => e.repositoryId != owner } := by
  rw [(h.removeDerived owner).removeFiles_eq_of_owner fun f _ hf => beq_iff_eq.mp hf,
    h.removeDerived_eq]
  · rfl
  all_goals
    rw [h.removeDerived_eq]
    intro row hrow
    simpa using (List.mem_filter.mp hrow).2

/-- Removing a repository takes its row, the rows that it owns and its memberships. -/
theorem Sound.removeRepository_eq (h : s.Sound) {name : String} {r : RepositoryRow}
    (hr : s.repository? name = some r) :
    s.removeRepository name =
      { s with
        repositories := s.repositories.filter fun x => x.fullName != name
        files := s.files.filter fun f => f.repositoryId != r.id
        symbols := s.symbols.filter fun x => x.repositoryId != r.id
        references := s.references.filter fun x => x.repositoryId != r.id
        edges := s.edges.filter fun e => e.repositoryId != r.id
        memberships := s.memberships.filter fun m => m.repositoryId != r.id } := by
  unfold Store.removeRepository
  rw [hr]
  dsimp only
  rw [h.removeOwn_eq]

end CodeIndex.Store
