import CodeIndex.Proofs.Sync.Batch
import CodeIndex.Proofs.Sync.Pruning

/-!
Applying the keys of a manifest. A deletion only takes rows away or the target of a reference; its
key is not live afterwards, and a key that was not live leaves the store as it was.
-/
namespace CodeIndex.Sync

variable {s : Store}

theorem Faithful.applyDeletion (h : Faithful s) (k : Deletion) : Faithful (k.apply s).1 :=
  (shrinks_apply s k).faithful h (Sound.applyDeletion h.toSound k)

/-! The key of a deletion -/

theorem filter_not_eq_self {α : Type} {rows : List α} {p : α → Bool}
    (h : ∀ a ∈ rows, p a = false) : rows.filter (fun a => !p a) = rows := by
  rw [List.filter_eq_self]
  intro a ha
  simp [h a ha]

section Gone

variable (h : Faithful s)
include h

/-- The key of a deletion is not live after it. -/
theorem not_live_apply (k : Deletion) : ¬Live (k.apply s).1 k := by
  rw [(h.applyDeletion k).live_iff, content_apply h.toSound, Content.delete_self]
  simp

/-- A key that is not live deletes nothing. -/
theorem apply_eq_self {k : Deletion} (hk : ¬Live s k) : (k.apply s).1 = s := by
  cases k with
  | repository name =>
    rw [live_repository h.toSound] at hk
    rw [Deletion.apply]
    split
    · next r hr => exact absurd ⟨r, hr⟩ hk
    · rfl
  | project name =>
    rw [live_project h.toSound] at hk
    rw [Deletion.apply]
    split
    · next p hp => exact absurd ⟨p, hp⟩ hk
    · rfl
  | file repo path =>
    rw [live_file h.toSound] at hk
    rw [Deletion.apply]
    split
    · next f hf => exact absurd ⟨f, hf⟩ hk
    · rfl
  | symbol repo filePath name line =>
    rw [live_symbol h.toSound] at hk
    rw [Deletion.apply]
    split
    · next x hx => exact absurd ⟨x, hx⟩ hk
    · rfl
  | reference repo filePath line column kind name =>
    rw [live_reference h.toSound] at hk
    rw [Deletion.apply]
    split
    · rfl
    · next f hf =>
      dsimp only
      rw [filter_not_eq_self]
      intro row hrow
      refine Bool.eq_false_iff.mpr fun hnamed => hk ⟨f, hf, row, hrow, ?_⟩
      simpa [and_assoc] using hnamed
  | edge repo key =>
    rw [live_edge h] at hk
    rw [Deletion.apply]
    split
    · rfl
    · next r hr =>
      dsimp only
      rw [filter_not_eq_self]
      intro e he
      refine Bool.eq_false_iff.mpr fun hnamed => hk ⟨r, hr, e, he, ?_⟩
      simpa using hnamed
  | membership proj repo =>
    rw [live_membership h.toSound] at hk
    rw [Deletion.apply]
    split
    · next p r hp hr =>
      dsimp only
      rw [filter_not_eq_self]
      intro m hm
      refine Bool.eq_false_iff.mpr fun hnamed => hk ⟨p, r, hp, hr, ?_⟩
      simp only [Bool.and_eq_true, beq_iff_eq] at hnamed
      rw [← hnamed.1, ← hnamed.2]
      exact hm
    · rfl

end Gone

/-! Many deletions -/

theorem shrinks_applyDeletions (s : Store) (keys : List Deletion) :
    Shrinks s (applyDeletions s keys).1 := by
  rw [applyDeletions_fst]
  induction keys generalizing s with
  | nil => exact Shrinks.refl s
  | cons k rest ih => exact (shrinks_apply s k).trans (ih _)

theorem Regular.applyDeletions (h : Regular s) (keys : List Deletion) :
    Regular (applyDeletions s keys).1 where
  toSound := Sound.applyDeletions h.toSound keys
  kinded e he := h.kinded e ((shrinks_applyDeletions s keys).edges he)

theorem Faithful.applyDeletions (h : Faithful s) (keys : List Deletion) :
    Faithful (applyDeletions s keys).1 :=
  (shrinks_applyDeletions s keys).faithful h (Sound.applyDeletions h.toSound keys)

/-- None of the deleted keys is live afterwards. -/
theorem not_live_applyDeletions (h : Faithful s) {keys : List Deletion} {k : Deletion}
    (hk : k ∈ keys) : ¬Live (Sync.applyDeletions s keys).1 k := by
  have hrest : ∀ (t : Store) (rest : List Deletion), Faithful t → ¬Live t k →
      ¬Live (rest.foldl (fun s key => (key.apply s).1) t) k := by
    intro t rest ht hnot hlive
    rw [← applyDeletions_fst] at hlive
    exact hnot
      ((shrinks_applyDeletions t rest).live ht (Sound.applyDeletions ht.toSound rest) hlive)
  rw [applyDeletions_fst]
  induction keys generalizing s with
  | nil => exact absurd hk List.not_mem_nil
  | cons key rest ih =>
    rw [List.foldl_cons]
    rcases List.mem_cons.mp hk with rfl | hk
    · exact hrest _ _ (h.applyDeletion k) (not_live_apply h k)
    · exact ih (h.applyDeletion key) hk

/-- Keys that are not live delete nothing. -/
theorem applyDeletions_eq_self (h : Faithful s) {keys : List Deletion}
    (hkeys : ∀ k ∈ keys, ¬Live s k) : (Sync.applyDeletions s keys).1 = s := by
  rw [applyDeletions_fst]
  induction keys with
  | nil => rfl
  | cons k rest ih =>
    rw [List.foldl_cons, apply_eq_self h (hkeys k List.mem_cons_self)]
    exact ih fun key hkey => hkeys key (List.mem_cons_of_mem _ hkey)

end CodeIndex.Sync
