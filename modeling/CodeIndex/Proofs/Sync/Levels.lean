import CodeIndex.Proofs.Sync.Placing

/-!
The order of the tables. What a record needs stands in tables before its own, so while the records
of one table are put, nothing changes that decides on them. What such a batch leaves under a key is
the same when the key starts from another record that the batch replaces, or from what the batch
left itself.
-/
namespace CodeIndex.Sync

/-- The place of the table of a key among the exported tables. -/
def Deletion.level : Deletion → Nat
  | .repository .. => 0
  | .file .. => 1
  | .symbol .. => 2
  | .reference .. => 3
  | .edge .. => 4
  | .project .. => 5
  | .membership .. => 6

/-- What a record names stands in earlier tables. -/
theorem Record.level_lt_of_mem_parents {r : Record} {d : Deletion} (hd : d ∈ r.parents) :
    d.level < r.key.level := by
  cases r <;> cases d <;> simp [parents, symbolParent, key, Deletion.level] at hd ⊢

theorem Record.level_lt_of_mem_needs {r : Record} {n : Deletion × Rejection} (hn : n ∈ r.needs) :
    n.1.level < r.key.level :=
  r.level_lt_of_mem_parents (r.needs_subset_parents (List.mem_map_of_mem hn))

/-- The keys of files are those of their level. -/
theorem Record.exists_file {r : Record} (h : r.key.level = 1) : ∃ f, r = .file f := by
  cases r with
  | file f => exact ⟨f, rfl⟩
  | _ => simp [key, Deletion.level] at h

namespace Content

variable {c c' : Content} {r : Record} {k : Deletion}

/-- Both hold the same in the tables before a level. -/
def AgreeBelow (n : Nat) (c c' : Content) : Prop := ∀ k, k.level < n → c k = c' k

theorem AgreeBelow.refl (n : Nat) (c : Content) : AgreeBelow n c c := fun _ _ => rfl

/-- What decides on a record stands before it. -/
theorem AgreeBelow.refusal? (h : AgreeBelow r.key.level c c') : c.refusal? r = c'.refusal? r := by
  rw [Content.refusal?, Content.refusal?, missing?_congr]
  intro n hn
  rw [h n.1 (Record.level_lt_of_mem_needs hn)]

/-- What is held of a record depends on what stood under its key if it is a file. -/
theorem AgreeBelow.settle (h : AgreeBelow r.key.level c c')
    (hk : r.key.level = 1 → c r.key = c' r.key) : c.settle r = c'.settle r := by
  cases r with
  | file f =>
    have hsame : c (.file f.repository f.path) = c' (.file f.repository f.path) := hk rfl
    rw [Content.settle, Content.settle, hsame]
  | reference x =>
    have htarget : ∀ t, c (Record.symbolParent x.repository t) =
        c' (Record.symbolParent x.repository t) :=
      fun t => h _ (show 2 < 3 by omega)
    simp only [Content.settle, htarget]
  | _ => rfl

theorem put_of_ne (hk : k ≠ r.key) : c.put r k = c k := by
  rw [put]
  split
  · rfl
  · exact Function.update_of_ne hk _ _

theorem put_of_refused (h : c.refusal? r ≠ none) : c.put r = c := by
  rw [put, if_pos (Option.isSome_iff_ne_none.mpr h)]

theorem put_of_taken (h : c.refusal? r = none) : c.put r r.key = some (c.settle r) := by
  rw [put, h, Option.isSome_none, if_neg Bool.false_ne_true, Function.update_self]

/-- A record changes nothing under other keys, and nothing at all when it is refused. -/
theorem AgreeBelow.put_of_not_own (h : AgreeBelow r.key.level c c')
    (hown : ¬(k = r.key ∧ c.refusal? r = none)) : c'.put r k = c' k := by
  by_cases hkey : k = r.key
  · have hrefused := not_and.mp hown hkey
    rw [put_of_refused (h.refusal? ▸ hrefused)]
  · exact put_of_ne hkey

/-- The content after a list of records. -/
def putAll (c : Content) (rs : List Record) : Content := rs.foldl put c

@[simp] theorem putAll_cons (c : Content) (r : Record) (rs : List Record) :
    c.putAll (r :: rs) = (c.put r).putAll rs := rfl

/-! The records of one table -/

section Level

variable {n : Nat} {rs : List Record} (hlevel : ∀ r ∈ rs, r.key.level = n)

include hlevel in
theorem putAll_of_level_ne (hk : k.level ≠ n) : c.putAll rs k = c k := by
  induction rs generalizing c with
  | nil => rfl
  | cons r rest ih =>
    have hne : k ≠ r.key := fun heq => hk (heq ▸ hlevel r List.mem_cons_self)
    rw [putAll_cons, ih fun r hr => hlevel r (List.mem_cons_of_mem _ hr), put_of_ne hne]

theorem AgreeBelow.put (hr : r.key.level = n) (h : AgreeBelow n c c') :
    AgreeBelow n (c.put r) (c'.put r) := by
  intro k hk
  have hne : k ≠ r.key := by
    rintro rfl
    omega
  rw [put_of_ne hne, put_of_ne hne, h k hk]

/-- A key under which both hold the same before a record holds the same after it. -/
theorem AgreeBelow.put_eq (hr : r.key.level = n) (h : AgreeBelow n c c') (hk : c k = c' k) :
    c.put r k = c'.put r k := by
  subst hr
  by_cases hkey : k = r.key
  · subst hkey
    by_cases htaken : c.refusal? r = none
    · rw [put_of_taken htaken, put_of_taken (h.refusal? ▸ htaken), h.settle fun _ => hk]
    · rw [put_of_refused htaken, put_of_refused (h.refusal? ▸ htaken), hk]
  · rw [put_of_ne hkey, put_of_ne hkey, hk]

include hlevel

theorem AgreeBelow.putAll_eq (h : AgreeBelow n c c') (hk : c k = c' k) :
    c.putAll rs k = c'.putAll rs k := by
  induction rs generalizing c c' with
  | nil => exact hk
  | cons r rest ih =>
    have hr := hlevel r List.mem_cons_self
    exact ih (fun r hr => hlevel r (List.mem_cons_of_mem _ hr)) (h.put hr) (h.put_eq hr hk)

/-- Records that are no files leave the same under a key, or nothing of them is taken under it. -/
theorem AgreeBelow.putAll_cases (hn : n ≠ 1) (h : AgreeBelow n c c') (k : Deletion) :
    c.putAll rs k = c'.putAll rs k ∨ (c.putAll rs k = c k ∧ c'.putAll rs k = c' k) := by
  induction rs generalizing c c' with
  | nil => exact .inr ⟨rfl, rfl⟩
  | cons r rest ih =>
    have hr := hlevel r List.mem_cons_self
    have hrest : ∀ r ∈ rest, r.key.level = n := fun r hr => hlevel r (List.mem_cons_of_mem _ hr)
    rw [putAll_cons, putAll_cons]
    by_cases hown : k = r.key ∧ c.refusal? r = none
    · obtain ⟨rfl, htaken⟩ := hown
      have hbelow : AgreeBelow r.key.level c c' := hr ▸ h
      refine .inl ((h.put hr).putAll_eq hrest ?_)
      rw [put_of_taken htaken, put_of_taken (hbelow.refusal? ▸ htaken),
        hbelow.settle fun hfile => absurd (hr.symm.trans hfile) hn]
    · have hcases := ih hrest (h.put hr)
      rwa [(AgreeBelow.refl _ c).put_of_not_own hown,
        AgreeBelow.put_of_not_own (hr ▸ h) hown] at hcases

end Level

/-! The files of a table -/

theorem settle_file_of_held {f old : FileRecord}
    (h : c (.file f.repository f.path) = some (.file old)) :
    c.settle (.file f) = .file { f with
      content := if old.contentHash = f.contentHash then old.content else f.content } := by
  rw [settle, h]

theorem exists_settle_file (c : Content) (f : FileRecord) :
    ∃ text, c.settle (.file f) = .file { f with content := text } := by
  rw [settle]
  split
  · exact ⟨_, rfl⟩
  · exact ⟨f.content, rfl⟩

section Files

variable {rs : List Record} (hlevel : ∀ r ∈ rs, r.key.level = 1)
include hlevel

/-- A text that a file starts from is kept to the end, or it does not count. -/
theorem putAll_file_cases {f : FileRecord} {text text' : String} (h : AgreeBelow 1 c c')
    (hc : c k = some (.file { f with content := text }))
    (hc' : c' k = some (.file { f with content := text' })) :
    c.putAll rs k = c'.putAll rs k ∨ ∃ g : FileRecord, c.putAll rs k = some (.file g) ∧
      g.contentHash = f.contentHash ∧ g.content = text := by
  induction rs generalizing c c' f with
  | nil => exact .inr ⟨_, hc, rfl, rfl⟩
  | cons r rest ih =>
    have hr := hlevel r List.mem_cons_self
    have hrest : ∀ r ∈ rest, r.key.level = 1 := fun r hr => hlevel r (List.mem_cons_of_mem _ hr)
    rw [putAll_cons, putAll_cons]
    by_cases hown : k = r.key ∧ c.refusal? r = none
    · obtain ⟨rfl, htaken⟩ := hown
      obtain ⟨g, rfl⟩ := Record.exists_file hr
      have hbelow : AgreeBelow (Record.file g).key.level c c' := h
      have hput := put_of_taken htaken
      have hput' := put_of_taken (hbelow.refusal? ▸ htaken)
      rw [settle_file_of_held hc] at hput
      rw [settle_file_of_held hc'] at hput'
      dsimp only at hput hput'
      by_cases hhash : f.contentHash = g.contentHash
      · rw [if_pos hhash] at hput hput'
        rw [hhash]
        exact ih hrest (h.put hr) hput hput'
      · rw [if_neg hhash] at hput hput'
        exact .inl ((h.put hr).putAll_eq hrest (hput.trans hput'.symm))
    · refine ih hrest (h.put hr) ?_ ?_
      · rw [(AgreeBelow.refl _ c).put_of_not_own hown, hc]
      · rw [AgreeBelow.put_of_not_own (hr ▸ h) hown, hc']

/-- Files that start from what they left leave it again. -/
theorem putAll_files_again (h : AgreeBelow 1 c c') (hk : c' k = c.putAll rs k) :
    c'.putAll rs k = c.putAll rs k := by
  induction rs generalizing c c' with
  | nil => exact hk
  | cons r rest ih =>
    have hr := hlevel r List.mem_cons_self
    have hrest : ∀ r ∈ rest, r.key.level = 1 := fun r hr => hlevel r (List.mem_cons_of_mem _ hr)
    rw [putAll_cons] at hk ⊢
    rw [putAll_cons]
    by_cases hown : k = r.key ∧ c.refusal? r = none
    · obtain ⟨rfl, htaken⟩ := hown
      obtain ⟨f, rfl⟩ := Record.exists_file hr
      have hbelow : AgreeBelow (Record.file f).key.level c c' := h
      obtain ⟨text, htext⟩ := exists_settle_file c f
      obtain ⟨text', htext'⟩ := exists_settle_file c' f
      have hput := (put_of_taken htaken).trans (congrArg some htext)
      have hput' := (put_of_taken (hbelow.refusal? ▸ htaken)).trans (congrArg some htext')
      rcases putAll_file_cases hrest (h.put hr) hput hput' with heq | ⟨g, hg, hhash, hcontent⟩
      · exact heq.symm
      · -- The file ends with the hash that it starts with, so its text is kept.
        rw [hg] at hk
        rw [settle_file_of_held hk, hhash, if_pos rfl, hcontent] at htext'
        refine ((h.put hr).putAll_eq hrest ?_).symm
        rw [hput, hput', htext']
    · refine ih hrest (h.put hr) ?_
      rw [AgreeBelow.put_of_not_own (hr ▸ h) hown, hk]

end Files

/-- What stands under a key at the start of a repetition: what stood there the first time, or, for a
key that changes, anything, where a file has what the first time left. -/
structure Restarts (k : Deletion) (first again final : Option Record) : Prop where
  unchanged : final = first → again = first
  file : k.level = 1 → again = first ∨ again = final

/-- The records of a table leave the same when they are put again. -/
theorem AgreeBelow.putAll_again {n : Nat} {rs : List Record} (hlevel : ∀ r ∈ rs, r.key.level = n)
    (h : AgreeBelow n c c') (hn : k.level = n) (hk : Restarts k (c k) (c' k) (c.putAll rs k)) :
    c'.putAll rs k = c.putAll rs k := by
  by_cases hfile : n = 1
  · subst hfile
    rcases hk.file hn with heq | heq
    · exact (h.putAll_eq hlevel heq.symm).symm
    · exact putAll_files_again hlevel h heq
  · rcases h.putAll_cases hlevel hfile k with heq | ⟨hfirst, hagain⟩
    · exact heq.symm
    · rw [hagain, hfirst, hk.unchanged hfirst]

end Content

end CodeIndex.Sync
