import CodeIndex.Proofs.Sync.Put

/-!
Putting all records of one store into another one. Records come after the records of the rows they
name, so every one of them can be put; at the end the second store has all records of the first one,
and of its own those whose keys the first one does not have. One thing of a record can be lost: a
file that the second store has with the same hash keeps the text that it has there.
-/
namespace CodeIndex.Sync

namespace Record

/-- The place of the table of a record in the order of an export. -/
def rank : Record → Nat
  | repository _ => 0
  | file _ => 1
  | symbol _ => 2
  | reference _ => 3
  | edge _ => 4
  | project _ => 5
  | membership _ => 6

theorem rank_lt_of_parent {x y : Record} (hparent : y.key ∈ x.parents) : y.rank < x.rank := by
  cases x <;> cases y <;> simp [parents, key, rank, symbolParent] at hparent ⊢

end Record

theorem records_ranked (s : Store) : (records s).Pairwise fun a b => a.rank ≤ b.rank := by
  simp only [records, List.pairwise_append, List.pairwise_map]
  refine ⟨⟨⟨⟨⟨⟨?_, ?_, ?_⟩, ?_, ?_⟩, ?_, ?_⟩, ?_, ?_⟩, ?_, ?_⟩, ?_, ?_⟩
  all_goals
    simp only [List.mem_append, List.mem_map, Record.rank]
    first
    | exact List.pairwise_of_forall fun _ _ => Nat.le_refl _
    | grind [Record.rank]

/-! The text of a file -/

/-- The file of a store with the key and the hash of a record. -/
def twin? (t : Store) (f : FileRecord) : Option FileRecord :=
  (loadFiles t).find? fun g =>
    (Record.file g).key = (Record.file f).key ∧ g.contentHash = f.contentHash

/-- What a store holds of a record that is put into it. -/
def settled (t : Store) : Record → Record
  | .file f => .file { f with content := ((twin? t f).map FileRecord.content).getD f.content }
  | x => x

/-- The second record is the first one, or the two are files with different texts of one digest. -/
def Alike (x y : Record) : Prop :=
  y = x ∨ ∃ f text, x = .file f ∧ y = .file { f with content := text } ∧
    text ≠ f.content ∧ Digest.Sha256.hex text = Digest.Sha256.hex f.content

theorem Alike.key {x y : Record} (h : Alike x y) : y.key = x.key := by
  obtain rfl | ⟨f, text, rfl, rfl, -⟩ := h
  · rfl
  · rfl

theorem key_settled (t : Store) (x : Record) : (settled t x).key = x.key := by
  cases x <;> rfl

section Settled

variable {t : Store} (h : Faithful t)
include h

theorem twin?_eq_some {f g : FileRecord} :
    twin? t f = some g ↔ .file g ∈ records t ∧ (Record.file g).key = (Record.file f).key ∧
      g.contentHash = f.contentHash := by
  have hmem : ∀ x, .file x ∈ records t ↔ x ∈ loadFiles t := by
    intro x
    simp [records]
  constructor
  · intro hg
    have hfound := List.find?_some hg
    exact ⟨(hmem g).mpr (List.mem_of_find?_eq_some hg), by simpa using hfound⟩
  · rintro ⟨hg, hsame⟩
    cases hfound : twin? t f with
    | none =>
      have hnone := List.find?_eq_none.mp hfound g ((hmem g).mp hg)
      simp [hsame] at hnone
    | some g' =>
      have hg' := (hmem g').mpr (List.mem_of_find?_eq_some hfound)
      have hkey : (Record.file g').key = (Record.file g).key := by
        have hfirst := List.find?_some hfound
        simp only [decide_eq_true_eq] at hfirst
        exact hfirst.1.trans hsame.1.symm
      rw [Record.file.inj (Store.eq_of_key (nodup_keys h) hg' hg hkey)]

/-- A store holds a record that is put into it, up to a text of the same digest. -/
theorem alike_settled {x : Record} (hx : x.Intact) : Alike x (settled t x) := by
  cases x with
  | file f =>
    cases hg : twin? t f with
    | none =>
      left
      simp [settled, hg]
    | some g =>
      obtain ⟨hmem, -, hhash⟩ := (twin?_eq_some h).mp hg
      by_cases hsame : g.content = f.content
      · left
        simp [settled, hg, hsame]
      · refine .inr ⟨f, g.content, rfl, by simp [settled, hg], hsame, ?_⟩
        have hintact : Digest.Sha256.hex g.content = g.contentHash := h.intact hmem
        rw [hintact, hhash]
        exact Eq.symm hx
  | _ => exact .inl rfl

theorem settled_of_not_live {x : Record} (hx : ¬Live t x.key) : settled t x = x := by
  cases x with
  | file f =>
    cases hg : twin? t f with
    | none => simp [settled, hg]
    | some g =>
      obtain ⟨hmem, hkey, -⟩ := (twin?_eq_some h).mp hg
      exact absurd (hkey ▸ live_of_mem hmem) hx
  | _ => rfl

/-- It makes no difference which of the two texts is put. -/
theorem put_settled {t' : Store} {x : Record} (hok : x.put t = .ok t') :
    (settled t x).put t = .ok t' := by
  cases x with
  | file f =>
    cases hg : twin? t f with
    | none => simpa [settled, hg] using hok
    | some g =>
      obtain ⟨hmem, hkey, hhash⟩ := (twin?_eq_some h).mp hg
      have hintact : Digest.Sha256.hex g.content = g.contentHash := h.intact hmem
      obtain ⟨-, r, hr, hcases⟩ := upsertFile_cases hok
      obtain ⟨row, hrow, hy⟩ := mem_records.mp hmem
      obtain ⟨name, hname, rfl⟩ := Option.map_eq_some_iff.mp hy
      simp only [Record.key, Deletion.file.injEq] at hkey
      obtain ⟨hrepository, hpath⟩ := hkey
      have hown := (ownerOf_iff h.toSound hr).mp (hrepository ▸ hname)
      obtain ⟨hsome, rfl⟩ | ⟨hnone, -⟩ := hcases
      · obtain ⟨old, hold⟩ := Option.isSome_iff_exists.mp hsome
        have hdigest : (Digest.Sha256.hex row.content != f.contentHash) = false := by
          simpa using hintact.trans hhash
        simp only [settled, hg, Option.map_some, Option.getD_some, Record.put, upsertFile, hdigest,
          requireRepository_eq_ok.mpr hr, hold, bind, Except.bind, pure, Except.pure,
          Bool.false_eq_true, ↓reduceIte]
        -- Only the row of the twin is changed, and that row has the hash.
        congr 2
        apply List.map_congr_left
        intro row' hrow'
        split
        · next hplace =>
          simp only [Bool.and_eq_true, beq_iff_eq] at hplace
          have hsame : row' = row := Store.eq_of_key h.file_places hrow' hrow
            (Prod.ext (hplace.1.trans hown.symm) (hplace.2.trans hpath.symm))
          have hrowHash : row.contentHash = f.contentHash := hhash
          simp [setFile, hsame, hrowHash]
        · rfl
      · have hfound := h.file?_eq_some.mpr ⟨hrow, hown, hpath⟩
        rw [hnone] at hfound
        simp at hfound
  | _ => exact hok

theorem welcomes_settled (f : FileRecord) : Welcomes t (settled t (.file f)) := by
  intro g hg hkey hhash
  have hkey' : (Record.file g).key = (Record.file f).key := by
    rw [hkey]
    exact key_settled t (.file f)
  simp [(twin?_eq_some h).mpr ⟨hg, hkey', hhash⟩]

end Settled

/-- The store after some records have been put into it. -/
structure Holds (t : Store) (put : List Record) (t' : Store) : Prop where
  faithful : Faithful t'
  records_iff : ∀ x : Record,
    x ∈ records t' ↔ x ∈ put.map (settled t) ∨ (x ∈ records t ∧ ∀ y ∈ put, y.key ≠ x.key)

theorem Holds.refl {t : Store} (h : Faithful t) : Holds t [] t := ⟨h, by simp⟩

/-- What was put is live. -/
theorem Holds.live {t t' : Store} {put : List Record} (h : Holds t put t') {x : Record}
    (hx : x ∈ put) : Live t' x.key := by
  have hmem := (h.records_iff (settled t x)).mpr (.inl (List.mem_map_of_mem hx))
  exact key_settled t x ▸ live_of_mem hmem

/-- The store has as yet the texts that it had of keys that have not been put. -/
theorem Holds.settled {t t' : Store} (ht : Faithful t) {put : List Record} (h : Holds t put t')
    {x : Record} (hnew : ∀ y ∈ put, y.key ≠ x.key) : Sync.settled t' x = Sync.settled t x := by
  cases x with
  | file f =>
    have hmem : ∀ g, (Record.file g).key = (Record.file f).key →
        (.file g ∈ records t' ↔ .file g ∈ records t) := by
      intro g hkey
      rw [h.records_iff]
      constructor
      · rintro (hput | ⟨hold, -⟩)
        · obtain ⟨y, hy, heq⟩ := List.mem_map.mp hput
          exact absurd ((key_settled t y).symm.trans ((congrArg Record.key heq).trans hkey))
            (hnew y hy)
        · exact hold
      · exact fun hold => .inr ⟨hold, fun y hy heq => hnew y hy (heq.trans hkey)⟩
    have htwin : twin? t' f = twin? t f := by
      ext g
      rw [twin?_eq_some h.faithful, twin?_eq_some ht]
      exact ⟨fun hg => ⟨(hmem g hg.2.1).mp hg.1, hg.2⟩, fun hg => ⟨(hmem g hg.2.1).mpr hg.1, hg.2⟩⟩
    simp [Sync.settled, htwin]
  | _ => rfl

/-- One more record whose key has not been put. -/
theorem Holds.step {t t' t'' : Store} (ht : Faithful t) {put : List Record} (h : Holds t put t')
    {x : Record} (hnew : ∀ y ∈ put, y.key ≠ x.key) (hwelcome : Welcomes t' (Sync.settled t' x))
    (hok : x.put t' = .ok t'') : Holds t (put ++ [x]) t'' := by
  have hmerged := merged_put h.faithful (put_settled h.faithful hok)
  refine ⟨hmerged.faithful, fun y => ?_⟩
  rw [hmerged.records_iff hwelcome, h.records_iff, key_settled, h.settled ht hnew, List.map_append,
    List.mem_append, List.map_singleton, List.mem_singleton]
  constructor
  · rintro (rfl | ⟨hy | ⟨hy, hother⟩, hne⟩)
    · exact .inl (.inr rfl)
    · exact .inl (.inl hy)
    · refine .inr ⟨hy, fun z hz => ?_⟩
      rcases List.mem_append.mp hz with hz | hz
      · exact hother z hz
      · rw [List.mem_singleton.mp hz]
        exact hne.symm
  · rintro ((hy | rfl) | ⟨hy, hother⟩)
    · obtain ⟨z, hz, rfl⟩ := List.mem_map.mp hy
      exact .inr ⟨.inl hy, fun heq => hnew z hz ((key_settled t z).symm.trans heq)⟩
    · exact .inl rfl
    · refine .inr ⟨.inr ⟨hy, fun z hz => hother z (List.mem_append_left _ hz)⟩, ?_⟩
      exact (hother x (List.mem_append_right _ (List.mem_singleton_self x))).symm

section Source

variable {s t : Store} (hs : Faithful s)
include hs

/-- The rows that a record names come before it. -/
theorem parent_mem_before {put rest : List Record} {x : Record}
    (hsplit : records s = put ++ x :: rest) {k : Deletion} (hk : k ∈ x.parents) :
    ∃ y ∈ put, y.key = k := by
  have hx : x ∈ records s := by
    rw [hsplit]
    exact List.mem_append_right _ List.mem_cons_self
  obtain ⟨y, hy, rfl⟩ := live_parents hs.toSound hx k hk
  have hrank := Record.rank_lt_of_parent hk
  have hranked := records_ranked s
  rw [hsplit] at hy hranked
  rcases List.mem_append.mp hy with hy | hy
  · exact ⟨y, hy, rfl⟩
  · rcases List.mem_cons.mp hy with rfl | hy
    · exact absurd hrank (Nat.lt_irrefl _)
    · have hle := (List.pairwise_cons.mp (List.pairwise_append.mp hranked).2.1).1 y hy
      omega

/-- A store that holds the records before a record takes that record without further loss. -/
theorem Holds.welcomes {t' : Store} {put rest : List Record} {x : Record} (h : Holds t put t')
    (hsplit : records s = put ++ x :: rest) : Welcomes t' (Sync.settled t' x) := by
  cases x with
  | file f => exact welcomes_settled h.faithful f
  | reference x =>
    intro k hk
    have hparent : Record.symbolParent x.repository k ∈ (Record.reference x).parents := by
      simp [Record.parents, hk]
    obtain ⟨y, hy, hkey⟩ := parent_mem_before hs hsplit hparent
    have hlive := h.live hy
    rw [hkey] at hlive
    exact Option.isSome_iff_exists.mpr ((live_symbolParent h.faithful.toSound).mp hlive)
  | _ => trivial

/-- Putting the records of a store one after the other. -/
theorem putAll_suffix (ht : Faithful t) {t' : Store} {put rest : List Record}
    (hsplit : records s = put ++ rest) (h : Holds t put t') :
    ∃ t'', rest.foldlM Record.put t' = .ok t'' ∧ Holds t (records s) t'' := by
  induction rest generalizing put t' with
  | nil =>
    rw [List.append_nil] at hsplit
    exact ⟨t', rfl, hsplit ▸ h⟩
  | cons x rest ih =>
    have hx : x ∈ records s := by
      rw [hsplit]
      exact List.mem_append_right _ List.mem_cons_self
    have hnew : ∀ y ∈ put, y.key ≠ x.key := by
      have hnodup := nodup_keys hs
      rw [hsplit, List.map_append, List.nodup_append] at hnodup
      intro y hy
      exact hnodup.2.2 _ (List.mem_map_of_mem hy) _ (List.mem_map_of_mem List.mem_cons_self)
    have hlive : ∀ k ∈ x.parents, Live t' k := by
      intro k hk
      obtain ⟨y, hy, rfl⟩ := parent_mem_before hs hsplit hk
      exact h.live hy
    obtain ⟨t1, hok⟩ := put_ok h.faithful.toSound (hs.intact hx) hlive
    have hstep := h.step ht hnew (h.welcomes hs hsplit) hok
    obtain ⟨t'', hrest, hholds⟩ := ih (by rw [hsplit]; simp) hstep
    refine ⟨t'', ?_, hholds⟩
    rw [List.foldlM_cons, hok]
    exact hrest

/-- All records of a faithful store can be put into any other one. Afterwards it has these records,
and its own ones whose keys the first store does not have. -/
theorem putAll_records (ht : Faithful t) :
    ∃ t', (records s).foldlM Record.put t = .ok t' ∧ Faithful t' ∧
      ∀ x, x ∈ records t' ↔
        x ∈ (records s).map (settled t) ∨ (x ∈ records t ∧ ¬Live s x.key) := by
  obtain ⟨t', hput, hholds⟩ := putAll_suffix hs ht (List.nil_append _).symm (Holds.refl ht)
  refine ⟨t', hput, hholds.faithful, fun x => ?_⟩
  rw [hholds.records_iff]
  simp [Live]

end Source

/-- Putting records that are there changes nothing. -/
theorem putAll_self {t : Store} (ht : Faithful t) {rs : List Record}
    (hmem : ∀ x ∈ rs, x ∈ records t) : rs.foldlM Record.put t = .ok t := by
  induction rs with
  | nil => rfl
  | cons x rest ih =>
    rw [List.foldlM_cons, put_self ht (hmem x List.mem_cons_self)]
    exact ih fun y hy => hmem y (List.mem_cons_of_mem _ hy)

end CodeIndex.Sync
