import CodeIndex.Proofs.Sync.Placing
import CodeIndex.Proofs.Sync.Shrinking

/-!
The content of a store after deletions. A deleted key takes away its own row and every row that
stands below it: what lies in a deleted repository or file, the edges that end there, the
memberships of a deleted project. A reference whose target goes away stays and loses it. Nothing
else changes.
-/
namespace CodeIndex.Sync

open Store (endGone endGone_some endGone_none dropTarget eq_of_key)

namespace Record

/-- A file and what it lies in. -/
def fileLine (repository path : String) : List Deletion :=
  [.file repository path, .repository repository]

/-- A symbol and what it lies in. -/
def symbolLine (repository : String) (k : SymbolKey) : List Deletion :=
  symbolParent repository k :: fileLine repository k.filePath

/-- The keys of other rows with which the row of a record goes away. -/
def above : Record → List Deletion
  | repository _ | project _ => []
  | file f => [.repository f.repository]
  | symbol x => fileLine x.repository x.filePath
  | reference x => fileLine x.repository x.filePath
  | edge e =>
    .repository e.repository ::
      ((e.fromFile.toList ++ e.toFile.toList).flatMap (fileLine e.repository) ++
        (e.fromSymbol.toList ++ e.toSymbol.toList).flatMap (symbolLine e.repository))
  | membership m => [.project m.project, .repository m.repository]

/-- A record without a target that goes away with a key. -/
def forget (d : Deletion) : Record → Record
  | reference x =>
    reference { x with
      targetSymbol := x.targetSymbol.filter fun k => d ∉ symbolLine x.repository k }
  | x => x

/-- Only references forget. -/
theorem forget_eq_iff {d : Deletion} {x y : Record} (hy : ∀ z, y ≠ reference z) :
    x.forget d = y ↔ x = y := by
  cases x with
  | reference z =>
    constructor
    · rintro rfl
      exact absurd rfl (hy _)
    · rintro rfl
      exact absurd rfl (hy z)
  | _ => exact Iff.rfl

end Record

/-- The content after a deletion. -/
def Content.delete (c : Content) (d : Deletion) : Content := fun k =>
  ((c k).filter fun x => d ∉ k :: x.above).map (Record.forget d)

theorem Content.delete_self (c : Content) (d : Deletion) : c.delete d d = none := by
  simp [Content.delete]

variable {s s' : Store}

/-! Many deletions -/

namespace Record

/-- A record without a target that goes away with one of the keys. -/
def forgetAll (keys : List Deletion) : Record → Record
  | reference x =>
    reference { x with
      targetSymbol := x.targetSymbol.filter fun k => ∀ d ∈ keys, d ∉ symbolLine x.repository k }
  | x => x

theorem above_forgetAll (keys : List Deletion) (x : Record) :
    (x.forgetAll keys).above = x.above := by
  cases x <;> rfl

theorem above_forget (d : Deletion) (x : Record) : (x.forget d).above = x.above := by
  cases x <;> rfl

theorem forgetAll_nil (x : Record) : x.forgetAll [] = x := by
  cases x with
  | reference x =>
    have hsame : x.targetSymbol.filter (fun _ => true) = x.targetSymbol := by
      cases x.targetSymbol <;> rfl
    simp [forgetAll, hsame]
  | _ => rfl

theorem forgetAll_cons (d : Deletion) (keys : List Deletion) (x : Record) :
    x.forgetAll (d :: keys) = (x.forget d).forgetAll keys := by
  cases x <;> simp [forgetAll, forget, Option.filter_filter]

theorem forgetAll_forgetAll (keys : List Deletion) (x : Record) :
    (x.forgetAll keys).forgetAll keys = x.forgetAll keys := by
  cases x <;> simp [forgetAll, Option.filter_filter]

end Record

/-- The content after the deletions of a manifest. -/
def Content.prune (c : Content) (keys : List Deletion) : Content := fun k =>
  ((c k).filter fun x => ∀ d ∈ keys, d ∉ k :: x.above).map (Record.forgetAll keys)

namespace Content

variable (c : Content) (keys : List Deletion)

theorem prune_nil : c.prune [] = c := by
  funext k
  cases hk : c k <;> simp [prune, hk, Record.forgetAll_nil]

theorem prune_cons (d : Deletion) : c.prune (d :: keys) = (c.delete d).prune keys := by
  funext k
  cases hk : c k with
  | none => simp [prune, delete, hk]
  | some x =>
    by_cases hd : d ∈ k :: x.above
    · have hgone : ¬∀ d' ∈ d :: keys, d' ∉ k :: x.above := fun h => h d List.mem_cons_self hd
      rw [prune, prune, delete, hk, Option.filter_some, Option.filter_some,
        if_neg (by simpa using hgone), if_neg (by simpa only [decide_eq_true_eq, not_not] using hd)]
      rfl
    · simp only [prune, delete, hk, Option.filter_some, hd, not_false_eq_true, decide_true, if_true,
        Option.map_some, List.forall_mem_cons, true_and, Record.above_forget]
      split
      · rw [Option.map_some, Option.map_some, Record.forgetAll_cons]
      · rfl

/-- Deletions that were made change nothing more. -/
theorem prune_prune : (c.prune keys).prune keys = c.prune keys := by
  funext k
  cases hk : c k with
  | none => simp [prune, hk]
  | some x =>
    simp only [prune, hk, Option.filter_some]
    split
    · next hkept =>
      simp only [Option.map_some, Option.filter_some, Record.above_forgetAll, hkept, if_true,
        Record.forgetAll_forgetAll]
    · rfl

variable {c keys} in
theorem prune_congr {c' : Content} {k : Deletion} (h : c k = c' k) :
    c.prune keys k = c'.prune keys k := by
  rw [prune, prune, h]

end Content

/-! What goes away, by rows -/

/-- The second store is the first one without the row of a key and the rows below it: the files and
the symbols with the given ids, and what names them. -/
structure Prunes (s s' : Store) (d : Deletion) (files symbols : List Id) : Prop where
  shrinks : Shrinks s s'
  sound : s'.Sound
  file_gone : ∀ i n p, fileHome? s i = some (n, p) → (i ∈ files ↔ d ∈ Record.fileLine n p)
  symbol_gone : ∀ x n k, symbol? s n k = some x → (x.id ∈ symbols ↔ d ∈ Record.symbolLine n k)
  repository_kept : ∀ r ∈ s.repositories, r ∈ s'.repositories ↔ d ≠ .repository r.fullName
  file_kept : ∀ f ∈ s.files, f ∈ s'.files ↔ f.id ∉ files
  symbol_kept : ∀ x ∈ s.symbols, x ∈ s'.symbols ↔ x.id ∉ symbols
  reference_kept : ∀ row ∈ s.references, ∀ x, referenceRecord? s row = some x →
    (dropTarget symbols row ∈ s'.references ↔ d ≠ (Record.reference x).key ∧ row.fileId ∉ files)
  reference_from : ∀ row' ∈ s'.references, ∃ row ∈ s.references, row' = dropTarget symbols row
  edge_kept : ∀ e ∈ s.edges, ∀ y, edgeRecord? s e = some y →
    (e ∈ s'.edges ↔ d ≠ .edge y.repository e.key ∧ d ≠ .repository y.repository ∧
      (endGone files e.fromFileId = false ∧ endGone files e.toFileId = false) ∧
      endGone symbols e.fromSymbolId = false ∧ endGone symbols e.toSymbolId = false)
  project_kept : ∀ p ∈ s.projects, p ∈ s'.projects ↔ d ≠ .project p.name
  membership_kept : ∀ m ∈ s.memberships, ∀ y, membershipRecord? s m = some y →
    (m ∈ s'.memberships ↔ d ∉ (Record.membership y).key :: (Record.membership y).above)

theorem exists_kept {ρ α : Type} {rows rows' : List ρ} {r r' : ρ → Option α} {P : α → Prop}
    (hsub : rows' ⊆ rows) (hsame : ∀ row ∈ rows', r' row = r row)
    (hkept : ∀ row ∈ rows, ∀ y, r row = some y → (row ∈ rows' ↔ P y)) {y : α} :
    (∃ row ∈ rows', r' row = some y) ↔ (∃ row ∈ rows, r row = some y) ∧ P y := by
  constructor
  · rintro ⟨row, hrow, hy⟩
    rw [hsame row hrow] at hy
    exact ⟨⟨row, hsub hrow, hy⟩, (hkept row (hsub hrow) y hy).mp hrow⟩
  · rintro ⟨⟨row, hrow, hy⟩, hp⟩
    have hrow' := (hkept row hrow y hy).mpr hp
    exact ⟨row, hrow', (hsame row hrow').trans hy⟩

namespace Prunes

variable {d : Deletion} {files symbols : List Id} (hp : Prunes s s' d files symbols) (h : s.Sound)
include hp h

/-- A symbol end goes away with the symbol. -/
theorem symbolEnd_gone {owner : Id} {n : String} {id : Option Id} (hname : ownerOf s owner = some n)
    (hid : ∀ i, id = some i → s.HasSymbol i owner) :
    endGone symbols id = true ↔ ∃ k, s.symbolKey? id = some k ∧ d ∈ Record.symbolLine n k := by
  cases id with
  | none => simp [Store.symbolKey?]
  | some i =>
    obtain ⟨key, hkey⟩ := exists_symbolKey? h (hid i rfl)
    obtain ⟨x, hx, rfl⟩ := symbol?_of_hasSymbol h hname (hid i rfl) hkey
    simp [hkey, ← hp.symbol_gone x n key hx]

/-- A file end goes away with the file. -/
theorem fileEnd_gone {owner : Id} {n : String} {id : Option Id} (hname : ownerOf s owner = some n)
    (hid : ∀ i, id = some i → s.HasFile i owner) :
    endGone files id = true ↔ ∃ p, s.filePath? id = some p ∧ d ∈ Record.fileLine n p := by
  cases id with
  | none => simp [Store.filePath?]
  | some i =>
    obtain ⟨path, hpath⟩ := exists_filePath? h (hid i rfl)
    obtain ⟨f, hf, rfl⟩ := file?_of_hasFile h hname (hid i rfl) hpath
    simp [hpath, ← hp.file_gone f.id n path ((fileHome?_iff h hf).mpr rfl)]

theorem edge_kept_iff {e : EdgeRow} (he : e ∈ s.edges) {y : EdgeRecord}
    (hy : edgeRecord? s e = some y) :
    e ∈ s'.edges ↔ d ∉ .edge y.repository e.key :: (Record.edge y).above := by
  obtain ⟨hname, hedge⟩ := edgeRecord?_eq_some.mp hy
  simp only [Store.edgeOf, EdgeRecord.edge, Edge.mk.injEq, true_and] at hedge
  obtain ⟨-, hfromFile, htoFile, hfromSymbol, htoSymbol⟩ := hedge
  have hfits := h.edge_fits e he
  have hends := hp.edge_kept e he y hy
  simp only [← Bool.not_eq_true,
    hp.fileEnd_gone h hname fun i hi => hfits.files i (.inl hi),
    hp.fileEnd_gone h hname fun i hi => hfits.files i (.inr hi),
    hp.symbolEnd_gone h hname fun i hi => hfits.symbols i (.inl hi),
    hp.symbolEnd_gone h hname fun i hi => hfits.symbols i (.inr hi),
    hfromFile, htoFile, hfromSymbol, htoSymbol, ← not_or] at hends
  rw [hends, not_iff_not]
  simp only [Record.above, List.mem_cons, List.mem_append, List.mem_flatMap, Option.mem_toList,
    or_and_right, exists_or, or_assoc]

theorem file_kept_iff {f : FileRow} (hf : f ∈ s.files) {y : FileRecord}
    (hy : fileRecord? s f = some y) :
    f ∈ s'.files ↔ d ∉ (Record.file y).key :: (Record.file y).above := by
  rw [hp.file_kept f hf, not_iff_not]
  obtain ⟨name, hname, rfl⟩ := Option.map_eq_some_iff.mp hy
  refine hp.file_gone f.id name f.path ?_
  exact (fileHome?_eq_some h).mpr ⟨f.repositoryId, List.mem_map_of_mem (f := Store.fileMark) hf,
    (ownerOf_eq_some h).mp hname⟩

theorem symbol_kept_iff {x : SymbolRow} (hx : x ∈ s.symbols) {y : SymbolRecord}
    (hy : symbolRecord? s x = some y) :
    x ∈ s'.symbols ↔ d ∉ (Record.symbol y).key :: (Record.symbol y).above := by
  rw [hp.symbol_kept x hx, not_iff_not]
  obtain ⟨home, hhome, rfl⟩ := Option.map_eq_some_iff.mp hy
  obtain ⟨f, hf, hid⟩ := file?_of_fileHome? h hhome
  exact hp.symbol_gone x home.1 ⟨home.2, x.name, x.lineStart⟩
    ((symbol?_spec h).mpr ⟨f, hf, hx, hid.symm, rfl, rfl⟩)

omit h in
theorem reference_kept_iff {row : ReferenceRow} (hrow : row ∈ s.references) {x : ReferenceRecord}
    (hx : referenceRecord? s row = some x) :
    dropTarget symbols row ∈ s'.references ↔
      d ∉ (Record.reference x).key :: (Record.reference x).above := by
  rw [hp.reference_kept row hrow x hx, List.mem_cons, not_or]
  refine and_congr_right fun _ => not_congr ?_
  obtain ⟨home, hhome, rfl⟩ := Option.map_eq_some_iff.mp hx
  exact hp.file_gone row.fileId home.1 home.2 hhome

/-- A reference that stays loses a target that goes away. -/
theorem referenceRecord?_eq {row : ReferenceRow} (hrow : row ∈ s.references)
    (hkept : dropTarget symbols row ∈ s'.references) {x : ReferenceRecord}
    (hx : referenceRecord? s row = some x) :
    referenceRecord? s' (dropTarget symbols row) = some { x with
      targetSymbol := x.targetSymbol.filter fun k => d ∉ Record.symbolLine x.repository k } := by
  have hfile := hp.sound.reference_file _ hkept
  have htarget := hp.sound.reference_target _ hkept
  rw [Store.dropTarget_fileId] at hfile
  obtain ⟨home, hhome, rfl⟩ := Option.map_eq_some_iff.mp hx
  have hname := ownerOf_of_fileHome? h (h.reference_file row hrow) hhome
  have hhome' : fileHome? s' row.fileId = some home := by
    rw [← hp.shrinks.agrees.fileHome? hp.sound h hfile, hhome]
  have hgone := hp.symbolEnd_gone h hname (h.reference_target row hrow)
  have hkey : s'.symbolKey? (dropTarget symbols row).targetSymbolId =
      (s.symbolKey? row.targetSymbolId).filter fun k => d ∉ Record.symbolLine home.1 k := by
    rw [← hp.shrinks.agrees.symbolKey? hp.sound h fun i hi => ⟨_, htarget i hi⟩, dropTarget]
    split
    · next hend =>
      obtain ⟨k, hk, hmem⟩ := hgone.mp hend
      rw [hk, Option.filter_some, if_neg (by simpa using hmem)]
      rfl
    · next hend =>
      rcases hk : s.symbolKey? row.targetSymbolId with _ | k
      · rfl
      · have hnot : d ∉ Record.symbolLine home.1 k := fun hmem => hend (hgone.mpr ⟨k, hk, hmem⟩)
        rw [Option.filter_some, if_pos (by simpa using hnot)]
  rw [referenceRecord?, Store.dropTarget_fileId, hhome', hkey]
  unfold dropTarget
  split <;> rfl

omit hp h in
/-- Records that stay under their own keys. -/
theorem hasRow_kept {k : Deletion} {y : Record}
    (hmem : y ∈ records s' ↔ y ∈ records s ∧ d ∉ y.key :: y.above) :
    (y ∈ records s' ∧ k = y.key) ↔ (y ∈ records s ∧ k = y.key) ∧ d ∉ k :: y.above := by
  constructor
  · rintro ⟨hy, rfl⟩
    obtain ⟨hold, hnot⟩ := hmem.mp hy
    exact ⟨⟨hold, rfl⟩, hnot⟩
  · rintro ⟨⟨hold, rfl⟩, hnot⟩
    exact ⟨hmem.mpr ⟨hold, hnot⟩, rfl⟩

/-- A reference that stays keeps its record, up to a target that goes away. -/
theorem hasRow_reference_iff {k : Deletion} {y : ReferenceRecord} :
    HasRow s' k (.reference y) ↔
      ∃ x, HasRow s k x ∧ d ∉ k :: x.above ∧ x.forget d = .reference y := by
  have hforget : ∀ x : Record, x.forget d = .reference y ↔ ∃ z, x = .reference z ∧
      y = { z with targetSymbol :=
        z.targetSymbol.filter fun t => d ∉ Record.symbolLine z.repository t } := by
    intro x
    cases x <;> simp [Record.forget, eq_comm]
  simp only [hforget]
  constructor
  · rintro ⟨hy, rfl⟩
    obtain ⟨row', hrow', hy⟩ := mem_records.mp hy
    obtain ⟨row, hrow, rfl⟩ := hp.reference_from row' hrow'
    obtain ⟨x, hx⟩ := exists_referenceRecord? h hrow
    have heq := hy.symm.trans (hp.referenceRecord?_eq h hrow hrow' hx)
    obtain rfl := Option.some.inj heq
    refine ⟨.reference x, hasRow_reference hrow hx, ?_, x, rfl, rfl⟩
    exact (hp.reference_kept_iff hrow hx).mp hrow'
  · rintro ⟨-, hx, hnot, x, rfl, rfl⟩
    obtain ⟨hx, rfl⟩ := hx
    obtain ⟨row, hrow, hx⟩ := mem_records.mp hx
    have hkept := (hp.reference_kept_iff hrow hx).mpr hnot
    exact hasRow_reference hkept (hp.referenceRecord?_eq h hrow hkept hx)

/-- An edge that stays keeps its record and its key. -/
theorem hasRow_edge_iff {k : Deletion} {y : EdgeRecord} :
    HasRow s' k (.edge y) ↔ HasRow s k (.edge y) ∧ d ∉ k :: (Record.edge y).above := by
  have hkept : ∀ e ∈ s.edges, ∀ z, edgeWithKey? s e = some z →
      (e ∈ s'.edges ↔ d ∉ z.1 :: (Record.edge z.2).above) := by
    rintro e he ⟨k, z⟩ hz
    obtain ⟨hy, rfl⟩ := edgeWithKey?_eq_some.mp hz
    exact hp.edge_kept_iff h he hy
  have hsame : ∀ e ∈ s'.edges, edgeWithKey? s' e = edgeWithKey? s e := by
    intro e he
    simp only [edgeWithKey?, hp.shrinks.agrees.edgeRecord? hp.sound h he]
  have hedge := exists_kept (y := (k, y)) hp.shrinks.edges hsame hkept
  simp only [edgeWithKey?_eq_some] at hedge
  exact hedge

/-- All other rows that stay keep their records. -/
theorem mem_records_iff {y : Record} (hreference : ∀ z, y ≠ .reference z)
    (hedge : ∀ z, y ≠ .edge z) :
    y ∈ records s' ↔ y ∈ records s ∧ d ∉ y.key :: y.above := by
  have ha := hp.shrinks.agrees
  rw [mem_records, mem_records]
  cases y with
  | reference z => exact absurd rfl (hreference z)
  | edge z => exact absurd rfl (hedge z)
  | repository y =>
    have hrecord := exists_kept (y := y) (r := fun r => some (repositoryRecord r))
      (P := fun y => d ∉ (Record.repository y).key :: (Record.repository y).above)
      hp.shrinks.repositories (fun _ _ => rfl) fun r hr z hz => by
        obtain rfl := Option.some.inj hz
        rw [hp.repository_kept r hr]
        simp [Record.key, Record.above, repositoryRecord]
    simpa only [Option.some.injEq] using hrecord
  | project y =>
    have hrecord := exists_kept (y := y) (r := fun p => some (projectRecord p))
      (P := fun y => d ∉ (Record.project y).key :: (Record.project y).above)
      hp.shrinks.projects (fun _ _ => rfl) fun p hmem z hz => by
        obtain rfl := Option.some.inj hz
        rw [hp.project_kept p hmem]
        simp [Record.key, Record.above, projectRecord]
    simpa only [Option.some.injEq] using hrecord
  | file y =>
    exact exists_kept (P := fun y => d ∉ (Record.file y).key :: (Record.file y).above)
      hp.shrinks.files (fun f hf => (ha.fileRecord? hp.sound h hf).symm)
      fun f hf z hz => hp.file_kept_iff h hf hz
  | symbol y =>
    exact exists_kept (P := fun y => d ∉ (Record.symbol y).key :: (Record.symbol y).above)
      hp.shrinks.symbols (fun x hx => (ha.symbolRecord? hp.sound h hx).symm)
      fun x hx z hz => hp.symbol_kept_iff h hx hz
  | membership y =>
    exact exists_kept
      (P := fun y => d ∉ (Record.membership y).key :: (Record.membership y).above)
      hp.shrinks.memberships (fun m hm => (ha.membershipRecord? hp.sound h hm).symm)
      hp.membership_kept

theorem hasRow_iff_of_ne_reference {k : Deletion} {y : Record}
    (hreference : ∀ z, y ≠ .reference z) :
    HasRow s' k y ↔ HasRow s k y ∧ d ∉ k :: y.above := by
  cases y with
  | reference z => exact absurd rfl (hreference z)
  | edge y => exact hp.hasRow_edge_iff h
  | _ => exact hasRow_kept (hp.mem_records_iff h hreference (by simp))

/-- Rows that stay keep their records, up to targets that go away. -/
theorem hasRow_iff {k : Deletion} {y : Record} :
    HasRow s' k y ↔ ∃ x, HasRow s k x ∧ d ∉ k :: x.above ∧ x.forget d = y := by
  by_cases hy : ∃ z, y = .reference z
  · obtain ⟨z, rfl⟩ := hy
    exact hp.hasRow_reference_iff h
  · have hreference : ∀ z, y ≠ .reference z := not_exists.mp hy
    simp only [Record.forget_eq_iff hreference, exists_eq_right_right]
    exact hp.hasRow_iff_of_ne_reference h hreference

/-- What the store holds afterwards. -/
theorem content_eq : content s' = (content s).delete d := by
  funext k
  refine Option.ext fun y => ?_
  rw [content_eq_some hp.sound, hp.hasRow_iff h]
  simp only [Content.delete, Option.map_eq_some_iff, Option.filter_eq_some_iff, content_eq_some h,
    decide_eq_true_eq, and_assoc]

end Prunes

/-! The rows that a key names -/

section Named

variable (h : s.Sound)
include h

theorem repositoryKey_eq_iff {name n : String} {r : RepositoryRow} {i : Id}
    (hr : s.repository? name = some r) (hi : ownerOf s i = some n) :
    Deletion.repository name = .repository n ↔ i = r.id := by
  rw [← ownerOf_iff h hr, hi, Option.some.injEq, Deletion.repository.injEq, eq_comm]

theorem fileKey_eq_iff {repository path n p : String} {f : FileRow} {i : Id}
    (hf : file? s repository path = some f) (hi : fileHome? s i = some (n, p)) :
    Deletion.file repository path = .file n p ↔ i = f.id := by
  rw [← fileHome?_iff h hf, hi, Option.some.injEq, Deletion.file.injEq, Prod.mk.injEq,
    eq_comm (a := n), eq_comm (a := p)]

theorem symbolKey_eq_iff {repository n : String} {k k' : SymbolKey} {x y : SymbolRow}
    (hx : symbol? s repository k = some x) (hy : symbol? s n k' = some y) :
    Record.symbolParent repository k = Record.symbolParent n k' ↔ y.id = x.id := by
  obtain ⟨f, hf, hxmem, hxfile, hxname, hxline⟩ := (symbol?_spec h).mp hx
  obtain ⟨g, hg, hymem, hyfile, hyname, hyline⟩ := (symbol?_spec h).mp hy
  have hhome : fileHome? s y.fileId = some (n, k'.filePath) := (fileHome?_iff h hg).mpr hyfile
  constructor
  · intro heq
    obtain ⟨rfl, hpath, hname, hline⟩ := Deletion.symbol.inj heq
    have hkey : k = k' := by
      cases k
      cases k'
      simp_all
    rw [Option.some.inj (hx.symm.trans (hkey ▸ hy))]
  · intro hid
    obtain rfl := eq_of_key h.symbol_ids hymem hxmem hid
    obtain ⟨rfl, hpath⟩ := Deletion.file.inj ((fileKey_eq_iff h hf hhome).mpr hxfile)
    rw [Record.symbolParent, Record.symbolParent, hpath, ← hxname, ← hxline, hyname, hyline]

omit h in
/-- A row with the given id is one of those that a test takes when it takes the row itself. -/
theorem mem_filter_ids {ρ κ : Type} {rows : List ρ} {id : ρ → κ} (hnodup : (rows.map id).Nodup)
    {test : ρ → Bool} {row : ρ} (hrow : row ∈ rows) :
    id row ∈ (rows.filter test).map id ↔ test row = true := by
  rw [List.mem_map]
  constructor
  · rintro ⟨other, hother, hid⟩
    obtain ⟨hmem, htest⟩ := List.mem_filter.mp hother
    rwa [eq_of_key hnodup hmem hrow hid] at htest
  · intro htest
    exact ⟨row, List.mem_filter.mpr ⟨hrow, htest⟩, rfl⟩

/-! A key of which nothing is held -/

theorem ne_of_hasRow {d k : Deletion} {x : Record} (hd : content s d = none)
    (hx : HasRow s k x) : d ≠ k := by
  rintro rfl
  rw [(content_eq_some h).mpr hx] at hd
  simp at hd

omit h in
theorem ne_repository_of_repository? {d : Deletion} (hd : content s d = none) {n : String}
    {r : RepositoryRow} (hr : s.repository? n = some r) : d ≠ .repository n := by
  rintro rfl
  simp [content, hr] at hd

theorem not_mem_fileLine {d : Deletion} (hd : content s d = none) {i : Id} {n p : String}
    (hi : fileHome? s i = some (n, p)) : d ∉ Record.fileLine n p := by
  obtain ⟨f, hf, -⟩ := file?_of_fileHome? h hi
  obtain ⟨r, hr, -⟩ := file?_eq_some.mp hf
  have hheld : (content s (.file n p)).isSome = true := by simp [isSome_content_file h, hf]
  simp only [Record.fileLine, List.mem_cons, List.not_mem_nil, or_false, not_or]
  refine ⟨?_, ne_repository_of_repository? hd hr⟩
  rintro rfl
  simp [hd] at hheld

theorem not_mem_symbolLine {d : Deletion} (hd : content s d = none) {n : String} {k : SymbolKey}
    {x : SymbolRow} (hx : symbol? s n k = some x) : d ∉ Record.symbolLine n k := by
  obtain ⟨f, hf, -⟩ := (symbol?_spec h).mp hx
  have hheld : (content s (Record.symbolParent n k)).isSome = true := by
    rw [Record.symbolParent, isSome_content_symbol h, hx]
    rfl
  rw [Record.symbolLine, List.mem_cons, not_or]
  refine ⟨?_, not_mem_fileLine h hd ((fileHome?_iff h hf).mpr rfl)⟩
  rintro rfl
  simp [hd] at hheld

/-- A deletion of what is not held takes nothing away. -/
theorem prunes_self {d : Deletion} (hd : content s d = none) : Prunes s s d [] [] where
  shrinks := .refl s
  sound := h
  file_gone i n p hi := by simp [not_mem_fileLine h hd hi]
  symbol_gone x n k hx := by simp [not_mem_symbolLine h hd hx]
  repository_kept r hr := iff_of_true hr (ne_of_hasRow h hd (hasRow_repository hr))
  file_kept f hf := by simp [hf]
  symbol_kept x hx := by simp [hx]
  reference_kept row hrow x hx := by
    rw [Store.dropTarget_eq_self (by simp)]
    exact iff_of_true hrow ⟨ne_of_hasRow h hd (hasRow_reference hrow hx), List.not_mem_nil⟩
  reference_from row hrow := ⟨row, hrow, (Store.dropTarget_eq_self (by simp)).symm⟩
  edge_kept e he y hy := by
    obtain ⟨r, hr, -⟩ := repository?_of_ownerOf h (edgeRecord?_eq_some.mp hy).1
    have hends : ∀ id, endGone [] id = false := fun id => Store.endGone_eq_false (by simp)
    simp only [hends, and_self, and_true]
    exact iff_of_true he
      ⟨ne_of_hasRow h hd (hasRow_edge he hy), ne_repository_of_repository? hd hr⟩
  project_kept p hp := iff_of_true hp (ne_of_hasRow h hd (hasRow_project hp))
  membership_kept m hm y hy := by
    have hrow := hasRow_membership hm hy
    obtain ⟨p, r, hp, hr, -⟩ :=
      (live_membership h).mp (live_of_mem (mem_records_iff_hasRow.mpr ⟨_, hrow⟩))
    have hproject : d ≠ .project y.project := by
      rintro rfl
      simp [content, hp] at hd
    simp only [Record.above, List.mem_cons, List.not_mem_nil, or_false, not_or]
    exact iff_of_true hm
      ⟨ne_of_hasRow h hd hrow, hproject, ne_repository_of_repository? hd hr⟩

/-! Keys with nothing below them but memberships -/

omit h in
/-- A deletion that leaves repositories, files and symbols alone. -/
theorem prunes_leaf {d : Deletion} (hshrinks : Shrinks s s') (h' : s'.Sound)
    (hrepositories : s'.repositories = s.repositories) (hfiles : s'.files = s.files)
    (hsymbols : s'.symbols = s.symbols) (hsub : s'.references ⊆ s.references)
    (hd : ∀ n k, d ∉ Record.symbolLine n k)
    (hreference : ∀ row ∈ s.references, ∀ x, referenceRecord? s row = some x →
      (row ∈ s'.references ↔ d ≠ (Record.reference x).key))
    (hedge : ∀ e ∈ s.edges, ∀ y, edgeRecord? s e = some y →
      (e ∈ s'.edges ↔ d ≠ .edge y.repository e.key))
    (hproject : ∀ p ∈ s.projects, p ∈ s'.projects ↔ d ≠ .project p.name)
    (hmembership : ∀ m ∈ s.memberships, ∀ y, membershipRecord? s m = some y →
      (m ∈ s'.memberships ↔ d ∉ (Record.membership y).key :: (Record.membership y).above)) :
    Prunes s s' d [] [] := by
  have hline : ∀ n p, d ∉ Record.fileLine n p :=
    fun n p hmem => hd n ⟨p, "", 0⟩ (List.mem_cons_of_mem _ hmem)
  have hrepository : ∀ n, d ≠ .repository n := by
    rintro n rfl
    exact hline n "" (by simp [Record.fileLine])
  have hends : ∀ id, endGone [] id = false := fun id => Store.endGone_eq_false (by simp)
  have hsame : ∀ row, dropTarget [] row = row := fun row => Store.dropTarget_eq_self (by simp)
  exact
    { shrinks := hshrinks
      sound := h'
      file_gone := fun i n p _ => by simp [hline]
      symbol_gone := fun x n k _ => by simp [hd]
      repository_kept := fun r hr => by simp [hrepositories, hr, hrepository]
      file_kept := fun f hf => by simp [hfiles, hf]
      symbol_kept := fun x hx => by simp [hsymbols, hx]
      reference_kept := fun row hrow x hx => by simp [hsame, hreference row hrow x hx]
      reference_from := fun row hrow => ⟨row, hsub hrow, (hsame row).symm⟩
      edge_kept := fun e he y hy => by simp [hends, hrepository, hedge e he y hy]
      project_kept := hproject
      membership_kept := hmembership }

theorem prunes_reference {repository filePath kind name : String} {line column : Nat} {f : FileRow}
    (hf : file? s repository filePath = some f) {d : Deletion}
    (hd : d = .reference repository filePath line column kind name) :
    Prunes s (d.apply s).1 d [] [] := by
  have hshrinks := shrinks_apply s d
  have hsound := Sound.applyDeletion h d
  subst hd
  simp only [Deletion.apply, hf] at hshrinks hsound ⊢
  refine prunes_leaf hshrinks hsound rfl rfl rfl (List.filter_subset_self _)
    (by simp [Record.symbolLine, Record.symbolParent, Record.fileLine]) ?_
    (fun e he y _ => iff_of_true he (by simp)) (fun p hp => iff_of_true hp (by simp))
    fun m hm y _ => iff_of_true hm (by simp [Record.key, Record.above])
  intro row hrow x hx
  obtain ⟨⟨n, p⟩, hhome, rfl⟩ := Option.map_eq_some_iff.mp hx
  have hfile : fileHome? s row.fileId = some (repository, filePath) ↔ row.fileId = f.id :=
    fileHome?_iff h hf
  rw [hhome, Option.some.injEq, Prod.mk.injEq] at hfile
  rw [List.mem_filter, and_iff_right hrow, ne_comm, ne_eq, Record.key, Deletion.reference.injEq,
    Bool.not_eq_true', ← Bool.not_eq_true, not_iff_not]
  simp only [Bool.and_eq_true, beq_iff_eq, ← hfile, and_assoc]

theorem prunes_edge {repository key : String} {r : RepositoryRow}
    (hr : s.repository? repository = some r) {d : Deletion} (hd : d = .edge repository key) :
    Prunes s (d.apply s).1 d [] [] := by
  have hshrinks := shrinks_apply s d
  have hsound := Sound.applyDeletion h d
  subst hd
  simp only [Deletion.apply, hr] at hshrinks hsound ⊢
  refine prunes_leaf hshrinks hsound rfl rfl rfl (List.Subset.refl _)
    (by simp [Record.symbolLine, Record.symbolParent, Record.fileLine])
    (fun row hrow x _ => iff_of_true hrow (by simp [Record.key])) ?_
    (fun p hp => iff_of_true hp (by simp))
    fun m hm y _ => iff_of_true hm (by simp [Record.key, Record.above])
  intro e he y hy
  have hown : ownerOf s e.repositoryId = some repository ↔ e.repositoryId = r.id :=
    ownerOf_iff h hr
  rw [(edgeRecord?_eq_some.mp hy).1, Option.some.injEq] at hown
  rw [List.mem_filter, and_iff_right he, ne_comm, ne_eq, Deletion.edge.injEq, Bool.not_eq_true',
    ← Bool.not_eq_true, not_iff_not]
  simp only [Bool.and_eq_true, beq_iff_eq, ← hown]

theorem prunes_project {name : String} {p : ProjectRow} (hp : s.project? name = some p)
    {d : Deletion} (hd : d = .project name) : Prunes s (d.apply s).1 d [] [] := by
  have hshrinks := shrinks_apply s d
  have hsound := Sound.applyDeletion h d
  subst hd
  simp only [Deletion.apply, hp, Store.removeProject] at hshrinks hsound ⊢
  refine prunes_leaf hshrinks hsound rfl rfl rfl (List.Subset.refl _)
    (by simp [Record.symbolLine, Record.symbolParent, Record.fileLine])
    (fun row hrow x _ => iff_of_true hrow (by simp [Record.key]))
    (fun e he y _ => iff_of_true he (by simp)) ?_ ?_
  · intro q hq
    rw [List.mem_filter, and_iff_right hq, bne_iff_ne, ne_comm, ne_eq, ne_eq,
      Deletion.project.injEq]
  · intro m hm y hy
    have hown : projectName? s m.projectId = some name ↔ m.projectId = p.id := project?_iff h hp
    rw [(membershipRecord?_eq_some.mp hy).1, Option.some.injEq] at hown
    simp [hm, Record.key, Record.above, ← hown, eq_comm (a := name)]

theorem prunes_membership {project repository : String} {p : ProjectRow} {r : RepositoryRow}
    (hp : s.project? project = some p) (hr : s.repository? repository = some r)
    {d : Deletion} (hd : d = .membership project repository) :
    Prunes s (d.apply s).1 d [] [] := by
  have hshrinks := shrinks_apply s d
  have hsound := Sound.applyDeletion h d
  subst hd
  simp only [Deletion.apply, hp, hr] at hshrinks hsound ⊢
  refine prunes_leaf hshrinks hsound rfl rfl rfl (List.Subset.refl _)
    (by simp [Record.symbolLine, Record.symbolParent, Record.fileLine])
    (fun row hrow x _ => iff_of_true hrow (by simp [Record.key]))
    (fun e he y _ => iff_of_true he (by simp)) (fun p hp => iff_of_true hp (by simp)) ?_
  intro m hm y hy
  obtain ⟨hproject, howner⟩ := membershipRecord?_eq_some.mp hy
  have hproject' : projectName? s m.projectId = some project ↔ m.projectId = p.id :=
    project?_iff h hp
  have howner' : ownerOf s m.repositoryId = some repository ↔ m.repositoryId = r.id :=
    ownerOf_iff h hr
  rw [hproject, Option.some.injEq] at hproject'
  rw [howner, Option.some.injEq] at howner'
  simp [hm, Record.key, Record.above, ← hproject', ← howner', eq_comm (a := project),
    eq_comm (a := repository), imp_iff_not_or]

/-! Symbols, files and repositories -/

theorem prunes_symbol {repository filePath name : String} {line : Nat} {x : SymbolRow}
    (hx : symbol? s repository ⟨filePath, name, line⟩ = some x) {d : Deletion}
    (hd : d = .symbol repository filePath name line) :
    ∃ files symbols, Prunes s (d.apply s).1 d files symbols := by
  have hshrinks := shrinks_apply s d
  have hsound := Sound.applyDeletion h d
  have hgone : ∀ y ∈ s.symbols,
      y.id ∈ (s.symbolsGone fun y => y.id == x.id) ↔ y.id = x.id := by
    intro y hy
    rw [Store.symbolsGone, mem_filter_ids h.symbol_ids hy, beq_iff_eq]
  have hends : ∀ id, endGone [] id = false := fun id => Store.endGone_eq_false (by simp)
  subst hd
  simp only [Deletion.apply, hx] at hshrinks hsound ⊢
  refine ⟨[], s.symbolsGone fun y => y.id == x.id, ?_⟩
  exact
    { shrinks := hshrinks
      sound := hsound
      file_gone := fun i n p _ => by simp [Record.fileLine]
      symbol_gone := by
        intro y n k hy
        obtain ⟨-, -, hmem, -⟩ := (symbol?_spec h).mp hy
        rw [hgone y hmem, ← symbolKey_eq_iff h hx hy]
        simp [Record.symbolLine, Record.symbolParent, Record.fileLine]
      repository_kept := fun r hr => iff_of_true hr (by simp)
      file_kept := fun f hf => iff_of_true hf List.not_mem_nil
      symbol_kept := by
        intro y hy
        rw [hgone y hy]
        simp [hy]
      reference_kept := by
        intro row hrow y _
        rw [Store.removeSymbols_references]
        exact iff_of_true (List.mem_map_of_mem hrow) (by simp [Record.key])
      reference_from := by
        intro row' hrow'
        obtain ⟨row, hrow, rfl⟩ := List.mem_map.mp hrow'
        exact ⟨row, hrow, rfl⟩
      edge_kept := by
        intro e he y _
        simp [Store.mem_removeSymbols_edges, he, hends]
      project_kept := fun p hp => iff_of_true hp (by simp)
      membership_kept := fun m hm y _ => iff_of_true hm (by simp [Record.key, Record.above]) }

theorem prunes_file {repository path : String} {f : FileRow}
    (hf : file? s repository path = some f) {d : Deletion} (hd : d = .file repository path) :
    ∃ files symbols, Prunes s (d.apply s).1 d files symbols := by
  have hshrinks := shrinks_apply s d
  have hsound := Sound.applyDeletion h d
  have hgone : ∀ g ∈ s.files, g.id ∈ (s.filesGone fun g => g.id == f.id) ↔ g.id = f.id := by
    intro g hg
    rw [Store.filesGone, mem_filter_ids h.file_ids hg, beq_iff_eq]
  subst hd
  have hfile : ∀ i n p, fileHome? s i = some (n, p) →
      (i ∈ (s.filesGone fun g => g.id == f.id) ↔
        Deletion.file repository path ∈ Record.fileLine n p) := by
    intro i n p hi
    obtain ⟨g, hg, rfl⟩ := file?_of_fileHome? h hi
    obtain ⟨-, -, -, hmem, -⟩ := (file?_spec h).mp hg
    rw [hgone g hmem, ← fileKey_eq_iff h hf hi]
    simp [Record.fileLine]
  simp only [Deletion.apply, hf] at hshrinks hsound ⊢
  refine ⟨s.filesGone fun g => g.id == f.id,
    s.symbolsGone fun x => (s.filesGone fun g => g.id == f.id).contains x.fileId, ?_⟩
  exact
    { shrinks := hshrinks
      sound := hsound
      file_gone := hfile
      symbol_gone := by
        intro x n k hx
        obtain ⟨g, hg, hmem, hid, -⟩ := (symbol?_spec h).mp hx
        rw [Store.symbolsGone, mem_filter_ids h.symbol_ids hmem, List.contains_iff_mem,
          hfile _ _ _ ((fileHome?_iff h hg).mpr hid)]
        simp [Record.symbolLine, Record.symbolParent]
      repository_kept := fun r hr => iff_of_true hr (by simp)
      file_kept := by
        intro g hg
        rw [hgone g hg]
        simp [hg]
      symbol_kept := by
        intro x hx
        rw [Store.symbolsGone, mem_filter_ids h.symbol_ids hx]
        simp [hx]
      reference_kept := by
        intro row hrow y _
        have habove : dropTarget (s.symbolsGone fun x =>
            (s.filesGone fun g => g.id == f.id).contains x.fileId) row ∈
              (s.aboveFiles fun g => g.id == f.id).references := List.mem_map_of_mem hrow
        rw [Store.mem_removeFiles_references, and_iff_right habove, Store.dropTarget_fileId]
        simp [Record.key]
      reference_from := by
        intro row' hrow'
        obtain ⟨row, hrow, rfl⟩ := List.mem_map.mp (Store.mem_removeFiles_references.mp hrow').1
        exact ⟨row, hrow, rfl⟩
      edge_kept := by
        intro e he y _
        rw [Store.mem_removeFiles_edges, Store.aboveFiles, Store.mem_removeSymbols_edges]
        simp [he, and_comm]
      project_kept := fun p hp => iff_of_true hp (by simp)
      membership_kept := fun m hm y _ => iff_of_true hm (by simp [Record.key, Record.above]) }

theorem mem_filesGone_of_owner {i owner : Id} (hi : s.HasFile i owner) (gone : Id) :
    i ∈ (s.filesGone fun f => f.repositoryId == gone) ↔ owner = gone := by
  obtain ⟨f, hf, rfl, rfl⟩ := hi
  rw [Store.filesGone, mem_filter_ids h.file_ids hf, beq_iff_eq]

theorem mem_symbolsGone_of_owner {i owner : Id} (hi : s.HasSymbol i owner) (gone : Id) :
    i ∈ (s.symbolsGone fun x => x.repositoryId == gone) ↔ owner = gone := by
  obtain ⟨x, hx, rfl, rfl⟩ := hi
  rw [Store.symbolsGone, mem_filter_ids h.symbol_ids hx, beq_iff_eq]

/-- A reference of one repository has no target in another one. -/
theorem dropTarget_of_other {row : ReferenceRow} (hrow : row ∈ s.references) {gone : Id}
    (hne : row.repositoryId ≠ gone) :
    dropTarget (s.symbolsGone fun x => x.repositoryId == gone) row = row := by
  refine Store.dropTarget_eq_self fun i hi hmem => hne ?_
  exact (mem_symbolsGone_of_owner h (h.reference_target row hrow i hi) gone).mp hmem

/-- An edge of one repository has no end in another one. -/
theorem ends_of_other {e : EdgeRow} (he : e ∈ s.edges) {gone : Id} (hne : e.repositoryId ≠ gone) :
    (endGone (s.filesGone fun f => f.repositoryId == gone) e.fromFileId = false ∧
      endGone (s.filesGone fun f => f.repositoryId == gone) e.toFileId = false) ∧
    endGone (s.symbolsGone fun x => x.repositoryId == gone) e.fromSymbolId = false ∧
    endGone (s.symbolsGone fun x => x.repositoryId == gone) e.toSymbolId = false := by
  have hfits := h.edge_fits e he
  have hfile : ∀ id, (∀ i, id = some i → s.HasFile i e.repositoryId) →
      endGone (s.filesGone fun f => f.repositoryId == gone) id = false :=
    fun id hid => Store.endGone_eq_false fun i hi hmem =>
      hne ((mem_filesGone_of_owner h (hid i hi) gone).mp hmem)
  have hsymbol : ∀ id, (∀ i, id = some i → s.HasSymbol i e.repositoryId) →
      endGone (s.symbolsGone fun x => x.repositoryId == gone) id = false :=
    fun id hid => Store.endGone_eq_false fun i hi hmem =>
      hne ((mem_symbolsGone_of_owner h (hid i hi) gone).mp hmem)
  exact ⟨⟨hfile _ fun i hi => hfits.files i (.inl hi), hfile _ fun i hi => hfits.files i (.inr hi)⟩,
    hsymbol _ fun i hi => hfits.symbols i (.inl hi),
    hsymbol _ fun i hi => hfits.symbols i (.inr hi)⟩

theorem prunes_repository {name : String} {r : RepositoryRow}
    (hr : s.repository? name = some r) {d : Deletion} (hd : d = .repository name) :
    ∃ files symbols, Prunes s (d.apply s).1 d files symbols := by
  have hshrinks := shrinks_apply s d
  have hsound := Sound.applyDeletion h d
  have happly : (d.apply s).1 = s.removeRepository name := by
    simp only [hd, Deletion.apply, hr]
  rw [happly, h.removeRepository_eq hr] at hshrinks hsound ⊢
  have hnamed : ∀ i owner n p, s.HasFile i owner → fileHome? s i = some (n, p) →
      (d = .repository n ↔ owner = r.id) := by
    intro i owner n p hi hhome
    rw [hd, repositoryKey_eq_iff h hr (ownerOf_of_fileHome? h hi hhome)]
  refine ⟨s.filesGone fun f => f.repositoryId == r.id,
    s.symbolsGone fun x => x.repositoryId == r.id, ?_⟩
  exact
    { shrinks := hshrinks
      sound := hsound
      file_gone := by
        intro i n p hi
        obtain ⟨f, hf, rfl⟩ := file?_of_fileHome? h hi
        obtain ⟨-, -, -, hmem, -⟩ := (file?_spec h).mp hf
        have hown : s.HasFile f.id f.repositoryId := ⟨f, hmem, rfl, rfl⟩
        rw [mem_filesGone_of_owner h hown, ← hnamed _ _ _ _ hown hi]
        simp [hd, Record.fileLine]
      symbol_gone := by
        intro x n k hx
        obtain ⟨g, hg, hmem, hid, -⟩ := (symbol?_spec h).mp hx
        rw [mem_symbolsGone_of_owner h ⟨x, hmem, rfl, rfl⟩,
          ← hnamed _ _ _ _ (h.symbol_file x hmem) ((fileHome?_iff h hg).mpr hid)]
        simp [hd, Record.symbolLine, Record.symbolParent, Record.fileLine]
      repository_kept := by
        intro x hx
        rw [List.mem_filter, and_iff_right hx, bne_iff_ne, ne_comm, hd, ne_eq, ne_eq,
          Deletion.repository.injEq]
      file_kept := by
        intro f hf
        rw [mem_filesGone_of_owner h ⟨f, hf, rfl, rfl⟩]
        simp [hf]
      symbol_kept := by
        intro x hx
        rw [mem_symbolsGone_of_owner h ⟨x, hx, rfl, rfl⟩]
        simp [hx]
      reference_kept := by
        intro row hrow y _
        rw [mem_filesGone_of_owner h (h.reference_file row hrow), List.mem_filter, bne_iff_ne,
          Store.dropTarget_repositoryId]
        by_cases hne : row.repositoryId = r.id
        · simp [hne]
        · simp [dropTarget_of_other h hrow hne, hrow, hne, hd, Record.key]
      reference_from := by
        intro row hrow
        obtain ⟨hrow, hne⟩ := List.mem_filter.mp hrow
        exact ⟨row, hrow, (dropTarget_of_other h hrow (by simpa using hne)).symm⟩
      edge_kept := by
        intro e he y hy
        have hown : d = .repository y.repository ↔ e.repositoryId = r.id :=
          hd ▸ repositoryKey_eq_iff h hr (edgeRecord?_eq_some.mp hy).1
        rw [List.mem_filter, and_iff_right he, bne_iff_ne]
        constructor
        · intro hne
          exact ⟨by simp [hd], fun heq => hne (hown.mp heq), ends_of_other h he hne⟩
        · rintro ⟨-, hne, -⟩ hid
          exact hne (hown.mpr hid)
      project_kept := fun p hp => iff_of_true hp (by simp [hd])
      membership_kept := by
        intro m hm y hy
        have hown := repositoryKey_eq_iff h hr (membershipRecord?_eq_some.mp hy).2
        rw [List.mem_filter, and_iff_right hm, bne_iff_ne, ne_eq, ← hown]
        simp [hd, Record.key, Record.above] }

/-- A deletion takes away the row of its key and what stands below it. -/
theorem prunes_apply (d : Deletion) : ∃ files symbols, Prunes s (d.apply s).1 d files symbols := by
  -- A key whose own names lead nowhere is not held, and the store stays.
  have hself : (d.apply s).1 = s → content s d = none →
      ∃ files symbols, Prunes s (d.apply s).1 d files symbols :=
    fun hs hd => ⟨[], [], hs.symm ▸ prunes_self h hd⟩
  cases d with
  | repository name =>
    cases hr : s.repository? name with
    | none => exact hself (by simp [Deletion.apply, hr]) (by simp [content, hr])
    | some r => exact prunes_repository h hr rfl
  | file repo path =>
    cases hf : file? s repo path with
    | none => exact hself (by simp [Deletion.apply, hf]) (by simp [content, hf])
    | some f => exact prunes_file h hf rfl
  | symbol repo filePath name line =>
    cases hx : symbol? s repo ⟨filePath, name, line⟩ with
    | none => exact hself (by simp [Deletion.apply, hx]) (by simp [content, hx])
    | some x => exact prunes_symbol h hx rfl
  | reference repo filePath line column kind name =>
    cases hf : file? s repo filePath with
    | none => exact hself (by simp [Deletion.apply, hf]) (by simp [content, referenceRow?, hf])
    | some f => exact ⟨[], [], prunes_reference h hf rfl⟩
  | edge repo key =>
    cases hr : s.repository? repo with
    | none => exact hself (by simp [Deletion.apply, hr]) (by simp [content, edgeRow?, hr])
    | some r => exact ⟨[], [], prunes_edge h hr rfl⟩
  | project name =>
    cases hp : s.project? name with
    | none => exact hself (by simp [Deletion.apply, hp]) (by simp [content, hp])
    | some p => exact ⟨[], [], prunes_project h hp rfl⟩
  | membership proj repo =>
    cases hp : s.project? proj with
    | none => exact hself (by simp [Deletion.apply, hp]) (by simp [content, membershipRow?, hp])
    | some p =>
      cases hr : s.repository? repo with
      | none =>
        exact hself (by simp [Deletion.apply, hr]) (by simp [content, membershipRow?, hr])
      | some r => exact ⟨[], [], prunes_membership h hp hr rfl⟩

/-- A deletion changes the content as its key says. -/
theorem content_apply (d : Deletion) : content (d.apply s).1 = (content s).delete d := by
  obtain ⟨files, symbols, hprunes⟩ := prunes_apply h d
  exact hprunes.content_eq h

theorem content_applyDeletions (keys : List Deletion) :
    content (applyDeletions s keys).1 = (content s).prune keys := by
  rw [applyDeletions_fst]
  induction keys generalizing s with
  | nil => rw [Content.prune_nil]; rfl
  | cons d rest ih =>
    rw [List.foldl_cons, ih (Sound.applyDeletion h d), content_apply h, Content.prune_cons]

/-- A file goes away with its own key or that of its repository, and else it stays as it is. -/
theorem prune_file (keys : List Deletion) (repository path : String) :
    (content s).prune keys (.file repository path) =
      if ∃ d ∈ keys, d ∈ Record.fileLine repository path then none
      else content s (.file repository path) := by
  cases hk : content s (.file repository path) with
  | none => simp [Content.prune, hk]
  | some x =>
    have hrow := (content_eq_some h).mp hk
    cases x with
    | file f =>
      obtain ⟨rfl, rfl⟩ := Deletion.file.inj hrow.2
      have hline : Deletion.file f.repository f.path :: (Record.file f).above =
          Record.fileLine f.repository f.path := rfl
      rw [Content.prune, hk, Option.filter_some, hline]
      by_cases hgone : ∃ d ∈ keys, d ∈ Record.fileLine f.repository f.path
      · rw [if_pos hgone, if_neg (by simpa using hgone)]
        rfl
      · rw [if_neg hgone, if_pos (by simpa using hgone)]
        rfl
    | edge y =>
      obtain ⟨e, -, -, hkey⟩ := hrow
      exact absurd hkey (by simp)
    | _ => exact absurd hrow.2 (by simp [Record.key])

end Named

end CodeIndex.Sync
