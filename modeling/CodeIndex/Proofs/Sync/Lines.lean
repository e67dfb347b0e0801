import CodeIndex.Proofs.Sync.Codec
import CodeIndex.Sync.Export

/-!
The lines of written records. A text of records, one to a line, is cut back into these records:
a record holds no line feed, does not end with a carriage return and is not blank.
-/
namespace CodeIndex.Sync

open Text.Pieces (splitChars lineChars dropReturn)

/-- A record as a line: no control characters, and an opening brace in front. -/
structure IsLine (line : String) : Prop where
  visible : ∀ c ∈ line.toList, 32 ≤ c.toNat
  opens : ∃ cs, line.toList = '\x7b' :: cs

theorem Codec.Writes.isLine {α : Type} {c : Codec α} {a : α} (h : c.Writes a) :
    IsLine (c.encode a) := ⟨h.visible, h.opens⟩

theorem IsLine.ne_of_mem {line : String} (h : IsLine line) {c x : Char} (hc : c ∈ line.toList)
    (hx : x.toNat < 32) : c ≠ x := by
  rintro rfl
  have hvisible := h.visible c hc
  omega

theorem splitChars_append {sep : Char} {cs : List Char} (h : ∀ c ∈ cs, c ≠ sep)
    (rest : List Char) : splitChars sep (cs ++ sep :: rest) = cs :: splitChars sep rest := by
  induction cs with
  | nil => simp [splitChars]
  | cons c cs ih =>
    have hc := h c List.mem_cons_self
    have hrest := ih fun x hx => h x (List.mem_cons_of_mem _ hx)
    simp [splitChars, hc, hrest]

theorem toList_linesText (ls : List String) :
    (Manifest.linesText ls).toList = ls.flatMap fun l => l.toList ++ ['\n'] := by
  induction ls with
  | nil => rfl
  | cons l ls ih =>
    rw [Manifest.linesText, List.map_cons, String.join_cons, String.toList_append,
      List.flatMap_cons, ← ih]
    simp [Manifest.linesText]

theorem splitChars_linesText {ls : List String} (h : ∀ l ∈ ls, IsLine l) :
    splitChars '\n' (Manifest.linesText ls).toList = ls.map String.toList ++ [[]] := by
  rw [toList_linesText]
  induction ls with
  | nil => rfl
  | cons l ls ih =>
    have hl := h l List.mem_cons_self
    rw [List.flatMap_cons, List.append_assoc, List.singleton_append,
      splitChars_append fun c hc => hl.ne_of_mem hc (by decide),
      ih fun l hl => h l (List.mem_cons_of_mem _ hl)]
    rfl

theorem IsLine.dropReturn {line : String} (h : IsLine line) :
    dropReturn line.toList = line.toList := by
  rw [Text.Pieces.dropReturn, if_neg]
  intro hlast
  exact h.ne_of_mem (List.mem_of_getLast? hlast) (by decide) rfl

theorem lines_linesText {ls : List String} (h : ∀ l ∈ ls, IsLine l) :
    Text.Pieces.lines (Manifest.linesText ls) = ls := by
  have hended : (ls.map String.toList).map dropReturn = ls.map String.toList := by
    rw [List.map_map]
    apply List.map_congr_left
    intro l hl
    exact (h l hl).dropReturn
  rw [Text.Pieces.lines, lineChars]
  simp only [splitChars_linesText h, List.dropLast_concat, List.getLast?_concat, hended,
    List.map_map]
  conv_rhs => rw [← List.map_id ls]
  apply List.map_congr_left
  intro l _
  exact String.ofList_toList

theorem IsLine.not_blank {line : String} (h : IsLine line) :
    Text.Blank.isBlankText line = false := by
  obtain ⟨cs, hopens⟩ := h.opens
  have hbrace : Text.Blank.isBlank '\x7b' = false := by decide
  simp [Text.Blank.isBlankText, hopens, hbrace]

/-- No record is taken for a blank line. -/
theorem recordLines_linesText {ls : List String} (h : ∀ l ∈ ls, IsLine l) :
    recordLines (Manifest.linesText ls) = (ls.zipIdx 1).map fun p => (p.2, p.1) := by
  rw [recordLines, lines_linesText h]
  conv_rhs => rw [← List.filterMap_eq_map]
  apply List.filterMap_congr
  intro p hp
  simp [(h p.1 (List.fst_mem_of_mem_zipIdx hp)).not_blank]

theorem map_recordLines {ls : List String} (h : ∀ l ∈ ls, IsLine l) :
    (recordLines (Manifest.linesText ls)).map Prod.snd = ls := by
  rw [recordLines_linesText h, List.map_map]
  exact List.zipIdx_map_fst 1 ls

/-! The manifest -/

theorem Deletion.isLine_encode {d : Deletion} (h : d.Fits) : IsLine d.encode :=
  ⟨encode_visible h, d.encode_opens⟩

theorem isLine_encode_keys {keys : List Deletion} (h : ∀ d ∈ keys, d.Fits) :
    ∀ line ∈ keys.map Deletion.encode, IsLine line := by
  intro line hline
  obtain ⟨d, hd, rfl⟩ := List.mem_map.mp hline
  exact Deletion.isLine_encode (h d hd)

theorem filterMap_decode {keys : List Deletion} (h : ∀ d ∈ keys, d.Fits) :
    (keys.map Deletion.encode).filterMap (fun line => (Deletion.decode line).toOption) = keys := by
  rw [List.filterMap_map]
  conv_rhs => rw [← List.filterMap_some (l := keys)]
  apply List.filterMap_congr
  intro d hd
  simp [Deletion.decode_encode (h d hd), Except.toOption]

/-- The keys of a manifest are read back, and no line of it is passed over. -/
theorem Manifest.ofText_text {keys : List Deletion} (h : ∀ d ∈ keys, d.Fits) :
    Manifest.ofText (Manifest.text keys) = (keys, []) := by
  have hsnd := map_recordLines (isLine_encode_keys h)
  have hread : ∀ p ∈ recordLines (Manifest.text keys), ∃ d, Deletion.decode p.2 = .ok d := by
    intro p hp
    have hmem : p.2 ∈ keys.map Deletion.encode := by
      rw [← hsnd]
      exact List.mem_map_of_mem hp
    obtain ⟨d, hd, hline⟩ := List.mem_map.mp hmem
    rw [← hline]
    exact ⟨d, Deletion.decode_encode (h d hd)⟩
  rw [Manifest.ofText, Prod.mk.injEq]
  constructor
  · have hkeys := filterMap_decode h
    rw [← hsnd, List.filterMap_map] at hkeys
    rw [List.filterMap_map]
    exact hkeys
  · rw [List.filterMap_map, List.filterMap_eq_nil_iff]
    intro p hp
    obtain ⟨d, hd⟩ := hread p hp
    simp [hd]

end CodeIndex.Sync
