import CodeIndex.Proofs.Sync.Ranges
import CodeIndex.Proofs.Sync.Tables

/-!
Records as texts. A table is written as one line for each record, the keys of a manifest likewise.
Reading a text back cuts it into lines, leaves out the blank ones and decodes the others. It gives
the records that were written, whatever their texts hold.
-/
namespace CodeIndex.Sync

namespace Record

/-- The line of a record. -/
def encode : Record → String
  | repository r => repositoryCodec.encode r
  | file f => fileCodec.encode f
  | symbol x => symbolCodec.encode x
  | reference x => referenceCodec.encode x
  | edge e => edgeCodec.encode e
  | project p => projectCodec.encode p
  | membership m => membershipCodec.encode m

/-- The symbols that a record names. -/
def symbolKeys : Record → List SymbolKey
  | reference x => x.targetSymbol.toList
  | edge e => e.fromSymbol.toList ++ e.toSymbol.toList
  | _ => []

/-- All numbers of a record lie in their ranges, those in the keys of symbols too. -/
structure Sized (r : Record) : Prop where
  fits : r.Fits
  keys : ∀ k ∈ r.symbolKeys, k.lineStart < 2 ^ 32

/-- Records as a text, one to a line. -/
def text (rs : List Record) : String := Manifest.linesText (rs.map encode)

end Record

/-- What the lines of a text of a table are read as. -/
def readRecords (table text : String) : List (Except Json.Fault Record) :=
  (recordLines text).map fun l => Record.decode table l.2

/-- An export writes the records of each table as such a text. -/
theorem map_text_all (s : Store) :
    Table.all.map (fun table => table.text s) = (tableRecords s).map Record.text := by
  simp [Table.all, Table.text, Table.of, tableRecords, Record.text, Function.comp_def,
    Record.encode]

/-! Single lines -/

theorem Codec.Writes.map_decode {α β : Type} {c : Codec α} {a : α} (h : c.Writes a) (f : α → β) :
    (c.decode (c.encode a)).map f = .ok (f a) := by
  rw [h.decode]
  rfl

/-- A record stands in one line, which its table reads back. -/
theorem Record.Sized.line {r : Record} (h : r.Sized) :
    IsLine r.encode ∧ Record.decode r.key.table r.encode = .ok r := by
  obtain ⟨hfits, hkeys⟩ := h
  cases r with
  | repository r =>
    have hwrites := writes_repository hfits
    exact ⟨hwrites.isLine, hwrites.map_decode _⟩
  | file f =>
    have hwrites := writes_file hfits.1 hfits.2
    exact ⟨hwrites.isLine, hwrites.map_decode _⟩
  | symbol x =>
    have hwrites := writes_symbol hfits.1 hfits.2
    exact ⟨hwrites.isLine, hwrites.map_decode _⟩
  | reference x =>
    obtain ⟨hline, hcolumn, henclosing⟩ := hfits
    have htarget : ∀ k ∈ x.targetSymbol, k.lineStart < 2 ^ 32 := fun k hk =>
      hkeys k (Option.mem_toList.mpr hk)
    have hwrites := writes_reference hline hcolumn htarget henclosing
    exact ⟨hwrites.isLine, hwrites.map_decode _⟩
  | edge e =>
    have hfrom : ∀ k ∈ e.fromSymbol, k.lineStart < 2 ^ 32 := fun k hk =>
      hkeys k (List.mem_append_left _ (Option.mem_toList.mpr hk))
    have hto : ∀ k ∈ e.toSymbol, k.lineStart < 2 ^ 32 := fun k hk =>
      hkeys k (List.mem_append_right _ (Option.mem_toList.mpr hk))
    have hwrites := writes_edge hfrom hto
    exact ⟨hwrites.isLine, hwrites.map_decode _⟩
  | project p =>
    have hwrites := writes_project hfits
    exact ⟨hwrites.isLine, hwrites.map_decode _⟩
  | membership m =>
    have hwrites := writes_membership m
    exact ⟨hwrites.isLine, hwrites.map_decode _⟩

/-! Whole texts -/

section Texts

variable {table : String} {rs : List Record}

theorem isLine_encode (h : ∀ r ∈ rs, r.key.table = table ∧ r.Sized) :
    ∀ line ∈ rs.map Record.encode, IsLine line := by
  intro line hline
  obtain ⟨r, hr, rfl⟩ := List.mem_map.mp hline
  exact (h r hr).2.line.1

theorem readRecords_text (h : ∀ r ∈ rs, r.key.table = table ∧ r.Sized) :
    readRecords table (Record.text rs) = rs.map .ok := by
  have hlines : (recordLines (Record.text rs)).map Prod.snd = rs.map Record.encode :=
    map_recordLines (isLine_encode h)
  have hread : readRecords table (Record.text rs) =
      ((recordLines (Record.text rs)).map Prod.snd).map (Record.decode table) := by
    rw [List.map_map]
    rfl
  rw [hread, hlines, List.map_map]
  apply List.map_congr_left
  intro r hr
  obtain ⟨htable, hsized⟩ := h r hr
  exact htable ▸ hsized.line.2

/-- The records of the lines are those that were read without a fault. -/
theorem lineRecords_recordLines (table text : String) :
    lineRecords table (recordLines text) = (readRecords table text).filterMap Except.toOption := by
  rw [readRecords, List.filterMap_map]
  rfl

end Texts

/-- Texts of records are read back. For the records of a table, and likewise for deleted keys, the
text has one line for each, its lines are read as these records without a fault, and writing what
was read gives the same text again. -/
theorem text_read_back (table : String) {rs : List Record} {keys : List Deletion}
    (hrs : ∀ r ∈ rs, r.key.table = table ∧ r.Sized) (hkeys : ∀ k ∈ keys, k.Fits) :
    (Text.Pieces.lines (Record.text rs) = rs.map Record.encode ∧
      readRecords table (Record.text rs) = rs.map .ok ∧
      Record.text (lineRecords table (recordLines (Record.text rs))) = Record.text rs) ∧
    (Text.Pieces.lines (Manifest.text keys) = keys.map Deletion.encode ∧
      Manifest.ofText (Manifest.text keys) = (keys, []) ∧
      Manifest.text (Manifest.ofText (Manifest.text keys)).1 = Manifest.text keys) := by
  have hread := readRecords_text hrs
  have hmanifest := Manifest.ofText_text hkeys
  have hrecords : lineRecords table (recordLines (Record.text rs)) = rs := by
    rw [lineRecords_recordLines, hread, List.filterMap_map]
    exact List.filterMap_some
  refine ⟨⟨lines_linesText (isLine_encode hrs), hread, ?_⟩,
    lines_linesText (isLine_encode_keys hkeys), hmanifest, ?_⟩
  · rw [hrecords]
  · rw [hmanifest]

/-- A text with quotes, a backslash, both line ends, a control character and a character beyond the
first plane. -/
def hardText : String := "a\"b\\c\nd\r\n\u0001\u007f\u2028😀"

/-- References with all that may be known of them, and with nothing. -/
def hardReferences : List Record :=
  [.reference
      { repository := hardText, filePath := "a.ts", line := 2 ^ 32 - 1, column := 2 ^ 32 - 1,
        kind := .call, name := hardText, targetFilePath := some hardText,
        targetSymbol := some ⟨hardText, "", 2 ^ 32 - 1⟩,
        metadata :=
          { importSource := some hardText, «alias» := some "", isMethodCall := true,
            receiver := some hardText, optionalChain := true, constructor := true, dynamic := true,
            enclosing := some ⟨hardText, 2 ^ 32 - 1⟩ } },
    .reference
      { repository := "", filePath := "", line := 0, column := 0, kind := .import, name := "",
        targetFilePath := none, targetSymbol := none, metadata := {} }]

def hardKeys : List Deletion := [.symbol hardText "\r" "\n" (2 ^ 32 - 1), .project hardText]

theorem text_read_back_hard :
    readRecords "references" (Record.text hardReferences) = hardReferences.map .ok ∧
      Manifest.ofText (Manifest.text hardKeys) = (hardKeys, []) := by
  have hrs : ∀ r ∈ hardReferences, r.key.table = "references" ∧ r.Sized := by
    intro r hr
    simp only [hardReferences, List.mem_cons, List.not_mem_nil, or_false] at hr
    rcases hr with rfl | rfl
    · exact ⟨rfl, ⟨by simp [Record.Fits], by simp [Record.symbolKeys]⟩⟩
    · exact ⟨rfl, ⟨by simp [Record.Fits], by simp [Record.symbolKeys]⟩⟩
  have hkeys : ∀ k ∈ hardKeys, k.Fits := by
    simp [hardKeys, Deletion.Fits]
  have hback := text_read_back "references" hrs hkeys
  exact ⟨hback.1.2.1, hback.2.2.1⟩

end CodeIndex.Sync
