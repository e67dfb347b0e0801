import CodeIndex.Proofs.Json.Tag
import CodeIndex.Sync.Table

/-!
The written forms of records. A record whose numbers lie in the ranges of its schema is read back
from its line as it was.
-/
namespace CodeIndex.Sync

open Json (Value Schema Reads Slot Starts)

/-- The range of signed integers of 64 bits. -/
def FitsI64 (i : Int) : Prop := -(2 ^ 63) ≤ i ∧ i < 2 ^ 63

/-- A line has no control characters, is no blank line and holds the record. -/
structure Codec.Writes {α : Type} (c : Codec α) (a : α) : Prop where
  decode : c.decode (c.encode a) = .ok a
  visible : ∀ x ∈ (c.encode a).toList, 32 ≤ x.toNat
  opens : ∃ cs, (c.encode a).toList = '\x7b' :: cs

/-- The steps and the depth that the fields of all records get by with. -/
def fieldSteps : Nat := 20

def fieldDepth : Nat := 3

theorem Codec.writes_of_slots {α : Type} {c : Codec α} {a : α} (title : String)
    (slots : List Slot)
    (hschema : c.schema = .record title (slots.map Slot.field))
    (hvalue : c.toValue a = .object (slots.filterMap Slot.member))
    (hread : c.ofValue (.object (slots.map fun s => (s.name, s.value))) = some a)
    (hnames : (slots.map Slot.name).Nodup) (hfits : ∀ s ∈ slots, s.Fits fieldSteps fieldDepth)
    (hlength : slots.length ≤ 40) : c.Writes a := by
  have hreads := Reads.record slots title hnames hfits
  have hdecode := hreads.decode (by simp only [fieldSteps]; omega) (by decide)
  have htext : (c.encode a).toList = Json.encodeChars (.object (slots.filterMap Slot.member)) := by
    rw [Codec.encode, hvalue, Json.encode, String.toList_ofList]
  refine ⟨?_, ?_, ?_⟩
  · rw [Codec.decode, hschema, Codec.encode, hvalue, hdecode]
    simp only [hread]
  · rw [htext]
    exact hreads.visible
  · rw [htext]
    exact ⟨_, Json.encodeChars_object _⟩

/-! Fields -/

/-- The value is read back as it was written, within the steps and the depth of a field. -/
def ReadsBack (schema : Schema) (v : Value) : Prop := Reads fieldSteps fieldDepth schema v v

theorem readsBack {n d : Nat} {schema : Schema} {v : Value} (h : Reads n d schema v v)
    (hn : n ≤ fieldSteps) (hd : d ≤ fieldDepth) : ReadsBack schema v := h.mono hn hd

theorem readsBack_text (s : String) : ReadsBack .text (.text s) :=
  readsBack (.text s) (by decide) (by decide)

theorem readsBack_choice {options : List String} {s : String} (hs : s ∈ options) :
    ReadsBack (.choice options) (.text s) :=
  readsBack (.choice hs) (by decide) (by decide)

theorem readsBack_bool (b : Bool) : ReadsBack .bool (.bool b) :=
  readsBack (.bool b) (by decide) (by decide)

theorem reads_u32 {n : Nat} (h : n < 2 ^ 32) : Reads 1 0 .u32 (.int n) (.int n) :=
  .whole (by omega) (by omega) (by omega) (by omega)

theorem readsBack_u32 {n : Nat} (h : n < 2 ^ 32) : ReadsBack .u32 (.int n) :=
  readsBack (reads_u32 h) (by decide) (by decide)

theorem readsBack_u64 {n : Nat} (h : n < 2 ^ 64) : ReadsBack .u64 (.int n) :=
  readsBack (.whole (by omega) (by omega) (by omega) (by omega)) (by decide) (by decide)

theorem reads_i64 {i : Int} (h : FitsI64 i) : Reads 1 0 .i64 (.int i) (.int i) := by
  obtain ⟨hlow, hhigh⟩ := h
  exact .whole (by omega) (by omega) (by omega) (by omega)

theorem readsBack_i64 {i : Int} (h : FitsI64 i) : ReadsBack .i64 (.int i) :=
  readsBack (reads_i64 h) (by decide) (by decide)

theorem readsBack_optionalText (o : Option String) :
    ReadsBack (.optional .text) (optionalText o) :=
  readsBack (.ofOption o fun s _ => ⟨.text s, Json.starts_text s⟩) (by decide) (by decide)

theorem readsBack_optionalTime {o : Option Int} (h : ∀ t ∈ o, FitsI64 t) :
    ReadsBack (.optional .i64) (Value.ofOption Value.int o) :=
  readsBack (.ofOption o fun t ht => ⟨reads_i64 (h t ht), Json.starts_int t⟩) (by decide)
    (by decide)

/-- A value that may be null is read as it was written. -/
theorem optional_ofOption {α : Type} {f : Value → Option α} {g : α → Value} (o : Option α)
    (hread : ∀ a, f (g a) = some a) (hnull : ∀ a, g a ≠ .null) :
    Value.optional f (Value.ofOption g o) = some o := by
  cases o with
  | none => rfl
  | some a =>
    rw [Value.ofOption]
    unfold Value.optional
    split
    · next heq => exact absurd heq (hnull a)
    · rw [hread]
      rfl

@[simp] theorem optional_optionalText (o : Option String) :
    Value.optional Value.text? (optionalText o) = some o :=
  optional_ofOption o (fun _ => rfl) (by simp)

@[simp] theorem optional_int (o : Option Int) :
    Value.optional Value.int? (Value.ofOption Value.int o) = some o :=
  optional_ofOption o (fun _ => rfl) (by simp)

@[simp] theorem nat?_natCast (n : Nat) : Value.nat? (.int n) = some n := by
  simp [Value.nat?]

/-- A field that is written and read as the same value. -/
def sameSlot (field : String × Json.Absence × Schema) (v : Value) : Slot :=
  ⟨field.1, field.2.1, field.2.2, some v, v⟩

/-! Keys of symbols -/

theorem reads_symbolKey {k : SymbolKey} (h : k.lineStart < 2 ^ 32) :
    Reads 6 1 symbolKeySchema (symbolKeyValue k) (symbolKeyValue k) := by
  apply Reads.record [sameSlot (required "file_path" .text) (.text k.filePath),
    sameSlot (required "name" .text) (.text k.name),
    sameSlot (required "line_start" .u32) (.int k.lineStart)] "SymbolKey" (n := 1) (d := 0)
  · simp [sameSlot, required]
  · simp only [List.forall_mem_cons]
    exact ⟨.text _, .text _, reads_u32 h, by simp⟩

theorem readsBack_optionalKey {o : Option SymbolKey} (h : ∀ k ∈ o, k.lineStart < 2 ^ 32) :
    ReadsBack (.optional symbolKeySchema) (Value.ofOption symbolKeyValue o) :=
  readsBack (.ofOption o fun k hk => ⟨reads_symbolKey (h k hk), Json.starts_object _⟩) (by decide)
    (by decide)

@[simp] theorem optional_symbolKey (o : Option SymbolKey) :
    Value.optional symbolKeyOf (Value.ofOption symbolKeyValue o) = some o := by
  apply optional_ofOption
  · simp [symbolKeyOf, symbolKeyValue, member, Value.get?, Value.text?]
  · simp [symbolKeyValue]

/-! The tables without nested records -/

theorem writes_repository {r : RepositoryRecord} (h : ∀ t ∈ r.lastIndexedAt, FitsI64 t) :
    repositoryCodec.Writes r := by
  apply Codec.writes_of_slots "RepositoryRecord"
    [sameSlot (required "full_name" .text) (.text r.fullName),
      sameSlot (required "name" .text) (.text r.name),
      sameSlot (orNull "git_url" .text) (optionalText r.gitUrl),
      sameSlot (required "default_branch" .text) (.text r.defaultBranch),
      sameSlot (orNull "last_indexed_at" .i64) (Value.ofOption Value.int r.lastIndexedAt)]
  · rfl
  · rfl
  · simp [repositoryCodec, sameSlot, required, orNull, member, memberOr, Value.get?, Value.text?]
  · simp [sameSlot, required, orNull]
  · simp only [List.forall_mem_cons]
    exact ⟨readsBack_text _, readsBack_text _, readsBack_optionalText _, readsBack_text _,
      readsBack_optionalTime h, by simp⟩
  · simp

theorem writes_file {f : FileRecord} (hsize : f.size < 2 ^ 64) (htime : FitsI64 f.indexedAt) :
    fileCodec.Writes f := by
  apply Codec.writes_of_slots "FileRecord"
    [sameSlot (required "repository" .text) (.text f.repository),
      sameSlot (required "path" .text) (.text f.path),
      sameSlot (required "language" (.choice (Language.all.map (·.name)))) (.text f.language.name),
      sameSlot (required "size" .u64) (.int f.size),
      sameSlot (required "content_hash" .text) (.text f.contentHash),
      sameSlot (required "indexed_at" .i64) (.int f.indexedAt),
      sameSlot (required "content" .text) (.text f.content)]
  · rfl
  · rfl
  · simp [fileCodec, sameSlot, required, member, Value.get?, Value.text?, Value.int?,
      Language.ofName_name]
  · simp [sameSlot, required]
  · have hlanguage : f.language.name ∈ Language.all.map (·.name) := by
      cases f.language <;> decide
    simp only [List.forall_mem_cons]
    exact ⟨readsBack_text _, readsBack_text _, readsBack_choice hlanguage, readsBack_u64 hsize,
      readsBack_text _, readsBack_i64 htime, readsBack_text _, by simp⟩
  · simp

theorem writes_symbol {x : SymbolRecord} (hstart : x.lineStart < 2 ^ 32)
    (hend : x.lineEnd < 2 ^ 32) : symbolCodec.Writes x := by
  apply Codec.writes_of_slots "SymbolRecord"
    [sameSlot (required "repository" .text) (.text x.repository),
      sameSlot (required "file_path" .text) (.text x.filePath),
      sameSlot (required "name" .text) (.text x.name),
      sameSlot (required "kind" (.choice (SymbolKind.all.map (·.name)))) (.text x.kind.name),
      sameSlot (required "line_start" .u32) (.int x.lineStart),
      sameSlot (required "line_end" .u32) (.int x.lineEnd),
      sameSlot (orNull "signature" .text) (optionalText x.signature),
      sameSlot (orNull "documentation" .text) (optionalText x.documentation),
      sameSlot (orFalse "is_exported") (.bool x.isExported)]
  · rfl
  · rfl
  · simp [symbolCodec, sameSlot, required, orNull, orFalse, member, memberOr, Value.get?,
      Value.text?, Value.bool?, SymbolKind.ofName?_name]
  · simp [sameSlot, required, orNull, orFalse]
  · have hkind : x.kind.name ∈ SymbolKind.all.map (·.name) := by
      cases x.kind <;> decide
    simp only [List.forall_mem_cons]
    exact ⟨readsBack_text _, readsBack_text _, readsBack_text _, readsBack_choice hkind,
      readsBack_u32 hstart, readsBack_u32 hend, readsBack_optionalText _,
      readsBack_optionalText _, readsBack_bool _, by simp⟩
  · simp

theorem edgeKind_ofName?_name (k : EdgeKind) : EdgeKind.ofName? k.name = some k := by
  cases k <;> rfl

theorem writes_edge {e : EdgeRecord} (hfrom : ∀ k ∈ e.fromSymbol, k.lineStart < 2 ^ 32)
    (hto : ∀ k ∈ e.toSymbol, k.lineStart < 2 ^ 32) : edgeCodec.Writes e := by
  apply Codec.writes_of_slots "EdgeRecord"
    [sameSlot (required "repository" .text) (.text e.repository),
      sameSlot (required "kind" (.choice (EdgeKind.all.map (·.name)))) (.text e.kind.name),
      sameSlot (orNull "from_file" .text) (optionalText e.fromFile),
      sameSlot (orNull "to_file" .text) (optionalText e.toFile),
      sameSlot (orNull "from_symbol" symbolKeySchema) (Value.ofOption symbolKeyValue e.fromSymbol),
      sameSlot (orNull "to_symbol" symbolKeySchema) (Value.ofOption symbolKeyValue e.toSymbol)]
  · rfl
  · rfl
  · simp [edgeCodec, sameSlot, required, orNull, member, memberOr, Value.get?, Value.text?,
      edgeKind_ofName?_name]
  · simp [sameSlot, required, orNull]
  · have hkind : e.kind.name ∈ EdgeKind.all.map (·.name) := by
      cases e.kind <;> decide
    simp only [List.forall_mem_cons]
    exact ⟨readsBack_text _, readsBack_choice hkind, readsBack_optionalText _,
      readsBack_optionalText _, readsBack_optionalKey hfrom, readsBack_optionalKey hto, by simp⟩
  · simp

theorem writes_project {p : ProjectRecord} (h : FitsI64 p.createdAt) : projectCodec.Writes p := by
  apply Codec.writes_of_slots "ProjectRecord"
    [sameSlot (required "name" .text) (.text p.name),
      sameSlot (orNull "description" .text) (optionalText p.description),
      sameSlot (required "created_at" .i64) (.int p.createdAt)]
  · rfl
  · rfl
  · simp [projectCodec, sameSlot, required, orNull, member, memberOr, Value.get?, Value.text?,
      Value.int?]
  · simp [sameSlot, required, orNull]
  · simp only [List.forall_mem_cons]
    exact ⟨readsBack_text _, readsBack_optionalText _, readsBack_i64 h, by simp⟩
  · simp

theorem writes_membership (m : MembershipRecord) : membershipCodec.Writes m := by
  apply Codec.writes_of_slots "ProjectRepositoryRecord"
    [sameSlot (required "project" .text) (.text m.project),
      sameSlot (required "repository" .text) (.text m.repository)]
  · rfl
  · rfl
  · simp [membershipCodec, sameSlot, required, member, Value.get?, Value.text?]
  · simp [sameSlot, required]
  · simp only [List.forall_mem_cons]
    exact ⟨readsBack_text _, readsBack_text _, by simp⟩
  · simp

/-! References -/

/-- A field that is written when there is a value and null otherwise. -/
def optionalSlot {α : Type} (name : String) (schema : Schema) (g : α → Value) (o : Option α) :
    Slot :=
  ⟨name, .default .null, .optional schema, o.map g, Value.ofOption g o⟩

/-- A field that is written when it holds. -/
def flagSlot (name : String) (b : Bool) : Slot :=
  ⟨name, .default (.bool false), .bool, if b then some (.bool true) else none, .bool b⟩

theorem fits_optionalSlot {α : Type} {name : String} {schema : Schema} {g : α → Value}
    {o : Option α} {n d : Nat} (h : ∀ a ∈ o, Reads n d schema (g a) (g a) ∧ Starts (g a)) :
    (optionalSlot name schema g o).Fits (n + 1) d := by
  cases o with
  | none => exact rfl
  | some a => exact (h a rfl).1.some (h a rfl).2

theorem fits_flagSlot (name : String) (b : Bool) {n d : Nat} (hn : 1 ≤ n) :
    (flagSlot name b).Fits n d := by
  cases b with
  | false => exact rfl
  | true => exact (Reads.bool true).mono hn (Nat.zero_le d)

theorem member_optionalSlot {α : Type} (name : String) (schema : Schema) (g : α → Value)
    (o : Option α) :
    (optionalSlot name schema g o).member.toList = (o.map fun a => (name, g a)).toList := by
  cases o <;> rfl

theorem member_flagSlot (name : String) (b : Bool) :
    (flagSlot name b).member.toList = if b then [(name, .bool true)] else [] := by
  cases b <;> rfl

def enclosingValue (e : Enclosing) : Value :=
  .object [("name", .text e.name), ("line", .int e.line)]

def styleValue (s : ImportStyle) : Value := .text s.name

def metadataSlots (m : Metadata) : List Slot :=
  [optionalSlot "import_source" .text Value.text m.importSource,
    optionalSlot "import_style" (.choice (ImportStyle.all.map (·.name))) styleValue m.importStyle,
    optionalSlot "alias" .text Value.text m.alias,
    flagSlot "is_method_call" m.isMethodCall,
    optionalSlot "receiver" .text Value.text m.receiver,
    flagSlot "optional_chain" m.optionalChain,
    flagSlot "constructor" m.constructor,
    flagSlot "dynamic" m.dynamic,
    optionalSlot "enclosing" enclosingSchema enclosingValue m.enclosing]

theorem metadataValue_eq (m : Metadata) :
    metadataValue m = .object ((metadataSlots m).filterMap Slot.member) := by
  rw [List.filterMap_eq_flatMap_toList]
  simp only [metadataSlots, List.flatMap_cons, List.flatMap_nil, member_optionalSlot,
    member_flagSlot, metadataValue, styleValue, enclosingValue, Option.map_map, List.append_assoc,
    List.append_nil]
  rfl

/-- The value that written metadata is read as. -/
def metadataRead (m : Metadata) : Value :=
  .object ((metadataSlots m).map fun s => (s.name, s.value))

theorem reads_enclosing {e : Enclosing} (h : e.line < 2 ^ 32) :
    Reads 5 1 enclosingSchema (enclosingValue e) (enclosingValue e) := by
  apply Reads.record [sameSlot (required "name" .text) (.text e.name),
    sameSlot (required "line" .u32) (.int e.line)] "EnclosingSymbol" (n := 1) (d := 0)
  · simp [sameSlot, required]
  · simp only [List.forall_mem_cons]
    exact ⟨.text _, reads_u32 h, by simp⟩

theorem reads_metadata {m : Metadata} (h : ∀ e ∈ m.enclosing, e.line < 2 ^ 32) :
    Reads 17 2 metadataSchema (metadataValue m) (metadataRead m) := by
  rw [metadataValue_eq]
  apply Reads.record (metadataSlots m) "ReferenceMetadata" (n := 6) (d := 1)
  · simp [metadataSlots, optionalSlot, flagSlot]
  · have htext : ∀ name o, (optionalSlot name .text Value.text o).Fits 6 1 := fun name o =>
      fits_optionalSlot fun s _ =>
        ⟨(Reads.text s).mono (by omega) (by omega), Json.starts_text s⟩
    have hstyle : ∀ s : ImportStyle, s.name ∈ ImportStyle.all.map (·.name) := by
      intro s
      cases s <;> decide
    simp only [metadataSlots, List.forall_mem_cons]
    refine ⟨htext _ _, fits_optionalSlot fun s _ => ?_, htext _ _, fits_flagSlot _ _ (by omega),
      htext _ _, fits_flagSlot _ _ (by omega), fits_flagSlot _ _ (by omega),
      fits_flagSlot _ _ (by omega), fits_optionalSlot fun e he => ?_, by simp⟩
    · exact ⟨(Reads.choice (hstyle s)).mono (by omega) (by omega), Json.starts_text s.name⟩
    · exact ⟨reads_enclosing (h e he), Json.starts_object _⟩

@[simp] theorem optional_style (o : Option ImportStyle) :
    Value.optional (fun x => x.text?.bind ImportStyle.ofName?) (Value.ofOption styleValue o) =
      some o := by
  apply optional_ofOption
  · intro s
    cases s <;> rfl
  · simp [styleValue]

@[simp] theorem optional_enclosing (o : Option Enclosing) :
    Value.optional enclosingOf (Value.ofOption enclosingValue o) = some o := by
  apply optional_ofOption
  · simp [enclosingOf, enclosingValue, member, Value.get?, Value.text?]
  · simp [enclosingValue]

@[simp] theorem optional_text (o : Option String) :
    Value.optional Value.text? (Value.ofOption Value.text o) = some o :=
  optional_optionalText o

theorem metadataOf_metadataRead (m : Metadata) : metadataOf (metadataRead m) = some m := by
  simp [metadataOf, metadataRead, metadataSlots, optionalSlot, flagSlot, member, memberOr,
    Value.get?, Value.bool?]

theorem writes_reference {x : ReferenceRecord} (hline : x.line < 2 ^ 32)
    (hcolumn : x.column < 2 ^ 32) (htarget : ∀ k ∈ x.targetSymbol, k.lineStart < 2 ^ 32)
    (henclosing : ∀ e ∈ x.metadata.enclosing, e.line < 2 ^ 32) : referenceCodec.Writes x := by
  apply Codec.writes_of_slots "ReferenceRecord"
    [sameSlot (required "repository" .text) (.text x.repository),
      sameSlot (required "file_path" .text) (.text x.filePath),
      sameSlot (required "line" .u32) (.int x.line),
      sameSlot (required "column" .u32) (.int x.column),
      sameSlot (required "kind" (.choice (ReferenceKind.all.map (·.name)))) (.text x.kind.name),
      sameSlot (required "name" .text) (.text x.name),
      sameSlot (orNull "target_file_path" .text) (optionalText x.targetFilePath),
      sameSlot (orNull "target_symbol" symbolKeySchema)
        (Value.ofOption symbolKeyValue x.targetSymbol),
      ⟨"metadata", .default (metadataRead {}), metadataSchema, some (metadataValue x.metadata),
        metadataRead x.metadata⟩]
  · rfl
  · rfl
  · simp [referenceCodec, sameSlot, required, orNull, member, memberOr, Value.get?, Value.text?,
      ReferenceKind.ofName?_name, metadataOf_metadataRead]
  · simp [sameSlot, required, orNull]
  · have hkind : x.kind.name ∈ ReferenceKind.all.map (·.name) := by
      cases x.kind <;> decide
    simp only [List.forall_mem_cons]
    exact ⟨readsBack_text _, readsBack_text _, readsBack_u32 hline, readsBack_u32 hcolumn,
      readsBack_choice hkind, readsBack_text _, readsBack_optionalText _,
      readsBack_optionalKey htarget, (reads_metadata henclosing).mono (by decide) (by decide),
      by simp⟩
  · simp

/-! Deleted keys -/

namespace Deletion

/-- The numbers of a key lie in their ranges. -/
def Fits : Deletion → Prop
  | symbol _ _ _ line => line < 2 ^ 32
  | reference _ _ line column _ _ => line < 2 ^ 32 ∧ column < 2 ^ 32
  | _ => True

/-- The fields of a key after its tag. -/
def fields : Deletion → List Json.Tagged.Filled
  | repository fullName => [⟨"full_name", .text, .text fullName⟩]
  | file repo path => [⟨"repository", .text, .text repo⟩, ⟨"path", .text, .text path⟩]
  | symbol repo filePath name lineStart =>
    [⟨"repository", .text, .text repo⟩, ⟨"file_path", .text, .text filePath⟩,
      ⟨"name", .text, .text name⟩, ⟨"line_start", .u32, .int lineStart⟩]
  | reference repo filePath line column kind name =>
    [⟨"repository", .text, .text repo⟩, ⟨"file_path", .text, .text filePath⟩,
      ⟨"line", .u32, .int line⟩, ⟨"column", .u32, .int column⟩, ⟨"kind", .text, .text kind⟩,
      ⟨"name", .text, .text name⟩]
  | edge repo edgeKey =>
    [⟨"repository", .text, .text repo⟩, ⟨"edge_key", .text, .text edgeKey⟩]
  | project name => [⟨"name", .text, .text name⟩]
  | membership proj repo =>
    [⟨"project", .text, .text proj⟩, ⟨"repository", .text, .text repo⟩]

theorem plain_text (s : String) :
    Json.Plain (.text s) ∧ Json.Tagged.check .text (.text s) = .ok (.text s) :=
  ⟨.text s, rfl⟩

theorem plain_u32 {n : Nat} (h : n < 2 ^ 32) :
    Json.Plain (.int n) ∧ Json.Tagged.check .u32 (.int n) = .ok (.int n) := by
  have hrange : (decide (0 ≤ (n : Int)) && decide ((n : Int) ≤ 0xffffffff)) = true := by
    simp only [Bool.and_eq_true, decide_eq_true_eq]
    omega
  refine ⟨.number (by simp only [Json.maxWord]; omega), ?_⟩
  rw [Json.Tagged.check, hrange]
  rfl

theorem fields_plain {d : Deletion} (h : d.Fits) :
    ∀ f ∈ d.fields, Json.Plain f.value ∧ Json.Tagged.check f.scalar f.value = .ok f.value := by
  cases d with
  | symbol repo filePath name line =>
    simp only [fields, List.forall_mem_cons]
    exact ⟨plain_text _, plain_text _, plain_text _, plain_u32 h, by simp⟩
  | reference repo filePath line column kind name =>
    simp only [fields, List.forall_mem_cons]
    exact ⟨plain_text _, plain_text _, plain_u32 h.1, plain_u32 h.2, plain_text _, plain_text _,
      by simp⟩
  | _ =>
    simp only [fields, List.forall_mem_cons]
    simp [plain_text]

/-- The form of a key: its variant, its written value and how it is read. -/
theorem exists_variant (d : Deletion) : ∃ variant,
    format.variants.find? (fun v => v.tag == variant.tag) = some variant ∧
      variant.fields = d.fields.map Json.Tagged.Filled.field ∧
      (format.tagField :: d.fields.map Json.Tagged.Filled.name).Nodup ∧
      d.toValue = .object ((format.tagField, .text variant.tag) ::
        d.fields.map Json.Tagged.Filled.member) ∧
      ofFields variant.tag (d.fields.map Json.Tagged.Filled.member) = some d := by
  cases d with
  | repository n => exact ⟨format.variants[0], rfl, rfl, by simp [fields, format], rfl, rfl⟩
  | file r p => exact ⟨format.variants[1], rfl, rfl, by simp [fields, format], rfl, rfl⟩
  | symbol r f n line => exact ⟨format.variants[2], rfl, rfl, by simp [fields, format], rfl, rfl⟩
  | reference r f line column k n =>
    exact ⟨format.variants[3], rfl, rfl, by simp [fields, format], rfl, rfl⟩
  | edge r k => exact ⟨format.variants[4], rfl, rfl, by simp [fields, format], rfl, rfl⟩
  | project n => exact ⟨format.variants[5], rfl, rfl, by simp [fields, format], rfl, rfl⟩
  | membership p r => exact ⟨format.variants[6], rfl, rfl, by simp [fields, format], rfl, rfl⟩

/-- A key is read back from its line. -/
theorem decode_encode {d : Deletion} (h : d.Fits) : decode d.encode = .ok d := by
  obtain ⟨variant, hvariant, hfields, hnames, hvalue, hread⟩ := d.exists_variant
  have hformat := format.decode_object hvariant hfields hnames (fields_plain h)
  rw [decode, encode, hvalue, hformat]
  simp only [hread]

theorem encode_visible {d : Deletion} (h : d.Fits) : ∀ c ∈ d.encode.toList, 32 ≤ c.toNat := by
  obtain ⟨variant, -, -, -, hvalue, -⟩ := d.exists_variant
  rw [encode, hvalue, Json.encode, String.toList_ofList]
  apply Json.visible_object
  intro m hm
  rcases List.mem_cons.mp hm with rfl | hm
  · exact (Json.Plain.text _).visible
  · obtain ⟨f, hf, rfl⟩ := List.mem_map.mp hm
    exact (fields_plain h f hf).1.visible

theorem encode_opens (d : Deletion) : ∃ cs, d.encode.toList = '\x7b' :: cs := by
  obtain ⟨variant, -, -, -, hvalue, -⟩ := d.exists_variant
  rw [encode, hvalue, Json.encode, String.toList_ofList]
  exact ⟨_, Json.encodeChars_object _⟩

/-- The numbers of a key that was read are in their ranges. -/
theorem fits_of_decode {line : String} {d : Deletion} (h : decode line = .ok d) : d.Fits := by
  unfold decode at h
  split at h
  · simp at h
  · next tag fields hread =>
    have hbounds := format.decode_inBounds hread
    have hfits : ∀ {i : Int}, .int i ∈ fields.map Prod.snd → i.toNat < 2 ^ 32 := by
      intro i hi
      obtain ⟨m, hm, hmi⟩ := List.mem_map.mp hi
      have hrange := hbounds m hm i hmi
      omega
    split at h
    · next d' hd =>
      cases h
      unfold ofFields at hd
      -- Only two kinds of keys hold numbers.
      split at hd <;> cases hd
      case h_3 hvalues => exact hfits (by simp [hvalues])
      case h_4 hvalues => exact ⟨hfits (by simp [hvalues]), hfits (by simp [hvalues])⟩
      all_goals trivial
    · simp at h

end Deletion

end CodeIndex.Sync
