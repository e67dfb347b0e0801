import CodeIndex.Extract.File
import CodeIndex.Proofs.Extract.Places
import CodeIndex.Proofs.Store.RunRows

/-!
What is extracted from one file belongs to it: its symbols have distinct keys, its references are
not linked yet, and the symbol around a reference is one of the file.
-/
namespace CodeIndex.Extract

open Store (firstsBy)

/-- What identifies a symbol within its file. -/
def Symbols.mark (s : Symbol) : String × Nat := (s.name, s.lineStart)

theorem Symbols.distinct_eq_firstsBy {seen seen' : List (String × Nat)} {xs : List Symbol}
    (h : ∀ m, m ∈ seen ↔ m ∈ seen') : distinct seen xs = firstsBy mark seen' xs := by
  induction xs generalizing seen seen' with
  | nil => rfl
  | cons x rest ih =>
    rw [distinct, firstsBy]
    have hcontains : seen.contains (x.name, x.lineStart) = true ↔ mark x ∈ seen' := by
      rw [List.contains_iff_mem, h]
      rfl
    by_cases hseen : mark x ∈ seen'
    · rw [if_pos (hcontains.mpr hseen), if_pos hseen, ih h]
    · rw [if_neg (hcontains.not.mpr hseen), if_neg hseen, ih]
      intro m
      simp [h, mark, or_comm]

theorem Symbols.mark_markExported (names : List String) (s : Symbol) :
    mark (markExported names s) = mark s := by
  unfold markExported
  split <;> rfl

/-- The symbols of a file differ in name or line. -/
theorem Symbols.nodup_marks (path : String) (p : Source.Parsed) :
    ((Symbols.extract path p).map Symbols.mark).Nodup := by
  unfold Symbols.extract
  have hmark : ∀ names : List String, mark ∘ markExported names = mark :=
    fun names => funext (mark_markExported names)
  rw [List.map_map, hmark, distinct_eq_firstsBy fun _ => Iff.rfl]
  exact (Store.nodup_firstsBy [] _).mpr List.nodup_nil

/-! The enclosing symbol -/

theorem mem_of_closest {best : Option Symbol} {symbols : List Symbol} {s : Symbol}
    (h : closest best symbols = some s) : best = some s ∨ s ∈ symbols := by
  induction symbols generalizing best with
  | nil => exact .inl h
  | cons x rest ih =>
    cases best with
    | none =>
      rcases ih h with hx | hs
      · exact .inr (Option.some.inj hx ▸ List.mem_cons_self)
      · exact .inr (List.mem_cons_of_mem _ hs)
    | some b =>
      rcases ih h with hx | hs
      · split at hx
        · exact .inr (Option.some.inj hx ▸ List.mem_cons_self)
        · exact .inl hx
      · exact .inr (List.mem_cons_of_mem _ hs)

theorem mem_of_enclosing? {symbols : List Symbol} {line : Nat} {s : Symbol}
    (h : enclosing? symbols line = some s) : s ∈ symbols := by
  rcases mem_of_closest h with hnone | hs
  · simp at hnone
  · exact List.mem_of_mem_filter hs

/-! The extraction as a whole -/

structure Extraction.BelongsTo (x : Extraction) (path : String) : Prop where
  symbol_path : ∀ s ∈ x.symbols, s.filePath = path
  symbol_keys : (x.symbols.map Symbol.key).Nodup
  reference_path : ∀ r ∈ x.references, r.filePath = path
  unlinked : ∀ r ∈ x.references, r.targetSymbol = none
  enclosing : ∀ r ∈ x.references, ∀ key, r.enclosingKey = some key →
    key ∈ x.symbols.map Symbol.key

theorem extractFile_eq_ok {path content : String} {x : Extraction}
    (h : extractFile path content = .ok x) :
    ∃ p, parseFile path content = .ok p ∧ x.symbols = Symbols.extract path p ∧
      x.references = (References.extract path p).map (withEnclosing x.symbols) := by
  unfold extractFile at h
  cases hp : parseFile path content with
  | error e => simp [hp, Except.map] at h
  | ok p =>
    rw [hp] at h
    obtain rfl := Except.ok.inj h
    exact ⟨p, rfl, rfl, rfl⟩

theorem extractFile_belongsTo {path content : String} {x : Extraction}
    (h : extractFile path content = .ok x) : x.BelongsTo path := by
  obtain ⟨p, -, hsymbols, hreferences⟩ := extractFile_eq_ok h
  have hpath : ∀ s ∈ x.symbols, s.filePath = path := by
    intro s hs
    rw [hsymbols] at hs
    exact (Symbols.standsIn_extract hs).path
  have hfound : ∀ r ∈ x.references, ∃ found ∈ References.extract path p,
      r = withEnclosing x.symbols found := by
    intro r hr
    rw [hreferences] at hr
    obtain ⟨found, hfound, rfl⟩ := List.mem_map.mp hr
    exact ⟨found, hfound, rfl⟩
  refine ⟨hpath, ?_, ?_, ?_, ?_⟩
  · have hmarks := Symbols.nodup_marks path p
    rw [← hsymbols] at hmarks
    apply List.Nodup.of_map (fun k : SymbolKey => (k.name, k.lineStart))
    rwa [List.map_map]
  · intro r hr
    obtain ⟨found, hmem, rfl⟩ := hfound r hr
    exact (References.standsIn_extract hmem).path
  · intro r hr
    obtain ⟨found, hmem, rfl⟩ := hfound r hr
    exact (References.standsIn_extract hmem).unlinked
  · intro r hr key hkey
    obtain ⟨found, hmem, rfl⟩ := hfound r hr
    obtain ⟨e, he, rfl⟩ := Option.map_eq_some_iff.mp hkey
    obtain ⟨s, hs, rfl⟩ := Option.map_eq_some_iff.mp he
    have hin := mem_of_enclosing? hs
    refine List.mem_map.mpr ⟨s, hin, ?_⟩
    have hplace : (withEnclosing x.symbols found).filePath = path :=
      (References.standsIn_extract hmem).path
    rw [Symbol.key, hpath s hin, hplace]

/-! Lines and columns -/

theorem input_of_parseFile {path content : String} {p : Source.Parsed}
    (h : parseFile path content = .ok p) : p.input = Source.Input.ofString content := by
  unfold parseFile at h
  split at h
  · simp at h
  · split at h
    · next q hq =>
      obtain rfl := Except.ok.inj h
      exact (Source.exists_run_of_parse? hq).1
    · simp at h

/-- No line or column of a file goes beyond its size. -/
structure Extraction.Within (x : Extraction) (size : Nat) : Prop where
  symbols : ∀ s ∈ x.symbols, s.lineStart ≤ size + 1 ∧ s.lineEnd ≤ size + 1
  references : ∀ r ∈ x.references, r.line ≤ size + 1 ∧ r.column ≤ size ∧
    ∀ e ∈ r.metadata.enclosing, e.line ≤ size + 1

theorem extractFile_within {path content : String} {x : Extraction}
    (h : extractFile path content = .ok x) : x.Within content.utf8ByteSize := by
  obtain ⟨p, hp, hsymbols, hreferences⟩ := extractFile_eq_ok h
  have hinput := input_of_parseFile hp
  have hline : ∀ line, IsLineOf p line → line ≤ content.utf8ByteSize + 1 := by
    rintro line ⟨i, rfl⟩
    rw [hinput]
    exact (place_le content i).1
  have hbounds : ∀ s ∈ x.symbols, s.lineStart ≤ content.utf8ByteSize + 1 ∧
      s.lineEnd ≤ content.utf8ByteSize + 1 := by
    intro s hs
    rw [hsymbols] at hs
    have hstands := Symbols.standsIn_extract hs
    exact ⟨hline _ hstands.first, hline _ hstands.last⟩
  refine ⟨hbounds, ?_⟩
  intro r hr
  rw [hreferences] at hr
  obtain ⟨found, hfound, rfl⟩ := List.mem_map.mp hr
  obtain ⟨i, hrow, hcolumn⟩ := (References.standsIn_extract hfound).place
  have hplace := place_le content i
  rw [← hinput] at hplace
  refine ⟨hrow ▸ hplace.1, hcolumn ▸ hplace.2, ?_⟩
  intro e he
  obtain ⟨s, hs, rfl⟩ := Option.map_eq_some_iff.mp he
  exact (hbounds s (mem_of_enclosing? hs)).1

end CodeIndex.Extract
