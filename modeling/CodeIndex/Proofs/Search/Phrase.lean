import CodeIndex.Search.Phrase
import Mathlib.Data.List.TakeWhile

/-!
Search terms as phrases. Reading a phrase gives the value that was quoted and ends at the first quote
that no other one follows, so a term is quoted as one phrase whose value is the term again, and no
other query has this value. A null character cuts a query off and with it the closing quote.
-/
namespace CodeIndex.Search.Phrase

variable {value after : List Char} {term : String}

/-! Quoting and reading -/

/-- Reading passes over a quoted value. -/
theorem readFrom_quoteChars (value rest : List Char) :
    readFrom (quoteChars value ++ rest) = (readFrom rest).map fun p => (value ++ p.1, p.2) := by
  induction value with
  | nil => simp [quoteChars]
  | cons c value ih =>
    rw [quoteChars]
    split
    · next hc =>
      rw [hc, List.cons_append, List.cons_append, readFrom, ih, Option.map_map]
      rfl
    · next hc =>
      rw [List.cons_append, readFrom, if_neg hc, ih, Option.map_map]
      · rfl
      · exact fun _ hquote _ => hc hquote

/-- A quote that none follows ends the phrase. -/
theorem readFrom_close (h : after.head? ≠ some '"') : readFrom ('"' :: after) = some ([], after) := by
  rw [readFrom, if_pos rfl]
  rintro rest - rfl
  exact h rfl

/-- What is read is what was quoted, up to the first quote that no other one follows. -/
theorem readFrom_eq_some_iff {text : List Char} :
    readFrom text = some (value, after) ↔
      text = quoteChars value ++ '"' :: after ∧ after.head? ≠ some '"' := by
  constructor
  · intro h
    fun_induction readFrom text generalizing value with
    | case1 => cases h
    | case2 rest ih =>
      obtain ⟨⟨v, a⟩, hread, heq⟩ := Option.map_eq_some_iff.mp h
      cases heq
      obtain ⟨rfl, hafter⟩ := ih hread
      exact ⟨by simp [quoteChars], hafter⟩
    | case3 rest hnone =>
      cases h
      refine ⟨by simp [quoteChars], fun hquote => ?_⟩
      obtain ⟨more, rfl⟩ := List.head?_eq_some_iff.mp hquote
      exact hnone more rfl rfl
    | case4 c rest _ hc ih =>
      obtain ⟨⟨v, a⟩, hread, heq⟩ := Option.map_eq_some_iff.mp h
      cases heq
      obtain ⟨rfl, hafter⟩ := ih hread
      exact ⟨by simp [quoteChars, hc], hafter⟩
  · rintro ⟨rfl, hafter⟩
    simp [readFrom_quoteChars, readFrom_close hafter]

theorem toList_encode (term : String) :
    (encode term).toList = '"' :: (quoteChars term.toList ++ ['"']) := by
  simp [encode]

theorem mem_quoteChars {c : Char} {cs : List Char} : c ∈ quoteChars cs ↔ c ∈ cs := by
  induction cs with
  | nil => rfl
  | cons d cs ih =>
    rw [quoteChars]
    split <;> simp_all

/-- The quoted term is read to its end. -/
theorem readFrom_quoted (term : String) :
    readFrom (quoteChars term.toList ++ ['"']) = some (term.toList, []) :=
  readFrom_eq_some_iff.mpr ⟨rfl, by simp⟩

/-- A query has the value of a term exactly if it is the quoted term, up to its null character. -/
theorem decode_eq_some_iff {query : String} :
    decode query = some term ↔ query.toList.takeWhile (· != '\x00') = (encode term).toList := by
  rw [decode, toList_encode]
  generalize query.toList.takeWhile (· != '\x00') = text
  constructor
  · intro h
    split at h
    · next rest =>
      split at h
      · next value hread =>
        obtain rfl := Option.some.inj h
        rw [String.toList_ofList, (readFrom_eq_some_iff.mp hread).1]
      · cases h
    · cases h
  · rintro rfl
    simp [readFrom_quoted]

/-- A quoted term is read back exactly if it has no null character. -/
theorem decode_encode_iff : decode (encode term) = some term ↔ '\x00' ∉ term.toList := by
  rw [decode_eq_some_iff, List.takeWhile_eq_self_iff, toList_encode]
  simp only [List.mem_cons, List.mem_append, mem_quoteChars, bne_iff_ne, List.not_mem_nil, or_false]
  constructor
  · intro h hnull
    exact h _ (.inr (.inl hnull)) rfl
  · rintro h c (rfl | hc | rfl) hnull
    · exact absurd hnull (by decide)
    · exact h (hnull ▸ hc)
    · exact absurd hnull (by decide)

end CodeIndex.Search.Phrase
