import CodeIndex.Proofs.Json.Scalar

/-!
Written values are read back through their schemas. The rules follow the schemas: texts, flags,
integers within their range, words out of a list, optional values, and records whose members stand
in the order of the fields.
-/
namespace CodeIndex.Json

/-- A written value has no control characters, and it is read back as the second value when there
are enough steps and depth. -/
structure Reads (steps depth : Nat) (schema : Schema) (v v' : Value) : Prop where
  visible : ∀ c ∈ encodeChars v, 32 ≤ c.toNat
  reads : ∀ n d, steps ≤ n → depth ≤ d → ∀ rest, Stops rest →
    Takes (readAs n d schema) (encodeChars v) rest v'

/-- The text of a value starts with a character that is neither blank nor the start of a null. -/
def Starts (v : Value) : Prop :=
  ∃ c cs, encodeChars v = c :: cs ∧ c ≠ 'n' ∧ Cursor.isSpace c = false

theorem skipSpace_cons {c : Char} (h : Cursor.isSpace c = false) (cs : List Char) (spot : Spot) :
    Cursor.skipSpace ⟨c :: cs, spot⟩ = ⟨c :: cs, spot⟩ := by
  simp [Cursor.skipSpace, Cursor.skipSpaceFrom, h]

theorem Reads.mono {n n' d d' : Nat} {schema : Schema} {v v' : Value} (h : Reads n d schema v v')
    (hn : n ≤ n') (hd : d ≤ d') : Reads n' d' schema v v' :=
  ⟨h.visible, fun m e hm he => h.reads m e (hn.trans hm) (hd.trans he)⟩

/-! Texts -/

theorem visible_of_simpleEscape? {x c : Char} (h : simpleEscape? x = some c) : 32 ≤ x.toNat := by
  unfold simpleEscape? at h
  split at h
  all_goals first | decide | simp at h

theorem visible_escapeChar (c : Char) : ∀ x ∈ escapeChar c, 32 ≤ x.toNat := by
  have hhex : ∀ n < 16, 32 ≤ (hexDigit n).toNat := by decide
  have hspelled := escapes_escapeChar c
  generalize escapeChar c = spelled at hspelled ⊢
  cases hspelled with
  | letter hx =>
    have hvisible := visible_of_simpleEscape? hx
    simpa using hvisible
  | number hcontrol =>
    have hhigh := hhex (c.toNat / 16) (by omega)
    have hlow := hhex (c.toNat % 16) (by omega)
    simp [hhigh, hlow]
  | plain hvisible => simpa using hvisible

theorem visible_encodeText (s : String) : ∀ c ∈ encodeText s, 32 ≤ c.toNat := by
  intro c hc
  simp only [encodeText, List.cons_append, List.mem_cons, List.mem_append, List.mem_flatMap,
    List.not_mem_nil, or_false] at hc
  rcases hc with rfl | ⟨x, -, hx⟩ | rfl
  · decide
  · exact visible_escapeChar x c hx
  · decide

theorem starts_text (s : String) : Starts (.text s) := ⟨'"', _, rfl, by decide, by decide⟩

/-- A quoted text is read back from its opening quote on. -/
theorem text_encodeText (s : String) (rest : List Char) (spot : Spot) :
    ∃ spot', text (Cursor.skip ⟨encodeText s ++ rest, spot⟩) = .ok (s, ⟨rest, spot'⟩) := by
  obtain ⟨spot', hread⟩ := text_escaped s rest (Cursor.stepSpot spot '"')
  exact ⟨spot', by simpa [encodeText, Cursor.skip] using hread⟩

theorem skipSpace_encodeText (s : String) (rest : List Char) (spot : Spot) :
    Cursor.skipSpace ⟨encodeText s ++ rest, spot⟩ = ⟨encodeText s ++ rest, spot⟩ :=
  skipSpace_cons (by decide) _ _

theorem peek_encodeText (s : String) (rest : List Char) (spot : Spot) :
    Cursor.peek ⟨encodeText s ++ rest, spot⟩ = some '"' := rfl

theorem Reads.text (s : String) : Reads 1 0 .text (.text s) (.text s) := by
  refine ⟨visible_encodeText s, ?_⟩
  intro n d hn _ rest _ spot
  obtain ⟨m, rfl⟩ := Nat.exists_eq_succ_of_ne_zero (Nat.ne_zero_of_lt hn)
  obtain ⟨spot', hread⟩ := text_encodeText s rest spot
  refine ⟨spot', ?_⟩
  simp only [encodeChars_text, readAs, skipSpace_encodeText, peek_encodeText, hread]

theorem Reads.choice {options : List String} {s : String} (hs : s ∈ options) :
    Reads 1 0 (.choice options) (.text s) (.text s) := by
  refine ⟨visible_encodeText s, ?_⟩
  intro n d hn _ rest _ spot
  obtain ⟨m, rfl⟩ := Nat.exists_eq_succ_of_ne_zero (Nat.ne_zero_of_lt hn)
  obtain ⟨spot', hread⟩ := text_encodeText s rest spot
  refine ⟨spot', ?_⟩
  simp only [encodeChars_text, readAs, readChoice, skipSpace_encodeText, peek_encodeText, hread]
  simp [hs]

/-! Words -/

theorem word_append (ws rest : List Char) (spot : Spot) :
    ∃ spot', Cursor.word ⟨ws ++ rest, spot⟩ ws = .ok ⟨rest, spot'⟩ := by
  induction ws generalizing spot with
  | nil => exact ⟨spot, rfl⟩
  | cons w ws ih =>
    obtain ⟨spot', hread⟩ := ih (Cursor.stepSpot spot w)
    exact ⟨spot', by simpa [Cursor.word, Cursor.skip] using hread⟩

theorem visible_of_all {cs : List Char} (h : (cs.all fun c => 32 ≤ c.toNat) = true) :
    ∀ c ∈ cs, 32 ≤ c.toNat := by
  simpa using h

theorem Reads.bool (b : Bool) : Reads 1 0 .bool (.bool b) (.bool b) := by
  refine ⟨visible_of_all (by cases b <;> rfl), ?_⟩
  intro n d hn _ rest _ spot
  obtain ⟨m, rfl⟩ := Nat.exists_eq_succ_of_ne_zero (Nat.ne_zero_of_lt hn)
  cases b with
  | false =>
    obtain ⟨spot', hread⟩ := word_append "alse".toList rest (Cursor.stepSpot spot 'f')
    have hspace : Cursor.skipSpace ⟨encodeChars (.bool false) ++ rest, spot⟩ =
        ⟨'f' :: ("alse".toList ++ rest), spot⟩ := skipSpace_cons (by decide) _ _
    refine ⟨spot', ?_⟩
    simp only [readAs, hspace, Cursor.peek, List.head?_cons, Cursor.skip, hread]
  | true =>
    obtain ⟨spot', hread⟩ := word_append "rue".toList rest (Cursor.stepSpot spot 't')
    have hspace : Cursor.skipSpace ⟨encodeChars (.bool true) ++ rest, spot⟩ =
        ⟨'t' :: ("rue".toList ++ rest), spot⟩ := skipSpace_cons (by decide) _ _
    refine ⟨spot', ?_⟩
    simp only [readAs, hspace, Cursor.peek, List.head?_cons, Cursor.skip, hread]

theorem Reads.null (schema : Schema) : Reads 1 0 (.optional schema) .null .null := by
  refine ⟨visible_of_all rfl, ?_⟩
  intro n d hn _ rest _ spot
  obtain ⟨m, rfl⟩ := Nat.exists_eq_succ_of_ne_zero (Nat.ne_zero_of_lt hn)
  obtain ⟨spot', hread⟩ := word_append "ull".toList rest (Cursor.stepSpot spot 'n')
  have hspace : Cursor.skipSpace ⟨encodeChars .null ++ rest, spot⟩ =
      ⟨'n' :: ("ull".toList ++ rest), spot⟩ := skipSpace_cons (by decide) _ _
  refine ⟨spot', ?_⟩
  simp only [readAs, hspace, Cursor.peek, List.head?_cons, Cursor.skip, hread, beq_self_eq_true,
    ↓reduceIte]

/-- A value that is no null is read through an optional schema like through the schema itself. -/
theorem Reads.some {n d : Nat} {schema : Schema} {v v' : Value} (h : Reads n d schema v v')
    (hstarts : Starts v) : Reads (n + 1) d (.optional schema) v v' := by
  refine ⟨h.visible, ?_⟩
  intro m e hm he rest hrest spot
  obtain ⟨k, rfl⟩ := Nat.exists_eq_succ_of_ne_zero (Nat.ne_zero_of_lt hm)
  obtain ⟨c, cs, hchars, hne, hspace⟩ := hstarts
  obtain ⟨spot', hread⟩ := h.reads k e (by omega) he rest hrest spot
  refine ⟨spot', ?_⟩
  have hskip : Cursor.skipSpace ⟨encodeChars v ++ rest, spot⟩ = ⟨encodeChars v ++ rest, spot⟩ := by
    rw [hchars]
    exact skipSpace_cons hspace _ _
  have hpeek : Cursor.peek ⟨encodeChars v ++ rest, spot⟩ = Option.some c := by
    rw [hchars]
    rfl
  have hnull : (Option.some c == Option.some 'n') = false := by simpa using hne
  simp only [readAs, hskip, hpeek, hnull, Bool.false_eq_true, ↓reduceIte, hread]

theorem Reads.ofOption {α : Type} {n d : Nat} {schema : Schema} {f g : α → Value} (o : Option α)
    (h : ∀ a, o = Option.some a → Reads n d schema (f a) (g a) ∧ Starts (f a)) :
    Reads (n + 1) d (.optional schema) (Value.ofOption f o) (Value.ofOption g o) := by
  cases o with
  | none => exact (Reads.null schema).mono (by omega) (by omega)
  | some a => exact (h a rfl).1.some (h a rfl).2

/-! Integers -/

theorem toString_int (i : Int) :
    (toString i).toList =
      if 0 ≤ i then Nat.toDigits 10 i.toNat else '-' :: Nat.toDigits 10 (-i).toNat := by
  rw [Int.toString_eq_repr, Int.repr_eq_if]
  split
  · exact Nat.toList_repr
  · simp

theorem visible_toDigits (n : Nat) : ∀ c ∈ Nat.toDigits 10 n, 32 ≤ c.toNat := by
  intro c hc
  have hdigit := Nat.isDigit_of_mem_toDigits (by omega) (by omega) hc
  simp only [Char.isDigit, Bool.and_eq_true, decide_eq_true_eq] at hdigit
  have hlow : (48 : UInt32).toNat ≤ c.val.toNat := hdigit.1
  exact le_trans (by decide) hlow

theorem starts_int (i : Int) : Starts (.int i) := by
  rw [Starts, encodeChars_int, toString_int]
  split
  · obtain ⟨d, ds, hds, hdigit⟩ := exists_toDigits i.toNat
    exact ⟨d, ds, hds, ne_of_isDigit hdigit (by decide), isSpace_of_isDigit hdigit⟩
  · exact ⟨'-', _, rfl, by decide, by decide⟩

/-- An integer within its range is read back. -/
theorem Reads.whole {low high i : Int} {name : String} (hlow : low ≤ i) (hhigh : i ≤ high)
    (hmin : -(2 ^ 63) ≤ i) (hmax : i ≤ 2 ^ 64 - 1) :
    Reads 1 0 (.whole low high name) (.int i) (.int i) := by
  constructor
  · rw [encodeChars_int, toString_int]
    split
    · exact visible_toDigits _
    · intro c hc
      rcases List.mem_cons.mp hc with rfl | hc
      · decide
      · exact visible_toDigits _ c hc
  · intro n d hn _ rest hrest spot
    obtain ⟨m, rfl⟩ := Nat.exists_eq_succ_of_ne_zero (Nat.ne_zero_of_lt hn)
    obtain ⟨c, cs, hchars, -, hspace⟩ := starts_int i
    have hskip : Cursor.skipSpace ⟨encodeChars (.int i) ++ rest, spot⟩ =
        ⟨encodeChars (.int i) ++ rest, spot⟩ := by
      rw [hchars]
      exact skipSpace_cons hspace _ _
    have hcheck : (decide (low ≤ i) && decide (i ≤ high)) = true := by simp [hlow, hhigh]
    rw [encodeChars_int, toString_int] at hskip ⊢
    by_cases hsign : 0 ≤ i
    · rw [if_pos hsign] at hskip ⊢
      obtain ⟨spot', hnumber⟩ := number_toDigits (n := i.toNat)
        (by simp only [maxWord]; omega) hrest true spot
      rw [numberTail_stops hrest, if_pos rfl, Int.toNat_of_nonneg hsign] at hnumber
      refine ⟨spot', ?_⟩
      obtain ⟨d, ds, hds, hdigit⟩ := exists_toDigits i.toNat
      rw [hds] at hskip hnumber ⊢
      have hpeek : Cursor.peek ⟨d :: ds ++ rest, spot⟩ = Option.some d := rfl
      simp only [readAs, hskip, hpeek]
      split
      · next heq => simp at heq
      · next heq => exact absurd (Option.some.inj heq) (ne_of_isDigit hdigit (by decide))
      · next d' heq =>
        rw [← Option.some.inj heq, if_pos hdigit, hnumber]
        simp only [hcheck, ↓reduceIte]
    · rw [if_neg hsign] at hskip ⊢
      obtain ⟨spot', hnumber⟩ := number_toDigits (n := (-i).toNat)
        (by simp only [maxWord]; omega) hrest false (Cursor.stepSpot spot '-')
      have hfits :
          (decide ((-i).toNat = 0) || decide ((-i).toNat > 0x8000000000000000)) = false := by
        simp only [Bool.or_eq_false_iff, decide_eq_false_iff_not]
        omega
      have hvalue : (-((-i).toNat : Int)) = i := by omega
      rw [numberTail_stops hrest, if_neg (by decide), hfits, if_neg (by decide), hvalue] at hnumber
      refine ⟨spot', ?_⟩
      have hpeek : Cursor.peek ⟨'-' :: Nat.toDigits 10 (-i).toNat ++ rest, spot⟩ =
          Option.some '-' := rfl
      have hrest : Cursor.skip ⟨'-' :: Nat.toDigits 10 (-i).toNat ++ rest, spot⟩ =
          ⟨Nat.toDigits 10 (-i).toNat ++ rest, Cursor.stepSpot spot '-'⟩ := rfl
      simp only [readAs, hskip, hpeek, hrest, hnumber, hcheck, ↓reduceIte]

end CodeIndex.Json
