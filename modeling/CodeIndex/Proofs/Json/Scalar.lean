import CodeIndex.Json.Tagged
import Mathlib.Tactic.IntervalCases

/-!
Written strings and integers are read back. A reader is followed from any spot of a text; what
matters is the value it yields and that it leaves the rest of the text untouched.
-/
namespace CodeIndex.Json

/-- The reader takes a text off the front of the rest and yields the value. -/
def Takes {α : Type} (read : Cursor → Reading α) (text rest : List Char) (v : α) : Prop :=
  ∀ spot, ∃ spot', read ⟨text ++ rest, spot⟩ = .ok (v, ⟨rest, spot'⟩)

/-! Strings -/

/-- How a character stands inside quotes: behind a backslash, as a letter or by its number, or as it
is. -/
inductive Escapes (c : Char) : List Char → Prop where
  | letter {x : Char} : simpleEscape? x = some c → Escapes c ['\\', x]
  | number : c.toNat < 32 →
      Escapes c ['\\', 'u', '0', '0', hexDigit (c.toNat / 16), hexDigit (c.toNat % 16)]
  | plain : 32 ≤ c.toNat → c ≠ '"' → c ≠ '\\' → Escapes c [c]

theorem escapes_escapeChar (c : Char) : Escapes c (escapeChar c) := by
  by_cases hmark : c ∈ ['"', '\\', '\x08', '\x0c', '\n', '\r', '\t']
  · simp only [List.mem_cons, List.not_mem_nil, or_false] at hmark
    rcases hmark with rfl | rfl | rfl | rfl | rfl | rfl | rfl
    all_goals exact .letter rfl
  · simp only [List.mem_cons, List.not_mem_nil, or_false, not_or] at hmark
    obtain ⟨hquote, hslash, hb, hf, hn, hr, ht⟩ := hmark
    simp only [escapeChar, beq_iff_eq, hquote, hslash, hb, hf, hn, hr, ht, ↓reduceIte]
    split
    · next h => exact .number h
    · next h => exact .plain (Nat.le_of_not_lt h) hquote hslash

theorem length_escapeChar_pos (c : Char) : 1 ≤ (escapeChar c).length := by
  cases hspelled : escapeChar c with
  | nil =>
    have h := escapes_escapeChar c
    rw [hspelled] at h
    cases h
  | cons => simp

theorem hexValue?_hexDigit {n : Nat} (h : n < 16) : hexValue? (hexDigit n) = some n := by
  interval_cases n <;> decide

theorem hexEscape_control {n : Nat} (h : n < 32) (rest : List Char) (spot : Spot) :
    ∃ spot', hexEscape ⟨'0' :: '0' :: hexDigit (n / 16) :: hexDigit (n % 16) :: rest, spot⟩ =
      .ok (n, ⟨rest, spot'⟩) := by
  have hzero : hexValue? '0' = some 0 := by decide
  have hhigh := hexValue?_hexDigit (n := n / 16) (by omega)
  have hlow := hexValue?_hexDigit (n := n % 16) (by omega)
  have hvalue : ((0 * 16 + 0) * 16 + n / 16) * 16 + n % 16 = n := by omega
  simp only [hexEscape, hzero, hhigh, hlow, hvalue]
  exact ⟨_, rfl⟩

/-- An escaped character is read in one step. -/
theorem textFrom_escapeChar (n : Nat) (read : List Char) (c : Char) (rest : List Char)
    (spot : Spot) :
    ∃ spot', textFrom (n + 1) read ⟨escapeChar c ++ rest, spot⟩ =
      textFrom n (c :: read) ⟨rest, spot'⟩ := by
  have hbehind : ∀ {cs}, (∀ spot, ∃ spot', escape ⟨cs ++ rest, spot⟩ = .ok (c, ⟨rest, spot'⟩)) →
      ∃ spot', textFrom (n + 1) read ⟨'\\' :: cs ++ rest, spot⟩ =
        textFrom n (c :: read) ⟨rest, spot'⟩ := by
    intro cs hread
    obtain ⟨spot', hescape⟩ := hread (Cursor.stepSpot spot '\\')
    refine ⟨spot', ?_⟩
    simp only [textFrom, List.cons_append, Cursor.skip, hescape]
  have hspelled := escapes_escapeChar c
  generalize escapeChar c = spelled at hspelled ⊢
  cases hspelled with
  | @letter x hx =>
    refine hbehind fun spot => ⟨Cursor.stepSpot spot x, ?_⟩
    -- The letter is not the one that a number stands behind.
    have hu : x ≠ 'u' := by
      rintro rfl
      simp [simpleEscape?] at hx
    simp [escape, Cursor.peek, Cursor.skip, hx]
  | number hcontrol =>
    refine hbehind fun spot => ?_
    obtain ⟨spot', hhex⟩ := hexEscape_control hcontrol rest (Cursor.stepSpot spot 'u')
    refine ⟨spot', ?_⟩
    have hhigh : ¬(0xDC00 ≤ c.toNat) := by omega
    have hlow : ¬(0xD800 ≤ c.toNat) := by omega
    simp [escape, Cursor.peek, Cursor.skip, unicodeEscape, hhex, bind, Except.bind, hhigh, hlow,
      pure, Except.pure]
  | plain hvisible hquote hslash =>
    refine ⟨Cursor.stepSpot spot c, ?_⟩
    rw [textFrom]
    simp only [List.cons_append, List.nil_append]
    rw [if_neg (Nat.not_lt_of_le hvisible)]
    rfl

theorem textFrom_escaped (cs : List Char) {n : Nat} (hn : cs.length < n) (read rest : List Char)
    (spot : Spot) :
    ∃ spot', textFrom n read ⟨cs.flatMap escapeChar ++ '"' :: rest, spot⟩ =
      .ok (String.ofList (read.reverse ++ cs), ⟨rest, spot'⟩) := by
  induction cs generalizing n read spot with
  | nil =>
    obtain ⟨m, rfl⟩ := Nat.exists_eq_succ_of_ne_zero (Nat.ne_zero_of_lt hn)
    exact ⟨Cursor.stepSpot spot '"', by simp [textFrom, Cursor.skip]⟩
  | cons c cs ih =>
    obtain ⟨m, rfl⟩ := Nat.exists_eq_succ_of_ne_zero (Nat.ne_zero_of_lt hn)
    rw [List.flatMap_cons, List.append_assoc]
    obtain ⟨spot1, hstep⟩ :=
      textFrom_escapeChar m read c (cs.flatMap escapeChar ++ '"' :: rest) spot
    obtain ⟨spot2, hrest⟩ := ih (n := m) (by simpa using hn) (c :: read) spot1
    refine ⟨spot2, hstep.trans (hrest.trans ?_)⟩
    simp

/-- A string is read back after its opening quote. -/
theorem text_escaped (s : String) (rest : List Char) :
    Takes text (s.toList.flatMap escapeChar ++ ['"']) rest s := by
  intro spot
  have hlength : s.toList.length < (s.toList.flatMap escapeChar ++ '"' :: rest).length + 1 := by
    have hpos : ∀ cs : List Char, cs.length ≤ (cs.flatMap escapeChar).length := by
      intro cs
      induction cs with
      | nil => simp
      | cons c cs ih =>
        have hone := length_escapeChar_pos c
        simp only [List.flatMap_cons, List.length_cons, List.length_append]
        omega
    have hle := hpos s.toList
    simp only [List.length_append, List.length_cons]
    omega
  obtain ⟨spot', hread⟩ := textFrom_escaped s.toList hlength [] rest spot
  refine ⟨spot', ?_⟩
  simpa [text] using hread

/-! Integers -/

/-- What may follow a value inside an object, or at the end of a text. -/
def Stops (rest : List Char) : Prop := ∀ c, rest.head? = some c → c = ',' ∨ c = '\x7d'

theorem stops_nil : Stops [] := by simp [Stops]

theorem stops_comma (rest : List Char) : Stops (',' :: rest) := by simp [Stops]

theorem stops_brace (rest : List Char) : Stops ('\x7d' :: rest) := by simp [Stops]

theorem digitsFrom_append {ds rest : List Char} (hds : ∀ d ∈ ds, d.isDigit = true)
    (hrest : Stops rest) (spot : Spot) :
    ∃ spot', Cursor.digitsFrom spot (ds ++ rest) = (ds, ⟨rest, spot'⟩) := by
  induction ds generalizing spot with
  | nil =>
    cases rest with
    | nil => exact ⟨spot, rfl⟩
    | cons c cs =>
      have hc : c.isDigit = false := by
        rcases hrest c rfl with rfl | rfl <;> decide
      exact ⟨spot, by simp [Cursor.digitsFrom, hc]⟩
  | cons d ds ih =>
    obtain ⟨spot', hread⟩ := ih (fun d hd => hds d (List.mem_cons_of_mem _ hd))
      (Cursor.stepSpot spot d)
    refine ⟨spot', ?_⟩
    simp [Cursor.digitsFrom, hds d List.mem_cons_self, hread]

/-- The number that digits stand for after some others. -/
def digitsValue (n : Nat) (ds : List Char) : Nat := ds.foldl (fun n d => n * 10 + digitValue d) n

theorem le_digitsValue (n : Nat) (ds : List Char) : n ≤ digitsValue n ds := by
  induction ds generalizing n with
  | nil => exact Nat.le_refl n
  | cons d ds ih =>
    have hrest := ih (n * 10 + digitValue d)
    rw [digitsValue, List.foldl_cons]
    unfold digitsValue at hrest
    omega

/-- Digits of a number that fits are all taken. -/
theorem takeDigits_eq {ds : List Char} {n k : Nat} (h : digitsValue n ds ≤ maxWord) :
    takeDigits n k ds = (digitsValue n ds, k + ds.length, false) := by
  induction ds generalizing n k with
  | nil => rfl
  | cons d ds ih =>
    have hle := le_digitsValue (n * 10 + digitValue d) ds
    have hvalue : digitsValue n (d :: ds) = digitsValue (n * 10 + digitValue d) ds := rfl
    rw [takeDigits, if_neg (by omega), ih (hvalue ▸ h), hvalue, List.length_cons]
    simp only [Prod.mk.injEq, true_and, and_true]
    omega

theorem digitsValue_toDigits (n : Nat) : digitsValue 0 (Nat.toDigits 10 n) = n := by
  induction n using Nat.strong_induction_on with
  | _ n ih =>
    rw [Nat.toDigits_eq_if (by omega)]
    split
    · next hlt =>
      have hdigit := Nat.toNat_digitChar_sub_48_of_lt_ten hlt
      simpa [digitsValue, digitValue] using hdigit
    · next hge =>
      have hdigit := Nat.toNat_digitChar_sub_48_of_lt_ten (Nat.mod_lt n (by omega : 0 < 10))
      have hhigh := ih (n / 10) (by omega)
      rw [digitsValue] at hhigh ⊢
      rw [List.foldl_append, hhigh]
      simp only [List.foldl_cons, List.foldl_nil, digitValue, hdigit]
      omega

/-- The decimal form of a positive number does not start with a zero. -/
theorem toDigits_cons {n : Nat} (hn : 0 < n) :
    ∃ d ds, Nat.toDigits 10 n = d :: ds ∧ d ≠ '0' ∧ d.isDigit = true := by
  induction n using Nat.strong_induction_on with
  | _ n ih =>
    rw [Nat.toDigits_eq_if (by omega)]
    split
    · next hlt =>
      refine ⟨n.digitChar, [], rfl, ?_, ?_⟩
      · simp only [ne_eq, Nat.digitChar_eq_zero]
        omega
      · simpa [Nat.isDigit_digitChar] using hlt
    · next hge =>
      obtain ⟨d, ds, hds, hne, hdigit⟩ := ih (n / 10) (by omega) (by omega)
      exact ⟨d, ds ++ [Nat.digitChar (n % 10)], by rw [hds]; rfl, hne, hdigit⟩

theorem exists_toDigits (n : Nat) : ∃ d ds, Nat.toDigits 10 n = d :: ds ∧ d.isDigit = true := by
  cases hds : Nat.toDigits 10 n with
  | nil => exact absurd hds Nat.toDigits_ne_nil
  | cons d ds =>
    refine ⟨d, ds, rfl, Nat.isDigit_of_mem_toDigits (b := 10) (n := n) (by omega) (by omega) ?_⟩
    rw [hds]
    exact List.mem_cons_self

theorem ne_of_isDigit {d c : Char} (hd : d.isDigit = true) (hc : c.isDigit = false) : d ≠ c := by
  rintro rfl
  rw [hc] at hd
  exact Bool.false_ne_true hd

theorem isSpace_of_isDigit {d : Char} (hd : d.isDigit = true) : Cursor.isSpace d = false := by
  simp only [Cursor.isSpace, Bool.or_eq_false_iff, beq_eq_false_iff_ne]
  exact ⟨⟨⟨ne_of_isDigit hd (by decide), ne_of_isDigit hd (by decide)⟩,
    ne_of_isDigit hd (by decide)⟩, ne_of_isDigit hd (by decide)⟩

theorem numberTail_stops {rest : List Char} (hrest : Stops rest) (spot : Spot) (positive : Bool)
    (n : Nat) :
    numberTail ⟨rest, spot⟩ positive n =
      if positive then .ok (.int n, ⟨rest, spot⟩)
      else if n = 0 || n > 0x8000000000000000 then
        .ok (.real (Decimal.text (-(Float.ofNat n))), ⟨rest, spot⟩)
      else .ok (.int (-(n : Int)), ⟨rest, spot⟩) := by
  have hpoint : (rest.head? == some '.') = false := by
    cases hhead : rest.head? with
    | none => rfl
    | some c => rcases hrest c hhead with rfl | rfl <;> decide
  have hmark : isExponentMark rest.head? = false := by
    cases hhead : rest.head? with
    | none => rfl
    | some c => rcases hrest c hhead with rfl | rfl <;> decide
  simp only [numberTail, Cursor.peek, hpoint, hmark, Bool.false_eq_true, ↓reduceIte]

/-- The digits of a number are read up to its tail. -/
theorem number_toDigits {n : Nat} (hn : n ≤ maxWord) {rest : List Char} (hrest : Stops rest)
    (positive : Bool) (spot : Spot) :
    ∃ spot', number ⟨Nat.toDigits 10 n ++ rest, spot⟩ positive =
      numberTail ⟨rest, spot'⟩ positive n := by
  rcases Nat.eq_zero_or_pos n with rfl | hpos
  · refine ⟨Cursor.stepSpot spot '0', ?_⟩
    simp only [Nat.toDigits_zero, List.cons_append, List.nil_append, number, Cursor.peek,
      List.head?_cons, Cursor.skip]
    cases rest with
    | nil => rfl
    | cons c cs =>
      have hc : c.isDigit = false := by
        rcases hrest c rfl with rfl | rfl <;> decide
      simp [hc]
  · obtain ⟨d, ds, hds, hne, hdigit⟩ := toDigits_cons hpos
    have hall : ∀ d ∈ Nat.toDigits 10 n, d.isDigit = true :=
      fun d hd => Nat.isDigit_of_mem_toDigits (by omega) (by omega) hd
    obtain ⟨spot', hread⟩ := digitsFrom_append hall hrest spot
    have hvalue := digitsValue_toDigits n
    have hword : digitsValue 0 (Nat.toDigits 10 n) ≤ maxWord := by omega
    have htake := takeDigits_eq (k := 0) hword
    refine ⟨spot', ?_⟩
    have hpeek : Cursor.peek ⟨Nat.toDigits 10 n ++ rest, spot⟩ = some d := by
      rw [hds]
      rfl
    rw [number, hpeek]
    split
    · next heq => simp at heq
    · next heq => exact absurd (Option.some.inj heq) hne
    · next d' heq =>
      obtain rfl := Option.some.inj heq
      rw [if_pos hdigit]
      simp only [Cursor.digits, hread, htake, hvalue, Bool.false_eq_true, ↓reduceIte]

end CodeIndex.Json
