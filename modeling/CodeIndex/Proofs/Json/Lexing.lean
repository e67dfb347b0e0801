import CodeIndex.Json.Schema
import CodeIndex.Proofs.Json.Layout
import CodeIndex.Proofs.Json.Writing

/-!
Two texts of the same tokens, read side by side. The readers stand before the same tokens, see the
same next character, and pass over a token together. A string with a surrogate that stands alone is
a fault in both of them.
-/
namespace CodeIndex.Json.Layout

/-- Two results are both faults, or both values that stand in a relation. -/
def Alike {α : Type} (R : α → α → Prop) (x y : Except Fault α) : Prop :=
  (∃ f g, x = .error f ∧ y = .error g) ∨ ∃ a b, x = .ok a ∧ y = .ok b ∧ R a b

theorem Alike.faults {α : Type} {R : α → α → Prop} (f g : Fault) :
    Alike R (.error f) (.error g) :=
  .inl ⟨f, g, rfl, rfl⟩

theorem Alike.results {α : Type} {R : α → α → Prop} {a b : α} (h : R a b) :
    Alike R (.ok a) (.ok b) :=
  .inr ⟨a, b, rfl, rfl, h⟩

/-- Two cursors before the same tokens. -/
structure Both (ts : List Token) (c c' : Cursor) : Prop where
  separated : Separated ts
  left : Strict ts c.rest
  right : Strict ts c'.rest

/-- Two cursors that stand behind the first of some tokens. -/
def Ahead (ts : List Token) (c c' : Cursor) : Prop :=
  ∃ ts', ts'.length < ts.length ∧ Both ts' c c'

/-- The same value was read, and the first token was passed. -/
def SameRead {α : Type} (ts : List Token) (x y : α × Cursor) : Prop :=
  x.1 = y.1 ∧ Ahead ts x.2 y.2

theorem Ahead.mono {ts us : List Token} {c c' : Cursor} (h : Ahead us c c')
    (hle : us.length ≤ ts.length) : Ahead ts c c' := by
  obtain ⟨vs, hlt, hboth⟩ := h
  exact ⟨vs, hlt.trans_le hle, hboth⟩

/-! First characters -/

theorem Numeral.exists_unsigned (n : Numeral) :
    ∃ d ds, n.unsigned = d :: ds ∧ d.isDigit = true := by
  unfold Numeral.unsigned
  rcases n.isInteger with h | ⟨⟨hne, h⟩, -⟩
  · exact ⟨'0', n.fraction ++ n.exponent, by rw [h]; rfl, by decide⟩
  · obtain ⟨d, ds, hds⟩ := List.exists_cons_of_ne_nil hne
    exact ⟨d, ds ++ (n.fraction ++ n.exponent), by rw [hds]; rfl, h d (by simp [hds])⟩

/-- The character that a number starts with tells whether it has a sign. -/
theorem Numeral.exists_chars (n : Numeral) :
    ∃ x xs, n.chars = x :: xs ∧
      (n.negative = true ∧ x = '-' ∨ n.negative = false ∧ x.isDigit = true) := by
  unfold Numeral.chars
  cases n.negative with
  | true => exact ⟨'-', n.unsigned, rfl, .inl ⟨rfl, rfl⟩⟩
  | false =>
    obtain ⟨d, ds, hds, hd⟩ := n.exists_unsigned
    exact ⟨d, ds, hds, .inr ⟨rfl, hd⟩⟩

theorem Token.exists_chars (t : Token) :
    ∃ x xs, t.chars = x :: xs ∧ Cursor.isSpace x = false := by
  cases t with
  | mark m => exact ⟨m.char, [], rfl, by cases m <;> decide⟩
  | scalar s =>
    cases s with
    | null => exact ⟨'n', _, rfl, by decide⟩
    | bool b =>
      cases b
      · exact ⟨'f', _, rfl, by decide⟩
      · exact ⟨'t', _, rfl, by decide⟩
    | number n =>
      obtain ⟨x, xs, h, ⟨-, rfl⟩ | ⟨-, hx⟩⟩ := n.exists_chars
      · exact ⟨'-', xs, h, by decide⟩
      · exact ⟨x, xs, h, isSpace_of_isDigit hx⟩
    | text q => exact ⟨'"', _, rfl, by decide⟩

/-- The token that a character tells of, where it is the first character of one token only. -/
def Token.ofFirst : Char → Option Token
  | '[' => some (.mark .openList)
  | ']' => some (.mark .closeList)
  | '\x7b' => some (.mark .openObject)
  | '\x7d' => some (.mark .closeObject)
  | ',' => some (.mark .comma)
  | ':' => some (.mark .colon)
  | 'n' => some (.scalar .null)
  | 't' => some (.scalar (.bool true))
  | 'f' => some (.scalar (.bool false))
  | _ => none

/-- What the first character of a token tells of it. -/
theorem Token.first {t : Token} {x : Char} (h : t.chars.head? = some x) :
    ofFirst x = some t ∨ (x = '"' ∧ ∃ q, t = .scalar (.text q)) ∨
      ∃ n, t = .scalar (.number n) ∧
        (n.negative = true ∧ x = '-' ∨ n.negative = false ∧ x.isDigit = true) := by
  cases t with
  | mark m =>
    obtain rfl : m.char = x := Option.some.inj h
    exact .inl (by cases m <;> rfl)
  | scalar s =>
    cases s with
    | null =>
      obtain rfl : 'n' = x := Option.some.inj h
      exact .inl rfl
    | bool b =>
      cases b with
      | false =>
        obtain rfl : 'f' = x := Option.some.inj h
        exact .inl rfl
      | true =>
        obtain rfl : 't' = x := Option.some.inj h
        exact .inl rfl
    | number n =>
      obtain ⟨y, ys, hchars, hy⟩ := n.exists_chars
      rw [Token.chars, Scalar.chars_number, hchars] at h
      obtain rfl : y = x := Option.some.inj h
      exact .inr (.inr ⟨n, rfl, hy⟩)
    | text q =>
      obtain rfl : '"' = x := Option.some.inj h
      exact .inr (.inl ⟨rfl, q, rfl⟩)

theorem Token.ofFirst_digit {x : Char} (h : x.isDigit = true) : ofFirst x = none := by
  unfold ofFirst
  split
  case h_10 => rfl
  all_goals exact absurd h (by decide)

theorem Token.eq_of_ofFirst {t u : Token} {x : Char} (hu : u.chars.head? = some x)
    (ht : ofFirst x = some t) : u = t := by
  rcases Token.first hu with h | ⟨rfl, -⟩ | ⟨n, -, ⟨-, rfl⟩ | ⟨-, hx⟩⟩
  · exact Option.some.inj (h.symm.trans ht)
  · cases ht
  · cases ht
  · rw [Token.ofFirst_digit hx] at ht
    cases ht

/-- The characters of a text that starts with its first token. -/
inductive Fronted : List Token → List Char → Prop where
  | done : Fronted [] []
  | token {t : Token} {ts : List Token} {cs : List Char} (h : Strict ts cs) :
      Fronted (t :: ts) (t.chars ++ cs)

theorem Fronted.strict {ts : List Token} {cs : List Char} (h : Fronted ts cs) : Strict ts cs := by
  have hnil : Blank [] := by simp [Blank]
  cases h with
  | done => exact .done hnil
  | token h => exact .token hnil h

theorem skipSpaceFrom_rest (s : Spot) (cs : List Char) :
    (Cursor.skipSpaceFrom s cs).rest = cs.dropWhile Cursor.isSpace := by
  induction cs generalizing s with
  | nil => rfl
  | cons c cs ih =>
    rw [Cursor.skipSpaceFrom, List.dropWhile_cons]
    split
    · exact ih _
    · rfl

theorem Strict.fronted {ts : List Token} {c : Cursor} (h : Strict ts c.rest) :
    Fronted ts c.skipSpace.rest := by
  rw [Cursor.skipSpace, skipSpaceFrom_rest]
  generalize c.rest = r at h ⊢
  cases h with
  | done hg =>
    rw [← List.append_nil r, List.dropWhile_append_of_pos hg]
    exact .done
  | @token g cs t ts hg h =>
    obtain ⟨x, xs, hx, hspace⟩ := t.exists_chars
    have hfront : (t.chars ++ cs).dropWhile Cursor.isSpace = t.chars ++ cs := by
      rw [hx, List.cons_append, List.dropWhile_cons_of_neg (by simp [hspace])]
    rw [List.dropWhile_append_of_pos hg, hfront]
    exact .token h

/-- Two cursors at the first of the same tokens. -/
structure Front (ts : List Token) (c c' : Cursor) : Prop where
  separated : Separated ts
  left : Fronted ts c.rest
  right : Fronted ts c'.rest

theorem Both.front {ts : List Token} {c c' : Cursor} (h : Both ts c c') :
    Front ts c.skipSpace c'.skipSpace :=
  ⟨h.separated, h.left.fronted, h.right.fronted⟩

namespace Front

variable {ts : List Token} {c c' : Cursor}

theorem both (h : Front ts c c') : Both ts c c' := ⟨h.separated, h.left.strict, h.right.strict⟩

/-- Either nothing is left, or both texts go on with the same token. -/
theorem cases (h : Front ts c c') :
    ts = [] ∧ c.rest = [] ∧ c'.rest = [] ∨
      ∃ t us cs cs', ts = t :: us ∧ c.rest = t.chars ++ cs ∧ c'.rest = t.chars ++ cs' ∧
        Strict us cs ∧ Strict us cs' := by
  obtain ⟨-, hleft, hright⟩ := h
  generalize c.rest = l at hleft ⊢
  generalize c'.rest = r at hright ⊢
  cases hleft with
  | done =>
    cases hright
    exact .inl ⟨rfl, rfl, rfl⟩
  | token hl =>
    cases hright with
    | token hr => exact .inr ⟨_, _, _, _, rfl, rfl, rfl, hl, hr⟩

theorem peek_eq (h : Front ts c c') : c'.peek = c.peek := by
  rcases h.cases with ⟨-, hl, hr⟩ | ⟨t, us, cs, cs', -, hl, hr, -, -⟩
  · rw [Cursor.peek, Cursor.peek, hl, hr]
  · obtain ⟨x, xs, hx, -⟩ := t.exists_chars
    rw [Cursor.peek, Cursor.peek, hl, hr, hx]
    rfl

/-- The next token, with the character it starts with. -/
theorem token {x : Char} (h : Front ts c c') (hpeek : c.peek = some x) :
    ∃ t us cs cs', t.chars.head? = some x ∧ ts = t :: us ∧ c.rest = t.chars ++ cs ∧
      c'.rest = t.chars ++ cs' ∧ Strict us cs ∧ Strict us cs' := by
  rcases h.cases with ⟨-, hl, -⟩ | ⟨t, us, cs, cs', hts, hl, hr, hcs, hcs'⟩
  · rw [Cursor.peek, hl] at hpeek
    cases hpeek
  · refine ⟨t, us, cs, cs', ?_, hts, hl, hr, hcs, hcs'⟩
    obtain ⟨y, ys, hy, -⟩ := t.exists_chars
    rw [Cursor.peek, hl, hy] at hpeek
    rw [hy]
    exact hpeek

/-- A punctuation mark is passed. -/
theorem skip {x : Char} {m : Mark} (h : Front ts c c') (hpeek : c.peek = some x)
    (hm : Token.ofFirst x = some (.mark m)) : Ahead ts c.skip c'.skip := by
  obtain ⟨t, us, cs, cs', hfirst, rfl, hl, hr, hcs, hcs'⟩ := h.token hpeek
  obtain rfl := Token.eq_of_ofFirst hfirst hm
  refine ⟨us, Nat.lt_succ_self _, h.separated.2, ?_, ?_⟩
  · rw [Cursor.skip, hl]
    exact hcs
  · rw [Cursor.skip, hr]
    exact hcs'

/-- A word is passed. -/
theorem word {x : Char} {xs : List Char} {s : Scalar} (h : Front ts c c')
    (hpeek : c.peek = some x) (hs : Token.ofFirst x = some (.scalar s)) (hxs : s.chars = x :: xs) :
    Alike (Ahead ts) (c.skip.word xs) (c'.skip.word xs) := by
  obtain ⟨t, us, cs, cs', hfirst, rfl, hl, hr, hcs, hcs'⟩ := h.token hpeek
  obtain rfl := Token.eq_of_ofFirst hfirst hs
  have hword : ∀ {k : Cursor} {r : List Char}, k.rest = (Token.scalar s).chars ++ r →
      ∃ s', k.skip.word xs = .ok ⟨r, s'⟩ := by
    intro k r hk
    obtain ⟨rest, spot⟩ := k
    obtain rfl : rest = x :: (xs ++ r) := hk.trans (by rw [Token.chars, hxs, List.cons_append])
    exact word_append xs r _
  obtain ⟨s₁, h₁⟩ := hword hl
  obtain ⟨s₂, h₂⟩ := hword hr
  rw [h₁, h₂]
  exact .results ⟨us, Nat.lt_succ_self _, h.separated.2, hcs, hcs'⟩

end Front

/-! Strings -/

/-- Four digits of a Unicode escape are read. -/
theorem hexEscape_digits {c₁ c₂ c₃ c₄ : Char}
    (hc : ∀ c ∈ [c₁, c₂, c₃, c₄], (hexValue? c).isSome = true) :
    ∃ n, ∀ rest spot, ∃ spot',
      hexEscape ⟨c₁ :: c₂ :: c₃ :: c₄ :: rest, spot⟩ = .ok (n, ⟨rest, spot'⟩) := by
  simp only [List.forall_mem_cons, List.not_mem_nil, false_imp_iff, implies_true, and_true,
    Option.isSome_iff_exists] at hc
  obtain ⟨⟨n₁, h₁⟩, ⟨n₂, h₂⟩, ⟨n₃, h₃⟩, ⟨n₄, h₄⟩⟩ := hc
  refine ⟨((n₁ * 16 + n₂) * 16 + n₃) * 16 + n₄, fun rest spot => ?_⟩
  simp only [hexEscape, h₁, h₂, h₃, h₄, Cursor.skip]
  exact ⟨_, rfl⟩

/-- The same character was read of a string, and the same part of it is left. -/
def SameChar (cs r r' : List Char) (x y : Char × Cursor) : Prop :=
  x.1 = y.1 ∧ ∃ ds, QuotedRest ds ∧ ds.length ≤ cs.length ∧ x.2.rest = ds ++ r ∧
    y.2.rest = ds ++ r'

theorem follow_same (x : Char) (cs : List Char) (spot : Spot) :
    ∃ spot', unicodeEscape.follow ⟨x :: cs, spot⟩ x = .ok ⟨cs, spot'⟩ :=
  ⟨_, by simp [unicodeEscape.follow, Cursor.peek, Cursor.skip]; rfl⟩

theorem follow_other {x y : Char} (h : x ≠ y) (cs : List Char) (spot : Spot) :
    ∃ f, unicodeEscape.follow ⟨y :: cs, spot⟩ x = .error f :=
  ⟨_, by simp [unicodeEscape.follow, Cursor.peek, h]; rfl⟩

/-- What a Unicode escape stands for is told by the string that it belongs to. -/
theorem unicodeEscape_alike {c₁ c₂ c₃ c₄ : Char} {cs : List Char}
    (hc : ∀ c ∈ [c₁, c₂, c₃, c₄], (hexValue? c).isSome = true) (h : QuotedRest cs)
    (r r' : List Char) (spot spot' : Spot) :
    Alike (SameChar cs r r') (unicodeEscape ⟨c₁ :: c₂ :: c₃ :: c₄ :: (cs ++ r), spot⟩)
      (unicodeEscape ⟨c₁ :: c₂ :: c₃ :: c₄ :: (cs ++ r'), spot'⟩) := by
  obtain ⟨n, hn⟩ := hexEscape_digits hc
  obtain ⟨s, hs⟩ := hn (cs ++ r) spot
  obtain ⟨s', hs'⟩ := hn (cs ++ r') spot'
  simp only [unicodeEscape, hs, hs', bind, Except.bind]
  split
  · exact .faults _ _
  split
  next =>
    -- The second half of a pair must follow.
    have hother : ∀ (y : Char) (ys : List Char), y ≠ '\\' → ∀ spot,
        ∃ f, unicodeEscape.follow ⟨y :: ys, spot⟩ '\\' = .error f :=
      fun y ys hy spot => follow_other hy.symm ys spot
    cases h with
    | close =>
      obtain ⟨f, hf⟩ := hother '"' r (by decide) s
      obtain ⟨f', hf'⟩ := hother '"' r' (by decide) s'
      simp only [List.singleton_append, hf, hf']
      exact .faults _ _
    | @plain y ys _ _ hslash h =>
      obtain ⟨f, hf⟩ := hother y (ys ++ r) hslash s
      obtain ⟨f', hf'⟩ := hother y (ys ++ r') hslash s'
      simp only [List.cons_append, hf, hf']
      exact .faults _ _
    | @escape y ys hy h =>
      have hu : 'u' ≠ y := by
        rintro rfl
        cases hy
      obtain ⟨s₁, h₁⟩ := follow_same '\\' (y :: (ys ++ r)) s
      obtain ⟨s₂, h₂⟩ := follow_same '\\' (y :: (ys ++ r')) s'
      obtain ⟨f, hf⟩ := follow_other hu (ys ++ r) s₁
      obtain ⟨f', hf'⟩ := follow_other hu (ys ++ r') s₂
      simp only [List.cons_append, h₁, h₂, hf, hf']
      exact .faults _ _
    | @unicode d₁ d₂ d₃ d₄ ds hd h =>
      obtain ⟨m, hm⟩ := hexEscape_digits hd
      obtain ⟨s₁, h₁⟩ := follow_same '\\' ('u' :: d₁ :: d₂ :: d₃ :: d₄ :: (ds ++ r)) s
      obtain ⟨s₂, h₂⟩ := follow_same '\\' ('u' :: d₁ :: d₂ :: d₃ :: d₄ :: (ds ++ r')) s'
      obtain ⟨t₁, g₁⟩ := follow_same 'u' (d₁ :: d₂ :: d₃ :: d₄ :: (ds ++ r)) s₁
      obtain ⟨t₂, g₂⟩ := follow_same 'u' (d₁ :: d₂ :: d₃ :: d₄ :: (ds ++ r')) s₂
      obtain ⟨u₁, k₁⟩ := hm (ds ++ r) t₁
      obtain ⟨u₂, k₂⟩ := hm (ds ++ r') t₂
      simp only [List.cons_append, h₁, h₂, g₁, g₂, k₁, k₂]
      split
      · exact .results ⟨rfl, ds, h, by simp only [List.length_cons]; omega, rfl, rfl⟩
      · exact .faults _ _
  next => exact .results ⟨rfl, cs, h, le_rfl, rfl, rfl⟩

theorem escape_alike {x : Char} {cs : List Char} (hx : (simpleEscape? x).isSome = true)
    (h : QuotedRest cs) (r r' : List Char) (spot spot' : Spot) :
    Alike (SameChar cs r r') (escape ⟨x :: (cs ++ r), spot⟩) (escape ⟨x :: (cs ++ r'), spot'⟩) := by
  obtain ⟨y, hy⟩ := Option.isSome_iff_exists.mp hx
  have hescape : ∀ (ds : List Char) (s : Spot), escape ⟨x :: ds, s⟩ =
      .ok (y, ⟨ds, Cursor.stepSpot s x⟩) := by
    intro ds s
    unfold escape
    split
    next hpeek => cases hpeek
    next hpeek =>
      obtain rfl : x = 'u' := Option.some.inj hpeek
      cases hy
    next z _ hpeek =>
      obtain rfl : x = z := Option.some.inj hpeek
      rw [hy]
      rfl
  rw [hescape, hescape]
  exact .results ⟨rfl, cs, h, le_rfl, rfl, rfl⟩

/-- Two readers in a string go on behind an escape. -/
theorem alike_escaped {ds r r' : List Char} {S : String × Cursor → String × Cursor → Prop}
    {next next' : Char → Cursor → Except Fault (String × Cursor)}
    (hnext : ∀ x es s s', QuotedRest es → es.length ≤ ds.length →
      Alike S (next x ⟨es ++ r, s⟩) (next' x ⟨es ++ r', s'⟩)) {x y : Except Fault (Char × Cursor)} :
    Alike (SameChar ds r r') x y → Alike S
      (match x with
        | .ok (x, c) => next x c
        | .error f => .error f)
      (match y with
        | .ok (x, c) => next' x c
        | .error f => .error f) := by
  rintro (⟨f, g, rfl, rfl⟩ | ⟨⟨x, c⟩, ⟨x', c'⟩, rfl, rfl, hsame, es, hes, hle, hc, hc'⟩)
  · exact .faults f g
  · obtain ⟨rest, s⟩ := c
    obtain ⟨rest', s'⟩ := c'
    obtain rfl : x = x' := hsame
    obtain rfl : rest = es ++ r := hc
    obtain rfl : rest' = es ++ r' := hc'
    exact hnext x es s s' hes hle

/-- What a string stands for is told by its characters. -/
theorem textFrom_alike {cs : List Char} (h : QuotedRest cs) (r r' : List Char) {n n' : Nat}
    (hn : cs.length ≤ n) (hn' : cs.length ≤ n') (read : List Char) (spot spot' : Spot) :
    Alike (fun x y : String × Cursor => x.1 = y.1 ∧ x.2.rest = r ∧ y.2.rest = r')
      (textFrom n read ⟨cs ++ r, spot⟩) (textFrom n' read ⟨cs ++ r', spot'⟩) := by
  -- A pair of surrogates is two escapes, so the induction is on the length.
  obtain ⟨m, rfl⟩ : ∃ m, n = m + 1 := by
    cases h <;> exact ⟨n - 1, by simp only [List.length_cons] at hn; omega⟩
  obtain ⟨m', rfl⟩ : ∃ m', n' = m' + 1 := by
    cases h <;> exact ⟨n' - 1, by simp only [List.length_cons] at hn'; omega⟩
  have hrest : ∀ (x : Char) (es : List Char) (s s' : Spot), QuotedRest es →
      es.length < cs.length →
      Alike (fun x y : String × Cursor => x.1 = y.1 ∧ x.2.rest = r ∧ y.2.rest = r')
        (textFrom m (x :: read) ⟨es ++ r, s⟩) (textFrom m' (x :: read) ⟨es ++ r', s'⟩) :=
    fun x es s s' hes hlt => textFrom_alike hes r r' (by omega) (by omega) (x :: read) s s'
  cases h with
  | close => exact .results ⟨rfl, rfl, rfl⟩
  | @plain x xs hx hquote hslash h =>
    have hlow : ¬ x.toNat < 32 := by omega
    have hstep : ∀ (k : Nat) (ys : List Char) (s : Spot), textFrom (k + 1) read ⟨x :: ys, s⟩ =
        textFrom k (x :: read) ⟨ys, Cursor.stepSpot s x⟩ := by
      intro k ys s
      rw [textFrom]
      split
      next heq => cases heq
      next heq => exact absurd (List.cons.inj heq).1 hquote
      next heq => exact absurd (List.cons.inj heq).1 hslash
      next heq =>
        obtain ⟨rfl, rfl⟩ := List.cons.inj heq
        rw [if_neg hlow]
        rfl
    rw [List.cons_append, List.cons_append, hstep, hstep]
    exact hrest x xs _ _ h (Nat.lt_succ_self _)
  | @escape x xs hx h =>
    refine alike_escaped ?_ (escape_alike hx h r r' _ _)
    intro x es s s' hes hle
    exact hrest x es s s' hes (by simp only [List.length_cons]; omega)
  | @unicode c₁ c₂ c₃ c₄ xs hc h =>
    refine alike_escaped ?_ (unicodeEscape_alike hc h r r' _ _)
    intro x es s s' hes hle
    exact hrest x es s s' hes (by simp only [List.length_cons]; omega)
termination_by cs.length

/-- A string is passed over. -/
theorem passText_quoted {cs : List Char} (h : QuotedRest cs) (r : List Char) {n : Nat}
    (hn : cs.length ≤ n) (spot : Spot) :
    ∃ spot', passText n ⟨cs ++ r, spot⟩ = .ok ⟨r, spot'⟩ := by
  induction h generalizing n spot with
  | close =>
    obtain ⟨m, rfl⟩ := Nat.exists_eq_add_of_le' hn
    exact ⟨_, rfl⟩
  | @plain x xs hx hquote hslash _ ih =>
    obtain ⟨m, rfl⟩ : ∃ m, n = m + 1 := ⟨n - 1, by simp only [List.length_cons] at hn; omega⟩
    have hlow : ¬ x.toNat < 32 := by omega
    obtain ⟨s, hs⟩ := ih (n := m) (by simpa using hn) (Cursor.stepSpot spot x)
    refine ⟨s, ?_⟩
    rw [passText]
    split
    next heq => cases heq
    next heq => exact absurd (List.cons.inj heq).1 hquote
    next heq => exact absurd (List.cons.inj heq).1 hslash
    next heq =>
      obtain ⟨rfl, rfl⟩ := List.cons.inj heq
      rw [if_neg hlow]
      exact hs
  | @escape x xs hx _ ih =>
    obtain ⟨m, rfl⟩ : ∃ m, n = m + 1 := ⟨n - 1, by simp only [List.length_cons] at hn; omega⟩
    obtain ⟨s, hs⟩ := ih (n := m) (by simp only [List.length_cons] at hn; omega)
      (Cursor.stepSpot (Cursor.stepSpot spot '\\') x)
    refine ⟨s, ?_⟩
    simp only [passText, List.cons_append, Cursor.skip, Cursor.peek, List.head?_cons]
    split
    next heq => cases heq
    next heq =>
      obtain rfl : x = 'u' := Option.some.inj heq
      cases hx
    next heq =>
      obtain rfl := Option.some.inj heq
      rw [if_pos hx]
      exact hs
  | @unicode c₁ c₂ c₃ c₄ xs hc _ ih =>
    obtain ⟨m, rfl⟩ : ∃ m, n = m + 1 := ⟨n - 1, by simp only [List.length_cons] at hn; omega⟩
    obtain ⟨v, hv⟩ := hexEscape_digits hc
    obtain ⟨s, hs⟩ := hv (xs ++ r) (Cursor.stepSpot (Cursor.stepSpot spot '\\') 'u')
    obtain ⟨s', hs'⟩ := ih (n := m) (by simp only [List.length_cons] at hn; omega) s
    refine ⟨s', ?_⟩
    simp only [passText, List.cons_append, Cursor.skip, Cursor.peek, List.head?_cons, hs]
    exact hs'

/-! Numbers -/

/-- What may follow a number: nothing that would make it longer. -/
def Ends (rest : List Char) : Prop :=
  ∀ c, rest.head? = some c → c.isDigit = false ∧ c ≠ '.' ∧ c ≠ 'e' ∧ c ≠ 'E'

theorem Ends.peek {rest : List Char} (h : Ends rest) (spot : Spot) :
    (Cursor.peek ⟨rest, spot⟩ == some '.') = false ∧
      isExponentMark (Cursor.peek ⟨rest, spot⟩) = false := by
  cases rest with
  | nil => exact ⟨rfl, rfl⟩
  | cons c cs =>
    obtain ⟨-, hpoint, he, hE⟩ := h c rfl
    simp [Cursor.peek, isExponentMark, hpoint, he, hE]

theorem digitsFrom_digits {ds rest : List Char} (hds : ∀ d ∈ ds, d.isDigit = true)
    (hrest : ∀ c, rest.head? = some c → c.isDigit = false) (spot : Spot) :
    ∃ spot', Cursor.digitsFrom spot (ds ++ rest) = (ds, ⟨rest, spot'⟩) := by
  induction ds generalizing spot with
  | nil =>
    cases rest with
    | nil => exact ⟨spot, rfl⟩
    | cons c cs => exact ⟨spot, by simp [Cursor.digitsFrom, hrest c rfl]⟩
  | cons d ds ih =>
    obtain ⟨spot', hread⟩ := ih (fun d hd => hds d (List.mem_cons_of_mem _ hd))
      (Cursor.stepSpot spot d)
    refine ⟨spot', ?_⟩
    simp [Cursor.digitsFrom, hds d List.mem_cons_self, hread]

theorem passExponent_exponent {cs r : List Char} (h : IsExponent cs) (hne : cs ≠ [])
    (hr : Ends r) (spot : Spot) : ∃ spot', passExponent ⟨cs ++ r, spot⟩ = .ok ⟨r, spot'⟩ := by
  obtain rfl | ⟨mark, sign, ds, -, hsign, ⟨hds, hdigits⟩, rfl⟩ := h
  · exact absurd rfl hne
  obtain ⟨d, es, rfl⟩ := List.exists_cons_of_ne_nil hds
  have hd : d.isDigit = true := hdigits d List.mem_cons_self
  have hread : ∀ s, ∃ s', Cursor.digits ⟨d :: (es ++ r), s⟩ = (d :: es, ⟨r, s'⟩) :=
    fun s => digitsFrom_digits hdigits (fun c hc => (hr c hc).1) s
  have hplus : d ≠ '+' := ne_of_isDigit hd (by decide)
  have hminus : d ≠ '-' := ne_of_isDigit hd (by decide)
  rcases hsign with rfl | rfl | rfl
  · obtain ⟨s, hs⟩ := hread (Cursor.stepSpot spot mark)
    exact ⟨s, by simp [passExponent, Cursor.skip, Cursor.peek, hplus, hminus, hd, hs]⟩
  · obtain ⟨s, hs⟩ := hread (Cursor.stepSpot (Cursor.stepSpot spot mark) '+')
    exact ⟨s, by simp [passExponent, Cursor.skip, Cursor.peek, hd, hs]⟩
  · obtain ⟨s, hs⟩ := hread (Cursor.stepSpot (Cursor.stepSpot spot mark) '-')
    exact ⟨s, by simp [passExponent, Cursor.skip, Cursor.peek, hd, hs]⟩

/-- What follows the digits before the full stop is passed over. -/
def passTail (c : Cursor) : Except Fault Cursor :=
  if c.peek == some '.' then
    match c.skip.digits with
    | ([], _) => .error (c.skip.peekFault .invalidNumber)
    | (_, c) => if isExponentMark c.peek then passExponent c else .ok c
  else if isExponentMark c.peek then passExponent c
  else .ok c

/-- The digits before the full stop are passed over. -/
theorem passNumber_whole {ds rest : List Char} (h : IsInteger ds)
    (hrest : ∀ c, rest.head? = some c → c.isDigit = false) (spot : Spot) :
    ∃ spot', passNumber ⟨ds ++ rest, spot⟩ = passTail ⟨rest, spot'⟩ := by
  rcases h with rfl | ⟨⟨hne, hdigits⟩, hzero⟩
  · refine ⟨Cursor.stepSpot spot '0', ?_⟩
    cases rest with
    | nil => rfl
    | cons c cs =>
      have hc : c.isDigit = false := hrest c rfl
      simp only [passNumber, List.singleton_append, Cursor.peek, List.head?_cons, Cursor.skip, hc,
        Bool.false_eq_true, if_false]
      rfl
  · obtain ⟨d, es, rfl⟩ := List.exists_cons_of_ne_nil hne
    have hd : d.isDigit = true := hdigits d List.mem_cons_self
    have hd0 : d ≠ '0' := by simpa using hzero
    obtain ⟨s, hs⟩ := digitsFrom_digits hdigits hrest spot
    have hread : Cursor.digits ⟨d :: es ++ rest, spot⟩ = (d :: es, ⟨rest, s⟩) := hs
    refine ⟨s, ?_⟩
    have hpeek : Cursor.peek ⟨d :: es ++ rest, spot⟩ = some d := rfl
    simp only [passNumber, hpeek, hd, if_true, hread]
    rfl

theorem passTail_tail {fraction exponent r : List Char} (hfraction : IsFraction fraction)
    (hexponent : IsExponent exponent) (hr : Ends r) (spot : Spot) :
    ∃ spot', passTail ⟨fraction ++ (exponent ++ r), spot⟩ = .ok ⟨r, spot'⟩ := by
  have hmark : ∀ s, ∃ s', (if isExponentMark (Cursor.peek ⟨exponent ++ r, s⟩) then
      passExponent ⟨exponent ++ r, s⟩ else .ok ⟨exponent ++ r, s⟩) =
        (Except.ok ⟨r, s'⟩ : Except Fault Cursor) := by
    intro s
    rcases eq_or_ne exponent [] with rfl | hne
    · exact ⟨s, by rw [List.nil_append, (hr.peek s).2]; rfl⟩
    · obtain ⟨s', hs'⟩ := passExponent_exponent hexponent hne hr s
      have hfirst : isExponentMark (Cursor.peek ⟨exponent ++ r, s⟩) = true := by
        obtain rfl | ⟨mark, sign, ds, he, -, -, rfl⟩ := hexponent
        · exact absurd rfl hne
        · rcases he with rfl | rfl <;> rfl
      exact ⟨s', by rw [if_pos hfirst, hs']⟩
  have hnot : ∀ c, (exponent ++ r).head? = some c → c.isDigit = false ∧ c ≠ '.' := by
    obtain rfl | ⟨mark, sign, ds, he, -, -, rfl⟩ := hexponent
    · exact fun c hc => ⟨(hr c hc).1, (hr c hc).2.1⟩
    · rintro c hc
      obtain rfl : mark = c := Option.some.inj hc
      rcases he with rfl | rfl <;> decide
  rcases hfraction with rfl | ⟨ds, ⟨hne, hdigits⟩, rfl⟩
  · obtain ⟨s, hs⟩ := hmark spot
    have hpoint : (Cursor.peek ⟨exponent ++ r, spot⟩ == some '.') = false := by
      rw [beq_eq_false_iff_ne]
      exact fun h => (hnot '.' h).2 rfl
    refine ⟨s, ?_⟩
    rw [List.nil_append, passTail, if_neg (by simp [hpoint])]
    exact hs
  · obtain ⟨d, es, rfl⟩ := List.exists_cons_of_ne_nil hne
    obtain ⟨s, hs⟩ := digitsFrom_digits hdigits (fun c hc => (hnot c hc).1)
      (Cursor.stepSpot spot '.')
    obtain ⟨s', hs'⟩ := hmark s
    refine ⟨s', ?_⟩
    have hread : (Cursor.skip ⟨'.' :: (d :: es) ++ (exponent ++ r), spot⟩).digits =
        (d :: es, ⟨exponent ++ r, s⟩) := hs
    rw [passTail, hread]
    exact hs'

/-- A number whose sign was read is passed over. -/
theorem passNumber_unsigned (n : Numeral) {r : List Char} (hr : Ends r) (spot : Spot) :
    ∃ spot', passNumber ⟨n.unsigned ++ r, spot⟩ = .ok ⟨r, spot'⟩ := by
  have hnot : ∀ c, (n.fraction ++ (n.exponent ++ r)).head? = some c → c.isDigit = false := by
    rcases n.isFraction with hf | ⟨ds, -, hf⟩
    · rw [hf, List.nil_append]
      rcases n.isExponent with he | ⟨mark, sign, ds, hmark, -, -, he⟩
      · rw [he, List.nil_append]
        exact fun c hc => (hr c hc).1
      · rw [he]
        rintro c hc
        obtain rfl : mark = c := Option.some.inj hc
        rcases hmark with rfl | rfl <;> decide
    · rw [hf]
      rintro c hc
      obtain rfl : '.' = c := Option.some.inj hc
      decide
  rw [Numeral.unsigned, List.append_assoc, List.append_assoc]
  obtain ⟨s, hs⟩ := passNumber_whole n.isInteger hnot spot
  obtain ⟨s', hs'⟩ := passTail_tail n.isFraction n.isExponent hr s
  exact ⟨s', hs.trans hs'⟩

/-- After a scalar stands the end of the text, white space or a punctuation mark. -/
theorem ends_of_strict {s : Scalar} {ts : List Token} {cs : List Char}
    (hsep : Separated (.scalar s :: ts)) (h : Strict ts cs) : Ends cs := by
  have hblank : ∀ {b : List Char}, Blank b → ∀ c, b.head? = some c →
      c.isDigit = false ∧ c ≠ '.' ∧ c ≠ 'e' ∧ c ≠ 'E' := by
    intro b hb c hc
    have hspace := hb c (List.mem_of_head? hc)
    simp only [Cursor.isSpace, Bool.or_eq_true, beq_iff_eq] at hspace
    rcases hspace with ((rfl | rfl) | rfl) | rfl <;> decide
  cases h with
  | done hg => exact hblank hg
  | @token g cs t ts hg h =>
    obtain ⟨m, rfl⟩ : ∃ m, t = .mark m := by
      cases t with
      | mark m => exact ⟨m, rfl⟩
      | scalar s' => cases hsep.1
    cases g with
    | nil =>
      rintro c hc
      obtain rfl : m.char = c := Option.some.inj hc
      cases m <;> decide
    | cons x xs => exact fun c hc => hblank hg c hc

/-! Strings and numbers that follow -/

namespace Front

variable {ts : List Token} {c c' : Cursor}

/-- The string that follows, with what stands behind it. -/
theorem quoted (h : Front ts c c') (hpeek : c.peek = some '"') :
    ∃ us cs r r' s s', QuotedRest cs ∧ c.skip = ⟨cs ++ r, s⟩ ∧ c'.skip = ⟨cs ++ r', s'⟩ ∧
      cs.length ≤ c.rest.length ∧ cs.length ≤ c'.rest.length ∧
      ∀ k k' : Cursor, k.rest = r → k'.rest = r' → us.length < ts.length ∧ Both us k k' := by
  obtain ⟨t, us, cs, cs', hfirst, rfl, hl, hr, hcs, hcs'⟩ := h.token hpeek
  rcases Token.first hfirst with h' | ⟨-, q, rfl⟩ | ⟨n, -, ⟨-, h'⟩ | ⟨-, h'⟩⟩
  · cases h'
  · refine ⟨us, q.chars, cs, cs', Cursor.stepSpot c.spot '"', Cursor.stepSpot c'.spot '"', q.rest,
      ?_, ?_, ?_, ?_, ?_⟩
    · rw [Cursor.skip, hl]
      rfl
    · rw [Cursor.skip, hr]
      rfl
    · simp [hl, Token.chars, Scalar.chars_text]
      omega
    · simp [hr, Token.chars, Scalar.chars_text]
      omega
    · rintro k k' rfl rfl
      exact ⟨Nat.lt_succ_self _, h.separated.2, hcs, hcs'⟩
  · exact absurd h' (by decide)
  · exact absurd h' (by decide)

theorem text (h : Front ts c c') (hpeek : c.peek = some '"') :
    Alike (SameRead ts) (text c.skip) (text c'.skip) := by
  obtain ⟨us, cs, r, r', s, s', hq, hl, hr, -, -, hrest⟩ := h.quoted hpeek
  rw [Json.text, Json.text, hl, hr]
  have hlen : ∀ ds : List Char, cs.length ≤ (cs ++ ds).length + 1 := by simp; omega
  rcases textFrom_alike hq r r' (hlen r) (hlen r') [] s s' with
    ⟨f, g, hf, hg⟩ | ⟨x, y, hx, hy, heq, hxr, hyr⟩
  · exact .inl ⟨f, g, hf, hg⟩
  · exact .inr ⟨x, y, hx, hy, heq, us, hrest x.2 y.2 hxr hyr⟩

theorem passText (h : Front ts c c') (hpeek : c.peek = some '"') :
    Alike (Ahead ts) (passText (c.rest.length + 1) c.skip)
      (passText (c'.rest.length + 1) c'.skip) := by
  obtain ⟨us, cs, r, r', s, s', hq, hl, hr, hlen, hlen', hrest⟩ := h.quoted hpeek
  obtain ⟨u, hu⟩ := passText_quoted hq r (Nat.le_succ_of_le hlen) s
  obtain ⟨u', hu'⟩ := passText_quoted hq r' (Nat.le_succ_of_le hlen') s'
  rw [hl, hr, hu, hu']
  exact .results ⟨us, hrest _ _ rfl rfl⟩

/-- The number that follows, from its sign on. -/
theorem number {x : Char} (h : Front ts c c') (hpeek : c.peek = some x)
    (hx : x = '-' ∨ x.isDigit = true) :
    Alike (Ahead ts) (passNumber (if x = '-' then c.skip else c))
      (passNumber (if x = '-' then c'.skip else c')) := by
  obtain ⟨t, us, cs, cs', hfirst, rfl, hl, hr, hcs, hcs'⟩ := h.token hpeek
  obtain ⟨n, rfl, hn⟩ : ∃ n, t = .scalar (.number n) ∧
      (n.negative = true ∧ x = '-' ∨ n.negative = false ∧ x.isDigit = true) := by
    rcases Token.first hfirst with h' | ⟨rfl, -⟩ | h'
    · rcases hx with rfl | hx
      · cases h'
      · rw [Token.ofFirst_digit hx] at h'
        cases h'
    · exact absurd hx (by decide)
    · exact h'
  have hpass : ∀ (k : Cursor) (r : List Char), k.rest = n.chars ++ r → Strict us r →
      ∃ k', passNumber (if x = '-' then k.skip else k) = .ok k' ∧ k'.rest = r := by
    intro k r hk hstrict
    obtain ⟨rest, spot⟩ := k
    obtain rfl : rest = n.chars ++ r := hk
    have hends := ends_of_strict h.separated hstrict
    unfold Numeral.chars
    rcases hn with ⟨hneg, rfl⟩ | ⟨hneg, hd⟩
    · obtain ⟨s, hs⟩ := passNumber_unsigned n hends (Cursor.stepSpot spot '-')
      refine ⟨⟨r, s⟩, ?_, rfl⟩
      rw [if_pos rfl, if_pos hneg]
      exact hs
    · obtain ⟨s, hs⟩ := passNumber_unsigned n hends spot
      refine ⟨⟨r, s⟩, ?_, rfl⟩
      rw [if_neg (ne_of_isDigit hd (by decide)), if_neg (by simp [hneg])]
      exact hs
  obtain ⟨k, hk, rfl⟩ := hpass c cs hl hcs
  obtain ⟨k', hk', rfl⟩ := hpass c' cs' hr hcs'
  rw [hk, hk']
  exact .results ⟨us, Nat.lt_succ_self _, h.separated.2, hcs, hcs'⟩

end Front

end CodeIndex.Json.Layout
