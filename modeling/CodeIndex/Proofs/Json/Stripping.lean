import CodeIndex.Json.Relaxed
import CodeIndex.Proofs.Json.Layout
import Mathlib.Data.List.Infix

/-!
What is left of a text in which comments and extra commas are dropped: its tokens in their order,
without the extra commas, with the white space between them. The scan is followed token by token;
where a bracket closes, what counts is the last character that was written and is not blank.
-/
namespace CodeIndex.Json.Layout

open Json.Relaxed (stripFrom strip dropComma)
open Text.Blank (isBlank)

/-! Gaps -/

theorem isSpace_iff {c : Char} :
    Cursor.isSpace c = true ↔ c = ' ' ∨ c = '\n' ∨ c = '\t' ∨ c = '\r' := by
  simp [Cursor.isSpace, or_assoc]

theorem isBlank_of_isSpace {c : Char} (h : Cursor.isSpace c = true) : isBlank c = true := by
  rcases isSpace_iff.mp h with rfl | rfl | rfl | rfl <;> decide

/-- A character that the scan outside of strings and comments hands on as it is. -/
def Handed (c : Char) : Prop := c ≠ '"' ∧ c ≠ '/' ∧ c ≠ '\x7d' ∧ c ≠ ']'

theorem handed_of_isSpace {c : Char} (h : Cursor.isSpace c = true) : Handed c := by
  unfold Handed
  rcases isSpace_iff.mp h with rfl | rfl | rfl | rfl <;> decide

theorem stripFrom_handed {c : Char} (h : Handed c) (written rest : List Char) :
    stripFrom .plain written (c :: rest) = stripFrom .plain (c :: written) rest := by
  obtain ⟨hquote, hslash, hbrace, hbracket⟩ := h
  simp [stripFrom, hquote, hslash, hbrace, hbracket]

theorem stripFrom_handedAll {cs : List Char} (h : ∀ c ∈ cs, Handed c) (written rest : List Char) :
    stripFrom .plain written (cs ++ rest) = stripFrom .plain (cs.reverse ++ written) rest := by
  induction cs generalizing written with
  | nil => rfl
  | cons c cs ih =>
    obtain ⟨hc, hcs⟩ := List.forall_mem_cons.mp h
    rw [List.cons_append, stripFrom_handed hc, ih hcs, List.reverse_cons, List.append_assoc,
      List.singleton_append]

theorem stripFrom_blank {b : List Char} (h : Blank b) (written rest : List Char) :
    stripFrom .plain written (b ++ rest) = stripFrom .plain (b.reverse ++ written) rest :=
  stripFrom_handedAll (fun c hc => handed_of_isSpace (h c hc)) written rest

/-- A line comment leaves the line feed after it. -/
theorem stripFrom_lineComment {body : List Char} (h : '\n' ∉ body) (written rest : List Char) :
    stripFrom .lineComment written (body ++ '\n' :: rest) =
      stripFrom .plain ('\n' :: written) rest := by
  induction body with
  | nil => simp [stripFrom]
  | cons c body ih =>
    rw [List.mem_cons, not_or] at h
    rw [List.cons_append, stripFrom, if_neg (Ne.symm h.1), ih h.2]

theorem stripFrom_lastComment {body : List Char} (h : '\n' ∉ body) (written : List Char) :
    stripFrom .lineComment written body = written.reverse := by
  induction body with
  | nil => rfl
  | cons c body ih =>
    rw [List.mem_cons, not_or] at h
    rw [stripFrom, if_neg (Ne.symm h.1), ih h.2]

/-- A block comment goes on to the first star that a slash follows. -/
theorem stripFrom_blockComment {body : List Char} (h : ¬ ['*', '/'] <:+: body) (star : Bool)
    (hstar : star = true → body.head? ≠ some '/') (written rest : List Char) :
    stripFrom (.blockComment star) written (body ++ '*' :: '/' :: rest) =
      stripFrom .plain written rest := by
  induction body generalizing star with
  | nil => cases star <;> simp [stripFrom]
  | cons c body ih =>
    have hgoes : (star && decide (c = '/')) = false := by
      cases star with
      | false => rfl
      | true => simpa using hstar rfl
    rw [List.cons_append, stripFrom, hgoes, if_neg Bool.false_ne_true]
    apply ih fun hinside => h (hinside.trans (List.suffix_cons c body).isInfix)
    intro hc hhead
    obtain ⟨more, rfl⟩ : ∃ more, body = '/' :: more := by
      cases body with
      | nil => simp at hhead
      | cons x more => exact ⟨more, by rw [Option.some.inj hhead]⟩
    rw [decide_eq_true_eq] at hc
    exact h ⟨[], more, by simp [hc]⟩

/-- A gap leaves its white space. -/
theorem Gap.strip {atEnd : Bool} {g : List Char} (h : Gap atEnd g) {rest : List Char}
    (hrest : atEnd = true → rest = []) :
    ∃ b, Blank b ∧ ∀ written,
      stripFrom .plain written (g ++ rest) = stripFrom .plain (b.reverse ++ written) rest := by
  induction h with
  | nil => exact ⟨[], by simp [Blank], fun _ => rfl⟩
  | @space _ c cs hc _ ih =>
    obtain ⟨b, hb, hstrip⟩ := ih hrest
    refine ⟨c :: b, List.forall_mem_cons.mpr ⟨hc, hb⟩, fun written => ?_⟩
    rw [List.cons_append, stripFrom_handed (handed_of_isSpace hc), hstrip, List.reverse_cons,
      List.append_assoc, List.singleton_append]
  | @line _ body cs hbody _ ih =>
    obtain ⟨b, hb, hstrip⟩ := ih hrest
    refine ⟨'\n' :: b, List.forall_mem_cons.mpr ⟨by decide, hb⟩, fun written => ?_⟩
    have hopen : stripFrom .plain written ('/' :: '/' :: (body ++ '\n' :: (cs ++ rest))) =
        stripFrom .lineComment written (body ++ '\n' :: (cs ++ rest)) := by
      simp [stripFrom]
    rw [List.cons_append, List.cons_append, List.append_assoc, List.cons_append, hopen,
      stripFrom_lineComment hbody, hstrip, List.reverse_cons, List.append_assoc,
      List.singleton_append]
  | @block _ body cs hbody _ ih =>
    obtain ⟨b, hb, hstrip⟩ := ih hrest
    refine ⟨b, hb, fun written => ?_⟩
    have hopen : stripFrom .plain written ('/' :: '*' :: (body ++ '*' :: '/' :: (cs ++ rest))) =
        stripFrom (.blockComment false) written (body ++ '*' :: '/' :: (cs ++ rest)) := by
      simp [stripFrom]
    rw [List.cons_append, List.cons_append, List.append_assoc, List.cons_append, List.cons_append,
      hopen, stripFrom_blockComment hbody false (by simp), hstrip]
  | @last body hbody =>
    refine ⟨[], by simp [Blank], fun written => ?_⟩
    have hopen : stripFrom .plain written ('/' :: '/' :: body) =
        stripFrom .lineComment written body := by
      simp [stripFrom]
    rw [hrest rfl, List.append_nil, hopen, stripFrom_lastComment hbody]
    rfl

/-! Tokens -/

/-- Nothing inside of a string ends it before its closing quote. -/
theorem stripFrom_quoted {cs : List Char} (h : QuotedRest cs) (written rest : List Char) :
    stripFrom .quoted written (cs ++ rest) = stripFrom .plain (cs.reverse ++ written) rest := by
  induction h generalizing written with
  | close => simp [stripFrom]
  | plain hc hquote hslash _ ih => simp [stripFrom, hquote, hslash, ih]
  | escape hc _ ih => simp [stripFrom, ih]
  | @unicode c₁ c₂ c₃ c₄ cs hc _ ih =>
    have hhex : ∀ c ∈ [c₁, c₂, c₃, c₄], c ≠ '\\' ∧ c ≠ '"' := by
      refine fun c hmem => ⟨?_, ?_⟩
      · rintro rfl
        exact absurd (hc _ hmem) (by decide)
      · rintro rfl
        exact absurd (hc _ hmem) (by decide)
    simp only [List.forall_mem_cons, List.not_mem_nil, false_imp_iff, implies_true, and_true]
      at hhex
    obtain ⟨h₁, h₂, h₃, h₄⟩ := hhex
    simp [stripFrom, h₁, h₂, h₃, h₄, ih]

/-- A character that can end a token without being a comma or blank. -/
def Firm (c : Char) : Prop := c ≠ ',' ∧ isBlank c = false

/-- What was written ends in a character that is no comma, blanks apart. -/
def Settled (written : List Char) : Prop := (written.dropWhile isBlank).head? ≠ some ','

theorem settled_of_firm {c : Char} (h : Firm c) (written : List Char) : Settled (c :: written) := by
  rw [Settled, List.dropWhile_cons_of_neg (by simp [h.2]), List.head?_cons]
  simpa using h.1

theorem Settled.blank {written b : List Char} (h : Settled written) (hb : Blank b) :
    Settled (b.reverse ++ written) := by
  have hall : ∀ c ∈ b.reverse, isBlank c = true :=
    fun c hc => isBlank_of_isSpace (hb c (List.mem_reverse.mp hc))
  rwa [Settled, List.dropWhile_append_of_pos hall]

theorem Settled.dropComma {written : List Char} (h : Settled written) :
    dropComma written = written := by
  unfold Json.Relaxed.dropComma
  split
  · next rest hdrop => exact absurd (by rw [hdrop, List.head?_cons]) h
  · rfl

/-- A comma that only white space follows is dropped with the white space. -/
theorem dropComma_comma {b : List Char} (hb : Blank b) (written : List Char) :
    dropComma (b.reverse ++ ',' :: written) = written := by
  have hall : ∀ c ∈ b.reverse, isBlank c = true :=
    fun c hc => isBlank_of_isSpace (hb c (List.mem_reverse.mp hc))
  have hdrop : (b.reverse ++ ',' :: written).dropWhile isBlank = ',' :: written := by
    rw [List.dropWhile_append_of_pos hall, List.dropWhile_cons_of_neg (by decide)]
  simp only [Json.Relaxed.dropComma, hdrop]

theorem firm_of_isDigit {d : Char} (h : d.isDigit = true) : Firm d := by
  constructor
  · rintro rfl
    exact absurd h (by decide)
  · simp only [Char.isDigit, Bool.and_eq_true, decide_eq_true_eq] at h
    have hlow : 48 ≤ d.toNat := h.1
    have hhigh : d.toNat ≤ 57 := h.2
    simp only [isBlank, Bool.or_eq_false_iff, Bool.and_eq_false_iff, decide_eq_false_iff_not,
      beq_eq_false_iff_ne]
    omega

theorem handed_of_isDigit {d : Char} (h : d.isDigit = true) : Handed d := by
  refine ⟨?_, ?_, ?_, ?_⟩
  all_goals
    rintro rfl
    exact absurd h (by decide)

/-- Characters of a scalar that is no string: they are handed on, and what they leave is settled. -/
def Bare (cs : List Char) : Prop := ∀ c ∈ cs, Handed c ∧ Firm c

theorem Bare.append {as bs : List Char} (ha : Bare as) (hb : Bare bs) : Bare (as ++ bs) :=
  fun c hc => (List.mem_append.mp hc).elim (ha c) (hb c)

theorem bare_digits {ds : List Char} (h : ∀ d ∈ ds, d.isDigit = true) : Bare ds :=
  fun d hd => ⟨handed_of_isDigit (h d hd), firm_of_isDigit (h d hd)⟩

theorem bare_of_all {cs : List Char}
    (h : (cs.all fun c => c != '"' && c != '/' && c != '\x7d' && c != ']' && c != ',' &&
      !isBlank c) = true) : Bare cs := by
  intro c hc
  have hall := List.all_eq_true.mp h c hc
  simp only [Bool.and_eq_true, bne_iff_ne, ne_eq, Bool.not_eq_true'] at hall
  obtain ⟨⟨⟨⟨⟨hquote, hslash⟩, hbrace⟩, hbracket⟩, hcomma⟩, hblank⟩ := hall
  exact ⟨⟨hquote, hslash, hbrace, hbracket⟩, hcomma, hblank⟩

theorem Numeral.bare (n : Numeral) : Bare n.chars := by
  have hwhole : Bare n.whole := by
    rcases n.isInteger with h | ⟨⟨-, h⟩, -⟩
    · rw [h]
      exact bare_of_all (by decide)
    · exact bare_digits h
  have hfraction : Bare n.fraction := by
    rcases n.isFraction with h | ⟨ds, ⟨-, hds⟩, h⟩
    · simp [h, Bare]
    · rw [h]
      have hpoint : Bare ['.'] := bare_of_all (by decide)
      exact hpoint.append (bare_digits hds)
  have hexponent : Bare n.exponent := by
    rcases n.isExponent with h | ⟨mark, sign, ds, hmark, hsign, ⟨-, hds⟩, h⟩
    · simp [h, Bare]
    · have hopen : Bare (mark :: sign) := by
        rcases hmark with rfl | rfl <;> rcases hsign with rfl | rfl | rfl <;>
          exact bare_of_all (by decide)
      rw [h]
      exact hopen.append (bare_digits hds)
  have hunsigned : Bare n.unsigned := hwhole.append (hfraction.append hexponent)
  unfold Numeral.chars
  split
  · have hminus : Bare ['-'] := bare_of_all (by decide)
    exact hminus.append hunsigned
  · exact hunsigned

theorem Numeral.chars_ne_nil (n : Numeral) : n.chars ≠ [] := by
  have hwhole : n.whole ≠ [] := by
    rcases n.isInteger with h | ⟨⟨h, -⟩, -⟩
    · simp [h]
    · exact h
  unfold Numeral.chars Numeral.unsigned
  split <;> simp [hwhole]

/-- A scalar is handed on, and what was written ends in it. -/
theorem Scalar.strip (s : Scalar) (written rest : List Char) :
    stripFrom .plain written (s.chars ++ rest) =
      stripFrom .plain (s.chars.reverse ++ written) rest ∧
    Settled (s.chars.reverse ++ written) := by
  have hbare : ∀ cs, cs ≠ [] → Bare cs →
      stripFrom .plain written (cs ++ rest) = stripFrom .plain (cs.reverse ++ written) rest ∧
        Settled (cs.reverse ++ written) := by
    intro cs hne hcs
    refine ⟨stripFrom_handedAll (fun c hc => (hcs c hc).1) written rest, ?_⟩
    rw [← List.dropLast_append_getLast hne, List.reverse_append, List.reverse_singleton,
      List.append_assoc]
    exact settled_of_firm (hcs _ (List.getLast_mem hne)).2 _
  cases s with
  | null => exact hbare _ (by decide) (bare_of_all (by decide))
  | bool b => cases b <;> exact hbare _ (by decide) (bare_of_all (by decide))
  | number n => exact hbare _ n.chars_ne_nil n.bare
  | text q =>
    obtain ⟨cs, hcs⟩ := q
    constructor
    · have hopen : stripFrom .plain written ('"' :: (cs ++ rest)) =
          stripFrom .quoted ('"' :: written) (cs ++ rest) := by
        simp [stripFrom]
      simp only [Scalar.chars_text, List.cons_append, List.reverse_cons, List.append_assoc,
        List.nil_append]
      rw [hopen, stripFrom_quoted hcs]
    · obtain ⟨before, hbefore⟩ : ∃ before, cs = before ++ ['"'] := by
        clear rest written hbare
        induction hcs with
        | close => exact ⟨[], rfl⟩
        | @plain c _ _ _ _ _ ih =>
          obtain ⟨before, rfl⟩ := ih
          exact ⟨c :: before, rfl⟩
        | @escape c _ _ _ ih =>
          obtain ⟨before, rfl⟩ := ih
          exact ⟨'\\' :: c :: before, rfl⟩
        | @unicode c₁ c₂ c₃ c₄ _ _ _ ih =>
          obtain ⟨before, rfl⟩ := ih
          exact ⟨'\\' :: 'u' :: c₁ :: c₂ :: c₃ :: c₄ :: before, rfl⟩
      have hlast : (Scalar.text ⟨cs, hcs⟩).chars.reverse = '"' :: (before.reverse ++ ['"']) := by
        simp [Scalar.chars_text, hbefore]
      rw [hlast]
      exact settled_of_firm ⟨by decide, by decide⟩ _

/-- A closing bracket drops a comma before it. -/
theorem stripFrom_closes {t : Token} (h : t.closes = true) (written rest : List Char) :
    stripFrom .plain written (t.chars ++ rest) =
        stripFrom .plain (t.chars.reverse ++ dropComma written) rest ∧
      ∀ w, Settled (t.chars.reverse ++ w) := by
  cases t with
  | scalar s => simp [Token.closes] at h
  | mark m =>
    cases m with
    | closeList =>
      refine ⟨by simp [Token.chars, Mark.char, stripFrom], fun w => ?_⟩
      exact settled_of_firm ⟨by decide, by decide⟩ w
    | closeObject =>
      refine ⟨by simp [Token.chars, Mark.char, stripFrom], fun w => ?_⟩
      exact settled_of_firm ⟨by decide, by decide⟩ w
    | _ => simp [Token.closes] at h

/-- Any other token is handed on; unless it is a comma, what was written ends in it. -/
theorem stripFrom_open {t : Token} (h : t.closes = false) (written rest : List Char) :
    stripFrom .plain written (t.chars ++ rest) =
        stripFrom .plain (t.chars.reverse ++ written) rest ∧
      (t.isComma = false → Settled (t.chars.reverse ++ written)) := by
  cases t with
  | scalar s => exact ⟨(s.strip written rest).1, fun _ => (s.strip written rest).2⟩
  | mark m =>
    cases m with
    | closeList => simp [Token.closes] at h
    | closeObject => simp [Token.closes] at h
    | comma => exact ⟨stripFrom_handed (by unfold Handed; decide) _ _, by simp [Token.isComma]⟩
    | openList =>
      exact ⟨stripFrom_handed (by unfold Handed; decide) _ _, fun _ =>
        settled_of_firm ⟨by decide, by decide⟩ _⟩
    | openObject =>
      exact ⟨stripFrom_handed (by unfold Handed; decide) _ _, fun _ =>
        settled_of_firm ⟨by decide, by decide⟩ _⟩
    | colon =>
      exact ⟨stripFrom_handed (by unfold Handed; decide) _ _, fun _ =>
        settled_of_firm ⟨by decide, by decide⟩ _⟩

/-! Texts -/

/-- What is left of the text that was written once the next token is there: all of it, unless a
closing bracket follows its last comma. -/
def Left (ts : List Token) (written left : List Char) : Prop :=
  closesNext ts = true ∧ written = ',' :: left ∨
    (closesNext ts = true → Settled written) ∧ left = written

theorem left_of_settled {written : List Char} (h : Settled written) (ts : List Token) :
    Left ts written written :=
  .inr ⟨fun _ => h, rfl⟩

theorem Token.isComma_of_closes (t : Token) (h : t.closes = true) : t.isComma = false := by
  cases t with
  | scalar s => rfl
  | mark m => cases m <;> first | rfl | cases h

theorem Token.chars_of_isComma (t : Token) (h : t.isComma = true) : t.chars = [','] := by
  cases t with
  | scalar s => cases h
  | mark m => cases m <;> first | rfl | cases h

/-- The step of a closing bracket: white space before it goes with a comma. -/
theorem stripFrom_gap_closes {t : Token} {ts : List Token} (ht : t.closes = true) {b : List Char}
    (hb : Blank b) {written left : List Char} (hleft : Left (t :: ts) written left)
    (rest : List Char) :
    ∃ b', Blank b' ∧ stripFrom .plain (b.reverse ++ written) (t.chars ++ rest) =
      stripFrom .plain (t.chars.reverse ++ (b'.reverse ++ left)) rest := by
  rw [(stripFrom_closes ht _ rest).1]
  rcases hleft with ⟨-, rfl⟩ | ⟨hsettled, rfl⟩
  · exact ⟨[], by simp [Blank], by rw [dropComma_comma hb]; rfl⟩
  · exact ⟨b, hb, by rw [((hsettled ht).blank hb).dropComma]⟩

/-- The step of any other token. -/
theorem left_open {t : Token} {ts : List Token} (ht : t.closes = false) (b written rest : List Char)
    (hkeeps : (t.isComma && closesNext ts) = false) :
    Left ts (t.chars.reverse ++ (b.reverse ++ written)) (t.chars.reverse ++ (b.reverse ++ written))
    := by
  refine .inr ⟨fun hcloses => ?_, rfl⟩
  exact (stripFrom_open ht _ rest).2 (by simpa [hcloses] using hkeeps)

/-- A text leaves its tokens without the extra commas, with white space around them. -/
theorem stripFrom_relaxed {ts : List Token} {text : List Char} (h : Relaxed ts text)
    {written left : List Char} (hleft : Left ts written left) :
    ∃ plain, Strict (dropExtras ts) plain ∧
      stripFrom .plain written text = left.reverse ++ plain := by
  induction h generalizing written left with
  | @done g hg =>
    obtain ⟨b, hb, hstrip⟩ := hg.strip fun _ => rfl
    have hleft : left = written := hleft.elim (fun h => absurd h.1 (by decide)) And.right
    refine ⟨b, .done hb, ?_⟩
    rw [← List.append_nil g, hstrip, hleft]
    simp [stripFrom]
  | @token g cs t ts hg h ih =>
    obtain ⟨b, hb, hstrip⟩ : ∃ b, Blank b ∧ ∀ w, stripFrom .plain w (g ++ (t.chars ++ cs)) =
        stripFrom .plain (b.reverse ++ w) (t.chars ++ cs) := hg.strip nofun
    rw [hstrip]
    cases ht : t.closes with
    | true =>
      obtain ⟨b', hb', hstep⟩ := stripFrom_gap_closes ht hb hleft cs
      have hcomma : t.isComma = false := t.isComma_of_closes ht
      obtain ⟨plain, hplain, hrest⟩ :=
        ih (left_of_settled ((stripFrom_closes ht written cs).2 (b'.reverse ++ left)) ts)
      refine ⟨b' ++ (t.chars ++ plain), ?_, ?_⟩
      · rw [dropExtras, hcomma, Bool.false_and, if_neg Bool.false_ne_true]
        exact .token hb' hplain
      · rw [hstep, hrest]
        simp
    | false =>
      have hleft : left = written :=
        hleft.elim (fun h => absurd h.1 (by simp [closesNext, ht])) And.right
      rw [(stripFrom_open ht _ cs).1, hleft, dropExtras]
      split
      next hextra =>
        -- The comma goes once the bracket after it is there.
        rw [Bool.and_eq_true] at hextra
        have hchars : t.chars = [','] := t.chars_of_isComma hextra.1
        have hcomma : Left ts (',' :: (b.reverse ++ written)) (b.reverse ++ written) :=
          .inl ⟨hextra.2, rfl⟩
        obtain ⟨plain, hplain, hrest⟩ := ih hcomma
        refine ⟨b ++ plain, hplain.spaced hb, ?_⟩
        rw [hchars, List.reverse_singleton, List.singleton_append, hrest]
        simp
      next hkeeps =>
        obtain ⟨plain, hplain, hrest⟩ :=
          ih (left_open ht b written cs (by simpa using hkeeps))
        refine ⟨b ++ (t.chars ++ plain), .token hb hplain, ?_⟩
        rw [hrest]
        simp

theorem length_dropExtras_le (ts : List Token) : (dropExtras ts).length ≤ ts.length := by
  induction ts with
  | nil => exact le_rfl
  | cons t ts ih =>
    rw [dropExtras]
    split
    · exact ih.trans (Nat.le_succ _)
    · exact Nat.succ_le_succ ih

/-- Tokens without extra commas and with only white space around them stay as they are. -/
theorem stripFrom_strict {ts : List Token} {text : List Char} (h : Strict ts text)
    (hextras : dropExtras ts = ts) {written : List Char}
    (hsettled : closesNext ts = true → Settled written) :
    stripFrom .plain written text = written.reverse ++ text := by
  induction h generalizing written with
  | @done g hg =>
    rw [← List.append_nil g, stripFrom_blank hg]
    simp [stripFrom]
  | @token g cs t ts hg h ih =>
    have hkeeps : (t.isComma && closesNext ts) = false ∧ dropExtras ts = ts := by
      have hlength := length_dropExtras_le ts
      rw [dropExtras] at hextras
      split at hextras
      · rw [hextras, List.length_cons] at hlength
        omega
      · next hkeeps => exact ⟨by simpa using hkeeps, List.tail_eq_of_cons_eq hextras⟩
    rw [stripFrom_blank hg]
    cases ht : t.closes with
    | true =>
      rw [(stripFrom_closes ht _ cs).1, ((hsettled ht).blank hg).dropComma,
        ih hkeeps.2 fun _ => (stripFrom_closes ht written cs).2 _]
      simp
    | false =>
      rw [(stripFrom_open ht _ cs).1, ih hkeeps.2 fun hcloses =>
        (stripFrom_open ht _ cs).2 (by simpa [hcloses] using hkeeps.1)]
      simp

/-- What stripping leaves of a document is the document without its extra commas. -/
theorem strip_relaxed {d : Document} {text : String} (h : Relaxed (d.tokens true) text.toList) :
    Strict (d.tokens false) (strip text).toList := by
  have hleft : Left (d.tokens true) [] [] := .inr ⟨fun _ => by simp [Settled], rfl⟩
  obtain ⟨plain, hplain, hstrip⟩ := stripFrom_relaxed h hleft
  have htokens := d.dropExtras_tokens true []
  rw [List.append_nil, dropExtras, List.append_nil] at htokens
  rw [htokens] at hplain
  rwa [strip, hstrip, String.toList_ofList]

theorem strip_strict {d : Document} {text : String} (h : Strict (d.tokens false) text.toList) :
    strip text = text := by
  have htokens := d.dropExtras_tokens false []
  rw [List.append_nil, dropExtras, List.append_nil] at htokens
  rw [strip, stripFrom_strict h htokens fun _ => by simp [Settled]]
  simp

end CodeIndex.Json.Layout
