import CodeIndex.Json.Cursor

/-!
JSON documents and their layouts. A document is a tree over lexemes, and its text is the sequence of
its tokens with gaps around them. In a strict layout the gaps hold white space only. A relaxed one
may also have comments in the gaps, and a comma before a closing bracket.
-/
namespace CodeIndex.Json.Layout

/-! Lexemes -/

/-- The characters of a string after its opening quote, the closing quote included. -/
inductive QuotedRest : List Char → Prop where
  | close : QuotedRest ['"']
  | plain {c : Char} {cs : List Char} (hc : 32 ≤ c.toNat) (hquote : c ≠ '"') (hslash : c ≠ '\\')
      (h : QuotedRest cs) : QuotedRest (c :: cs)
  | escape {c : Char} {cs : List Char} (hc : (simpleEscape? c).isSome = true)
      (h : QuotedRest cs) : QuotedRest ('\\' :: c :: cs)
  | unicode {c₁ c₂ c₃ c₄ : Char} {cs : List Char}
      (hc : ∀ c ∈ [c₁, c₂, c₃, c₄], (hexValue? c).isSome = true) (h : QuotedRest cs) :
      QuotedRest ('\\' :: 'u' :: c₁ :: c₂ :: c₃ :: c₄ :: cs)

/-- A string as it is written, without its opening quote. -/
structure Quoted where
  chars : List Char
  rest : QuotedRest chars

/-- At least one digit. -/
def Digits (ds : List Char) : Prop := ds ≠ [] ∧ ∀ d ∈ ds, d.isDigit = true

/-- The digits before the full stop; only a single one of them may be a leading zero. -/
def IsInteger (ds : List Char) : Prop := ds = ['0'] ∨ Digits ds ∧ ds.head? ≠ some '0'

def IsFraction (cs : List Char) : Prop := cs = [] ∨ ∃ ds, Digits ds ∧ cs = '.' :: ds

def IsExponent (cs : List Char) : Prop :=
  cs = [] ∨ ∃ mark sign ds, (mark = 'e' ∨ mark = 'E') ∧ (sign = [] ∨ sign = ['+'] ∨ sign = ['-']) ∧
    Digits ds ∧ cs = mark :: (sign ++ ds)

/-- A number as it is written. -/
structure Numeral where
  negative : Bool
  whole : List Char
  fraction : List Char
  exponent : List Char
  isInteger : IsInteger whole
  isFraction : IsFraction fraction
  isExponent : IsExponent exponent

namespace Numeral

/-- The characters after the sign. -/
def unsigned (n : Numeral) : List Char := n.whole ++ (n.fraction ++ n.exponent)

def chars (n : Numeral) : List Char := if n.negative then '-' :: n.unsigned else n.unsigned

end Numeral

inductive Scalar where
  | null
  | bool (b : Bool)
  | number (n : Numeral)
  | text (q : Quoted)

def Scalar.chars : Scalar → List Char
  | null => "null".toList
  | bool true => "true".toList
  | bool false => "false".toList
  | number n => n.chars
  | text q => '"' :: q.chars

theorem Scalar.chars_number (n : Numeral) : (number n).chars = n.chars := rfl

theorem Scalar.chars_text (q : Quoted) : (text q).chars = '"' :: q.chars := rfl

inductive Mark where
  | openList
  | closeList
  | openObject
  | closeObject
  | comma
  | colon
  deriving DecidableEq

def Mark.char : Mark → Char
  | openList => '['
  | closeList => ']'
  | openObject => '\x7b'
  | closeObject => '\x7d'
  | comma => ','
  | colon => ':'

inductive Token where
  | mark (m : Mark)
  | scalar (s : Scalar)

namespace Token

def chars : Token → List Char
  | mark m => [m.char]
  | scalar s => s.chars

def isMark : Token → Bool
  | mark _ => true
  | scalar _ => false

def isComma : Token → Bool
  | mark .comma => true
  | _ => false

def closes : Token → Bool
  | mark .closeList | mark .closeObject => true
  | _ => false

end Token

/-! Documents -/

/-- A document. The flag of a list or an object tells whether a comma follows its last item. -/
inductive Document where
  | scalar (s : Scalar)
  | list (items : List Document) (extra : Bool)
  | object (members : List (Quoted × Document)) (extra : Bool)

namespace Document

/-- What stands after an item: a comma, unless it is the last one and has no extra comma. -/
def afterItem (isLast extra : Bool) : List Token :=
  if isLast && !extra then [] else [.mark .comma]

mutual

/-- The tokens of a document, with its extra commas or without them. -/
def tokens (extras : Bool) : Document → List Token
  | scalar s => [.scalar s]
  | list items extra =>
    .mark .openList :: (itemTokens extras (extras && extra) items ++ [.mark .closeList])
  | object members extra =>
    .mark .openObject :: (memberTokens extras (extras && extra) members ++ [.mark .closeObject])

def itemTokens (extras extra : Bool) : List Document → List Token
  | [] => []
  | d :: ds => tokens extras d ++ (afterItem ds.isEmpty extra ++ itemTokens extras extra ds)

def memberTokens (extras extra : Bool) : List (Quoted × Document) → List Token
  | [] => []
  | (key, d) :: ms =>
    .scalar (.text key) :: .mark .colon ::
      (tokens extras d ++ (afterItem ms.isEmpty extra ++ memberTokens extras extra ms))

end

end Document

/-! Texts -/

/-- White space, line comments and block comments. At the end of a text, a line comment needs no
line feed. -/
inductive Gap : Bool → List Char → Prop where
  | nil {atEnd : Bool} : Gap atEnd []
  | space {atEnd : Bool} {c : Char} {cs : List Char} (hc : Cursor.isSpace c = true)
      (h : Gap atEnd cs) : Gap atEnd (c :: cs)
  | line {atEnd : Bool} {body cs : List Char} (hbody : '\n' ∉ body) (h : Gap atEnd cs) :
      Gap atEnd ('/' :: '/' :: (body ++ '\n' :: cs))
  | block {atEnd : Bool} {body cs : List Char} (hbody : ¬ ['*', '/'] <:+: body)
      (h : Gap atEnd cs) : Gap atEnd ('/' :: '*' :: (body ++ '*' :: '/' :: cs))
  | last {body : List Char} (hbody : '\n' ∉ body) : Gap true ('/' :: '/' :: body)

/-- White space. -/
def Blank (cs : List Char) : Prop := ∀ c ∈ cs, Cursor.isSpace c = true

/-- A text of tokens in their order, with gaps before, between and after them. -/
inductive Spelled (gap : Bool → List Char → Prop) : List Token → List Char → Prop where
  | done {g : List Char} (hg : gap true g) : Spelled gap [] g
  | token {g cs : List Char} {t : Token} {ts : List Token} (hg : gap false g)
      (h : Spelled gap ts cs) : Spelled gap (t :: ts) (g ++ (t.chars ++ cs))

/-- A text of tokens with comments and white space around them. -/
abbrev Relaxed : List Token → List Char → Prop := Spelled Gap

/-- A text of tokens with white space around them. -/
abbrev Strict : List Token → List Char → Prop := Spelled fun _ => Blank

theorem Blank.append {as bs : List Char} (ha : Blank as) (hb : Blank bs) : Blank (as ++ bs) :=
  fun c hc => (List.mem_append.mp hc).elim (ha c) (hb c)

/-- White space before a text belongs to the gap before its first token. -/
theorem Strict.spaced {ts : List Token} {cs b : List Char} (h : Strict ts cs) (hb : Blank b) :
    Strict ts (b ++ cs) := by
  cases h with
  | done hg => exact .done (hb.append hg)
  | token hg h =>
    rw [← List.append_assoc]
    exact .token (hb.append hg) h

/-! Extra commas -/

/-- Whether the next token closes a list or an object. -/
def closesNext (ts : List Token) : Bool := (ts.head?.map Token.closes).getD false

/-- The tokens without the commas before closing brackets. -/
def dropExtras : List Token → List Token
  | [] => []
  | t :: ts => if t.isComma && closesNext ts then dropExtras ts else t :: dropExtras ts

/-- Whether the next token, if there is one, is a punctuation mark. -/
def marksNext (ts : List Token) : Bool := (ts.head?.map Token.isMark).getD true

/-- Of two neighbouring tokens, at least one is a punctuation mark. -/
def Separated : List Token → Prop
  | [] => True
  | t :: ts => (t.isMark || marksNext ts) = true ∧ Separated ts

namespace Document

theorem closesNext_tokens (extras : Bool) (d : Document) (rest : List Token) :
    closesNext (d.tokens extras ++ rest) = false := by
  cases d <;> rfl

theorem closesNext_itemTokens (extras extra : Bool) {ds : List Document} (h : ds ≠ [])
    (rest : List Token) : closesNext (itemTokens extras extra ds ++ rest) = false := by
  cases ds with
  | nil => exact absurd rfl h
  | cons d ds =>
    rw [itemTokens, List.append_assoc]
    exact closesNext_tokens ..

theorem closesNext_memberTokens (extras extra : Bool) {ms : List (Quoted × Document)} (h : ms ≠ [])
    (rest : List Token) : closesNext (memberTokens extras extra ms ++ rest) = false := by
  cases ms with
  | nil => exact absurd rfl h
  | cons m ms => rfl

/-- After an item stands nothing or a comma. Where a comma is extra, a closing bracket follows. -/
theorem dropExtras_afterItem {isLast extra : Bool} {more rest : List Token}
    (hlast : isLast = true → closesNext rest = true)
    (hmore : isLast = false → closesNext rest = false) (h : dropExtras rest = more) :
    dropExtras (afterItem isLast extra ++ rest) = afterItem isLast false ++ more := by
  cases isLast with
  | false => simp [afterItem, dropExtras, hmore, h]
  | true => cases extra <;> simp [afterItem, dropExtras, Token.isComma, hlast, h]

mutual

theorem dropExtras_tokens (extras : Bool) (d : Document) (rest : List Token) :
    dropExtras (d.tokens extras ++ rest) = d.tokens false ++ dropExtras rest := by
  cases d with
  | scalar s => simp [tokens, dropExtras, Token.isComma]
  | list items extra =>
    have hitems :=
      dropExtras_itemTokens extras (extras && extra) items (.mark .closeList :: rest) rfl
    simp only [tokens, Bool.false_and, List.cons_append, List.append_assoc,
      List.nil_append, dropExtras, Token.isComma, Bool.false_eq_true, if_false] at hitems ⊢
    rw [hitems]
  | object members extra =>
    have hmembers :=
      dropExtras_memberTokens extras (extras && extra) members (.mark .closeObject :: rest) rfl
    simp only [tokens, Bool.false_and, List.cons_append, List.append_assoc,
      List.nil_append, dropExtras, Token.isComma, Bool.false_eq_true, if_false] at hmembers ⊢
    rw [hmembers]

theorem dropExtras_itemTokens (extras extra : Bool) (ds : List Document) (rest : List Token)
    (hrest : closesNext rest = true) :
    dropExtras (itemTokens extras extra ds ++ rest) =
      itemTokens false false ds ++ dropExtras rest := by
  cases ds with
  | nil => rfl
  | cons d ds =>
    rw [itemTokens, itemTokens, List.append_assoc, List.append_assoc, dropExtras_tokens,
      List.append_assoc, List.append_assoc]
    congr 1
    refine dropExtras_afterItem ?_ ?_ (dropExtras_itemTokens extras extra ds rest hrest)
    · intro hlast
      rw [List.isEmpty_iff.mp hlast]
      exact hrest
    · intro hmore
      exact closesNext_itemTokens _ _ (by simpa using hmore) _

theorem dropExtras_memberTokens (extras extra : Bool) (ms : List (Quoted × Document))
    (rest : List Token) (hrest : closesNext rest = true) :
    dropExtras (memberTokens extras extra ms ++ rest) =
      memberTokens false false ms ++ dropExtras rest := by
  cases ms with
  | nil => rfl
  | cons m ms =>
    obtain ⟨key, d⟩ := m
    simp only [memberTokens, List.cons_append, List.append_assoc, dropExtras, Token.isComma,
      Bool.false_and, Bool.false_eq_true, if_false]
    rw [dropExtras_tokens]
    congr 3
    refine dropExtras_afterItem ?_ ?_ (dropExtras_memberTokens extras extra ms rest hrest)
    · intro hlast
      rw [List.isEmpty_iff.mp hlast]
      exact hrest
    · intro hmore
      exact closesNext_memberTokens _ _ (by simpa using hmore) _

end

theorem marksNext_afterItem {isLast extra : Bool} {rest : List Token}
    (hrest : isLast = true → marksNext rest = true) :
    marksNext (afterItem isLast extra ++ rest) = true := by
  cases isLast with
  | false => rfl
  | true =>
    cases extra with
    | false => exact hrest rfl
    | true => rfl

theorem separated_afterItem {isLast extra : Bool} {rest : List Token} (h : Separated rest) :
    Separated (afterItem isLast extra ++ rest) := by
  unfold afterItem
  split
  · exact h
  · exact ⟨rfl, h⟩

mutual

/-- The tokens of a document can be told apart without white space. -/
theorem separated_tokens (extras : Bool) (d : Document) {rest : List Token}
    (hrest : Separated rest) (hmark : marksNext rest = true) :
    Separated (d.tokens extras ++ rest) := by
  cases d with
  | scalar s => exact ⟨by simp [hmark], hrest⟩
  | list items extra =>
    have hclose : Separated (.mark .closeList :: rest) := ⟨rfl, hrest⟩
    have hitems := separated_itemTokens extras (extras && extra) items hclose rfl
    simp only [tokens, List.cons_append, List.append_assoc, List.nil_append]
    exact ⟨rfl, hitems⟩
  | object members extra =>
    have hclose : Separated (.mark .closeObject :: rest) := ⟨rfl, hrest⟩
    have hmembers := separated_memberTokens extras (extras && extra) members hclose rfl
    simp only [tokens, List.cons_append, List.append_assoc, List.nil_append]
    exact ⟨rfl, hmembers⟩

theorem separated_itemTokens (extras extra : Bool) (ds : List Document) {rest : List Token}
    (hrest : Separated rest) (hmark : marksNext rest = true) :
    Separated (itemTokens extras extra ds ++ rest) := by
  cases ds with
  | nil => exact hrest
  | cons d ds =>
    rw [itemTokens, List.append_assoc, List.append_assoc]
    apply separated_tokens
    · exact separated_afterItem (separated_itemTokens extras extra ds hrest hmark)
    · apply marksNext_afterItem
      intro hlast
      rw [List.isEmpty_iff.mp hlast]
      exact hmark

theorem separated_memberTokens (extras extra : Bool) (ms : List (Quoted × Document))
    {rest : List Token} (hrest : Separated rest) (hmark : marksNext rest = true) :
    Separated (memberTokens extras extra ms ++ rest) := by
  cases ms with
  | nil => exact hrest
  | cons m ms =>
    obtain ⟨key, d⟩ := m
    simp only [memberTokens, List.cons_append, List.append_assoc]
    refine ⟨rfl, rfl, ?_⟩
    apply separated_tokens
    · exact separated_afterItem (separated_memberTokens extras extra ms hrest hmark)
    · apply marksNext_afterItem
      intro hlast
      rw [List.isEmpty_iff.mp hlast]
      exact hmark

end

end Document

end CodeIndex.Json.Layout
