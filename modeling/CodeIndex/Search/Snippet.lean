import CodeIndex.Search.Token

/-!
Snippets: a window of a text around the matches of a phrase, with the matches marked. The window
that holds the most matches wins; windows that start a sentence are preferred.
-/
namespace CodeIndex.Search

/-- How a snippet is written. -/
structure SnippetStyle where
  opening : String
  closing : String
  ellipsis : String
  /-- The number of words in the window. -/
  width : Nat

/-- A text with its words, the places of a phrase and the phrase's length in words. -/
structure Matched where
  text : Array Char
  tokens : Array Token
  places : List Nat
  phraseSize : Nat

namespace Matched

def size (m : Matched) : Nat := m.tokens.size

/-- The matches that start in a window. -/
def within (m : Matched) (start width : Nat) : List Nat :=
  m.places.filter fun p => start ≤ p && p < start + width

/-- The first match counts a thousand, each other one counts one. -/
def score (m : Matched) (start width : Nat) : Nat :=
  match m.within start width with
  | [] => 0
  | _ :: more => 1000 + more.length

/-- Where a window would start that has its matches in the middle. -/
def centred (m : Matched) (start width : Nat) : Nat :=
  match m.within start width with
  | [] => 0
  | first :: more =>
    let last := ((first :: more).getLast?.getD first) + m.phraseSize
    let adjusted : Int := (first : Int) - Int.tdiv ((width : Int) - ((last : Int) - first)) 2
    let adjusted := if adjusted + width > m.size then (m.size : Int) - width else adjusted
    adjusted.toNat

def isSpace (c : Char) : Bool := c == ' ' || c == '\t' || c == '\n' || c == '\r'

/-- Whether white space and, before it, a full stop or a colon stand in front of a position. -/
def startsSentence (text : Array Char) (i : Nat) : Bool :=
  let before := (text.extract 0 i).toList.reverse
  match before with
  | [] => false
  | c :: _ =>
    isSpace c &&
      match before.dropWhile isSpace with
      | mark :: _ => mark == '.' || mark == ':'
      | [] => false

/-- The words that start a sentence; the first word does. -/
def sentences (m : Matched) : List Nat :=
  (List.range m.size).filter fun i =>
    i == 0 || ((m.tokens[i]?).map fun t => startsSentence m.text t.start).getD false

/-- The last sentence that starts at or before a word. -/
def sentenceOf (sentences : List Nat) (place : Nat) : Option Nat :=
  match sentences with
  | [] => none
  | first :: more => some ((more.takeWhile fun s => s ≤ place).getLast?.getD first)

/-- A candidate window with its score. -/
structure Window where
  score : Nat
  start : Nat

def better (best candidate : Window) : Window :=
  if candidate.score > best.score then candidate else best

/-- Where the best window starts. -/
def bestStart (m : Matched) (width : Nat) : Nat :=
  let sentences := m.sentences
  let best := m.places.foldl
    (fun best place =>
      let best := better best ⟨m.score place width, m.centred place width⟩
      match sentenceOf sentences place with
      | none => best
      | some s =>
        if width < m.size && s < place then
          better best ⟨m.score s width + (if s == 0 then 120 else 100), s⟩
        else best)
    ⟨0, 0⟩
  best.start

/-- The ranges of words that matches cover, overlapping ones joined. -/
def spans (phraseSize : Nat) : List Nat → List (Nat × Nat)
  | [] => []
  | p :: rest =>
    match spans phraseSize rest with
    | [] => [(p, p + phraseSize - 1)]
    | (s, e) :: more =>
      if s ≤ p + phraseSize - 1 then (p, max e (p + phraseSize - 1)) :: more
      else (p, p + phraseSize - 1) :: (s, e) :: more

/-- The writing of a snippet: what was written, how much of the text was copied, whether a mark is
open, and the spans to come. -/
structure Writing where
  out : List Char
  copied : Nat
  isOpen : Bool
  spans : List (Nat × Nat)

def put (w : Writing) (s : String) : Writing := { w with out := s.toList.reverse ++ w.out }

/-- Copies the text up to a position. A null character ends the piece that is copied. -/
def copyTo (m : Matched) (w : Writing) (stop : Nat) : Writing :=
  let piece := (m.text.extract w.copied stop).toList.takeWhile fun c => c.toNat != 0
  { w with
    out := piece.reverse ++ w.out
    copied := stop }

/-- Writes one word of the window with the marks around it. -/
def writeWord (m : Matched) (style : SnippetStyle) (first last : Nat) (w : Writing) (i : Nat) :
    Writing :=
  match m.tokens[i]? with
  | none => w
  | some t =>
    let w := if first != 0 && i == first then { w with copied := t.start } else w
    let nextStart := w.spans.head?.map Prod.fst
    let w :=
      if w.isOpen && ((nextStart.map fun s => decide (i ≤ s)).getD true) && w.copied ≤ t.start then
        { put w style.closing with isOpen := false }
      else w
    let w :=
      if nextStart == some i && !w.isOpen then
        { put (m.copyTo w t.start) style.opening with isOpen := true }
      else w
    let w :=
      if w.spans.head?.map Prod.snd == some i then
        let w := if w.isOpen then w else { put w style.opening with isOpen := true }
        let w := m.copyTo w t.stop
        { w with spans := w.spans.tail }
      else w
    if i == last then
      let w :=
        if w.isOpen then
          let w :=
            if ((w.spans.head?.map fun s => decide (s.1 ≤ i)).getD false) then m.copyTo w t.stop
            else w
          { put w style.closing with isOpen := false }
        else w
      m.copyTo w t.stop
    else w

/-- The snippet of a text. -/
def snippet (m : Matched) (style : SnippetStyle) : String :=
  let first := m.bestStart style.width
  let last := first + style.width - 1
  let spans := (spans m.phraseSize m.places).filter fun s => first ≤ s.1
  let start : Writing := ⟨[], 0, false, spans⟩
  let start := if first > 0 then put start style.ellipsis else start
  let w := (List.range m.size).foldl
    (fun w i => if first ≤ i && i ≤ last then m.writeWord style first last w i else w) start
  let w := if w.isOpen then { put w style.closing with isOpen := false } else w
  let w := if last + 1 ≥ m.size then m.copyTo w m.text.size else put w style.ellipsis
  String.ofList w.out.reverse

end Matched

end CodeIndex.Search
