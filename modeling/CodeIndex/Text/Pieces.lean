/-!
Cutting a text at a separator: all pieces, the two parts around the first or the last separator,
and the lines of a text.
-/
namespace CodeIndex.Text.Pieces

/-- The pieces between the occurrences of a separator, empty pieces included. -/
def splitChars (sep : Char) : List Char → List (List Char)
  | [] => [[]]
  | c :: rest =>
    if c = sep then [] :: splitChars sep rest
    else
      match splitChars sep rest with
      | [] => [[c]]
      | piece :: more => (c :: piece) :: more

def split (sep : Char) (s : String) : List String :=
  (splitChars sep s.toList).map String.ofList

/-- The text before and after the first separator. -/
def cutChars (sep : Char) : List Char → Option (List Char × List Char)
  | [] => none
  | c :: rest =>
    if c = sep then some ([], rest)
    else (cutChars sep rest).map fun (before, after) => (c :: before, after)

def cut (sep : Char) (s : String) : Option (String × String) :=
  (cutChars sep s.toList).map fun (before, after) => (String.ofList before, String.ofList after)

/-- The text before and after the last separator. -/
def cutLastChars (sep : Char) (cs : List Char) : Option (List Char × List Char) :=
  (cutChars sep cs.reverse).map fun (after, before) => (before.reverse, after.reverse)

def cutLast (sep : Char) (s : String) : Option (String × String) :=
  (cutLastChars sep s.toList).map fun (before, after) =>
    (String.ofList before, String.ofList after)

/-- The text that follows a given beginning. -/
def stripStartChars : List Char → List Char → Option (List Char)
  | [], cs => some cs
  | _ :: _, [] => none
  | p :: ps, c :: cs => if p = c then stripStartChars ps cs else none

def stripEndChars (tail cs : List Char) : Option (List Char) :=
  (stripStartChars tail.reverse cs.reverse).map List.reverse

def stripStart (head s : String) : Option String :=
  (stripStartChars head.toList s.toList).map String.ofList

def stripEnd (tail s : String) : Option String :=
  (stripEndChars tail.toList s.toList).map String.ofList

/-- Whether the first text occurs somewhere inside the second one. -/
def occursInChars (needle : List Char) : List Char → Bool
  | [] => needle.isEmpty
  | c :: cs => needle.isPrefixOf (c :: cs) || occursInChars needle cs

def occursIn (needle s : String) : Bool := occursInChars needle.toList s.toList

/-- A line without the carriage return that belongs to its line ending. -/
def dropReturn (line : List Char) : List Char :=
  if line.getLast? = some '\r' then line.dropLast else line

/-- The lines of a text. A line ends at a line feed, with or without a carriage return before it;
the text after the last line feed is a line unless it is empty. -/
def lineChars (cs : List Char) : List (List Char) :=
  let pieces := splitChars '\n' cs
  let ended := pieces.dropLast.map dropReturn
  match pieces.getLast? with
  | none => ended
  | some [] => ended
  | some rest => ended ++ [rest]

def lines (s : String) : List String := (lineChars s.toList).map String.ofList

theorem splitChars_ne_nil (sep : Char) (cs : List Char) : splitChars sep cs ≠ [] := by
  cases cs with
  | nil => simp [splitChars]
  | cons c rest =>
    simp only [splitChars]
    split
    · simp
    · split <;> simp

/-- A text is its pieces with the separator between them. -/
theorem intercalate_splitChars (sep : Char) (cs : List Char) :
    [sep].intercalate (splitChars sep cs) = cs := by
  induction cs with
  | nil => simp [splitChars, List.intercalate]
  | cons c rest ih =>
    simp only [splitChars]
    split
    next h =>
      subst h
      cases hs : splitChars c rest with
      | nil => exact absurd hs (splitChars_ne_nil c rest)
      | cons piece more =>
        rw [hs] at ih
        simpa [List.intercalate] using ih
    next h =>
      cases hs : splitChars sep rest with
      | nil => exact absurd hs (splitChars_ne_nil sep rest)
      | cons piece more =>
        rw [hs] at ih
        cases more <;> simp_all [List.intercalate]

/-! Texts put together from pieces -/

/-- A text without the separator is one piece. -/
theorem splitChars_whole {sep : Char} {cs : List Char} (h : sep ∉ cs) :
    splitChars sep cs = [cs] := by
  induction cs with
  | nil => rfl
  | cons c cs ih =>
    rw [List.mem_cons, not_or] at h
    rw [splitChars, if_neg (Ne.symm h.1), ih h.2]

theorem splitChars_append {sep : Char} {piece : List Char} (h : sep ∉ piece) (rest : List Char) :
    splitChars sep (piece ++ sep :: rest) = piece :: splitChars sep rest := by
  induction piece with
  | nil => simp [splitChars]
  | cons c piece ih =>
    rw [List.mem_cons, not_or] at h
    rw [List.cons_append, splitChars, if_neg (Ne.symm h.1), ih h.2]

theorem splitChars_append_whole {sep : Char} {cs : List Char} (h : sep ∉ cs) (before : List Char) :
    splitChars sep (before ++ sep :: cs) = splitChars sep before ++ [cs] := by
  induction before with
  | nil => simp [splitChars, splitChars_whole h]
  | cons c before ih =>
    simp only [List.cons_append, splitChars, ih]
    split
    · rfl
    · cases hs : splitChars sep before with
      | nil => exact absurd hs (splitChars_ne_nil sep before)
      | cons piece more => rfl

/-- No piece has the separator in it. -/
theorem not_mem_splitChars {sep : Char} {cs piece : List Char} (h : piece ∈ splitChars sep cs) :
    sep ∉ piece := by
  induction cs generalizing piece with
  | nil => simp_all [splitChars]
  | cons c cs ih =>
    rw [splitChars] at h
    split at h
    · rcases List.mem_cons.mp h with rfl | h
      · simp
      · exact ih h
    · next hc =>
      split at h
      · next hnil => exact absurd hnil (splitChars_ne_nil sep cs)
      · next first more hsplit =>
        rcases List.mem_cons.mp h with rfl | h
        · rw [List.mem_cons, not_or]
          exact ⟨Ne.symm hc, ih (hsplit ▸ List.mem_cons_self)⟩
        · exact ih (hsplit ▸ List.mem_cons_of_mem _ h)

/-- Pieces without the separator are found again in the text that they make. -/
theorem splitChars_intercalate {sep : Char} {pieces : List (List Char)} (hne : pieces ≠ [])
    (h : ∀ piece ∈ pieces, sep ∉ piece) :
    splitChars sep ([sep].intercalate pieces) = pieces := by
  induction pieces with
  | nil => exact absurd rfl hne
  | cons first rest ih =>
    have hfirst := h first List.mem_cons_self
    cases rest with
    | nil => simpa [List.intercalate] using splitChars_whole hfirst
    | cons second more =>
      have htext : [sep].intercalate (first :: second :: more) =
          first ++ sep :: [sep].intercalate (second :: more) := by
        simp [List.intercalate]
      rw [htext, splitChars_append hfirst,
        ih (List.cons_ne_nil _ _) fun piece hpiece => h piece (List.mem_cons_of_mem _ hpiece)]

theorem cutChars_append {sep : Char} {cs : List Char} (h : sep ∉ cs) (rest : List Char) :
    cutChars sep (cs ++ sep :: rest) = some (cs, rest) := by
  induction cs with
  | nil => simp [cutChars]
  | cons c cs ih =>
    rw [List.mem_cons, not_or] at h
    simp [cutChars, Ne.symm h.1, ih h.2]

theorem cutChars_eq_none_iff {sep : Char} {cs : List Char} :
    cutChars sep cs = none ↔ sep ∉ cs := by
  induction cs with
  | nil => simp [cutChars]
  | cons c cs ih =>
    rw [cutChars, List.mem_cons, not_or]
    split
    · next hc => simp [hc]
    · next hc => simp [ih, Ne.symm hc]

theorem cutChars_eq_some_iff {sep : Char} {cs before after : List Char} :
    cutChars sep cs = some (before, after) ↔ cs = before ++ sep :: after ∧ sep ∉ before := by
  constructor
  · intro h
    induction cs generalizing before with
    | nil => simp [cutChars] at h
    | cons c cs ih =>
      rw [cutChars] at h
      split at h
      · next hc =>
        cases h
        exact ⟨by rw [hc, List.nil_append], List.not_mem_nil⟩
      · next hc =>
        obtain ⟨⟨before, after⟩, hcut, heq⟩ := Option.map_eq_some_iff.mp h
        cases heq
        obtain ⟨rfl, hbefore⟩ := ih hcut
        rw [List.mem_cons, not_or]
        exact ⟨rfl, Ne.symm hc, hbefore⟩
  · rintro ⟨rfl, h⟩
    exact cutChars_append h after

theorem cutLast_eq_none_iff {sep : Char} {s : String} :
    cutLast sep s = none ↔ sep ∉ s.toList := by
  rw [cutLast, cutLastChars, Option.map_map, Option.map_eq_none_iff, cutChars_eq_none_iff,
    List.mem_reverse]

theorem cutLastChars_eq_some_iff {sep : Char} {cs before after : List Char} :
    cutLastChars sep cs = some (before, after) ↔ cs = before ++ sep :: after ∧ sep ∉ after := by
  rw [cutLastChars, Option.map_eq_some_iff]
  constructor
  · rintro ⟨⟨after, before⟩, hcut, heq⟩
    cases heq
    obtain ⟨hcs, hafter⟩ := cutChars_eq_some_iff.mp hcut
    refine ⟨?_, by simpa using hafter⟩
    simpa using congrArg List.reverse hcs
  · rintro ⟨rfl, h⟩
    refine ⟨(after.reverse, before.reverse), cutChars_eq_some_iff.mpr ⟨by simp, ?_⟩, by simp⟩
    simpa using h

/-- A text is cut at its last separator: none stands in what follows. -/
theorem cutLast_eq_some_iff {sep : Char} {s before after : String} :
    cutLast sep s = some (before, after) ↔
      s.toList = before.toList ++ sep :: after.toList ∧ sep ∉ after.toList := by
  rw [← cutLastChars_eq_some_iff, cutLast, Option.map_eq_some_iff]
  constructor
  · rintro ⟨⟨b, a⟩, hcut, heq⟩
    cases heq
    simpa using hcut
  · intro hcut
    exact ⟨_, hcut, by simp⟩

end CodeIndex.Text.Pieces
