/-!
Patterns for paths. A star and a question mark stand for anything but a slash, two stars between
slashes for any number of directories; there are classes in brackets, choices in braces and escapes
with a backslash. Patterns work on bytes.
-/
namespace CodeIndex.Files

inductive Glob where
  | byte (b : UInt8)
  /-- One byte other than a slash. -/
  | any
  /-- Any number of bytes other than a slash. -/
  | star
  /-- Nothing or any number of directories, at the start. -/
  | directories
  /-- A slash and anything. -/
  | inside
  /-- A slash, or two with anything between them. -/
  | between
  | oneOf (negated : Bool) (ranges : List (UInt8 × UInt8))
  | choice (branches : List (List Glob))

namespace Glob

def slash : UInt8 := 47

def bytesOf (c : Char) : List UInt8 := (String.singleton c).toUTF8.toList

/-- Single bytes as ranges. -/
def single (bs : List UInt8) : List (UInt8 × UInt8) := bs.map fun b => (b, b)

/-- The ranges of bytes between two characters. -/
def rangeOf (low high : Char) : List (UInt8 × UInt8) :=
  match (bytesOf low).reverse, bytesOf high with
  | a :: before, b :: after => single before.reverse ++ [(a, b)] ++ single after
  | _, _ => []

/-- The state of a class: its ranges in reverse, and whether a hyphen waits for the upper end. -/
structure ClassState where
  ranges : List (Char × Char)
  inRange : Bool
  first : Bool

/-- Reads a class after its opening bracket and its mark of negation. Nothing if it is not closed
or a range runs backwards. -/
def readClass : ClassState → List Char → Option (List (Char × Char) × List Char)
  | _, [] => none
  | st, c :: rest =>
    if c == ']' && !st.first then
      some ((if st.inRange then ('-', '-') :: st.ranges else st.ranges).reverse, rest)
    else if c == '-' && st.first then
      readClass ⟨('-', '-') :: st.ranges, false, false⟩ rest
    else if c == '-' && !st.inRange then readClass ⟨st.ranges, true, false⟩ rest
    else if st.inRange then
      match st.ranges with
      | (low, _) :: others =>
        if low.toNat ≤ c.toNat then readClass ⟨(low, c) :: others, false, false⟩ rest else none
      | [] => readClass ⟨[(c, c)], false, false⟩ rest
    else readClass ⟨(c, c) :: st.ranges, false, false⟩ rest

/-- What is being read: the branches finished, in reverse, and the branch at hand, in reverse. -/
structure Frame where
  branches : List (List Glob)
  current : List Glob

def Frame.push (f : Frame) (g : Glob) : Frame := { f with current := g :: f.current }

/-- Puts two stars, or their meaning in this place, onto the frame. The arguments are the frame,
the character before the stars, whether braces are open, and what follows the stars. -/
def readStars (f : Frame) (before : Option Char) (isOpen : Bool) (rest : List Char) :
    Frame × List Char :=
  let plain : Frame × List Char := ((f.push star).push star, rest)
  let replace (f : Frame) (g : Glob) : Frame :=
    match f.current with
    | directories :: _ => f
    | inside :: _ => f
    | _ :: more => { f with current := g :: more }
    | [] => f.push g
  if f.current.isEmpty then
    match rest with
    | [] => (f.push directories, [])
    | '/' :: more => (f.push directories, more)
    | _ => plain
  else if before != some '/' && !(isOpen && (before == some ',' || before == some '\x7b')) then plain
  else
    match rest with
    | [] => (replace f inside, [])
    | '/' :: more => (replace f between, more)
    | c :: _ => if isOpen && (c == ',' || c == '\x7d') then (replace f inside, rest) else plain

/-- Reads a pattern. The number bounds the steps; the innermost open brace comes first. -/
def readFrom : Nat → List Frame → Option Char → List Char → Option (List Glob)
  | 0, _, _, _ => none
  | _, [f], _, [] => some f.current.reverse
  | _, _, _, [] => none
  | _, [], _, _ => none
  | n + 1, f :: outer, before, c :: rest =>
    let go (f : Frame) (rest : List Char) := readFrom n (f :: outer) (some c) rest
    match c with
    | '?' => go (f.push any) rest
    | '*' =>
      match rest with
      | '*' :: more =>
        let (f, after) := readStars f before (!outer.isEmpty) more
        readFrom n (f :: outer) (if after.length < more.length then some '/' else some '*') after
      | _ => go (f.push star) rest
    | '[' =>
      let (negated, body) := match rest with
        | '!' :: more => (true, more)
        | '^' :: more => (true, more)
        | _ => (false, rest)
      match readClass ⟨[], false, true⟩ body with
      | none => none
      | some (ranges, after) =>
        readFrom n (f.push (oneOf negated (ranges.flatMap fun (a, b) =>
          if a == b then single (bytesOf a) else rangeOf a b)) :: outer) (some ']') after
    | '\\' =>
      match rest with
      | [] => none
      | e :: more =>
        readFrom n ({ f with current := ((bytesOf e).map byte).reverse ++ f.current } :: outer)
          (some e) more
    | _ =>
      if c == '\x7b' then readFrom n (⟨[], []⟩ :: f :: outer) (some c) rest
      else if c == '\x7d' then
        match outer with
        | [] => none
        | up :: others =>
          let branches := ((f.current.reverse :: f.branches).reverse).filter fun b => !b.isEmpty
          let up := if branches.isEmpty then up else up.push (choice branches)
          readFrom n (up :: others) (some c) rest
      else if c == ',' && !outer.isEmpty then
        readFrom n (⟨f.current.reverse :: f.branches, []⟩ :: outer) (some c) rest
      else go { f with current := ((bytesOf c).map byte).reverse ++ f.current } rest

def parse (pattern : String) : Option (List Glob) :=
  readFrom (pattern.length + 1) [⟨[], []⟩] none pattern.toList

/-- All that is left of a text after any number of bytes, slashes included or not. -/
def suffixes (stopAtSlash : Bool) : List UInt8 → List (List UInt8)
  | [] => [[]]
  | b :: bs => (b :: bs) :: if stopAtSlash && b == slash then [] else suffixes stopAtSlash bs

/-- What follows each slash of a text. -/
def afterSlashes (text : List UInt8) : List (List UInt8) :=
  (suffixes false text).filterMap fun s =>
    match s with
    | b :: bs => if b == slash then some bs else none
    | [] => none

/-- What may be left of a text after a single part. -/
def leftAfter : Glob → List UInt8 → List (List UInt8)
  | byte b, text =>
    match text with
    | x :: xs => if x == b then [xs] else []
    | [] => []
  | any, text =>
    match text with
    | x :: xs => if x == slash then [] else [xs]
    | [] => []
  | star, text => suffixes true text
  | directories, text => text :: afterSlashes text
  | inside, text =>
    match text with
    | x :: xs => if x == slash then suffixes false xs else []
    | [] => []
  | between, text =>
    match text with
    | x :: xs => if x == slash then xs :: afterSlashes xs else []
    | [] => []
  | oneOf negated ranges, text =>
    match text with
    | x :: xs =>
      if (ranges.any fun (low, high) => low ≤ x && x ≤ high) != negated then [xs] else []
    | [] => []
  | choice _, _ => []

/-- Whether a pattern fits a whole text. The number bounds the steps. -/
def matchesFrom : Nat → List Glob → List UInt8 → Bool
  | 0, _, _ => false
  | _, [], text => text.isEmpty
  | n + 1, choice branches :: rest, text => branches.any fun b => matchesFrom n (b ++ rest) text
  | n + 1, g :: rest, text => (leftAfter g text).any (matchesFrom n rest)

mutual

/-- How many parts a pattern has, those of its choices included. -/
def weight : Glob → Nat
  | choice branches => 1 + weightBranches branches
  | _ => 1

def weightAll : List Glob → Nat
  | [] => 0
  | g :: gs => weight g + weightAll gs

def weightBranches : List (List Glob) → Nat
  | [] => 0
  | b :: bs => weightAll b + weightBranches bs

end

/-- Whether a pattern fits a path. Two stars alone fit every path. -/
def fits (pattern : List Glob) (path : String) : Bool :=
  match pattern with
  | [directories] => true
  | _ => matchesFrom (weightAll pattern + 1) pattern path.toUTF8.toList

end Glob

end CodeIndex.Files
