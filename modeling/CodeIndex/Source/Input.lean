/-!
A source text as an array of characters, with the byte offset, line and column of every position.
Lines count from one and are ended by line feeds; columns are byte offsets within the line.
-/
namespace CodeIndex.Source

structure Place where
  offset : Nat
  line : Nat
  column : Nat
  deriving DecidableEq, Repr, Inhabited

namespace Place

def start : Place := ⟨0, 1, 0⟩

/-- The place after a character. -/
def step (p : Place) (c : Char) : Place :=
  if c = '\n' then ⟨p.offset + c.utf8Size, p.line + 1, 0⟩
  else ⟨p.offset + c.utf8Size, p.line, p.column + c.utf8Size⟩

end Place

structure Input where
  chars : Array Char
  /-- The places of all positions, the end of the text included. -/
  places : Array Place

namespace Input

/-- The places of the positions of a text, from a given one on. -/
def placesFrom (p : Place) : List Char → List Place
  | [] => [p]
  | c :: rest => p :: placesFrom (p.step c) rest

def ofString (s : String) : Input :=
  ⟨s.toList.toArray, (placesFrom Place.start s.toList).toArray⟩

def size (t : Input) : Nat := t.chars.size

/-- The character at a position; past the end stands the null character. -/
def peek (t : Input) (i : Nat) : Char := t.chars.getD i '\x00'

def place (t : Input) (i : Nat) : Place := t.places.getD i Place.start

/-- The text between two positions. -/
def slice (t : Input) (start stop : Nat) : String :=
  String.ofList (t.chars.extract start stop).toList

/-- The first position from `i` on whose character fails the test. -/
def scanWhile (t : Input) (test : Char → Bool) (i : Nat) : Nat :=
  if h : i < t.chars.size then
    if test t.chars[i] then scanWhile t test (i + 1) else i
  else i
termination_by t.chars.size - i

/-- Whether the given characters stand at a position. -/
def standsAt (t : Input) (i : Nat) : List Char → Bool
  | [] => true
  | c :: rest => i < t.size && t.peek i == c && standsAt t (i + 1) rest

end Input

end CodeIndex.Source
