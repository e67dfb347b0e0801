import CodeIndex.Search.Fold
import CodeIndex.Search.WordChar

/-!
Cutting a text into words. A word is a maximal run of word characters, in which combining accents
may stand after the first character; it is compared in folded form.
-/
namespace CodeIndex.Search

/-- A word and its range in the text. -/
structure Token where
  word : String
  start : Nat
  stop : Nat
  deriving DecidableEq, Repr

/-- The word that is being read, folded and in reverse. -/
structure Partial where
  start : Nat
  stop : Nat
  folded : List Char

def Partial.finish (p : Partial) : Token := ⟨String.ofList p.folded.reverse, p.start, p.stop⟩

def extend (p : Partial) (c : Char) (i : Nat) : Partial :=
  ⟨p.start, i + 1, (fold c).reverse ++ p.folded⟩

/-- The words of a text from a position on. -/
def tokensFrom (i : Nat) (current : Option Partial) : List Char → List Token
  | [] => (current.map Partial.finish).toList
  | c :: rest =>
    match current with
    | none =>
      if isWordChar c then tokensFrom (i + 1) (some (extend ⟨i, i, []⟩ c i)) rest
      else tokensFrom (i + 1) none rest
    | some p =>
      if isWordChar c || isAccent c then tokensFrom (i + 1) (some (extend p c i)) rest
      else p.finish :: tokensFrom (i + 1) none rest

def tokens (s : String) : List Token := tokensFrom 0 none s.toList

/-- The places at which a phrase occurs in a list of words, counted from the given number. -/
def occurrencesFrom (phrase : List String) (i : Nat) : List String → List Nat
  | [] => []
  | w :: rest =>
    if phrase.isPrefixOf (w :: rest) then i :: occurrencesFrom phrase (i + 1) rest
    else occurrencesFrom phrase (i + 1) rest

/-- The places at which a phrase occurs; a phrase without words occurs nowhere. -/
def occurrences (phrase words : List String) : List Nat :=
  if phrase.isEmpty then [] else occurrencesFrom phrase 0 words

end CodeIndex.Search
