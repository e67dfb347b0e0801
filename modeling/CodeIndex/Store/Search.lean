import CodeIndex.Search.Phrase
import CodeIndex.Search.Snippet
import CodeIndex.Store.Query
import CodeIndex.Text.Blank

/-!
Full-text search over the paths and contents of all files. A hit is the rarer the phrase is among
all files, and it counts more the more often the phrase occurs in a short file.
-/
namespace CodeIndex.Store

/-- The words of a file: those of its path and those of its content. -/
structure Indexed where
  row : FileRow
  pathWords : List String
  contentTokens : List Search.Token

namespace Indexed

def of (row : FileRow) : Indexed :=
  ⟨row, (Search.tokens row.path).map Search.Token.word, Search.tokens row.content⟩

def length (x : Indexed) : Nat := x.pathWords.length + x.contentTokens.length

def contentPlaces (phrase : List String) (x : Indexed) : List Nat :=
  Search.occurrences phrase (x.contentTokens.map Search.Token.word)

/-- How often the phrase occurs in path and content. -/
def frequency (phrase : List String) (x : Indexed) : Nat :=
  (Search.occurrences phrase x.pathWords).length + (x.contentPlaces phrase).length

end Indexed

structure Hit where
  repository : String
  path : String
  snippet : String
  score : Float
  dependencies : List String
  indexedAt : Int

/-- How much a phrase tells that occurs in `hits` of `total` files. -/
def weight (total hits : Nat) : Float :=
  let idf := Float.log
    ((Float.ofNat total - Float.ofNat hits + 0.5) / (Float.ofNat hits + 0.5))
  if idf ≤ 0.0 then 1.0e-6 else idf

/-- The rank of a file; files that match better have smaller ranks. -/
def rank (idf average : Float) (frequency length : Nat) : Float :=
  let f := Float.ofNat frequency
  let d := Float.ofNat length
  let score := idf * ((f * (1.2 + 1.0)) / (f + 1.2 * (1.0 - 0.75 + 0.75 * d / average)))
  Float.neg score

def searchStyle : Search.SnippetStyle := ⟨"<mark>", "</mark>", "...", 16⟩

/-- A ranked file before it is cut to the limit. -/
structure Ranked where
  file : Indexed
  repository : RepositoryRow
  rank : Float

/-- The better rank comes first and equal ranks go by path. -/
def rankedLe (a b : Ranked) : Bool :=
  if a.rank < b.rank then true
  else if b.rank < a.rank then false
  else (compare a.file.row.path b.file.row.path).isLE

def hitOf (s : Store) (phrase : List String) (x : Ranked) : Hit :=
  { repository := x.repository.fullName
    path := x.file.row.path
    snippet := Search.Matched.snippet
      { text := x.file.row.content.toList.toArray, tokens := x.file.contentTokens.toArray,
        places := x.file.contentPlaces phrase, phraseSize := phrase.length } searchStyle
    score := -x.rank
    dependencies := s.importsOf x.file.row.id
    indexedAt := x.file.row.indexedAt }

/-- The files in which the words of a term stand next to each other. -/
def search (s : Store) (term : String) (repository : Option String) (limit : Nat) :
    Except Error (List Hit) :=
  let term := Text.Blank.trim term
  if term.isEmpty || limit == 0 then .ok []
  else
    match Search.Phrase.decode (Search.Phrase.encode term) with
    | none => .error (.storage .unterminatedText)
    | some phraseText =>
      let phrase := (Search.tokens phraseText).map Search.Token.word
      let indexed := s.files.map Indexed.of
      let hits := indexed.filter fun x => x.frequency phrase > 0
      let total := indexed.foldl (fun n x => n + x.length) 0
      let average := Float.ofNat total / Float.ofNat indexed.length
      let idf := weight indexed.length hits.length
      let ranked := hits.filterMap fun x => do
        let r ← s.repositoryById? x.row.repositoryId
        if (repository.map (· == r.fullName)).getD true then
          return ⟨x, r, rank idf average (x.frequency phrase) x.length⟩
        else none
      .ok ((limited limit (ranked.mergeSort rankedLe)).map (s.hitOf phrase))

end CodeIndex.Store
