/-!
Search terms as quoted phrases: a quote inside the term is written twice.
-/
namespace CodeIndex.Search.Phrase

def quoteChars : List Char → List Char
  | [] => []
  | c :: rest => if c = '"' then '"' :: '"' :: quoteChars rest else c :: quoteChars rest

/-- The query text of a term. -/
def encode (term : String) : String := String.ofList ('"' :: quoteChars term.toList ++ ['"'])

/-- Reads a phrase after its opening quote: its value and what follows the closing quote. -/
def readFrom : List Char → Option (List Char × List Char)
  | [] => none
  | '"' :: '"' :: rest => (readFrom rest).map fun (value, after) => ('"' :: value, after)
  | c :: rest =>
    if c = '"' then some ([], rest)
    else (readFrom rest).map fun (value, after) => (c :: value, after)

/-- The term of a query that is one phrase. A query ends at its first null character. -/
def decode (query : String) : Option String :=
  match query.toList.takeWhile (· != '\x00') with
  | '"' :: rest =>
    match readFrom rest with
    | some (value, []) => some (String.ofList value)
    | _ => none
  | _ => none

end CodeIndex.Search.Phrase
