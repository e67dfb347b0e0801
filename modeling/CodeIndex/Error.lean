/-!
Why an operation fails, and how the failure is worded.
-/
namespace CodeIndex

/-- Failures of the file system. -/
inductive FileFault where
  | notFound
  | exists
  | notDirectory
  | isDirectory
  | tooManyLinks
  | notText
  deriving DecidableEq, Repr

namespace FileFault

def message : FileFault → String
  | notFound => "No such file or directory (os error 2)"
  | «exists» => "File exists (os error 17)"
  | notDirectory => "Not a directory (os error 20)"
  | isDirectory => "Is a directory (os error 21)"
  | tooManyLinks => "Too many levels of symbolic links (os error 40)"
  | notText => "stream did not contain valid UTF-8"

end FileFault

/-- Failures of the storage engine. -/
inductive StorageFault where
  /-- A new repository was given the id of another one. -/
  | duplicateRepositoryId
  /-- A row of an edge without a complete pair of ends. -/
  | incompleteEdge
  /-- A row that names a row that is not there. -/
  | missingParent
  /-- A search term with a null character, which ends the query early. -/
  | unterminatedText
  | notDatabase
  | cannotOpen (path : String)
  | readOnly
  deriving DecidableEq, Repr

namespace StorageFault

def message : StorageFault → String
  | duplicateRepositoryId => "UNIQUE constraint failed: repositories.id"
  | incompleteEdge =>
    "CHECK constraint failed: (from_file_id IS NOT NULL AND to_file_id IS NOT NULL)\n"
      ++ "        OR (from_symbol_id IS NOT NULL AND to_symbol_id IS NOT NULL)"
  | missingParent => "FOREIGN KEY constraint failed"
  | unterminatedText => "unterminated string"
  | notDatabase => "file is not a database"
  | cannotOpen path => "unable to open database file: " ++ path
  | readOnly => "attempt to write a readonly database"

/-- The general words for the class of the failure. -/
def description : StorageFault → String
  | duplicateRepositoryId => "Error code 1555: A PRIMARY KEY constraint failed"
  | incompleteEdge => "Error code 275: A CHECK constraint failed"
  | missingParent => "Error code 787: A foreign key constraint failed"
  | unterminatedText => "Error code 1: SQL error or missing database"
  | notDatabase => "Error code 26: File opened that is not a database file"
  | cannotOpen _ => "Error code 14: Unable to open the database file"
  | readOnly => "Error code 8: Attempt to write a readonly database"

end StorageFault

/-- A request that cannot be met as it stands. -/
inductive Refusal where
  | notDirectory (path : String)
  | depth (given : Nat)
  | emptyProjectName
  | projectExists (name : String)
  | unknownProject (name : String)
  deriving DecidableEq, Repr

/-- The deepest walk that a dependency query may ask for. -/
def maxQueryDepth : Nat := 5

namespace Refusal

def message : Refusal → String
  | notDirectory path => path ++ " is not a directory"
  | depth given =>
    "depth must be between 1 and " ++ toString maxQueryDepth ++ ", got " ++ toString given
  | emptyProjectName => "project name must not be empty"
  | projectExists name => "project " ++ name ++ " already exists"
  | unknownProject name => "unknown project " ++ name

end Refusal

inductive Error where
  | storage (f : StorageFault)
  | io (f : FileFault)
  | config
  | invalidArgument (r : Refusal)
  /-- A symbol, reference or edge of a run names a file that is not part of the run. -/
  | notInRun (path : String)
  /-- An edge of a run has no complete pair of ends. -/
  | openEdge (key : String)
  | repositoryNotFound (name : String)
  deriving DecidableEq, Repr

namespace Error

def message : Error → String
  | storage f => "Storage error: " ++ f.message
  | io f => "IO error: " ++ f.message
  | config => "Config error"
  | invalidArgument r => "Invalid argument: " ++ r.message
  | notInRun path => "Integrity error: " ++ path ++ " is not part of this run"
  | openEdge key => "Integrity error: edge " ++ key ++ " has no complete endpoint pair"
  | repositoryNotFound name => "Repository not found: " ++ name

/-- What lies behind a failure, outermost first. -/
def causes : Error → List String
  | storage f => [f.message, f.description]
  | io f => [f.message]
  | _ => []

end Error

end CodeIndex
