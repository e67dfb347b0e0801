/-!
Which way a dependency query looks.
-/
namespace CodeIndex.Graph

inductive Direction where
  | dependents
  | dependencies
  | both
  deriving DecidableEq, Repr

namespace Direction

def all : List Direction := [dependents, dependencies, both]

def name : Direction → String
  | dependents => "dependents"
  | dependencies => "dependencies"
  | both => "both"

def ofName? (s : String) : Option Direction := all.find? fun d => d.name == s

def includesDependents : Direction → Bool
  | dependents | both => true
  | dependencies => false

def includesDependencies : Direction → Bool
  | dependencies | both => true
  | dependents => false

end Direction

end CodeIndex.Graph
