import CodeIndex.Path

/-!
Repositories: what a caller says about one, and what is stored of it.
-/
namespace CodeIndex

/-- A repository as a caller describes it. -/
structure Descriptor where
  fullName : String
  name : String
  root : String
  gitUrl : Option String
  defaultBranch : Option String
  deriving DecidableEq, Repr

namespace Descriptor

/-- The short name is the last part of the full name. -/
def ofFullName (fullName root : String) : Descriptor :=
  { fullName, name := Path.baseName fullName, root, gitUrl := none, defaultBranch := none }

end Descriptor

end CodeIndex
