import CodeIndex.Store.Query
import CodeIndex.Text.Blank

/-!
Projects: named groups of repositories.
-/
namespace CodeIndex.Store

structure Project where
  id : Id
  name : String
  description : Option String
  createdAt : Int
  /-- The full names of its repositories, in order. -/
  repositories : List String
  deriving DecidableEq, Repr

/-- Creates a project under the trimmed name, which must be new. -/
def createProject (s : Store) (name : String) (description : Option String) (now : Int) :
    Except Error (Project × Store) :=
  let name := Text.Blank.trim name
  if name.isEmpty then .error (.invalidArgument .emptyProjectName)
  else if (s.project? name).isSome then .error (.invalidArgument (.projectExists name))
  else
    let (id, s) := s.freshId
    .ok ({ id, name, description, createdAt := now, repositories := [] },
      { s with projects := s.projects ++ [{ id, name, description, createdAt := now }] })

/-- The full names of the repositories of a project. -/
def membersOf (s : Store) (projectId : Id) : List String :=
  ((s.memberships.filter fun m => m.projectId == projectId).filterMap fun m =>
    (s.repositoryById? m.repositoryId).map RepositoryRow.fullName).mergeSort
      fun a b => (compare a b).isLE

def listProjects (s : Store) : List Project :=
  (s.projects.mergeSort fun a b => (compare a.name b.name).isLE).map fun p =>
    { id := p.id, name := p.name, description := p.description, createdAt := p.createdAt,
      repositories := s.membersOf p.id }

/-- The project and the repository of a membership, both of which must be there. -/
def membershipEnds (s : Store) (project fullName : String) :
    Except Error (ProjectRow × RepositoryRow) := do
  match s.project? project with
  | none => throw (.invalidArgument (.unknownProject project))
  | some p => return (p, ← s.requireRepository fullName)

def addMembership (s : Store) (projectId repositoryId : Id) : Store :=
  if s.memberships.contains ⟨projectId, repositoryId⟩ then s
  else { s with memberships := s.memberships ++ [⟨projectId, repositoryId⟩] }

/-- Adds a repository to a project; a second time changes nothing. -/
def addToProject (s : Store) (project fullName : String) : Except Error Store := do
  let (p, r) ← s.membershipEnds project fullName
  return s.addMembership p.id r.id

/-- Removes a repository from a project; tells whether it was in it. -/
def removeFromProject (s : Store) (project fullName : String) : Except Error (Bool × Store) := do
  let (p, r) ← s.membershipEnds project fullName
  if s.memberships.contains ⟨p.id, r.id⟩ then
    let kept := s.memberships.filter fun m => m != (⟨p.id, r.id⟩ : MembershipRow)
    return (true, { s with memberships := kept }.enqueue (.membership project fullName))
  else return (false, s)

/-- Deletes a project and leaves its repositories alone; tells whether there was one. -/
def deleteProject (s : Store) (name : String) : Bool × Store :=
  match s.project? name with
  | none => (false, s)
  | some _ => (true, (s.removeProject name).enqueue (.project name))

end CodeIndex.Store
