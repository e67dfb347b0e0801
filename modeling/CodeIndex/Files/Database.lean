import CodeIndex.Files.Tree

/-!
Databases in a file tree. A missing or empty file is a new database; any other file that is not a
database is refused.
-/
namespace CodeIndex.Files.Tree

/-- Opens the database at a path, or makes one of the given origin. -/
def openDatabase (t : Tree) (path : String) (origin : Nat) : Except Error (Store × Tree) := do
  let fresh := Store.empty origin
  match t.readContent [] path with
  | .ok (.database s) => return (s, t)
  | .ok content =>
    if content.size = 0 then create t fresh else throw (.storage .notDatabase)
  | .error .notFound => create t fresh
  | .error _ => throw (.storage (.cannotOpen path))
where
  create (t : Tree) (s : Store) : Except Error (Store × Tree) :=
    match t.write [] path (.database s) with
    | .ok t => .ok (s, t)
    | .error _ => .error (.storage (.cannotOpen path))

/-- Puts a store back into its file. -/
def saveDatabase (t : Tree) (path : String) (s : Store) : Tree :=
  match t.write [] path (.database s) with
  | .ok t => t
  | .error _ => t

end CodeIndex.Files.Tree
