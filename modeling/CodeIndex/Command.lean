import CodeIndex.Command.Arguments
import CodeIndex.Command.Report
import CodeIndex.Config.Reading
import CodeIndex.Files.Database

/-!
The command line as a function: from arguments and a file tree to what is printed and the tree
afterwards. A command that fails may leave changes in the tree that it made before.
-/
namespace CodeIndex.Command

/-- Where and when a command runs. -/
structure Context where
  /-- The working directory. -/
  directory : Files.Location
  now : Int
  /-- Nanoseconds since the program was started. -/
  elapsed : Nat := 0

/-- What a command prints, and its exit code. -/
structure Outcome where
  code : Nat
  out : String
  err : String
  deriving DecidableEq, Repr

/-- A command at work: it changes the file tree and may fail. -/
abbrev Action (α : Type) := ExceptT Failure (StateM Files.Tree) α

def lift {α : Type} (r : Except Error α) : Action α :=
  match r with
  | .ok a => pure a
  | .error e => throw (.ofError e)

/-- The absolute path of what a path leads to. -/
def canonical (c : Context) (path : String) : Action String := do
  let t ← get
  let place := if path.isEmpty then .error .notFound else t.resolve c.directory path
  match place with
  | .ok l => return t.absolute l
  | .error f => throw ((Failure.ofFault f).within ("Invalid path: " ++ path))

def loadConfig (root : String) : Action Config := do
  match Config.load (← get) root with
  | .ok config => return config
  | .error e => throw ((Failure.ofError e).within ("Failed to load config from " ++ root))

/-- The root of a command and its settings. -/
def prepare (c : Context) (path : String) : Action (String × Config) := do
  let root ← canonical c path
  return (root, ← loadConfig root)

/-- Opens the database of a root, making it if it is missing. -/
def openStore (path : String) : Action Store := do
  match Path.parent? path with
  | none => pure ()
  | some dir =>
    match (← get).makeDirectories [] dir with
    | .ok t => set t
    | .error f => throw (.ofFault f)
  match (← get).openDatabase path 0 with
  | .ok (s, t) =>
    set t
    return s
  | .error e => throw ((Failure.ofError e).within ("Failed to open index at " ++ path))

def save (path : String) (s : Store) : Action Unit :=
  modify fun t => t.saveDatabase path s

/-- Works on the database of a root only if there is one, and else says how to make it. -/
def withExisting (c : Context) (path : String)
    (work : String → Config → String → Store → Action (List String)) : Action (List String) := do
  let (root, config) ← prepare c path
  let database := config.databasePath root
  if (← get).pathExists [] database then work root config database (← openStore database)
  else
    return ["No index found at " ++ database, "Run 'codeatlas index " ++ root ++ "' first."]

def index (c : Context) (path : String) (name : Option String) : Action (List String) := do
  let (root, config) ← prepare c path
  let database := config.databasePath root
  let s ← openStore database
  let fullName := name.getD (if root.isEmpty then "root" else Path.baseName root)
  let (stats, s) ← lift (s.index (← get) config.index (.ofFullName fullName root) none c.now)
  save database s
  return Report.indexed stats

def status (c : Context) (path : String) : Action (List String) :=
  withExisting c path fun _ _ database s => return Report.status database s

def search (c : Context) (path query : String) (repository : Option String) (limit : Nat) :
    Action (List String) :=
  withExisting c path fun _ _ _ s => do
    return Report.hits query (← lift (s.search query repository limit))

def recent (c : Context) (path : String) (repository : Option String) (limit : Nat) :
    Action (List String) :=
  withExisting c path fun _ _ _ s => return Report.recent (s.recentFiles limit repository)

def deps (c : Context) (path file direction : String) (depth : Nat) (includeTests : Bool)
    (repository : Option String) : Action (List String) :=
  match Graph.Direction.ofName? direction with
  | none =>
    throw ⟨"Unknown direction '" ++ direction ++ "' (expected dependents, dependencies or both)", []⟩
  | some d =>
    withExisting c path fun _ _ _ s => do
      return Report.dependencies
        (← lift (s.queryDependencies file d depth includeTests repository))

def exportAll (c : Context) (path : String) (force : Bool) : Action (List String) :=
  withExisting c path fun root config database s => do
    let dir := config.exportDirectory root
    let (t, r) := Sync.exportTo s (← get) dir force
    set t
    let (done, s) ← lift r
    save database s
    return Report.exported dir c.elapsed done

def importAll (c : Context) (path : String) (dir : Option String) : Action (List String) := do
  let (root, config) ← prepare c path
  let database := config.databasePath root
  let s ← openStore database
  let dir ← match dir with
    | some d => canonical c d
    | none => pure (config.exportDirectory root)
  let (done, s) ← lift (Sync.importFrom s (← get) dir)
  save database s
  return Report.imported dir c.elapsed done

def repos (c : Context) (path : String) (args : List String) : Action (List String) :=
  withExisting c path fun _ _ database s => do
    match args with
    | [] => return Report.repositories s.listRepositories
    | "list" :: _ => return Report.repositories s.listRepositories
    | ["remove"] => throw ⟨Report.reposUsage, []⟩
    | "remove" :: name :: _ =>
      let (found, s) := s.deleteRepository name
      save database s
      return [if found then "Removed " ++ name else "No repository named " ++ name]
    | other :: _ => throw ⟨"Unknown repos subcommand: " ++ other, []⟩

def projects (c : Context) (path : String) (args : List String) : Action (List String) := do
  let (root, config) ← prepare c path
  let database := config.databasePath root
  let s ← openStore database
  match args with
  | [] => return Report.projects s.listProjects
  | "list" :: _ => return Report.projects s.listProjects
  | "create" :: name :: words =>
    let description := if words.isEmpty then none else some (" ".intercalate words)
    let (project, s) ← lift (s.createProject name description c.now)
    save database s
    return ["Created project " ++ project.name]
  | "add" :: project :: repo :: _ =>
    let s ← lift (s.addToProject project repo)
    save database s
    return ["Added " ++ repo ++ " to " ++ project]
  | "remove" :: project :: repo :: _ =>
    let (found, s) ← lift (s.removeFromProject project repo)
    save database s
    return [if found then "Removed " ++ repo ++ " from " ++ project
      else repo ++ " is not in " ++ project]
  | "delete" :: name :: _ =>
    let (found, s) := s.deleteProject name
    save database s
    return [if found then "Deleted project " ++ name else "No project named " ++ name]
  | _ => throw ⟨Report.projectsUsage, []⟩

/-- What a command prints on its two channels. -/
structure Printed where
  out : List String := []
  err : List String := []

def printed (a : Action (List String)) : Action Printed := do return { out := ← a }

def defaultLimit : Nat := 20

def number (bound : Nat) (flag : String) (args : List String) (default : Nat) : Action Nat :=
  match numberFlag bound flag args with
  | .ok n => return n.getD default
  | .error f => throw f

/-- Runs the command that the arguments name. -/
def dispatch (c : Context) (args : List String) : Action Printed := do
  let root := (flagValue? "--root" args).getD "."
  let repository := flagValue? "--repo" args
  let rest := positional args.tail
  match args.head? with
  | none => return { out := Report.usage }
  | some "index" => printed (index c (rest.head?.getD ".") (flagValue? "--name" args))
  | some "status" => printed (status c (rest.head?.getD root))
  | some "search" =>
    if rest.isEmpty then return { err := [Report.searchUsage] }
    let limit ← number 0x10000000000000000 "--limit" args defaultLimit
    printed (search c root (" ".intercalate rest) repository limit)
  | some "recent" =>
    let limit ← number 0x10000000000000000 "--limit" args defaultLimit
    printed (recent c root repository limit)
  | some "deps" =>
    match rest.head? with
    | none => return { err := [Report.depsUsage] }
    | some file =>
      let depth ← number 0x100000000 "--depth" args 1
      printed (deps c root file ((flagValue? "--direction" args).getD "both") depth
        (hasFlag "--tests" args) repository)
  | some "export" => printed (exportAll c root (hasFlag "--force" args))
  | some "import" => printed (importAll c root rest.head?)
  | some "repos" => printed (repos c root rest)
  | some "projects" => printed (projects c root rest)
  | some "help" | some "--help" | some "-h" => return { out := Report.usage }
  | some "--version" | some "-V" | some "version" => return { out := [Report.version] }
  | some other => return { out := Report.usage, err := ["Unknown command: " ++ other] }

def lines (ls : List String) : String := String.join (ls.map fun l => l ++ "\n")

/-- Runs a command on a file tree. -/
def run (c : Context) (args : List String) (t : Files.Tree) : Outcome × Files.Tree :=
  match (dispatch c args).run t with
  | (.ok p, t) => (⟨0, lines p.out, lines p.err⟩, t)
  | (.error f, t) => (⟨1, "", f.text⟩, t)

end CodeIndex.Command
