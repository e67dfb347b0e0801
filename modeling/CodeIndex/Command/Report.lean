import CodeIndex.Decimal.Fixed
import CodeIndex.Indexing
import CodeIndex.Store.Project
import CodeIndex.Store.Search
import CodeIndex.Sync.Import

/-!
What the commands print, line by line.
-/
namespace CodeIndex.Command.Report

def usage : List String :=
  ["codeatlas: Offline code intelligence for TypeScript and JavaScript",
    "",
    "USAGE:",
    "    codeatlas <COMMAND> [OPTIONS]",
    "",
    "COMMANDS:",
    "    index [path] [--name <full_name>]   Index a codebase (default: current directory)",
    "    status [path]                       Show index statistics",
    "    search <query>                      Full-text search over file contents",
    "    recent                              List recently indexed files",
    "    deps <file>                         Show dependents and dependencies of a file",
    "    export [--force]                    Export the index as JSON lines",
    "    import [dir]                        Import JSON lines into the index",
    "    repos [list | remove <name>]        Manage indexed repositories",
    "    projects [list | create | add | remove | delete]",
    "                                        Manage projects",
    "    help                                Show this help message",
    "",
    "OPTIONS:",
    "    --root <path>        Project root holding the index (default: .)",
    "    --repo <name>        Restrict a query to one repository",
    "    --limit <n>          Maximum results for search and recent",
    "    --direction <dir>    dependents, dependencies or both (default: both)",
    "    --depth <n>          Traversal depth, 1 to 5 (default: 1)",
    "    --tests              Include test files in dependency results",
    "    --verbose            Debug logging",
    "",
    "EXAMPLES:",
    "    codeatlas index                          # Index current directory",
    "    codeatlas index ~/src/web --name acme/web",
    "    codeatlas search \"useSession\"            # Files mentioning useSession",
    "    codeatlas deps src/api/client.ts --depth 2 --direction dependents",
    "    codeatlas export && git add .codeatlas/sync",
    ""]

def version : String := "codeatlas 0.1.0"

def searchUsage : String := "Usage: codeatlas search <query> [--repo <name>] [--limit <n>]"

def depsUsage : String :=
  "Usage: codeatlas deps <file> [--direction dependents|dependencies|both] [--depth <1-5>] [--tests]"

def reposUsage : String := "Usage: codeatlas repos remove <full_name>"

def projectsUsage : String :=
  "Usage: codeatlas projects [list | create <name> [description] | add <project> <repo> | "
    ++ "remove <project> <repo> | delete <name>]"

def commas (names : List String) : String := ", ".intercalate names

/-- A line that appears only for a count above zero. -/
def counted (label : String) (n : Nat) : List String := if n > 0 then [label ++ toString n] else []

def indexed (x : IndexStats) : List String :=
  ["",
    "Indexing complete!",
    "  Files indexed:   " ++ toString x.files,
    "  Symbols:         " ++ toString x.symbols,
    "  References:      " ++ toString x.references,
    "  Dependencies:    " ++ toString x.dependencies]
    ++ counted "  Circular deps:   " x.cycles
    ++ counted "  Read errors:     " x.readErrors
    ++ counted "  Parse failures:  " x.failures.length
    ++ x.failures.map fun f => "    " ++ f.path ++ ": " ++ f.message

/-- The bytes of all stored contents. -/
def storedBytes (s : Store) : Nat := s.files.foldl (fun n f => n + f.content.utf8ByteSize) 0

def status (database : String) (s : Store) : List String :=
  let x := s.stats
  let section_ (title : String) (lines : List String) : List String :=
    if lines.isEmpty then [] else "" :: title :: lines
  ["codeatlas Index Status",
    "======================",
    "Database: " ++ database,
    "Repositories: " ++ toString x.repositories,
    "Files: " ++ toString x.files,
    "Symbols: " ++ toString x.symbols,
    "References: " ++ toString x.references,
    "Dependencies: " ++ toString x.edges,
    "Size: " ++ Decimal.fixedRatio 2 (storedBytes s) 1024 ++ " KB"]
    ++ section_ "Repositories:" (s.listRepositories.map fun r =>
      match r.lastIndexedAt with
      | some time => "  " ++ r.fullName ++ " (indexed at " ++ toString time ++ ")"
      | none => "  " ++ r.fullName ++ " (never indexed)")
    ++ section_ "Languages:" (x.languages.map fun (l, n) =>
      "  " ++ l.name ++ ": " ++ toString n ++ " files")
    ++ section_ "Symbol Types:" (x.symbolKinds.map fun (k, n) =>
      "  " ++ k.name ++ ": " ++ toString n)

/-- A text on one line: line feeds become spaces. -/
def oneLine (s : String) : String := s.map fun c => if c = '\n' then ' ' else c

def hit (h : Store.Hit) : List String :=
  ["  " ++ h.path ++ " [" ++ h.repository ++ "] score " ++ Decimal.fixed 3 h.score,
    "    " ++ oneLine h.snippet]
    ++ if h.dependencies.isEmpty then [] else ["    imports: " ++ commas h.dependencies]

def hits (query : String) (found : List Store.Hit) : List String :=
  if found.isEmpty then ["No files found matching '" ++ query ++ "'"]
  else
    ("Found " ++ toString found.length ++ " files matching '" ++ query ++ "':") :: ""
      :: found.flatMap hit

def recent (files : List Store.FileSummary) : List String :=
  if files.isEmpty then ["No files indexed."]
  else
    files.map fun f =>
      "  " ++ f.path ++ " [" ++ f.repository ++ "] " ++ f.language.name ++ " " ++ toString f.size
        ++ " bytes (indexed at " ++ toString f.indexedAt ++ ")"

def levels (ls : List Graph.Level) : List String :=
  if ls.all fun l => l.files.isEmpty then ["  (none)"]
  else ls.flatMap fun l => l.files.map fun f => "  [" ++ toString l.depth ++ "] " ++ f

def dependencies (d : Store.Dependencies) : List String :=
  match d.repository with
  | none => ["'" ++ d.filePath ++ "' is not indexed"]
  | some repository =>
    [d.filePath ++ " [" ++ repository ++ "]"]
      ++ (if d.direction.includesDependents then "" :: "Dependents:" :: levels d.dependents else [])
      ++ (if d.direction.includesDependencies then
          "" :: "Dependencies:" :: levels d.dependencies else [])
      ++ (if d.cycles.isEmpty then []
        else "" :: "Cycles:" :: d.cycles.map fun c => "  " ++ " -> ".intercalate c.nodes)
      ++ (if d.depthLimited then
          ["", "(depth limit " ++ toString d.depth ++ " reached; results truncated)"] else [])

def duration (nanoseconds : Nat) : String := toString nanoseconds ++ "ns"

def exported (dir : String) (elapsed : Nat) (x : Sync.ExportSummary) : List String :=
  ["Exported to " ++ dir,
    "  Tables written: " ++ commas x.written]
    ++ (if x.unchanged.isEmpty then [] else ["  Unchanged:      " ++ commas x.unchanged])
    ++ ["  Rows:           " ++ toString x.rows,
      "  Deletions:      " ++ toString x.deletions,
      "  Duration:       " ++ duration elapsed]

def imported (dir : String) (elapsed : Nat) (x : Sync.ImportSummary) : List String :=
  ["Imported from " ++ dir,
    "  Tables:   " ++ commas x.tables,
    "  Rows:     " ++ toString x.rows,
    "  Deleted:  " ++ toString x.deleted,
    "  Duration: " ++ duration elapsed]
    ++ counted "  Skipped records: " x.skipped.length
    ++ x.skipped.map fun e =>
      "    " ++ e.table ++ ":" ++ toString e.line ++ ": " ++ e.reason.message

def repositories (rs : List RepositoryRow) : List String :=
  rs.map fun r => "  " ++ r.fullName ++ " (" ++ r.defaultBranch ++ ")"

def projects (ps : List Store.Project) : List String :=
  if ps.isEmpty then ["No projects."]
  else
    ps.flatMap fun p =>
      (match p.description with
        | some d => p.name ++ " - " ++ d
        | none => p.name) :: p.repositories.map fun r => "  " ++ r

end CodeIndex.Command.Report
