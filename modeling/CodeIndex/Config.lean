import CodeIndex.Graph.Cycle

/-!
The settings of an index.
-/
namespace CodeIndex

structure IndexConfig where
  /-- The extensions to index; none means all that are supported. -/
  extensions : List String := []
  excludeDirs : List String :=
    ["node_modules", "dist", "build", "coverage", ".git", ".next", ".codeatlas", "vendor"]
  respectGitignore : Bool := true
  maxFileSize : Nat := 1048576
  cycleDepth : Nat := Graph.defaultCycleDepth
  parallelWorkers : Option Nat := none
  deriving DecidableEq, Repr

structure DatabaseConfig where
  path : Option String := none
  readPoolSize : Option Nat := none
  deriving DecidableEq, Repr

structure SyncConfig where
  exportDir : Option String := none
  deriving DecidableEq, Repr

structure Config where
  index : IndexConfig := {}
  database : DatabaseConfig := {}
  sync : SyncConfig := {}
  deriving DecidableEq, Repr

namespace Config

def fileName : String := "codeatlas.toml"

def dataDirectory : String := ".codeatlas"

/-- A path below a root; an absolute path stays as it is. -/
def below (root path : String) : String :=
  if path.startsWith "/" then path
  else if root.isEmpty then path
  else if root.endsWith "/" then root ++ path
  else root ++ "/" ++ path

def databasePath (c : Config) (root : String) : String :=
  below root (c.database.path.getD (dataDirectory ++ "/index.db"))

def exportDirectory (c : Config) (root : String) : String :=
  below root (c.sync.exportDir.getD (dataDirectory ++ "/sync"))

end Config

/-- The largest number of readers that a store may have. -/
def maxReaders : Nat := 16

/-- A number of readers, brought into the allowed range. -/
def clampReaders (n : Nat) : Nat := min (max n 1) maxReaders

end CodeIndex
