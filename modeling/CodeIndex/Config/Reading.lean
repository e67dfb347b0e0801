import CodeIndex.Config
import CodeIndex.Files.Tree
import CodeIndex.Toml.Document

/-!
Reading the settings from a document. Every setting has a default, and settings that are not known
are passed over; a setting of the wrong type is refused. A group of settings may also be given as an
array, which holds the values of the group in their order.
-/
namespace CodeIndex.Config

open Toml (Value)

/-- The values of a group by name. -/
structure Group where
  entries : Toml.Entries

/-- A group of settings with the given names. A moment holds no setting. -/
def groupOf? (names : List String) : Value → Option Group
  | .table _ es => some ⟨es⟩
  | .closed es => some ⟨es⟩
  | .array items => some ⟨names.zip items⟩
  | .tables rows => some ⟨names.zip (rows.map (.table .header))⟩
  | .moment => some ⟨[]⟩
  | _ => none

/-- A setting of a group, or its default. -/
def Group.get {α : Type} (g : Group) (name : String) (read : Value → Option α) (default : α) :
    Option α :=
  match g.entries.lookup name with
  | some v => read v
  | none => some default

def text? : Value → Option String
  | .text s => some s
  | _ => none

def boolean? : Value → Option Bool
  | .boolean b => some b
  | _ => none

def count? : Value → Option Nat
  | .integer n => if n < 0 then none else some n.toNat
  | _ => none

def texts? : Value → Option (List String)
  | .array items => items.mapM text?
  | _ => none

def index? (v : Value) : Option IndexConfig := do
  let d : IndexConfig := {}
  let g ← groupOf? ["extensions", "exclude_dirs", "respect_gitignore", "max_file_size",
    "cycle_depth", "parallel_workers"] v
  return { extensions := ← g.get "extensions" texts? d.extensions
           excludeDirs := ← g.get "exclude_dirs" texts? d.excludeDirs
           respectGitignore := ← g.get "respect_gitignore" boolean? d.respectGitignore
           maxFileSize := ← g.get "max_file_size" count? d.maxFileSize
           cycleDepth := ← g.get "cycle_depth" count? d.cycleDepth
           parallelWorkers :=
             ← g.get "parallel_workers" (fun v => (count? v).map some) d.parallelWorkers }

def database? (v : Value) : Option DatabaseConfig := do
  let d : DatabaseConfig := {}
  let g ← groupOf? ["path", "read_pool_size"] v
  return { path := ← g.get "path" (fun v => (text? v).map some) d.path
           readPoolSize := ← g.get "read_pool_size" (fun v => (count? v).map some) d.readPoolSize }

def sync? (v : Value) : Option SyncConfig := do
  let d : SyncConfig := {}
  let g ← groupOf? ["export_dir"] v
  return { exportDir := ← g.get "export_dir" (fun v => (text? v).map some) d.exportDir }

/-- The settings of a document. -/
def ofText (s : String) : Except Error Config :=
  let found : Option Config := do
    let g : Group := ⟨← Toml.read s⟩
    return { index := ← g.get "index" index? {}
             database := ← g.get "database" database? {}
             sync := ← g.get "sync" sync? {} }
  match found with
  | some c => .ok c
  | none => .error .config

/-- The settings for a root: those of its configuration file, or the defaults without one. -/
def load (t : Files.Tree) (root : String) : Except Error Config :=
  let path := below root fileName
  if t.isFile [] path then
    match t.readText [] path with
    | .ok s => ofText s
    | .error f => .error (.io f)
  else .ok {}

end CodeIndex.Config
