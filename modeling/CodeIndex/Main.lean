import CodeIndex.Command
import CodeIndex.Sync.Image
import Std.Time.DateTime.Timestamp

/-!
The program. It reads the files that a command can reach, runs the command on them and writes back
what the command changed. All that it decides is decided by the command.
-/
namespace CodeIndex.Program

/-- What a file holds; a file may hold an index. -/
def contentOf (bytes : ByteArray) : Files.Content :=
  match Files.Content.ofBytes bytes.toList with
  | .text s =>
    match Sync.Image.ofText? 0 s with
    | some store => .database store
    | none => .text s
  | other => other

/-- The names of an absolute path. -/
def placeOf (path : String) : Files.Location := (Files.Tree.names path).filter fun n => n != ""

def pathTo (place : Files.Location) : String := "/" ++ Files.pathOf place

/-- All entries below a directory. What cannot be read is left out. -/
partial def entriesBelow (place : Files.Location) : IO (List (Files.Location × Files.Entry)) := do
  let dir := (← IO.currentDir) / pathTo place
  let listed ← try dir.readDir catch _ => pure #[]
  let found ← listed.toList.mapM fun e => do
    let here := place ++ [e.fileName]
    try
      match (← e.path.symlinkMetadata).type with
      | .dir => return (here, .directory) :: (← entriesBelow here)
      | .file => return [(here, .file (contentOf (← IO.FS.readBinFile e.path)))]
      | .symlink => return [(here, .link (← IO.FS.realPath e.path).toString)]
      | .other => return []
    catch _ => return []
  return found.flatten

/-- The directories that a command can reach: the working directory and those named by arguments. A
directory inside another one is left out. -/
def reachable (here : Files.Location) (args : List String) : IO (List Files.Location) := do
  let named ← args.filterMapM fun (a : String) => do
    let path := (← IO.currentDir) / a
    if ← path.isDir then return some (placeOf (← IO.FS.realPath path).toString) else return none
  let all := (here :: named).eraseDups
  return all.filter fun l => !all.any fun other => other != l && other.isPrefixOf l

/-- The directories above a place with the rule files in them. -/
def entriesAbove (place : Files.Location) : IO (List (Files.Location × Files.Entry)) := do
  let above := (List.range (place.length + 1)).map place.take
  let rules ← (above.dropLast).mapM fun l =>
    [".ignore", ".gitignore"].filterMapM fun name => do
      let path := (← IO.currentDir) / pathTo (l ++ [name])
      try
        return some (l ++ [name], Files.Entry.file (contentOf (← IO.FS.readBinFile path)))
      catch _ => return none
  return (above.filter fun l => !l.isEmpty).map (fun l => (l, .directory)) ++ rules.flatten

def treeFor (here : Files.Location) (args : List String) : IO Files.Tree := do
  let roots ← reachable here args
  let above ← roots.mapM entriesAbove
  let inside ← roots.mapM entriesBelow
  return ⟨"", above.flatten.eraseDups ++ inside.flatten⟩

/-- Writes one entry to the disk. -/
def writeEntry (place : Files.Location) (e : Files.Entry) : IO Unit := do
  match e with
  | .directory => IO.FS.createDirAll (pathTo place)
  | .link _ => pure ()
  | .file (.text s) => IO.FS.writeFile (pathTo place) s
  | .file (.bytes b) => IO.FS.writeBinFile (pathTo place) ⟨b.toArray⟩
  | .file (.database s) => IO.FS.writeFile (pathTo place) (Sync.Image.text s)

end CodeIndex.Program

open CodeIndex in
def main (args : List String) : IO UInt32 := do
  let started ← IO.monoNanosNow
  let here := Program.placeOf (← IO.currentDir).toString
  let earlier ← Program.treeFor here args
  let now := (← Std.Time.Timestamp.now).toSecondsSinceUnixEpoch.val
  let elapsed := (← IO.monoNanosNow) - started
  let (outcome, later) := Command.run { directory := here, now, elapsed } args earlier
  for (place, e) in earlier.changes later do
    Program.writeEntry place e
  (← IO.getStdout).putStr outcome.out
  (← IO.getStderr).putStr outcome.err
  return UInt32.ofNat outcome.code
