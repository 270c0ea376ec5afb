import BucketOverflow.Command.Run
import Std.Time.DateTime.Timestamp

/-!
The program: it loads the files that a command names, runs the command, prints what it printed, and
stores what it changed.
-/
namespace BucketOverflow.Main

/-- The path of a place on disk. -/
def diskPath (place : Place) : String := "/" ++ "/".intercalate place

/-- Takes in what is at a place on disk, and says whether it is a directory. -/
def loadPlace (fs : Files) (place : Place) : IO (Files × Bool) := do
  let path := (← IO.currentDir) / diskPath place
  if ← path.isDir then return (fs.put place .directory, true)
  else if ← path.pathExists then return (fs.put place (.file (← IO.FS.readBinFile path)), false)
  else return (fs, false)

/-- Takes in everything on the way along names, as far as there are directories. -/
def loadAlong (fs : Files) (here : Place) : List String → IO Files
  | [] => return fs
  | name :: names => do
    let next := Files.step here name
    let (fs, isDirectory) ← if next = [] then pure (fs, true) else loadPlace fs next
    if isDirectory then loadAlong fs next names else return fs

/-- The working directory and what the paths of a command lead to. -/
def load (paths : List String) : IO Files := do
  let working := Files.pathNames (← IO.currentDir).toString
  let fs ← loadAlong { Files.empty with working } [] working
  paths.foldlM (fun fs path => loadAlong fs (fs.start path) (Files.pathNames path)) fs

/-- Whether a node has to be stored: it is new, or its content is. -/
def isChanged (before : Files) (place : Place) : Node → Bool
  | .directory => (before.node? place).isNone
  | .file content =>
    match before.node? place with
    | some (.file old) => old != content
    | _ => true

/-- Stores what a command has changed, directories before what is in them. -/
def store (before after : Files) : IO Unit := do
  let changed := after.nodes.filter fun n => isChanged before n.1 n.2
  for (place, node) in changed.mergeSort fun m n => m.1.length ≤ n.1.length do
    match node with
    | .directory => IO.FS.createDirAll (diskPath place)
    | .file content => IO.FS.writeBinFile (diskPath place) content

def usage : String :=
  "usage: sweep | compare | snapshot | diff-snapshot | validate-log, with long options"

/-- The time of day. -/
def now : IO Timestamp := do
  let t := (← Std.Time.Timestamp.now).val
  return .ofClock t.second.val t.nano.val.toNat

/-- Runs a command on the files of the disk, with one reading of the clock for all. A first run,
whose result is dropped, measures the time that the second one records. -/
def runCommand (c : Command) : IO UInt32 := do
  let files ← load c.paths
  let now ← now
  let process ← IO.rand 1 4194304
  let start ← IO.monoMsNow
  let trial ← IO.lazyPure fun _ => c.run ⟨now, process, 0⟩ files
  let elapsedMs := (← IO.monoMsNow) - start
  let result := if c.keepsLog then c.run ⟨now, process, elapsedMs⟩ files else trial
  store files result.files
  (← IO.getStderr).putStr result.stderr
  (← IO.getStdout).putStr result.stdout
  return .ofNat result.exitCode

end BucketOverflow.Main

open BucketOverflow in
/-- Ends with two when the arguments make up no command. -/
def main (args : List String) : IO UInt32 := do
  match Command.ofArguments args with
  | some c => Main.runCommand c
  | none =>
    (← IO.getStderr).putStrLn Main.usage
    return 2
