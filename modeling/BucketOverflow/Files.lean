import BucketOverflow.Text.Blank

/-!
A tree of files and directories: finding a path from a working directory, reading, writing, and
making directories, with the faults that each may meet. There are no links and no special files, all
paths are UTF-8, and everyone may read and write everything.
-/
namespace BucketOverflow

inductive FileFault where
  | notFound
  | alreadyExists
  | notADirectory
  | isADirectory
  | invalidUtf8
deriving DecidableEq

def FileFault.message : FileFault → String
  | .notFound => "No such file or directory (os error 2)"
  | .alreadyExists => "File exists (os error 17)"
  | .notADirectory => "Not a directory (os error 20)"
  | .isADirectory => "Is a directory (os error 21)"
  | .invalidUtf8 => "stream did not contain valid UTF-8"

inductive Node where
  | directory
  | file (content : ByteArray)

/-- Where a node lies: the names from the root down. -/
abbrev Place := List String

/-- The nodes by place, and the place that relative paths start from. The root is always there. No
node leads to another, so two places never share a content. -/
structure Files where
  working : Place
  nodes : List (Place × Node)

namespace Files

/-- Nothing but the root, which is the working directory. -/
def empty : Files := ⟨[], []⟩

def node? (fs : Files) (p : Place) : Option Node :=
  if p = [] then some .directory else fs.nodes.lookup p

def put (fs : Files) (p : Place) (n : Node) : Files :=
  { fs with nodes := (p, n) :: fs.nodes.filter fun e => e.1 ≠ p }

def isDirectory (fs : Files) (p : Place) : Bool :=
  match fs.node? p with
  | some .directory => true
  | _ => false

/-- The texts between slashes. -/
def pathPieces (path : String) : List String :=
  (Text.splitOn '/' path.toList).map String.ofList

/-- The names that a path goes through. -/
def pathNames (path : String) : List String := (pathPieces path).filter fun name => name ≠ ""

/-- Whether a path says that it names a directory. -/
def endsInSlash (path : String) : Bool := path.toList.getLast? = some '/'

/-- Where a name leads from a place: a dot stays there and a double dot goes up. -/
def step (here : Place) (name : String) : Place :=
  if name = "." then here else if name = ".." then here.dropLast else here ++ [name]

/-- Goes on through names from a place; every place that is left has to be a directory. -/
def walk (fs : Files) : Place → List String → Except FileFault Place
  | here, [] => .ok here
  | here, name :: names =>
    match fs.node? here with
    | none => .error .notFound
    | some (.file _) => .error .notADirectory
    | some .directory => walk fs (step here name) names

/-- Whether a path starts from the root. -/
def isAbsolute (path : String) : Bool := path.toList.head? = some '/'

/-- Where the names of a path start from. -/
def start (fs : Files) (path : String) : Place := if isAbsolute path then [] else fs.working

/-- The place that a path names, whether or not something is there. -/
def locate (fs : Files) (path : String) : Except FileFault Place :=
  if path = "" then .error .notFound else fs.walk (fs.start path) (pathNames path)

/-- The bytes of a file. -/
def read (fs : Files) (path : String) : Except FileFault ByteArray := do
  match fs.node? (← fs.locate path) with
  | none => .error .notFound
  | some .directory => .error .isADirectory
  | some (.file content) => if endsInSlash path then .error .notADirectory else return content

/-- The text of a file. -/
def readText (fs : Files) (path : String) : Except FileFault String := do
  match String.fromUTF8? (← fs.read path) with
  | some s => return s
  | none => .error .invalidUtf8

/-- Where a file can be written; a file that is there is emptied. -/
def create (fs : Files) (path : String) : Except FileFault (Place × Files) := do
  let p ← fs.locate path
  if endsInSlash path || fs.isDirectory p then .error .isADirectory
  else return (p, fs.put p (.file .empty))

/-- Writes a whole file. -/
def write (fs : Files) (path : String) (content : ByteArray) : Except FileFault Files := do
  let (p, fs) ← fs.create path
  return fs.put p (.file content)

/-- Bytes with others laid over them from an offset on, and zeros in a gap between. -/
def overlay (old : ByteArray) (offset : Nat) (new : ByteArray) : ByteArray :=
  let old' := old ++ ⟨Array.replicate (offset - old.size) 0⟩
  old'.extract 0 offset ++ new ++ old'.extract (offset + new.size) old'.size

/-- Writes into a file from an offset on. -/
def writeAt (fs : Files) (p : Place) (offset : Nat) (new : ByteArray) : Files :=
  match fs.node? p with
  | some (.file old) => fs.put p (.file (overlay old offset new))
  | _ => fs

/-- Makes one directory. -/
def makeDirectory (fs : Files) (path : String) : Except FileFault Files := do
  let p ← fs.locate path
  match fs.node? p with
  | some _ => .error .alreadyExists
  | none => return fs.put p .directory

/-- Whether a path leads to a directory. -/
def leadsToDirectory (fs : Files) (path : String) : Bool :=
  match fs.locate path with
  | .ok p => fs.isDirectory p
  | .error _ => false

end Files

namespace Path

/-- The path without its last name; `none` when it has no name to lose. -/
def parent? (path : String) : Option String :=
  let absolute := Files.isAbsolute path
  let names := (Files.pathPieces path).zipIdx.filterMap fun (name, i) =>
    if name = "" || (name = "." && (absolute || i ≠ 0)) then none else some name
  if names = [] then none
  else some ((if absolute then "/" else "") ++ "/".intercalate names.dropLast)

/-- A reversed path less the slashes and dots behind its last name. -/
def trimTail : List Char → List Char
  | '/' :: cs => trimTail cs
  | '.' :: '/' :: cs => trimTail cs
  | cs => cs

/-- A name less its last dot and what follows; a dot in front alone is part of the name. -/
def stem (name : List Char) : List Char :=
  let behind := name.reverse.takeWhile (· ≠ '.')
  let before := name.take (name.length - behind.length - 1)
  if behind.length = name.length || before.isEmpty then name else before

/-- The path with another extension on its last name; a path that ends in no name stays. -/
def withExtension (ext path : String) : String :=
  let trimmed := (trimTail path.toList.reverse).reverse
  let name := (trimmed.reverse.takeWhile (· ≠ '/')).reverse
  if name = [] || name = ['.'] || name = ['.', '.'] then path
  else String.ofList (trimmed.take (trimmed.length - name.length) ++ stem name ++ '.' :: ext.toList)

end Path

namespace Files

/-- Makes a directory and those above it that are missing, up to `fuel` of them. -/
def makeDirectories : (fuel : Nat) → String → Files → Except FileFault Files
  | 0, _, _ => .error .notFound
  | n + 1, path, fs =>
    if path = "" then .ok fs
    else
      let make (fs : Files) (fault : FileFault → Except FileFault Files) :=
        match fs.makeDirectory path with
        | .ok fs => .ok fs
        | .error e => fault e
      let settle (fs : Files) (e : FileFault) : Except FileFault Files :=
        if fs.leadsToDirectory path then .ok fs else .error e
      make fs fun e =>
        if e = .notFound then
          match Path.parent? path with
          | none => .error .notFound
          | some above => do
            let fs ← makeDirectories n above fs
            make fs (settle fs)
        else settle fs e

/-- Makes the directories that a file at this path needs. -/
def makeParents (path : String) (fs : Files) : Except FileFault Files :=
  match Path.parent? path with
  | none => .ok fs
  | some above => makeDirectories (path.length + 1) above fs

end Files
end BucketOverflow
