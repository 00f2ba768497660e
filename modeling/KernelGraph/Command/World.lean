import KernelGraph.Command.Run
import KernelGraph.Text.Lines

/-!
A made-up machine for the command: a tree of directories with files in them, what was printed, and
what stands on the standard error.

A path is walked from directory to directory, from the top of the tree or from the working directory.
There are no links, and whoever runs the command may read and write every file. The directory of the
devices has some that keep nothing, and those of the standard output and the standard error.
-/

namespace KernelGraph

/-- Files that hold no text. -/
inductive Device where
  | null
  | full
  | output
  | errors
deriving DecidableEq

def Device.ofName? : String → Option Device
  | "null" => some .null
  | "full" => some .full
  | "stdout" => some .output
  | "stderr" => some .errors
  | _ => none

/-- The names that lead to a directory from the top of the tree, last first. -/
abbrev Directory := List String

/-- The directory of a file and its name there. -/
abbrev Location := Directory × String

/-- What a path leads to. -/
inductive Place where
  | directory (d : Directory)
  | file (location : Location) (text : String)
  | device (d : Device)
deriving DecidableEq

/-- Why a path is of no use. -/
inductive PathError where
  | missing
  | notDirectory
  | isDirectory
  | noSpace
  | nameTooLong
deriving DecidableEq

def PathError.reason : PathError → String
  | missing => "No such file or directory (os error 2)"
  | notDirectory => "Not a directory (os error 20)"
  | isDirectory => "Is a directory (os error 21)"
  | noSpace => "No space left on device (os error 28)"
  | nameTooLong => "File name too long (os error 36)"

structure World where
  directories : List Directory
  working : Directory
  texts : List (Location × String)
  printed : String
  errors : List Notice
deriving DecidableEq

namespace World

/-- The directories at the top of the tree. -/
def systemNames : List String :=
  ["bin", "boot", "dev", "etc", "home", "lib", "media", "mnt", "opt", "proc", "root", "run", "sbin",
    "srv", "sys", "tmp", "usr", "var"]

/-- A machine with one file, which is in the working directory. -/
def ofFile (name text : String) : World :=
  let working : Directory := ["work", "home"]
  ⟨[] :: working :: systemNames.map ([·]), working, [((working, name), text)], "", []⟩

/-- The files of the working directory. -/
def files (w : World) : List (String × String) :=
  w.texts.filterMap fun ((d, name), text) => if d = w.working then some (name, text) else none

/-- What there is under a name, whatever the files are. -/
def fixed? (w : World) (d : Directory) (name : String) : Option Place :=
  if w.directories.contains (name :: d) then some (.directory (name :: d))
  else if d = ["dev"] then (Device.ofName? name).map .device
  else none

/-- What a directory holds under a name. -/
def find? (w : World) (d : Directory) (name : String) : Option Place :=
  match w.fixed? d name with
  | some place => some place
  | none => (w.texts.lookup (d, name)).map (.file (d, name))

/-- The bytes that a name may have. -/
def maxName : Nat := 255

/-- The bytes that a path may have. -/
def maxPath : Nat := 4095

/-- Where one part of a path leads to from a directory. Above the top of the tree is the top. -/
def step (w : World) (d : Directory) (part : String) : Except PathError Place :=
  if part = "." then .ok (.directory d)
  else if part = ".." then .ok (.directory d.tail)
  else if maxName < part.utf8ByteSize then .error .nameTooLong
  else
    match w.find? d part with
    | some place => .ok place
    | none => .error .missing

/-- Where the parts of a path lead to. -/
def walk (w : World) : Place → List String → Except PathError Place
  | place, [] => .ok place
  | .directory d, part :: parts => do walk w (← w.step d part) parts
  | .file .., _ :: _ | .device _, _ :: _ => .error .notDirectory

/-- Where a path starts. -/
def start (w : World) (path : String) : Except PathError Place :=
  if path.isEmpty then .error .missing
  else if maxPath < path.utf8ByteSize then .error .nameTooLong
  else .ok (.directory (if path.toList.head? = some '/' then [] else w.working))

/-- The parts of a path, which stand between its slashes. -/
def parts (path : String) : List String :=
  ((path.toList.splitOn '/').map String.ofList).filter (· ≠ "")

/-- A path with a slash at its end is that of a directory. -/
def namesDirectory (path : String) : Bool := path.toList.getLast? = some '/'

/-- What a path leads to. -/
def resolve (w : World) (path : String) : Except PathError Place := do
  match ← w.walk (← w.start path) (parts path) with
  | .directory d => .ok (.directory d)
  | place => if namesDirectory path then .error .notDirectory else .ok place

/-- The directory and the name under which a path would make a file. -/
def target (w : World) (path : String) : Except PathError Location := do
  let place ← w.start path
  match (parts path).getLast? with
  | none => .error .isDirectory
  | some name =>
    match ← w.walk place (parts path).dropLast with
    | .directory d =>
      if name = "." ∨ name = ".." ∨ namesDirectory path then .error .isDirectory
      else .ok (d, name)
    | _ => .error .notDirectory

/-- The file's text, or why there is none. -/
def read (path : String) : StateM World (Except String String) := fun w =>
  match w.resolve path with
  | .error e => (.error e.reason, w)
  | .ok (.directory _) => (.error PathError.isDirectory.reason, w)
  | .ok (.file _ text) => (.ok text, w)
  | .ok (.device _) => (.ok "", w)

/-- Keeps a text as a file, in place of the one that is there. -/
def store (w : World) (location : Location) (text : String) : World :=
  { w with texts := (location, text) :: w.texts.filter fun file => file.1 ≠ location }

/-- Writes a text to a device, or tells why it cannot. -/
def writeDevice (w : World) (text : String) : Device → Except PathError World
  | .null => .ok w
  | .full => .error .noSpace
  | .output => .ok { w with printed := w.printed ++ text }
  | .errors => .ok { w with errors := w.errors ++ [.text text] }

/-- The machine after a text was written to a path. -/
def written (w : World) (path text : String) : Except PathError World := do
  let (d, name) ← w.target path
  match w.step d name with
  | .ok (.directory _) => .error .isDirectory
  | .ok (.file ..) | .error .missing => .ok (w.store (d, name) text)
  | .ok (.device device) => w.writeDevice text device
  | .error e => .error e

/-- Writes a file's text, or tells why it cannot. -/
def write (path text : String) : StateM World (Option String) := fun w =>
  match w.written path text with
  | .ok w => (none, w)
  | .error e => (some e.reason, w)

/-- Faults of JSON texts are told in short. -/
def platform : Platform (StateM World) where
  wording _ e := e.message
  read := read
  write := write
  print text := modify fun w => { w with printed := w.printed ++ text }
  report e := modify fun w => { w with errors := w.errors ++ [.event e] }

/-- What stands on the standard error if events are reported at a level. -/
def errorText (w : World) (level : TraceLevel) : String := Notice.textOf level w.errors

/-- The text on the standard error, split at its line breaks. -/
def lines (w : World) (level : TraceLevel) : List String := Lines.ofText (w.errorText level)

end World

end KernelGraph
