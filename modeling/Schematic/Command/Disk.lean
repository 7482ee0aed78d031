import Schematic.Command.Surroundings
import Schematic.KeyedList
import Schematic.Pieces

/-!
# A disk as a value

Files and devices, each under the names that lead to it from the root. Folders are there as far as
something is in them or they are listed. A path is a walk: it starts at the root or at the working
folder, and each of its steps can only be taken from a folder. What the last step leads to need not
be there when a file is written, and a path that ends in a slash can only lead to a folder.

A device stands for a stream. It gives the same text whenever it is read, and it remembers what was
written to it without giving it back.
-/

namespace Schematic.Command

/-! ## Walks -/

/-- The names on the way from the root to a place. -/
abbrev Way := List String

/-- A step of a walk: to the same folder, to the folder around it, or to what has a name in it. -/
inductive Step where
  | stay
  | up
  | into (name : String)
deriving Repr, DecidableEq

/-- The walk that a path describes. -/
structure Walk where
  fromRoot : Bool
  steps : List Step
  toFolder : Bool
deriving Repr, DecidableEq

/-- The most bytes that a path may take. -/
def longestPath : Nat := 4095

/-- The most bytes that a single name may take. -/
def longestName : Nat := 255

/-- The step that a name between slashes stands for. -/
def Step.ofName (name : String) : Step :=
  if name = "." then .stay else if name = ".." then .up else .into name

def namesOn (path : String) : List String :=
  ((pieces (· == '/') path.toList).filter fun name => !name.isEmpty).map String.ofList

/-- The walk that a path describes. An empty path leads nowhere. -/
def Walk.ofPath (path : String) : Except FileFault Walk :=
  if path.isEmpty then .error .absent
  else if longestPath < path.utf8ByteSize then .error .tooLong
  else .ok {
    fromRoot := path.toList.head? == some '/'
    steps := (namesOn path).map Step.ofName
    toFolder := path.toList.getLast? == some '/' }

/-! ## What is on a disk -/

/-- What stands under a name, folders apart: a file with its text, or a device with the text that it
gives and the text that it was given. -/
inductive Entry where
  | file (text : String)
  | device (text taken : String)
deriving Repr, DecidableEq

namespace Entry

def text : Entry → String
  | .file text => text
  | .device text _ => text

/-- An entry after a text is written to it. A file forgets what it held. -/
def receive (new : String) : Entry → Entry
  | .file _ => .file new
  | .device text taken => .device text (taken ++ new)

end Entry

/-- Files, devices and folders, with the working folder among them. -/
structure Disk where
  entries : KeyedList Way Entry
  folders : List Way
  working : Way
deriving Repr

namespace Disk

def hasFolder (d : Disk) (way : Way) : Bool :=
  way.isEmpty || (d.working :: d.folders).any way.isPrefixOf
    || d.entries.keys.any fun key => way.isPrefixOf key && way != key

/-- Nothing but a folder can be entered. -/
def enter (d : Disk) (way : Way) : Except FileFault Unit :=
  if d.hasFolder way then .ok ()
  else if d.entries.contains way then .error .notFolder
  else .error .absent

/-- The place that a step from `way` leads to. Whether something is there is not looked at. -/
def step (d : Disk) (way : Way) (s : Step) : Except FileFault Way := do
  d.enter way
  match s with
  | .stay => return way
  | .up => return way.dropLast
  | .into name => if longestName < name.utf8ByteSize then throw .tooLong else return way ++ [name]

def start (d : Disk) (w : Walk) : Way := if w.fromRoot then [] else d.working

def read (d : Disk) (path : String) : Except FileFault String := do
  let w ← Walk.ofPath path
  let way ← w.steps.foldlM d.step (d.start w)
  if d.hasFolder way then throw .folder
  match d.entries.get? way with
  | none => throw .absent
  | some entry => if w.toFolder then throw .notFolder else return entry.text

/-- The disk after a text is written to the place `way`. -/
def put (d : Disk) (way : Way) (text : String) : Disk :=
  let entry := ((d.entries.get? way).getD (.file "")).receive text
  { d with entries := d.entries.put way entry }

/-- The disk after a text is written to a path. -/
def write (d : Disk) (path text : String) : Except FileFault Disk := do
  let w ← Walk.ofPath path
  let folder ← w.steps.dropLast.foldlM d.step (d.start w)
  d.enter folder
  match w.steps.getLast? with
  | some (.into name) =>
    if w.toFolder then throw .folder
    let way ← d.step folder (.into name)
    if d.hasFolder way then throw .folder
    return d.put way text
  | _ => throw .folder

/-! ## A disk to start from -/

/-- The device behind which the incoming stream is. -/
def incoming : Way := ["dev", "stdin"]

/-- The device behind which the outgoing stream is. -/
def outgoing : Way := ["dev", "stdout"]

/-- The streams and the device that gives nothing. -/
def devices (text : String) : List (Way × Entry) :=
  [(["dev", "null"], .device "" ""), (incoming, .device text ""), (outgoing, .device "" ""),
   (["dev", "stderr"], .device "" "")]

/-- The folders that stand below the root of every disk. -/
def customaryFolders : List Way :=
  ["bin", "boot", "dev", "etc", "home", "lib", "media", "mnt", "opt", "proc", "root", "run", "sbin",
   "srv", "sys", "tmp", "usr", "var"].map fun name => [name]

def workplace : Way := ["tmp", "work"]

/-- A disk with the given files, each under its path from the working folder, and the given text on
the incoming stream. -/
def ofFiles (text : String) (files : List (String × String)) : Disk where
  entries := .ofList (devices text
    ++ files.map fun (path, content) => (workplace ++ namesOn path, .file content))
  folders := customaryFolders
  working := workplace

/-- The files below the working folder, each under its path from there. -/
def files (d : Disk) : List (String × String) :=
  d.entries.entries.filterMap fun
    | (way, .file text) =>
      if d.working.isPrefixOf way then
        some ("/".intercalate (way.drop d.working.length), text)
      else none
    | _ => none

/-- What was written to the device `way`. -/
def taken (d : Disk) (way : Way) : String :=
  match d.entries.get? way with
  | some (.device _ taken) => taken
  | _ => ""

def surroundings : Surroundings (StateM Disk) where
  incoming := do return (((← get).entries.get? incoming).map Entry.text).getD ""
  read path := do return (← get).read path
  write path text := do
    match (← get).write path text with
    | .ok d => set d; return .ok ()
    | .error fault => return .error fault

end Disk

end Schematic.Command
