import MipsAssembler.Text.Quoted
import MipsAssembler.Text.Utf8
/-!
The working directory: files and folders under it, and how a file name finds its way to them.

A name is a list of steps parted by slashes. Empty steps and `.` stay where they are, `..` goes up, and a slash in
front starts at the root. What lies outside the working directory has a path that starts with `..` or with the root.
-/

namespace MipsAssembler

/-- Steps from the working directory, without detours. -/
abbrev Path := List String

namespace Path

/-- The first step of a path that starts at the root. -/
def root : String := "/"

/-- The steps of a path parted by slashes. -/
def text : Path → String
  | [] => "."
  | step :: rest => if step = root then root ++ Text.join "/" rest else Text.join "/" (step :: rest)

/-- One folder up; the root is its own parent. -/
def up (here : Path) : Path :=
  if here = [root] then here
  else if here = [] ∨ here.getLast? = some ".." then here ++ [".."]
  else here.dropLast

/-- Where a step leads. -/
def follow (here : Path) (step : String) : Path :=
  if step = root then [root]
  else if step = "." then here
  else if step = ".." then up here
  else here ++ [step]

/-- The paths that the steps of a name pass through. -/
def trail (here : Path) : List String → List Path
  | [] => []
  | step :: rest => follow here step :: trail (follow here step) rest

end Path

structure StoredFile where
  path : Path
  content : List UInt8
deriving DecidableEq

structure Directory where
  folders : List Path := []
  /-- One file for a path. -/
  files : List StoredFile := []
deriving DecidableEq

/-- Why a file cannot be opened. -/
inductive OpenError where
  | noSuchFile
  | notADirectory
  | isADirectory
  | nameTooLong
  | nulInName
deriving DecidableEq

def OpenError.message (name : String) : OpenError → String
  | .noSuchFile => "[Errno 2] No such file or directory: " ++ Text.quoted name
  | .notADirectory => "[Errno 20] Not a directory: " ++ Text.quoted name
  | .isADirectory => "[Errno 21] Is a directory: " ++ Text.quoted name
  | .nameTooLong => "[Errno 36] File name too long: " ++ Text.quoted name
  | .nulInName => "embedded null byte"

/-- What a name leads to. -/
inductive Place where
  | folder
  | file (path : Path)
  /-- Nothing yet, inside a folder that is there. -/
  | vacant (path : Path)
deriving DecidableEq

namespace Directory

/-- The parts of a text between the slashes. -/
def splitSlashes : List Char → List (List Char)
  | [] => [[]]
  | c :: rest =>
    match splitSlashes rest with
    | [] => [[c]]
    | part :: more => if c = '/' then [] :: part :: more else (c :: part) :: more

/-- The steps of a name, the empty ones left out. -/
def steps (name : String) : List String :=
  let parts := ((splitSlashes name.toList).filter (!·.isEmpty)).map String.ofList
  if name.toList.head? = some '/' then Path.root :: parts else parts

/-- Whether a step leads to a folder that need not be listed. -/
def isDetour (step : String) : Bool := step = Path.root || step = "." || step = ".."

def endsWithSlash (name : String) : Bool := name.toList.getLast? = some '/'

def find? (d : Directory) (path : Path) : Option (List UInt8) := (d.files.find? (·.path = path)).map (·.content)

/-- The bytes a step may have. -/
def maxStepBytes : Nat := 255

/-- The bytes a whole name may have. -/
def maxNameBytes : Nat := 4095

/-- Follows steps from a folder. All but the last have to lead to folders. -/
def walk (d : Directory) (here : Path) : List String → Except OpenError Place
  | [] => .ok .folder
  | step :: rest =>
    let next := Path.follow here step
    if isDetour step then d.walk next rest
    else if maxStepBytes < (Utf8.bytes step).length then .error .nameTooLong
    else if next ∈ d.folders then d.walk next rest
    else
      match d.find? next, rest with
      | some _, [] => .ok (.file next)
      | some _, _ :: _ => .error .notADirectory
      | none, [] => .ok (.vacant next)
      | none, _ :: _ => .error .noSuchFile

/-- What is wrong with a name itself. -/
def nameError? (name : String) : Option OpenError :=
  if '\x00' ∈ name.toList then some .nulInName
  else if maxNameBytes < (Utf8.bytes name).length then some .nameTooLong
  else if name = "" then some .noSuchFile
  else none

/-- The bytes of the file that a name leads to. -/
def read (d : Directory) (name : String) : Except OpenError (List UInt8) :=
  match nameError? name with
  | some e => .error e
  | none =>
    match d.walk [] (steps name) with
    | .error e => .error e
    | .ok .folder => .error .isADirectory
    | .ok (.vacant _) => .error .noSuchFile
    | .ok (.file path) => if endsWithSlash name then .error .notADirectory else .ok ((d.find? path).getD [])

/-- Gives a path new content. -/
def put (d : Directory) (path : Path) (content : List UInt8) : Directory :=
  { d with files := d.files.filter (·.path ≠ path) ++ [⟨path, content⟩] }

/-- Opens a file for writing: it is empty afterwards, and new if it was not there. A name with a slash at its end
means a folder, whether there is one or not. -/
def create (d : Directory) (name : String) : Except OpenError (Directory × Path) :=
  match nameError? name with
  | some e => .error e
  | none =>
    if endsWithSlash name then
      match d.walk [] (steps name).dropLast with
      | .error e => .error e
      | .ok .folder => .error .isADirectory
      | .ok (.file _) => .error .notADirectory
      | .ok (.vacant _) => .error .noSuchFile
    else
      match d.walk [] (steps name) with
      | .error e => .error e
      | .ok .folder => .error .isADirectory
      | .ok (.vacant path) | .ok (.file path) => .ok (d.put path [], path)

/-- Writes from the start of a file; what lies behind the new bytes stays. -/
def overwrite (d : Directory) (path : Path) (bytes : List UInt8) : Directory :=
  d.put path (bytes ++ ((d.find? path).getD []).drop bytes.length)

/-- A folder, unless it is there. -/
def putFolder (d : Directory) (path : Path) : Directory :=
  if path ∈ d.folders then d else { d with folders := d.folders ++ [path] }

/-- The folder with a name, and all those on the way to it. -/
def addFolder (d : Directory) (name : String) : Directory := (Path.trail [] (steps name)).foldl putFolder d

/-- The path that a name stands for. -/
def pathOf (name : String) : Path := (steps name).foldl Path.follow []

/-- A file, and the folders on the way to it. -/
def addFile (d : Directory) (name : String) (content : List UInt8) : Directory :=
  ((Path.trail [] (steps name).dropLast).foldl putFolder d).put (pathOf name) content

def remove (d : Directory) (name : String) : Directory :=
  { d with files := d.files.filter (·.path ≠ pathOf name) }

/-- The files below the working directory. -/
def ownFiles (d : Directory) : List StoredFile :=
  d.files.filter fun f => f.path.head? ≠ some Path.root && f.path.head? ≠ some ".."

end Directory

end MipsAssembler
