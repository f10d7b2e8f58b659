import MipsAssembler.Assembler
import MipsAssembler.CommandLine.Word
/-!
What a command line asks for: its options and the name of the source.

Letters of options can be joined in one word, and a value can follow in the same word or in the next. One plain word
names the source; whatever has no use is a misuse.
-/

namespace MipsAssembler.CommandLine

/-- What a run is asked to do. -/
structure Settings where
  source : String := defaultSourceName
  listing : String := defaultListingName
  output : String := defaultBinaryName
  debug : Bool := false
deriving DecidableEq

inductive Request where
  | help
  | misuse (problem : Misuse)
  | assemble (settings : Settings)

/-- The options in one word. -/
structure Cluster where
  /-- Options without a value, in order. -/
  flags : List Switch := []
  /-- The last option, with its value. -/
  assignment : Option (Switch × String) := none
  /-- The last option, which takes the next word as its value. -/
  awaiting : Option Switch := none

def Cluster.ofSwitch (s : Switch) : Cluster := if s.takesValue then { awaiting := some s } else { flags := [s] }

/-- One more option in front. -/
def Cluster.behind (k : Cluster) (s : Switch) : Cluster := { k with flags := s :: k.flags }

/-- The value that is attached to an option; `--` stands for an empty one. -/
def attachedValue (text : List Char) : String := if text = ['-', '-'] then "" else String.ofList text

/-- The options of a word of joined letters: `text` follows the letter of `s`. All of it has to be of use. -/
def unfoldLetters (s : Switch) (text : List Char) : Except Misuse Cluster :=
  if s.takesValue then .ok { assignment := some (s, attachedValue text) }
  else
    match text with
    | [] => .error (.ignoredValue s "")
    | c :: rest =>
      match Switch.ofLetter? c with
      | none => .error (.ignoredValue s (String.ofList (c :: rest)))
      | some next =>
        match rest with
        | [] => .ok ((Cluster.ofSwitch next).behind s)
        | d :: letters => (unfoldLetters next (d :: letters)).map (·.behind s)

def Cluster.ofWord (s : Switch) (isLong : Bool) (attached : Option (List Char)) : Except Misuse Cluster :=
  match attached with
  | none => .ok (.ofSwitch s)
  | some text =>
    if isLong && !s.takesValue then .error (.ignoredValue s (String.ofList text)) else unfoldLetters s text

def Settings.assign (st : Settings) (s : Switch) (value : String) : Settings :=
  match s with
  | .listing => { st with listing := value }
  | .output => { st with output := value }
  | .help | .debug => st

/-- What has been read of a command line. -/
structure Reading where
  settings : Settings := {}
  /-- Whether the source has been named. -/
  named : Bool := false
  /-- Whether the last word named the source. -/
  justNamed : Bool := false
  /-- Words that have no use. -/
  extras : List String := []

namespace Reading

def skip (r : Reading) (word : String) : Reading := { r with extras := r.extras ++ [word], justNamed := false }

/-- A plain word names the source, once. -/
def takePlain (r : Reading) (word : String) : Reading :=
  if r.named then r.skip word
  else { r with settings := { r.settings with source := word }, named := true, justNamed := true }

/-- `--` belongs to the name of the source next to it. -/
def takeSeparator (r : Reading) : Reading :=
  if r.named && !r.justNamed then r.skip "--" else { r with justNamed := false }

/-- Options take effect in order, and help ends the reading. -/
def takeFlags (r : Reading) (flags : List Switch) : Option Reading :=
  if .help ∈ flags then none
  else
    let debug := r.settings.debug || .debug ∈ flags
    some { r with settings := { r.settings with debug }, justNamed := false }

/-- The request of a command line that was read to its end. -/
def request (r : Reading) : Request :=
  if r.extras.isEmpty then .assemble r.settings else .misuse (.unrecognized r.extras)

end Reading

def readWords (r : Reading) : List (String × Word) → Request
  | [] => r.request
  | (word, .plain) :: rest => readWords (r.takePlain word) rest
  | (_, .separator) :: rest => readWords r.takeSeparator rest
  | (word, .unknown) :: rest => readWords (r.skip word) rest
  | (_, .switch s isLong attached) :: rest =>
    match Cluster.ofWord s isLong attached with
    | .error e => .misuse e
    | .ok k =>
      match k.awaiting, rest with
      | some w, (value, .plain) :: rest =>
        match r.takeFlags k.flags with
        | none => .help
        | some r => readWords { r with settings := r.settings.assign w value } rest
      | some w, _ => .misuse (.valueExpected w)
      | none, rest =>
        match r.takeFlags k.flags with
        | none => .help
        | some r =>
          match k.assignment with
          | none => readWords r rest
          | some (s, value) => readWords { r with settings := r.settings.assign s value } rest

/-- What a command line asks for. -/
def parse (args : List String) : Request :=
  match classifyAll args with
  | .error e => .misuse e
  | .ok words => readWords {} words

end MipsAssembler.CommandLine
