import MipsAssembler.Text.Digit
import MipsAssembler.Text.Quoted
/-!
The words of a command line. A word is an option, a plain word, or `--`, behind which all words are plain.

Options have a letter and a long name. A long name may be cut short as long as it fits one option only. A word that
starts with a dash is plain when it is a number or holds a space.
-/

namespace MipsAssembler.CommandLine

inductive Switch where
  | help
  | listing
  | output
  | debug
deriving DecidableEq

namespace Switch

/-- All switches, in the order of the help text. -/
def all : List Switch := [help, listing, output, debug]

def letter : Switch → Char
  | help => 'h'
  | listing => 'l'
  | output => 'o'
  | debug => 'd'

def longName : Switch → String
  | help => "--help"
  | listing => "--listing"
  | output => "--output"
  | debug => "--debug"

def takesValue : Switch → Bool
  | listing | output => true
  | help | debug => false

/-- Both names. -/
def title (s : Switch) : String := String.ofList ['-', s.letter] ++ "/" ++ s.longName

def ofLetter? (c : Char) : Option Switch := all.find? (·.letter = c)

/-- The switches whose long name starts like this. -/
def matching (name : List Char) : List Switch := all.filter fun s => name.isPrefixOf s.longName.toList

end Switch

/-- Why a command line is refused. -/
inductive Misuse where
  | ambiguous (word : String) (candidates : List Switch)
  /-- A value is given to an option that takes none. -/
  | ignoredValue (s : Switch) (value : String)
  | valueExpected (s : Switch)
  | unrecognized (words : List String)
deriving DecidableEq

def Misuse.message : Misuse → String
  | .ambiguous word candidates =>
    "ambiguous option: " ++ word ++ " could match " ++ Text.join ", " (candidates.map Switch.longName)
  | .ignoredValue s value => "argument " ++ s.title ++ ": ignored explicit argument " ++ Text.quoted value
  | .valueExpected s => "argument " ++ s.title ++ ": expected one argument"
  | .unrecognized words => "unrecognized arguments: " ++ Text.join " " words

/-! ## Words -/

inductive Word where
  | plain
  | separator
  /-- An option with what follows it in the same word: a value, or more letters. -/
  | switch (s : Switch) (isLong : Bool) (attached : Option (List Char))
  /-- Looks like an option and is none. -/
  | unknown

/-- A name and, behind the first equals sign, a value. -/
def splitEquals (s : List Char) : List Char × Option (List Char) :=
  match s.dropWhile (· ≠ '=') with
  | [] => (s, none)
  | _ :: value => (s.takeWhile (· ≠ '='), some value)

def isDigits (s : List Char) : Bool := !s.isEmpty && s.all Text.isDecimalDigit

/-- A number behind a minus sign, with or without a point; a newline may end it. -/
def isNumber (s : List Char) : Bool :=
  let s := if s.getLast? = some '\n' then s.dropLast else s
  match s.dropWhile Text.isDecimalDigit with
  | [] => isDigits s
  | c :: rest => c = '.' && isDigits rest

/-- A word that starts with a dash and names no option. -/
def classifyOther (afterDash : List Char) : Word :=
  if isNumber afterDash || ' ' ∈ afterDash then .plain else .unknown

/-- The long options that a word may mean. The full name of one option is never ambiguous. -/
def longCandidates (name : List Char) : List Switch :=
  match Switch.all.find? fun s => s.longName.toList = name with
  | some s => [s]
  | none => Switch.matching name

/-- What a word is, before any `--`. An ambiguous long name is refused. An equals sign right behind the name of an
option is not part of what is attached. -/
def classify (word : String) : Except Misuse Word :=
  match word.toList with
  | '-' :: '-' :: rest =>
    let (name, value) := splitEquals ('-' :: '-' :: rest)
    match longCandidates name with
    | [] => .ok (classifyOther ('-' :: rest))
    | [s] => .ok (.switch s true value)
    | candidates => .error (.ambiguous word candidates)
  | '-' :: c :: rest =>
    match Switch.ofLetter? c with
    | none => .ok (classifyOther (c :: rest))
    | some s =>
      .ok (.switch s false (match rest with
        | [] => none
        | '=' :: value => some value
        | _ => some rest))
  | _ => .ok .plain

/-- The words of a command line with what they are. -/
def classifyAll : List String → Except Misuse (List (String × Word))
  | [] => .ok []
  | word :: rest =>
    if word = "--" then .ok ((word, .separator) :: rest.map (·, .plain))
    else
      match classify word with
      | .error e => .error e
      | .ok w =>
        match classifyAll rest with
        | .error e => .error e
        | .ok ws => .ok ((word, w) :: ws)

end MipsAssembler.CommandLine
