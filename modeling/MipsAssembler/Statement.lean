/-!
Source lines: `[label:] [mnemonic [argument {, argument}]] [# comment]`, with at most three arguments.

Each `take` function reads one part from the front of a line and returns it with what is left. A line is a statement
when nothing is left in the end.
-/

namespace MipsAssembler

/-- The parts of a source line. -/
structure Statement where
  label : Option String := none
  mnemonic : Option String := none
  operands : List String := []
  comment : Option String := none
deriving DecidableEq

/-- A source line, read. -/
structure SourceLine where
  /-- The line without its end, tabs expanded. -/
  text : String
  /-- Missing when the line does not have the shape of a statement. -/
  statement? : Option Statement
deriving DecidableEq

/-- The parts of a line; none of them are there when it is not a statement. -/
def SourceLine.statement (s : SourceLine) : Statement := s.statement?.getD {}

namespace Statement

def maxOperands : Nat := 3

def isBlank (c : Char) : Bool :=
  c = ' ' || c = '\t' || c = '\n' || c = '\x0b' || c = '\x0c' || c = '\r'

def isLabelChar (c : Char) : Bool := c.isAlphanum || c = '_' || c = '.'

def isLabelStart (c : Char) : Bool := isLabelChar c && !c.isDigit

def isArgumentChar (c : Char) : Bool := !isBlank c && c ≠ ',' && c ≠ '#'

def skipBlanks (s : List Char) : List Char := s.dropWhile isBlank

def dropEndWhile (p : Char → Bool) (s : List Char) : List Char := (s.reverse.dropWhile p).reverse

/-- A label stands in the first column and ends with a colon, blanks allowed in between. -/
def takeLabel (s : List Char) : Option (List Char) × List Char :=
  match s with
  | [] => (none, s)
  | c :: _ =>
    if isLabelStart c then
      match skipBlanks (s.dropWhile isLabelChar) with
      | ':' :: rest => (some (s.takeWhile isLabelChar), rest)
      | _ => (none, s)
    else (none, s)

/-- Whether a word may end here. -/
def atWordEnd : List Char → Bool
  | [] => true
  | c :: _ => isBlank c

/-- A mnemonic stands behind a blank and ends at a blank or at the end of the line. -/
def takeMnemonic (s : List Char) : Option (List Char) × List Char :=
  let start := skipBlanks s
  let name := start.takeWhile Char.isAlphanum
  let rest := start.dropWhile Char.isAlphanum
  if start.length < s.length && !name.isEmpty && atWordEnd rest then (some name, rest) else (none, start)

/-- At most `n` arguments, each behind a comma. A comma without an argument is left. -/
def takeMoreArguments : Nat → List Char → List (List Char) × List Char
  | 0, s => ([], s)
  | n + 1, s =>
    match skipBlanks s with
    | ',' :: afterComma =>
      let start := skipBlanks afterComma
      let argument := start.takeWhile isArgumentChar
      if argument.isEmpty then ([], s)
      else
        let (more, rest) := takeMoreArguments n (start.dropWhile isArgumentChar)
        (argument :: more, rest)
    | _ => ([], s)

def takeArguments (s : List Char) : List (List Char) × List Char :=
  let start := skipBlanks s
  let argument := start.takeWhile isArgumentChar
  if argument.isEmpty then ([], s)
  else
    let (more, rest) := takeMoreArguments (maxOperands - 1) (start.dropWhile isArgumentChar)
    (argument :: more, rest)

/-- A comment runs to the last character that is not blank and is more than its `#`. -/
def takeComment (s : List Char) : Option (List Char) × List Char :=
  match s with
  | '#' :: _ =>
    let comment := dropEndWhile isBlank s
    if 2 ≤ comment.length then (some comment, []) else (none, s)
  | _ => (none, s)

/-- Reads a line without its end and without tabs. -/
def ofChars? (s : List Char) : Option Statement :=
  let (label, s) := takeLabel s
  let (mnemonic, s) := takeMnemonic s
  let (operands, s) := if mnemonic.isSome then takeArguments s else ([], s)
  let (comment, s) := takeComment (skipBlanks s)
  if s.isEmpty then
    some {
      label := label.map String.ofList
      mnemonic := mnemonic.map String.ofList
      operands := operands.map String.ofList
      comment := comment.map String.ofList }
  else none

end Statement

namespace SourceLine

/-- Tabs are four spaces wide wherever they stand. -/
def expandTabs (s : List Char) : List Char := s.flatMap fun c => if c = '\t' then [' ', ' ', ' ', ' '] else [c]

def dropLineEnd (s : List Char) : List Char := Statement.dropEndWhile (fun c => c = '\r' || c = '\n') s

def parse (line : String) : SourceLine :=
  let s := expandTabs (dropLineEnd line.toList)
  { text := String.ofList s, statement? := Statement.ofChars? s }

end SourceLine

end MipsAssembler
