import MipsAssembler.Statement
import MipsAssembler.SymbolTable
/-!
The listing: a record for each source line, in columns, and the block of symbols at the end.
-/

namespace MipsAssembler.Listing

/-- The first column of a record. -/
inductive Code where
  | blank
  | encoded (address word : Int)
  | failed (message : String)
deriving DecidableEq

/-- A message wins over an encoding, and an encoding needs both of its parts. -/
def Code.ofParts (address word : Option Int) (message : Option String) : Code :=
  match message, address, word with
  | some m, _, _ => .failed m
  | none, some a, some w => .encoded a w
  | none, _, _ => .blank

def Code.text : Code → String
  | .blank => ""
  | .encoded address word => Text.word address ++ "  " ++ Text.word word
  | .failed message => message

/-- A label with its colon; an empty label counts as none. -/
def labelText : Option String → String
  | none => ""
  | some l => if l = "" then "" else l ++ ":"

/-- The record of one source line. -/
def record (code : Code) (s : Statement) : String :=
  Text.padRight 22 code.text ++ "  " ++ Text.padLeft 10 (labelText s.label) ++ "  "
    ++ Text.padRight 3 (s.mnemonic.getD "") ++ "  " ++ Text.padRight 15 (Text.join ", " s.operands) ++ "  "
    ++ s.comment.getD "" ++ "\n"

def symbolLine (s : Symbol) : String := Text.padRight 10 s.name ++ "\t" ++ Text.upperWord s.address ++ "\n"

def symbolBlock (t : SymbolTable) : String := "\n\nSymbols:\n" ++ Text.join "" (t.sorted.map symbolLine)

end MipsAssembler.Listing
