import MipsAssembler.Text.Quoted
import MipsAssembler.Text.Utf8
/-!
What can be wrong with a source. A `Cause` says what happened and fixes the wording; a `Diagnostic` is the form in
which it is reported, with the line it stands on.
-/

namespace MipsAssembler

inductive Kind where
  | invalidLine
  | unknownInstruction
  | unknownRegister
  | malformedFormat
  | malformedLiteral
  | undefinedSymbol
  | duplicateSymbol
  | fieldOverflow
  | io
deriving DecidableEq

/-- The letter shown behind a message. -/
def Kind.code : Kind → String
  | .invalidLine => "S"
  | .unknownInstruction => "I"
  | .unknownRegister => "R"
  | .malformedFormat => "O"
  | .malformedLiteral => "N"
  | .undefinedSymbol => "U"
  | .duplicateSymbol => "L"
  | .fieldOverflow => "V"
  | .io => "F"

structure Diagnostic where
  kind : Kind
  message : String
  line : Option Int := none
  /-- The piece of source to blame. -/
  token : Option String := none
deriving DecidableEq

/-- The line in front of a message; nothing when it is unknown or zero. -/
def lineMark : Option Int → String
  | none => ""
  | some n => if n = 0 then "" else "L" ++ Text.decimal n ++ ": "

/-- A message with its line in front and its code behind. -/
def reportText (line : Option Int) (message code : String) : String :=
  lineMark line ++ message ++ " [" ++ code ++ "]"

def Diagnostic.text (d : Diagnostic) : String := reportText d.line d.message d.kind.code

inductive Cause where
  /-- The line does not have the shape of a statement. -/
  | invalidLine (text : String)
  | unknownInstruction (mnemonic : Option String)
  | tooFewOperands
  | tooManyOperands
  | malformedLiteral (token : Option String)
  | unknownRegister (token : Option String)
  | undefinedSymbol (name : String)
  | duplicateSymbol (name : String) (line : Option Int) (firstLine : Int)
  | fieldOverflow (field : String) (value : Int) (width : Nat) (token : Option String)
  | undecodable (line : Int) (fault : Utf8.Fault)
deriving DecidableEq

namespace Cause

def kind : Cause → Kind
  | invalidLine _ => .invalidLine
  | unknownInstruction _ => .unknownInstruction
  | tooFewOperands => .malformedFormat
  | tooManyOperands => .malformedFormat
  | malformedLiteral _ => .malformedLiteral
  | unknownRegister _ => .unknownRegister
  | undefinedSymbol _ => .undefinedSymbol
  | duplicateSymbol .. => .duplicateSymbol
  | fieldOverflow .. => .fieldOverflow
  | undecodable .. => .io

def message : Cause → String
  | invalidLine text => "Line not valid \"" ++ text ++ "\""
  | unknownInstruction mnemonic => "Unknown instruction \"" ++ Text.orMissing mnemonic ++ "\""
  | tooFewOperands => "Incorrect instruction format: Instruction has too few arguments"
  | tooManyOperands => "Incorrect instruction format: Instruction has too many arguments"
  | malformedLiteral token =>
    "Immediate field value \"" ++ Text.orMissing token ++ "\" is not a decimal, hexadecimal or octal number"
  | unknownRegister token => "Unknown register \"" ++ Text.orMissing token ++ "\""
  | undefinedSymbol name => "Symbol \"" ++ name ++ "\" is not defined"
  | duplicateSymbol name line firstLine =>
    "Symbol \"" ++ name ++ "\" on line " ++ Text.decimalOrMissing line ++ " is already defined on line "
      ++ Text.decimal firstLine
  | fieldOverflow field value width _ =>
    "Field \"" ++ field ++ "\" value " ++ Text.decimal value ++ " does not fit in " ++ Text.decimalNat width
      ++ " bits"
  | undecodable line fault => "Cannot decode line " ++ Text.decimal line ++ " as utf-8: " ++ fault.message

def token : Cause → Option String
  | unknownInstruction mnemonic => mnemonic
  | malformedLiteral token => token
  | unknownRegister token => token
  | undefinedSymbol name => some name
  | duplicateSymbol name _ _ => some name
  | fieldOverflow _ _ _ token => token
  | invalidLine _ | tooFewOperands | tooManyOperands | undecodable .. => none

/-- Whether the integers of the message can be written. -/
def isWritable : Cause → Bool
  | duplicateSymbol _ line firstLine => line.all Text.isWritable && Text.isWritable firstLine
  | fieldOverflow _ value _ _ => Text.isWritable value
  | undecodable line _ => Text.isWritable line
  | invalidLine _ | unknownInstruction _ | tooFewOperands | tooManyOperands | malformedLiteral _ | unknownRegister _
  | undefinedSymbol _ => true

def diagnostic (c : Cause) (line : Option Int) : Diagnostic :=
  { kind := c.kind, message := c.message, line, token := c.token }

end Cause

end MipsAssembler
