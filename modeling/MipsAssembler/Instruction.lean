import MipsAssembler.Field
import MipsAssembler.Literal
import MipsAssembler.Mnemonic
import MipsAssembler.Register
/-!
Encoding one instruction: the fields of its word, read from resolved operands.

Each mnemonic takes its operands by position, in an order of its own, from a cursor that remembers how far they were
used. A position behind the last operand and a literal that cannot be read end this at once. Registers are looked up as
they are met, but unknown ones are reported only when all fields are there, and spare operands after them. Whether a
value fits its field is found out when the fields are packed.
-/

namespace MipsAssembler

/-- Instructions are this many bytes apart. -/
def instructionSize : Int := 4

/-- Resolved operands, and the highest position that was asked for. -/
structure OperandCursor where
  operands : List (Option String)
  consumed : Nat := 0
deriving DecidableEq

/-- Operands that were not asked for are left. -/
def OperandCursor.hasUnused (c : OperandCursor) : Bool := c.consumed < c.operands.length

/-- A step that takes operands. -/
abbrev OperandReader := StateT OperandCursor (Except Fault)

namespace Instruction

/-! ## Fields -/

def constantField (name : String) (value : Option Nat) : Field := ⟨name, value.map Int.ofNat, none⟩

def registerField (name : String) (token : Option String) : Field := ⟨name, some (Register.numberOf token), token⟩

/-- A literal counted from `base`, without its last `shift` bits. -/
def literalField (name : String) (token : Option String) (line : Option Int) (shift : Nat) (base : Int) :
    Except Fault Field :=
  (Literal.parse token line).map fun v => ⟨name, some ((v - base) >>> shift), token⟩

/-! ## Operands -/

/-- The operand at a position, counted from one. -/
def take (line : Option Int) (position : Nat) : OperandReader (Option String) := fun c =>
  if c.operands.length < position then .error (.refused .tooFewOperands line)
  else
    match c.operands[position - 1]? with
    | none => .error .operandOutOfRange
    | some token => .ok (token, { c with consumed := max c.consumed position })

def takeRegister (name : String) (line : Option Int) (position : Nat) : OperandReader Field := do
  let token ← take line position
  return registerField name token

def takeLiteral (name : String) (line : Option Int) (position shift : Nat) (base : Int) : OperandReader Field := do
  let token ← take line position
  literalField name token line shift base

/-- The fields behind the opcode, the most significant one first. -/
def takeFields (m : Mnemonic) (address : Int) (line : Option Int) : OperandReader (List Field) :=
  let zero (name : String) : Field := constantField name (some 0)
  let func : Field := constantField "func" m.function?
  match m with
  | .add | .sub | .and | .or | .nor | .slt => do
    let rs ← takeRegister "rs" line 2
    let rt ← takeRegister "rt" line 3
    let rd ← takeRegister "rd" line 1
    return [rs, rt, rd, zero "sa", func]
  | .sll => do
    let rd ← take line 1
    let rt ← take line 2
    let sa ← take line 3
    let shift ← literalField "sa" sa line 0 0
    return [zero "rs", registerField "rt" rt, registerField "rd" rd, shift, func]
  | .jr => do
    let rs ← takeRegister "rs" line 1
    return [rs, zero "rt", zero "rd", zero "sa", func]
  | .nop => return [zero "rs", zero "rt", zero "rd", zero "sa", func]
  | .lw | .sw => do
    let rs ← takeRegister "rs" line 3
    let rt ← takeRegister "rt" line 1
    let immediate ← takeLiteral "immediate" line 2 0 0
    return [rs, rt, immediate]
  | .addi => do
    let rs ← takeRegister "rs" line 2
    let rt ← takeRegister "rt" line 1
    let immediate ← takeLiteral "immediate" line 3 0 0
    return [rs, rt, immediate]
  | .beq => do
    let rs ← takeRegister "rs" line 1
    let rt ← takeRegister "rt" line 2
    -- The distance in instructions, from the next one on.
    let immediate ← takeLiteral "immediate" line 3 2 (address + instructionSize)
    return [rs, rt, immediate]
  | .j => do
    let target ← takeLiteral "address" line 1 2 0
    return [target]

/-! ## Instructions -/

/-- The fields of a known instruction. -/
def fieldsOf (m : Mnemonic) (address : Int) (operands : List (Option String)) (line : Option Int) :
    Except Fault (List Field) :=
  match (takeFields m address line).run { operands } with
  | .error e => .error e
  | .ok (taken, cursor) =>
    let fields := constantField "op" (some m.opcode) :: taken
    match fields.find? fun f => f.isRegister && f.value = some Register.unknown with
    | some f => .error (.refused (.unknownRegister f.token) line)
    | none => if cursor.hasUnused then .error (.refused .tooManyOperands line) else .ok fields

/-- The fields of the instruction with this mnemonic. -/
def fields (mnemonic : Option String) (address : Int) (operands : List (Option String)) (line : Option Int) :
    Except Fault (List Field) :=
  match Mnemonic.ofToken? mnemonic with
  | none => .error (.refused (.unknownInstruction mnemonic) line)
  | some m => fieldsOf m address operands line

/-- The machine word of the instruction with this mnemonic. -/
def word (mnemonic : Option String) (address : Int) (operands : List (Option String)) (line : Option Int) :
    Except Fault Nat :=
  match fields mnemonic address operands line with
  | .error e => .error e
  | .ok fs => Field.pack line fs

/-- What debug mode prints for the fields of an instruction. -/
def trace (mnemonic : Option String) (address : Int) (line : Option Int) (fs : List Field) : String :=
  let format := (Mnemonic.ofToken? mnemonic).map (·.format.letter)
  "DEBUG L" ++ Text.decimalOrMissing line ++ " assemble_instruction: " ++ Text.orMissing format ++ "-format "
    ++ Text.orMissing mnemonic ++ " @ " ++ Text.address address ++ " -> " ++ Field.listText fs ++ "\n"

end Instruction

end MipsAssembler
