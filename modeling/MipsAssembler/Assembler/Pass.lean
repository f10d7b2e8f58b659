import MipsAssembler.Assembler
import MipsAssembler.Operand
/-!
The two passes. The scan stages each label and commits it to the address of the next instruction; encoding resolves,
packs and writes each instruction at the address the scan gave it.

Both read the source from its first line. The first line that fails ends the pass, and what was written before stays.
A step returns the assembler also when it fails, since a failing line may have moved the location counter.
-/

namespace MipsAssembler

/-- The word of the instruction that stands at `address`, its arguments resolved by `symbols`. -/
def Instruction.assemble (symbols : SymbolTable) (address : Int) (line : Option Int) (mnemonic : String)
    (arguments : List String) : Except Fault Nat :=
  match Operand.resolve symbols line arguments with
  | .error e => .error e
  | .ok operands => Instruction.word (some mnemonic) address (operands.map some) line

/-- What debug mode prints while an instruction is assembled: as much as succeeds. -/
def Instruction.assembleTrace (symbols : SymbolTable) (address line : Int) (mnemonic : String)
    (arguments : List String) : String :=
  match Operand.resolve symbols line arguments with
  | .error _ => ""
  | .ok operands =>
    "DEBUG P2: L" ++ Text.decimal line ++ " " ++ mnemonic ++ " operands " ++ Text.quotedList arguments
      ++ " resolved to " ++ Text.quotedList operands ++ "\n"
      ++ match Instruction.fields (some mnemonic) address (operands.map some) line with
        | .error _ => ""
        | .ok fs => Instruction.trace (some mnemonic) address line fs

/-- What debug mode prints for each source line. -/
def SourceLine.trace (s : SourceLine) (pass : Pass) (line : Int) : String :=
  "DEBUG P" ++ Text.decimalNat pass.number ++ ": L" ++ Text.decimal line
    ++ " label=" ++ Text.quotedOrMissing s.statement.label
    ++ " opcode=" ++ Text.quotedOrMissing s.statement.mnemonic
    ++ " operands=" ++ Text.quotedList s.statement.operands
    ++ " comment=" ++ Text.quotedOrMissing s.statement.comment
    ++ " valid=" ++ (if s.statement?.isSome then "True" else "False") ++ "\n"

namespace Assembler

/-! ## One line -/

/-- Stages the label of a line, if it has one. -/
def define (a : Assembler) (label : Option String) (line : Int) : Except Fault Assembler :=
  match label with
  | none => .ok a
  | some name =>
    (a.symbols.stage name line).map fun t => { a with symbols := t }.note (SymbolTable.stageTrace name line)

/-- Gives the staged labels an address. -/
def commit (a : Assembler) (address : Int) : Except Fault Assembler :=
  (a.symbols.commit address).map fun t => { a with symbols := t }.note (a.symbols.commitTrace address)

/-- Scans a line; the answer is whether it holds an instruction. Lines that are no statements are left for later. -/
def scanLine (a : Assembler) (line : Int) (s : SourceLine) : Assembler × Except Fault Bool :=
  match s.statement? with
  | none => (a.note ("DEBUG P1: L" ++ Text.decimal line ++ " Invalid line skipped\n"), .ok false)
  | some st =>
    match a.define st.label line with
    | .error e => (a, .error e)
    | .ok a =>
      match st.mnemonic with
      | none => (a, .ok false)
      | some _ =>
        let address := a.progress.locationCounter
        let a := a.advance
        match a.commit address with
        | .error e => (a, .error e)
        | .ok a => (a, .ok true)

/-- Encodes a line; the answer is whether it holds an instruction. -/
def encodeLine (a : Assembler) (line : Int) (s : SourceLine) : Assembler × Except Fault Bool :=
  match s.statement? with
  | none => (a, .error (.refused (.invalidLine s.text) line))
  | some st =>
    match st.mnemonic with
    | none =>
      match a.list (Listing.record .blank st) with
      | .error e => (a, .error e)
      | .ok a => (a, .ok false)
    | some mnemonic =>
      let address := a.progress.locationCounter
      let a := a.advance.note (Instruction.assembleTrace a.symbols address line mnemonic st.operands)
      match Instruction.assemble a.symbols address line mnemonic st.operands with
      | .error e => (a, .error e)
      | .ok word =>
        match a.list (Listing.record (.encoded address word) st) with
        | .error e => (a, .error e)
        | .ok a =>
          match a.emit word with
          | .error e => (a, .error e)
          | .ok a => (a, .ok true)

def processLine (pass : Pass) (a : Assembler) (line : Int) (s : SourceLine) : Assembler × Except Fault Bool :=
  match pass with
  | .scan => a.scanLine line s
  | .encode => a.encodeLine line s

/-! ## All lines -/

/-- Why a pass ended inside the source. -/
structure LineFailure where
  line : Int
  fault : Fault
  /-- The line as it was read; missing when its bytes are no text. -/
  source? : Option SourceLine

def readLine (pass : Pass) (a : Assembler) (line : Int) (raw : List UInt8) : Assembler × Option LineFailure :=
  let a := { a with progress := { a.progress with line := line } }
  match Utf8.text raw with
  | .error f => (a, some ⟨line, .refused (.undecodable line f) line, none⟩)
  | .ok text =>
    let s := SourceLine.parse text
    match processLine pass (a.note (s.trace pass line)) line s with
    | (a, .error e) => (a, some ⟨line, e, some s⟩)
    | (a, .ok _) => (a, none)

/-- Reads lines up to the first that fails. The first line has the number `line`. -/
def readLines (pass : Pass) (a : Assembler) (line : Int) : List (List UInt8) → Assembler × Option LineFailure
  | [] => (a, none)
  | raw :: rest =>
    match readLine pass a line raw with
    | (a, some f) => (a, some f)
    | (a, none) => readLines pass a (line + 1) rest

/-! ## A whole pass -/

/-- Ends a pass at a line that failed. The message of a refused line takes its place in the listing. Any other fault
also shows on the error stream where in the program it came up; that trace is left out of `stderr`. -/
def fail (a : Assembler) (f : LineFailure) : Assembler × Except Fault Bool :=
  match f.fault with
  | .refused cause line =>
    let a := a.record (cause.diagnostic line).record
    match a.output, f.source? with
    | some _, some s =>
      match a.list (Listing.record (.failed cause.message) s.statement) with
      | .error e => (a, .error e)
      | .ok a => (a.finish, .ok false)
    | _, _ => (a.finish, .ok false)
  | fault =>
    let message := "Unexpected error processing line " ++ Text.decimal f.line ++ ": " ++ fault.message
    ((a.recordIo message f.line).finish, .ok false)

/-- Ends a pass whose source was read to its end. -/
def complete (pass : Pass) (a : Assembler) : Assembler × Except Fault Bool :=
  match pass with
  | .scan =>
    let a := a.freeze
    let a := a.note ("DEBUG P1: " ++ Text.decimalNat a.progress.instructionCount ++ " instructions, "
      ++ Text.decimalNat a.symbols.symbols.length ++ " symbols\n")
    (a, .ok !a.hasErrors)
  | .encode =>
    match a.output with
    | none => (a.finish, .ok !a.hasErrors)
    | some _ =>
      match a.list (Listing.symbolBlock a.symbols) with
      | .error e => (a, .error e)
      | .ok a => (a.finish, .ok !a.hasErrors)

/-- Reads the source in a pass that was entered. -/
def readSource (pass : Pass) (a : Assembler) : Assembler × Except Fault Bool :=
  match a.files.read a.sourceName with
  | .error .nulInName => a.fail ⟨0, .nulInName, none⟩
  | .error e => ((a.recordIo ("Error reading input file: " ++ e.message a.sourceName) none).finish, .ok false)
  | .ok bytes =>
    match readLines pass a 1 (Utf8.lines bytes) with
    | (a, some f) => a.fail f
    | (a, none) => complete pass a

/-- Runs a pass; the answer is whether no error was recorded up to its end. A scan starts with an empty table. -/
def runPass (a : Assembler) (pass : Pass) : Assembler × Except Fault Bool :=
  match a.progress.enter pass with
  | .error e => (a, .error e)
  | .ok p =>
    let symbols := match pass with
      | .scan => {}
      | .encode => a.symbols
    readSource pass { a with progress := p, symbols }

/-- Runs the pass with a number. -/
def runPassNumbered (a : Assembler) (n : Option Int) : Assembler × Except Fault Bool :=
  match Pass.ofNumber? n with
  | none => (a, .error (.invalidPass n))
  | some pass => a.runPass pass

end Assembler

end MipsAssembler
