import MipsAssembler.Fault
import MipsAssembler.Instruction
/-!
Where a run stands: its stage, the address of the next instruction, the line being read and the instructions counted.
-/

namespace MipsAssembler

structure Progress where
  stage : Stage := .idle
  /-- The address of the next instruction. -/
  locationCounter : Int := 0
  line : Int := 0
  instructionCount : Nat := 0
deriving DecidableEq

namespace Progress

/-- Starts a pass at the first line. Encoding needs a scan right before it. -/
def enter (p : Progress) (pass : Pass) : Except Fault Progress :=
  match pass with
  | .scan => .ok { stage := .scanning }
  | .encode => if p.stage = .scanning then .ok { stage := .encoding } else .error (.passOutOfOrder p.stage)

/-- Starts the pass with a number. -/
def enterNumbered (p : Progress) (n : Option Int) : Except Fault Progress :=
  match Pass.ofNumber? n with
  | none => .error (.invalidPass n)
  | some pass => p.enter pass

def finish (p : Progress) : Progress := { p with stage := .done }

/-- Passes over one instruction. -/
def advance (p : Progress) : Progress :=
  { p with locationCounter := p.locationCounter + instructionSize, instructionCount := p.instructionCount + 1 }

/-- What debug mode prints when the next instruction is passed over. -/
def advanceTrace (p : Progress) : String :=
  ">>> DEBUG LC: L" ++ Text.decimal p.line ++ " Instruction at " ++ Text.address p.locationCounter ++ ", next LC="
    ++ Text.address p.advance.locationCounter ++ "\n"

end Progress

end MipsAssembler
