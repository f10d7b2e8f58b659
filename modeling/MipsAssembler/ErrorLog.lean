import MipsAssembler.Diagnostic
/-!
The errors recorded during a run, and the summary printed at its end.
-/

namespace MipsAssembler

structure ErrorRecord where
  message : String
  line : Option Int := none
  code : String := "E"
deriving DecidableEq

/-- Errors in the order in which they were recorded. -/
abbrev ErrorLog := List ErrorRecord

def Diagnostic.record (d : Diagnostic) : ErrorRecord := { message := d.message, line := d.line, code := d.kind.code }

namespace ErrorLog

/-- The errors by line; those without a line come first, those of one line stay in order. -/
def byLine (log : ErrorLog) : ErrorLog := log.mergeSort fun a b => a.line.getD 0 ≤ b.line.getD 0

/-- The part of the summary that goes to the error stream. -/
def details (log : ErrorLog) : String :=
  if log.isEmpty then ""
  else "\n--- Errors ---\n" ++ Text.join "" (log.byLine.map fun e => reportText e.line e.message e.code ++ "\n")

/-- The part of the summary that goes to the output stream. -/
def total (log : ErrorLog) : String := "\nTotal Errors: " ++ Text.decimalNat log.length ++ "\n"

end ErrorLog

end MipsAssembler
