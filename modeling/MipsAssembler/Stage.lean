/-!
The two passes over a source and the stages of a run: idle, scanning for labels, encoding, done.
-/

namespace MipsAssembler

inductive Pass where
  /-- Gives every label an address. -/
  | scan
  /-- Writes the machine words. -/
  | encode
deriving DecidableEq

def Pass.number : Pass → Nat
  | .scan => 1
  | .encode => 2

def Pass.ofNumber? (n : Option Int) : Option Pass :=
  if n = some 1 then some .scan else if n = some 2 then some .encode else none

inductive Stage where
  | idle
  | scanning
  | encoding
  | done
deriving DecidableEq

/-- The number of the running pass, zero when none is. -/
def Stage.passNumber : Stage → Nat
  | .scanning => 1
  | .encoding => 2
  | .idle | .done => 0

def Stage.description : Stage → String
  | .idle => "None"
  | .scanning => "PassState.SCANNING_SYMBOLS"
  | .encoding => "PassState.ENCODING_INSTRUCTIONS"
  | .done => "PassState.DONE"

end MipsAssembler
