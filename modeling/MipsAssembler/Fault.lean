import MipsAssembler.Diagnostic
import MipsAssembler.Stage
/-!
Why an operation stops: the source is refused, or the operation was used out of turn.

Integers of any size come up where an operation is called by itself, and one with too many digits can be neither read
nor written. The integers of a run are the numbers of its lines and its addresses, and these stay far below that limit
(`Reference.assemble_within_limit`), so a run writes them with `Text.decimal`.
-/

namespace MipsAssembler

inductive Fault where
  | refused (cause : Cause) (line : Option Int)
  /-- A decimal literal has too many digits to be read. -/
  | literalTooLong (digits : Nat)
  /-- An integer has too many digits to be written. -/
  | integerTooLong
  /-- An operand is read behind the last one. -/
  | operandOutOfRange
  /-- A field without a value is packed. -/
  | valueMissing
  | invalidPass (number : Option Int)
  | passOutOfOrder (stage : Stage)
  | defineFrozen (name : String)
  | commitFrozen
  | bufferClosed
  | fileClosed
  /-- A line is written where no output is attached. -/
  | noOutput
  | nulInName
deriving DecidableEq

namespace Fault

def message : Fault → String
  | .refused cause line => (cause.diagnostic line).text
  | .literalTooLong digits =>
    "Exceeds the limit (" ++ Text.decimalNat maxDecimalDigits ++ " digits) for integer string conversion: value has "
      ++ Text.decimalNat digits ++ " digits; use sys.set_int_max_str_digits() to increase the limit"
  | .integerTooLong =>
    "Exceeds the limit (" ++ Text.decimalNat maxDecimalDigits ++ " digits) for integer string conversion; "
      ++ "use sys.set_int_max_str_digits() to increase the limit"
  | .operandOutOfRange => "list index out of range"
  | .valueMissing => "'<=' not supported between instances of 'int' and 'NoneType'"
  | .invalidPass number => "Invalid pass number " ++ Text.decimalOrMissing number
  | .passOutOfOrder stage => "Pass 2 cannot start from state " ++ stage.description
  | .defineFrozen name => "Symbol table is frozen, cannot define '" ++ name ++ "'"
  | .commitFrozen => "Symbol table is frozen, cannot commit labels"
  | .bufferClosed => "I/O operation on closed file"
  | .fileClosed => "I/O operation on closed file."
  | .noOutput => "'NoneType' object has no attribute 'write_listing_line'"
  | .nulInName => "embedded null byte"

/-- What comes of a fault when its message is put together: a refusal whose integers cannot be written fails itself. -/
def checked : Fault → Fault
  | .refused cause line => if cause.isWritable then .refused cause line else .integerTooLong
  | fault => fault

end Fault

/-- The decimal text of an integer, if it can be written. -/
def Text.writeDecimal (v : Int) : Except Fault String :=
  if isWritable v then .ok (decimal v) else .error .integerTooLong

end MipsAssembler
