import MipsAssembler.Fault
/-!
Bit fields and the words they are packed into.

A word is a list of fields, the most significant one first. A field's name decides its width and whether its value
is signed; signed values are stored in two's complement.
-/

namespace MipsAssembler

structure Field where
  name : String
  value : Option Int
  /-- The piece of source the value was read from. -/
  token : Option String := none
deriving DecidableEq

namespace Field

/-- The number of values that so many bits can take. -/
def capacity (width : Nat) : Nat := 1 <<< width

def width (f : Field) : Nat :=
  if f.name = "op" then 6
  else if f.name = "func" then 6
  else if f.name = "immediate" then 16
  else if f.name = "address" then 26
  else 5

def isSigned (f : Field) : Bool := f.name = "immediate"

/-- Whether the field names a register. -/
def isRegister (f : Field) : Bool := f.name = "rs" || f.name = "rt" || f.name = "rd"

def fits (f : Field) (v : Int) : Bool :=
  if f.isSigned then -capacity (f.width - 1) ≤ v && v < capacity (f.width - 1) else 0 ≤ v && v < capacity f.width

/-- The bits of the field as a number. -/
def bits (f : Field) (line : Option Int) : Except Fault Nat :=
  match f.value with
  | none => .error .valueMissing
  | some v =>
    if f.fits v then .ok (v % capacity f.width).toNat
    else .error (.refused (.fieldOverflow f.name v f.width f.token) line)

/-- The bits that a list of fields takes up. -/
def totalWidth : List Field → Nat
  | [] => 0
  | f :: rest => f.width + totalWidth rest

/-- Puts each field above the ones after it. The last field is looked at first. -/
def pack (line : Option Int) : List Field → Except Fault Nat
  | [] => .ok 0
  | f :: rest =>
    match pack line rest with
    | .error e => .error e
    | .ok low =>
      match f.bits line with
      | .error e => .error e
      | .ok high => .ok (high * capacity (totalWidth rest) + low)

/-- Packs fields whose values may have any size: the message of one that does not fit shows its value. -/
def packChecked (line : Option Int) (fs : List Field) : Except Fault Nat := (pack line fs).mapError Fault.checked

/-- Name and value. -/
def text (f : Field) : String := f.name ++ ":" ++ Text.decimalOrMissing f.value

/-- Name and value in the form that builds the field. -/
def constructorText (f : Field) : String :=
  "Field(" ++ Text.quoted f.name ++ ", " ++ Text.decimalOrMissing f.value ++ ")"

/-- The fields in order with a space between them. -/
def listText (fs : List Field) : String := Text.join " " (fs.map text)

end Field

end MipsAssembler
