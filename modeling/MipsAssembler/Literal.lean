import MipsAssembler.Fault
/-!
Numeric literals: an optional sign and a hexadecimal (`0x`), octal (`0`) or decimal magnitude, within 32 bits.
-/

namespace MipsAssembler.Literal

def isOctalDigit (c : Char) : Bool := '0' ≤ c && c ≤ '7'

def isHexDigit (c : Char) : Bool := c.isDigit || ('a' ≤ c && c ≤ 'f') || ('A' ≤ c && c ≤ 'F')

/-- A digit that may lead a decimal number. -/
def isLeadingDigit (c : Char) : Bool := '1' ≤ c && c ≤ '9'

/-- The value of a hexadecimal digit. -/
def digitValue (c : Char) : Nat :=
  if c.isDigit then c.toNat - 48 else if 'a' ≤ c then c.toNat - 87 else c.toNat - 55

/-- The number that a digit string denotes. -/
def positional (base : Nat) (ds : List Char) : Nat := ds.foldl (fun n d => base * n + digitValue d) 0

/-- One or more characters of a class. -/
def isRun (p : Char → Bool) (s : List Char) : Bool := !s.isEmpty && s.all p

/-- A decimal number without leading zeros, zero excepted. -/
def isPlainDecimal : List Char → Bool
  | ['0'] => true
  | d :: ds => isLeadingDigit d && ds.all Char.isDigit
  | [] => false

/-- An unsigned number as it is written. -/
structure Magnitude where
  base : Nat
  digits : List Char
deriving DecidableEq

def Magnitude.value (m : Magnitude) : Nat := positional m.base m.digits

def magnitude? : List Char → Option Magnitude
  | '0' :: 'x' :: ds => if isRun isHexDigit ds then some ⟨16, ds⟩ else none
  | '0' :: 'X' :: ds => if isRun isHexDigit ds then some ⟨16, ds⟩ else none
  | '0' :: d :: ds => if isRun isOctalDigit (d :: ds) then some ⟨8, d :: ds⟩ else none
  | ds => if isPlainDecimal ds then some ⟨10, ds⟩ else none

/-- A literal as it is written: its sign and its magnitude. -/
structure Shape where
  negative : Bool
  magnitude : Magnitude
deriving DecidableEq

def shape? : List Char → Option Shape
  | '+' :: s => (magnitude? s).map (⟨false, ·⟩)
  | '-' :: s => (magnitude? s).map (⟨true, ·⟩)
  | s => (magnitude? s).map (⟨false, ·⟩)

def Shape.value (s : Shape) : Int := if s.negative then -(s.magnitude.value : Int) else s.magnitude.value

def Shape.isTooLong (s : Shape) : Bool := s.magnitude.base = 10 && maxDecimalDigits < s.magnitude.digits.length

def fitsInt32 (v : Int) : Bool := -0x80000000 ≤ v && v < 0x80000000

/-- The value of a token; a missing token is malformed. -/
def parse (token : Option String) (line : Option Int) : Except Fault Int :=
  match token.bind fun t => shape? t.toList with
  | none => .error (.refused (.malformedLiteral token) line)
  | some s =>
    if s.isTooLong then .error (.literalTooLong s.magnitude.digits.length)
    else if fitsInt32 s.value then .ok s.value
    else .error (.refused (.malformedLiteral token) line)

end MipsAssembler.Literal
