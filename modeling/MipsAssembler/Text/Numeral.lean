/-!
Numbers as text: decimal integers, hexadecimal with a least width, and digit strings of a fixed length.
-/

namespace MipsAssembler

/-- Integers with more decimal digits than this are neither read nor written. -/
def maxDecimalDigits : Nat := 4300

namespace Text

/-- The digit of value `n`, with letters from `a` on. -/
def lowerDigit (n : Nat) : Char := if n < 10 then Char.ofNat (48 + n) else Char.ofNat (87 + n)

/-- The shortest digit string of `n`, most significant digit first. -/
def digits (base n : Nat) : List Char :=
  if n < base ∨ base < 2 then [lowerDigit n]
  else digits base (n / base) ++ [lowerDigit (n % base)]
termination_by n
decreasing_by exact Nat.div_lt_self (by omega) (by omega)

/-- The last `width` digits of `n`, leading zeros included. -/
def fixedDigits (digit : Nat → Char) (base : Nat) : Nat → Nat → List Char
  | 0, _ => []
  | width + 1, n => fixedDigits digit base width (n / base) ++ [digit (n % base)]

def decimalNat (n : Nat) : String := String.ofList (digits 10 n)

def decimal : Int → String
  | .ofNat n => decimalNat n
  | .negSucc n => "-" ++ decimalNat (n + 1)

/-- Whether an integer has few enough digits to be written. The sign does not count. -/
def isWritable (v : Int) : Bool := (digits 10 v.natAbs).length ≤ maxDecimalDigits

/-- Hexadecimal digits, zeros put in front up to `width`. -/
def hexDigits (width n : Nat) : List Char :=
  let ds := digits 16 n
  List.replicate (width - ds.length) '0' ++ ds

/-- An address: sign, `0x` and digits, together at least ten characters. -/
def address : Int → String
  | .ofNat n => "0x" ++ String.ofList (hexDigits 8 n)
  | .negSucc n => "-0x" ++ String.ofList (hexDigits 7 (n + 1))

/-- The value of an integer in a 32-bit word. -/
def wordValue (v : Int) : Nat := (v % 0x100000000).toNat

/-- A word, written like an address. -/
def word (v : Int) : String := address (wordValue v)

/-- A word in the symbol block: `0X` and its digits in upper case. -/
def upperWord (v : Int) : String := "0X" ++ String.ofList ((hexDigits 8 (wordValue v)).map Char.toUpper)

end Text

end MipsAssembler
