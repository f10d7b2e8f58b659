/-!
UTF-8 as bytes: `encode` writes characters, `decode` reads them back and says why it cannot.

A fault is reported at the first byte that rules the text out. Overlong forms, surrogates and values past
U+10FFFF are ruled out by the byte after the lead byte.
-/

namespace MipsAssembler.Utf8

/-- Why bytes are not UTF-8. -/
inductive Fault where
  /-- No character starts with this byte. -/
  | invalidStart
  /-- A byte inside a character does not continue it. -/
  | invalidContinuation
  /-- The bytes end inside a character. -/
  | truncated
deriving DecidableEq

def Fault.message : Fault → String
  | .invalidStart => "invalid start byte"
  | .invalidContinuation => "invalid continuation byte"
  | .truncated => "unexpected end of data"

/-- A continuation byte carrying the low six bits of `n`. -/
def tail (n : Nat) : UInt8 := UInt8.ofNat (0x80 + n % 64)

def encodeChar (c : Char) : List UInt8 :=
  let n := c.toNat
  if n < 0x80 then [UInt8.ofNat n]
  else if n < 0x800 then [UInt8.ofNat (0xC0 + n / 64), tail n]
  else if n < 0x10000 then [UInt8.ofNat (0xE0 + n / 4096), tail (n / 64), tail n]
  else [UInt8.ofNat (0xF0 + n / 262144), tail (n / 4096), tail (n / 64), tail n]

def encode (s : List Char) : List UInt8 := s.flatMap encodeChar

/-- The bytes of a text. -/
def bytes (s : String) : List UInt8 := encode s.toList

def isTail (b : UInt8) : Bool := 0x80 ≤ b.toNat && b.toNat < 0xC0

/-- Whether `b` may follow the lead byte of a character of three bytes. -/
def isSecondOfThree (lead b : UInt8) : Bool :=
  isTail b && (lead.toNat ≠ 0xE0 || 0xA0 ≤ b.toNat) && (lead.toNat ≠ 0xED || b.toNat < 0xA0)

/-- Whether `b` may follow the lead byte of a character of four bytes. -/
def isSecondOfFour (lead b : UInt8) : Bool :=
  isTail b && (lead.toNat ≠ 0xF0 || 0x90 ≤ b.toNat) && (lead.toNat ≠ 0xF4 || b.toNat < 0x90)

def charOfTwo (a b : UInt8) : Char := Char.ofNat (a.toNat % 32 * 64 + b.toNat % 64)

def charOfThree (a b c : UInt8) : Char :=
  Char.ofNat (a.toNat % 16 * 4096 + b.toNat % 64 * 64 + c.toNat % 64)

def charOfFour (a b c d : UInt8) : Char :=
  Char.ofNat (a.toNat % 8 * 262144 + b.toNat % 64 * 4096 + c.toNat % 64 * 64 + d.toNat % 64)

def decode : List UInt8 → Except Fault (List Char)
  | [] => .ok []
  | a :: rest =>
    if a.toNat < 0x80 then (decode rest).map (Char.ofNat a.toNat :: ·)
    else if a.toNat < 0xC2 then .error .invalidStart
    else if a.toNat < 0xE0 then
      match rest with
      | [] => .error .truncated
      | b :: rest =>
        if isTail b then (decode rest).map (charOfTwo a b :: ·) else .error .invalidContinuation
    else if a.toNat < 0xF0 then
      match rest with
      | [] => .error .truncated
      | b :: rest =>
        if isSecondOfThree a b then
          match rest with
          | [] => .error .truncated
          | c :: rest =>
            if isTail c then (decode rest).map (charOfThree a b c :: ·) else .error .invalidContinuation
        else .error .invalidContinuation
    else if a.toNat < 0xF5 then
      match rest with
      | [] => .error .truncated
      | b :: rest =>
        if isSecondOfFour a b then
          match rest with
          | [] => .error .truncated
          | c :: rest =>
            if isTail c then
              match rest with
              | [] => .error .truncated
              | d :: rest =>
                if isTail d then (decode rest).map (charOfFour a b c d :: ·)
                else .error .invalidContinuation
            else .error .invalidContinuation
        else .error .invalidContinuation
    else .error .invalidStart

/-- The text that bytes stand for. -/
def text (bs : List UInt8) : Except Fault String := (decode bs).map String.ofList

/-- The lines of a byte string, each with the newline that ends it; the last may have none. -/
def lines : List UInt8 → List (List UInt8)
  | [] => []
  | b :: rest =>
    if b.toNat = 10 then [b] :: lines rest
    else
      match lines rest with
      | [] => [[b]]
      | line :: more => (b :: line) :: more

end MipsAssembler.Utf8
