/-!
The instruction set: each mnemonic's codes and its format.
-/

namespace MipsAssembler

inductive Format where
  | r
  | i
  | j
deriving DecidableEq

def Format.letter : Format → String
  | .r => "R"
  | .i => "I"
  | .j => "J"

inductive Mnemonic where
  | add
  | sub
  | and
  | or
  | nor
  | slt
  | sll
  | jr
  | nop
  | lw
  | sw
  | beq
  | addi
  | j
deriving DecidableEq

namespace Mnemonic

def all : List Mnemonic := [add, sub, and, or, nor, slt, sll, jr, nop, lw, sw, beq, addi, j]

def name : Mnemonic → String
  | add => "add"
  | sub => "sub"
  | and => "and"
  | or => "or"
  | nor => "nor"
  | slt => "slt"
  | sll => "sll"
  | jr => "jr"
  | nop => "nop"
  | lw => "lw"
  | sw => "sw"
  | beq => "beq"
  | addi => "addi"
  | j => "j"

def ofName? (s : String) : Option Mnemonic := all.find? (·.name = s)

/-- The mnemonic that a token names; a missing token names none. -/
def ofToken? : Option String → Option Mnemonic
  | none => none
  | some token => ofName? token

def format : Mnemonic → Format
  | add | sub | and | or | nor | slt | sll | jr | nop => .r
  | lw | sw | beq | addi => .i
  | j => .j

def opcode : Mnemonic → Nat
  | add | sub | and | or | nor | slt | sll | jr | nop => 0
  | lw => 35
  | sw => 43
  | beq => 4
  | addi => 8
  | j => 2

/-- The function code that tells instructions of opcode zero apart. -/
def function? : Mnemonic → Option Nat
  | add => some 32
  | sub => some 34
  | and => some 36
  | or => some 37
  | nor => some 39
  | slt => some 42
  | sll => some 0
  | jr => some 8
  | nop => some 0
  | lw | sw | beq | addi | j => none

end Mnemonic

end MipsAssembler
