/-!
The 32 registers. A register's number is the place of its name.

A base register may also be given by its number. What may stand there is a pattern of its own, written without the
names.
-/

namespace MipsAssembler.Register

def names : List String := [
  "$zero", "$at", "$v0", "$v1", "$a0", "$a1", "$a2", "$a3",
  "$t0", "$t1", "$t2", "$t3", "$t4", "$t5", "$t6", "$t7",
  "$s0", "$s1", "$s2", "$s3", "$s4", "$s5", "$s6", "$s7",
  "$t8", "$t9", "$k0", "$k1", "$gp", "$sp", "$fp", "$ra"]

def number? (name : String) : Option Nat := names.findIdx? (· = name)

/-- The number of the register that a token names; a missing token names none. -/
def ofToken? : Option String → Option Nat
  | none => none
  | some token => number? token

/-- The number in the place of a register that is not known. -/
def unknown : Int := -1

/-- The number for a token, also if it names no register. -/
def numberOf (token : Option String) : Int :=
  match ofToken? token with
  | some n => n
  | none => unknown

/-! ## The pattern of a base register -/

/-- One place of a pattern: the characters that may stand there, and whether it may be left out. -/
structure Place where
  chars : List Char
  optional : Bool := false
deriving DecidableEq

/-- A place for one of these characters. -/
def one (chars : String) : Place := ⟨chars.toList, false⟩

/-- A place for one of these characters or none. -/
def maybe (chars : String) : Place := ⟨chars.toList, true⟩

/-- Whether the places in order, some of them left out, are filled by a text. -/
def fills : List Place → List Char → Bool
  | [], s => s.isEmpty
  | p :: rest, [] => p.optional && fills rest []
  | p :: rest, c :: cs => (p.chars.contains c && fills rest cs) || (p.optional && fills rest (c :: cs))

def decimalDigits : String := "0123456789"

/-- What may stand behind the `$` of a base register. -/
def alternatives : List (List Place) := [
  [one "12", maybe decimalDigits],
  [one "3", maybe "01"],
  [one "0456789"],
  [one "a", one "t0123"],
  [one "v", one "01"],
  [one "t", one decimalDigits],
  [one "s", one "p01234567"],
  [one "k", one "01"],
  [one "g", one "p"],
  [one "f", one "p"],
  [one "r", one "a"],
  [one "z", one "e", one "r", one "o"]]

/-- Whether a token can be a base register. -/
def isReference (token : String) : Bool :=
  match token.toList with
  | '$' :: rest => alternatives.any (fills · rest)
  | _ => false

end MipsAssembler.Register
