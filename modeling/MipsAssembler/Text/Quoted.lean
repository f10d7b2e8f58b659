import MipsAssembler.Text.Columns
import MipsAssembler.Text.Numeral
import MipsAssembler.Text.Printable
/-!
Quoted text: one line of visible characters from which the text can be read off.

Text stands between single quotes, or between double quotes when it holds a single quote and no double one. The
quote in use and the backslash are escaped, and so is every character that is not printable.
-/

namespace MipsAssembler.Text

def singleQuote : Char := '\x27'

def doubleQuote : Char := '\x22'

def backslash : Char := '\x5c'

def escapeChar (quote c : Char) : List Char :=
  if c = quote ∨ c = backslash then [backslash, c]
  else if c = '\n' then [backslash, 'n']
  else if c = '\r' then [backslash, 'r']
  else if c = '\t' then [backslash, 't']
  else if isPrintable c then [c]
  else if c.toNat < 0x100 then backslash :: 'x' :: fixedDigits lowerDigit 16 2 c.toNat
  else if c.toNat < 0x10000 then backslash :: 'u' :: fixedDigits lowerDigit 16 4 c.toNat
  else backslash :: 'U' :: fixedDigits lowerDigit 16 8 c.toNat

def quoteFor (s : List Char) : Char :=
  if singleQuote ∈ s ∧ doubleQuote ∉ s then doubleQuote else singleQuote

def quoted (s : String) : String :=
  let cs := s.toList
  let q := quoteFor cs
  String.ofList (q :: cs.flatMap (escapeChar q) ++ [q])

/-- How a missing value reads. -/
def missing : String := "None"

/-- A text as it stands, if there is one. -/
def orMissing (s : Option String) : String := s.getD missing

/-- A number in decimal, if there is one. -/
def decimalOrMissing (n : Option Int) : String := (n.map decimal).getD missing

/-- A text in quotes, if there is one. -/
def quotedOrMissing (s : Option String) : String := (s.map quoted).getD missing

/-- Quoted texts in brackets. -/
def quotedList (l : List String) : String := "[" ++ join ", " (l.map quoted) ++ "]"

end MipsAssembler.Text
