/-!
Text laid out in columns: padding to a width and joining with a separator. Widths count characters.
-/

namespace MipsAssembler.Text

/-- A run of spaces. -/
def spaces (n : Nat) : String := String.ofList (List.replicate n ' ')

/-- Fills a column from the left; text wider than the column is kept whole. -/
def padRight (width : Nat) (s : String) : String := s ++ spaces (width - s.length)

/-- Fills a column from the right; text wider than the column is kept whole. -/
def padLeft (width : Nat) (s : String) : String := spaces (width - s.length) ++ s

/-- The texts in order with `sep` between them. -/
def join (sep : String) : List String → String
  | [] => ""
  | [s] => s
  | s :: t :: rest => s ++ sep ++ join sep (t :: rest)

end MipsAssembler.Text
