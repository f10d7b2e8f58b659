import MipsAssembler.Literal
import MipsAssembler.Register
import MipsAssembler.SymbolTable
/-!
Resolving the arguments of an instruction: `offset($base)` becomes two operands, a label its decimal address, and
registers and literals stay as they are.
-/

namespace MipsAssembler.Operand

/-- Registers start with `$` and literals with a digit or `-`; everything else refers to a label. -/
def isLabelReference (token : String) : Bool :=
  match token.toList with
  | [] => true
  | c :: _ => !(c = '$' || c = '-' || c.isDigit)

/-- The literals that may stand in front of a base register. -/
def isOffset : List Char → Bool
  | '0' :: 'x' :: ds => Literal.isRun Literal.isHexDigit ds
  | '0' :: ds => ds.all Literal.isOctalDigit
  | '-' :: d :: ds => Literal.isLeadingDigit d && ds.all Char.isDigit
  | d :: ds => Literal.isLeadingDigit d && ds.all Char.isDigit
  | [] => false

/-- The text in front of a closing parenthesis that ends it. -/
def beforeClosing? : List Char → Option (List Char)
  | [] => none
  | [c] => if c = ')' then some [] else none
  | c :: rest => (beforeClosing? rest).map (c :: ·)

/-- The two operands of `offset($base)`. -/
def splitOffset? (token : String) : Option (String × String) :=
  let s := token.toList
  let offset := s.takeWhile (· ≠ '(')
  match s.dropWhile (· ≠ '(') with
  | '(' :: rest =>
    match beforeClosing? rest with
    | some base =>
      if isOffset offset && Register.isReference (String.ofList base) then
        some (String.ofList offset, String.ofList base)
      else none
    | none => none
  | _ => none

/-- The operands of one argument. The address of a label is written by `write`. -/
def resolveOneWith (write : Int → Except Fault String) (symbols : SymbolTable) (line : Option Int) (token : String) :
    Except Fault (List String) :=
  match splitOffset? token with
  | some (offset, base) => .ok [offset, base]
  | none =>
    if isLabelReference token then
      match symbols.lookup token with
      | some s => (write s.address).map fun text => [text]
      | none => .error (.refused (.undefinedSymbol token) line)
    else .ok [token]

/-- The operands of all arguments in order; the first argument that fails is the one reported. -/
def resolveWith (write : Int → Except Fault String) (symbols : SymbolTable) (line : Option Int) :
    List String → Except Fault (List String)
  | [] => .ok []
  | token :: rest =>
    match resolveOneWith write symbols line token with
    | .error e => .error e
    | .ok first =>
      match resolveWith write symbols line rest with
      | .error e => .error e
      | .ok more => .ok (first ++ more)

def resolveOne : SymbolTable → Option Int → String → Except Fault (List String) :=
  resolveOneWith fun v => .ok (Text.decimal v)

/-- Resolves the arguments of a line in a run. -/
def resolve : SymbolTable → Option Int → List String → Except Fault (List String) :=
  resolveWith fun v => .ok (Text.decimal v)

/-- Resolves arguments by a table whose addresses may have any size. -/
def resolveChecked : SymbolTable → Option Int → List String → Except Fault (List String) :=
  resolveWith Text.writeDecimal

end MipsAssembler.Operand
