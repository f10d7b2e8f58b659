import MipsAssembler.Fault
/-!
Symbols. A label is staged where it stands and committed to the address of the next instruction, so that labels on
lines of their own all name the instruction below them. A frozen table takes no more labels.
-/

namespace MipsAssembler

structure Symbol where
  name : String
  address : Int
  /-- The line that defines the symbol. -/
  line : Option Int
deriving DecidableEq

/-- A label that waits for an address. -/
structure StagedLabel where
  name : String
  line : Option Int
deriving DecidableEq

structure SymbolTable where
  /-- Committed symbols, one for a name. -/
  symbols : List Symbol := []
  /-- Labels without an address, in the order in which they were staged. -/
  staged : List StagedLabel := []
  frozen : Bool := false
deriving DecidableEq

namespace SymbolTable

def lookup (t : SymbolTable) (name : String) : Option Symbol := t.symbols.find? (·.name = name)

def isDefined (t : SymbolTable) (name : String) : Bool := (t.lookup name).isSome

/-- The line that defines a name; missing also when it was defined without one. -/
def definingLine (t : SymbolTable) (name : String) : Option Int :=
  match t.lookup name with
  | some s => s.line
  | none => (t.staged.find? (·.name = name)).bind (·.line)

/-- A label staged again keeps its place. -/
def insertStaged (l : StagedLabel) : List StagedLabel → List StagedLabel
  | [] => [l]
  | s :: rest => if s.name = l.name then l :: rest else s :: insertStaged l rest

def stage (t : SymbolTable) (name : String) (line : Option Int) : Except Fault SymbolTable :=
  if t.frozen then .error (.defineFrozen name)
  else
    match t.definingLine name with
    | some first => .error (.refused (.duplicateSymbol name line first) line)
    | none => .ok { t with staged := insertStaged ⟨name, line⟩ t.staged }

/-- The last symbol of a name counts. -/
def insertSymbol (l : List Symbol) (s : Symbol) : List Symbol := l.filter (·.name ≠ s.name) ++ [s]

def commit (t : SymbolTable) (address : Int) : Except Fault SymbolTable :=
  if t.frozen then .error .commitFrozen
  else
    .ok { t with
      symbols := (t.staged.map fun l => ⟨l.name, address, l.line⟩).foldl insertSymbol t.symbols
      staged := [] }

/-- Labels that no instruction follows are dropped. -/
def freeze (t : SymbolTable) : SymbolTable := { t with staged := [], frozen := true }

/-- The symbols by name. -/
def sorted (t : SymbolTable) : List Symbol := t.symbols.mergeSort fun a b => a.name ≤ b.name

/-! ## What debug mode prints -/

def stageTrace (name : String) (line : Option Int) : String :=
  "!!! DEBUG SYMTABLE.STAGE: L" ++ Text.decimalOrMissing line ++ " '" ++ name ++ "' waiting for an address\n"

def commitLine (address : Int) (l : StagedLabel) : String :=
  "!!! DEBUG SYMTABLE.COMMIT: L" ++ Text.decimalOrMissing l.line ++ " '" ++ l.name ++ "' = " ++ Text.address address
    ++ "\n"

def commitTrace (t : SymbolTable) (address : Int) : String := Text.join "" (t.staged.map (commitLine address))

def freezeTrace (t : SymbolTable) : String :=
  if t.staged.isEmpty then ""
  else
    "!!! DEBUG SYMTABLE.FREEZE: Dropping labels with no instruction: "
      ++ Text.quotedList ((t.staged.map (·.name)).mergeSort (· ≤ ·)) ++ "\n"

def dump (t : SymbolTable) : String :=
  "\n--- Symbol Table Dump ---\n" ++ (if t.symbols.isEmpty then "  (No symbols defined)\n" else "")
    ++ Text.join "" (t.sorted.map fun s =>
      "  " ++ Text.padRight 10 s.name ++ " Address: " ++ Text.address s.address ++ "  (L"
        ++ Text.decimalOrMissing s.line ++ ")\n")

/-! ## Calls from outside

Lines may be integers of any size here. A line that cannot be written makes a call fail where its message is put
together. What debug mode prints comes after the table has changed. -/

/-- What a call leaves behind. -/
structure Reply where
  table : SymbolTable
  printed : String := ""
  fault? : Option Fault := none
deriving DecidableEq

/-- Whether debug mode can print a line. Nothing is printed in another mode. -/
def isReportable (debug : Bool) (line : Option Int) : Bool := !debug || line.all Text.isWritable

def report (debug : Bool) (text : String) : String := if debug then text else ""

def stageChecked (t : SymbolTable) (debug : Bool) (name : String) (line : Option Int) : Reply :=
  match t.stage name line with
  | .error e => { table := t, fault? := some e.checked }
  | .ok t' =>
    if isReportable debug line then { table := t', printed := report debug (stageTrace name line) }
    else { table := t', fault? := some .integerTooLong }

/-- Commits labels one by one, with `printed` on the console before. -/
def commitEach (t : SymbolTable) (debug : Bool) (address : Int) (printed : String) : List StagedLabel → Reply
  | [] => { table := { t with staged := [] }, printed }
  | l :: rest =>
    let t := { t with symbols := insertSymbol t.symbols ⟨l.name, address, l.line⟩ }
    if isReportable debug l.line then
      t.commitEach debug address (printed ++ report debug (commitLine address l)) rest
    else { table := t, printed, fault? := some .integerTooLong }

def commitChecked (t : SymbolTable) (debug : Bool) (address : Int) : Reply :=
  if t.frozen then { table := t, fault? := some .commitFrozen } else t.commitEach debug address "" t.staged

end SymbolTable

end MipsAssembler
