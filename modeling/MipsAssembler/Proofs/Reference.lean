import Mathlib.Data.List.Basic
import MipsAssembler.Assembler.Pass
/-!
# Assembling without passes

What a source stands for, read off its lines at once: an instruction's address is four times the number of
instructions before it, and a label is worth the address of its own line if an instruction stands there or below.
Lines are counted from zero here; the line a symbol or a message names is one more.
-/

namespace MipsAssembler

namespace SourceLine

/-- The line that bytes stand for. -/
def ofBytes (raw : List UInt8) : Except Utf8.Fault SourceLine := (Utf8.text raw).map parse

/-- Whether the line holds an instruction. A line that is no statement holds none. -/
def isInstruction (s : SourceLine) : Bool := s.statement.mnemonic.isSome

end SourceLine

namespace Reference

/-- Every line of the source is text, and these are the lines. -/
def Reads (source : List UInt8) (ls : List SourceLine) : Prop :=
  (Utf8.lines source).map SourceLine.ofBytes = ls.map .ok

instance (source : List UInt8) (ls : List SourceLine) : Decidable (Reads source ls) :=
  inferInstanceAs (Decidable (_ = _))

/-- The number of instructions. -/
def count (ls : List SourceLine) : Nat := ls.countP SourceLine.isInstruction

/-- The address of an instruction that follows these lines. -/
def address (ls : List SourceLine) : Int := 4 * count ls

/-- The label that line `k` defines. A line that is no statement defines none. -/
def labelAt? (ls : List SourceLine) (k : Nat) : Option String := ls[k]?.bind (·.statement.label)

/-- No two lines define the same label. -/
def Distinct (ls : List SourceLine) : Prop :=
  ∀ i j name, labelAt? ls i = some name → labelAt? ls j = some name → i = j

/-- Whether an instruction stands on line `k` or below. -/
def reaches (ls : List SourceLine) (k : Nat) : Bool := (ls.drop k).any SourceLine.isInstruction

/-- The labels in order, each with its line. -/
def definitions (ls : List SourceLine) : List (Nat × String) :=
  (List.range ls.length).filterMap fun k => (labelAt? ls k).map (k, ·)

/-- The symbol that a label gives. -/
def symbol (ls : List SourceLine) (d : Nat × String) : Symbol := ⟨d.2, address (ls.take d.1), some (d.1 + 1)⟩

/-- Line `k` defines the symbol: it has the label, and an instruction stands there or below. -/
def Defines (ls : List SourceLine) (k : Nat) (x : Symbol) : Prop :=
  labelAt? ls k = some x.name ∧ (∃ i s, k ≤ i ∧ ls[i]? = some s ∧ s.isInstruction = true) ∧
    x.address = address (ls.take k) ∧ x.line = some ((k : Int) + 1)

/-- The symbols in the order of their lines: the labels with an instruction on their line or below. -/
def symbols (ls : List SourceLine) : List Symbol := ((definitions ls).filter (reaches ls ·.1)).map (symbol ls)

/-- The labels that no instruction follows. -/
def pending (ls : List SourceLine) : List StagedLabel :=
  ((definitions ls).filter (!reaches ls ·.1)).map fun d => ⟨d.2, some (d.1 + 1)⟩

/-- The symbol table of a whole source. -/
def table (ls : List SourceLine) : SymbolTable := { symbols := symbols ls, frozen := true }

/-- The table of a scan that has read these lines and may read more. -/
def scanned (ls : List SourceLine) : SymbolTable := { symbols := symbols ls, staged := pending ls }

theorem freeze_scanned (ls : List SourceLine) : (scanned ls).freeze = table ls := rfl

/-- Where a pass stands behind these lines. -/
def progressAt (stage : Stage) (ls : List SourceLine) : Progress := ⟨stage, address ls, ls.length, count ls⟩

/-- What the listing shows in front of the line behind `done`: the address and the word of its instruction, or nothing
when it has none. A line that is no statement fails, and so does an instruction that cannot be encoded. -/
def code (t : SymbolTable) (done : List SourceLine) (s : SourceLine) : Except Fault Listing.Code :=
  match s.statement? with
  | none => .error (.refused (.invalidLine s.text) (some (done.length + 1)))
  | some st =>
    match st.mnemonic with
    | none => .ok .blank
    | some m =>
      match Instruction.assemble t (address done) (some (done.length + 1)) m st.operands with
      | .error e => .error e
      | .ok w => .ok (.encoded (address done) w)

/-- Every line is a statement, its instruction can be encoded, and this is what the listing shows in front of it. -/
def Coded (t : SymbolTable) (ls : List SourceLine) (codes : List Listing.Code) : Prop :=
  codes.length = ls.length ∧ ∀ k s c, ls[k]? = some s → codes[k]? = some c → code t (ls.take k) s = .ok c

/-- The records of the lines. -/
def records (ls : List SourceLine) (codes : List Listing.Code) : String :=
  Text.join "" (List.zipWith (fun s c => Listing.record c s.statement) ls codes)

/-- The words in order. -/
def words (codes : List Listing.Code) : List Int :=
  codes.filterMap fun c => match c with
    | .encoded _ w => some w
    | .blank | .failed _ => none

/-- The machine code: a line for each word. -/
def machineCode (codes : List Listing.Code) : String := Text.join "" ((words codes).map Output.wordLine)

theorem reads_unique {source : List UInt8} {ls ls' : List SourceLine} (h : Reads source ls) (h' : Reads source ls') :
    ls = ls' :=
  List.map_injective_iff.2 (fun _ _ => Except.ok.inj) (h.symm.trans h')

/-! ## One more line -/

theorem count_snoc (ls : List SourceLine) (s : SourceLine) :
    count (ls ++ [s]) = count ls + if s.isInstruction then 1 else 0 := by
  simp [count, List.countP_cons]

theorem address_snoc (ls : List SourceLine) (s : SourceLine) :
    address (ls ++ [s]) = address ls + if s.isInstruction then 4 else 0 := by
  unfold address
  rw [count_snoc]
  split <;> push_cast <;> omega

/-- One more line moves a pass on by a line, and by an instruction if it holds one. -/
theorem progressAt_snoc (stage : Stage) (ls : List SourceLine) (s : SourceLine) :
    (if s.isInstruction then Progress.advance { progressAt stage ls with line := ls.length + 1 }
      else { progressAt stage ls with line := ls.length + 1 }) = progressAt stage (ls ++ [s]) := by
  unfold progressAt Progress.advance instructionSize
  rw [address_snoc, count_snoc]
  split <;> simp

end Reference

end MipsAssembler
