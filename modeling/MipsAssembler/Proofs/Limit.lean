import MipsAssembler.Proofs.Labels
import MipsAssembler.Proofs.Overflow
import MipsAssembler.Proofs.TableHistory
import MipsAssembler.Proofs.Translation
/-!
# The integers of a run can be written

Operations that are called by themselves fail at integers of more than `maxDecimalDigits` digits. The integers of a run
are the numbers of its lines and four times as much, which no source is long enough for (`Short`). So an instruction of
a run is encoded as it is by operations that look at the length of what they write (`assemble_within_limit`), and the
scan fills its table as calls from outside do (`scan_within_limit`).
-/

namespace MipsAssembler

theorem Operand.resolveChecked_eq {t : SymbolTable} (h : ∀ token, ¬ Unwritable t token) (line : Option Int)
    (tokens : List String) : resolveChecked t line tokens = resolve t line tokens := by
  induction tokens with
  | nil => rfl
  | cons token rest ih =>
    rw [resolve_cons_eq, ← ih, ← resolveOne_writable (h token)]
    rfl

theorem Instruction.packChecked_eq {m : Mnemonic} {address : Int} {operands : List (Option String)}
    {line : Option Int} {fs : List Field} (h : fieldsOf m address operands line = .ok fs)
    (hnear : address.natAbs < 10 ^ maxDecimalDigits) : Field.packChecked line fs = Field.pack line fs := by
  cases hpack : Field.pack line fs with
  | ok w => exact Field.packChecked_ok.2 hpack
  | error e =>
    obtain ⟨p, token, v, hliteral, -, rfl⟩ := pack_failed h hpack
    rw [Field.packChecked_error hpack]
    exact congrArg Except.error ((Field.overflow_checked line _ _ _ _).1 (literal_short hliteral fun _ => hnear))

/-- The word of an instruction, with every integer checked before it is written. -/
def Instruction.assembleChecked (symbols : SymbolTable) (address : Int) (line : Option Int) (mnemonic : String)
    (arguments : List String) : Except Fault Nat :=
  match Operand.resolveChecked symbols line arguments with
  | .error e => .error e
  | .ok operands =>
    match Instruction.fields (some mnemonic) address (operands.map some) line with
    | .error e => .error e
    | .ok fs => Field.packChecked line fs

namespace Reference

open SymbolTable

variable {ls : List SourceLine} {name : String}

/-- The addresses of these lines, and of one more, can be written. -/
def Short (ls : List SourceLine) : Prop := 4 * (ls.length + 1) < 10 ^ maxDecimalDigits

theorem Short.address (h : Short ls) (k : Nat) : (address (ls.take k)).natAbs < 10 ^ maxDecimalDigits := by
  have hcount : count (ls.take k) ≤ ls.length :=
    Nat.le_trans List.countP_le_length (List.length_take_le' k ls)
  unfold Short at h
  unfold Reference.address
  omega

/-- Encoding a line of a run never comes to an integer that is too long. -/
theorem assemble_within_limit (h : Short ls) (k : Nat) (line : Option Int) (mnemonic : String)
    (arguments : List String) :
    Instruction.assembleChecked (table ls) (address (ls.take k)) line mnemonic arguments =
      Instruction.assemble (table ls) (address (ls.take k)) line mnemonic arguments := by
  have hlabels : ∀ token, ¬ Operand.Unwritable (table ls) token := by
    rintro token ⟨-, s, hs, hlong⟩
    obtain ⟨i, -, -, haddress, -⟩ := mem_symbols.1 (lookup_mem hs).1
    rw [haddress] at hlong
    exact absurd (h.address i) (Nat.not_lt.2 hlong)
  unfold Instruction.assembleChecked Instruction.assemble Instruction.word
  rw [Operand.resolveChecked_eq hlabels]
  cases Operand.resolve (table ls) line arguments with
  | error e => rfl
  | ok operands =>
    cases hfields : Instruction.fields (some mnemonic) (address (ls.take k)) (operands.map some) line with
    | error e => simp only [hfields]
    | ok fs =>
      obtain ⟨m, -, hf⟩ := Instruction.fields_ok hfields
      simp only [hfields]
      exact Instruction.packChecked_eq hf (h.address k)

/-! ## The scan -/

theorem Short.line (h : Short ls) {k : Nat} (hk : k ≤ ls.length) :
    ((k : Int) + 1).natAbs < 10 ^ maxDecimalDigits := by
  unfold Short at h
  omega

/-- A name that the scan knows was defined on a line that can be written. -/
theorem Short.definingLine (h : Short ls) {first : Int} (hfirst : (scanned ls).definingLine name = some first) :
    first.natAbs < 10 ^ maxDecimalDigits := by
  unfold SymbolTable.definingLine at hfirst
  cases hl : (scanned ls).lookup name with
  | some s =>
    obtain ⟨k, hk, -, -, hline⟩ := mem_symbols.1 (lookup_mem hl).1
    rw [hl] at hfirst
    obtain rfl : (k : Int) + 1 = first := Option.some.inj (hline.symm.trans hfirst)
    exact h.line (Nat.le_of_lt (labelAt_lt hk))
  | none =>
    rw [hl] at hfirst
    obtain ⟨l, hfind, hline⟩ := Option.bind_eq_some_iff.1 hfirst
    obtain ⟨k, name', hk, -, rfl⟩ := mem_pending.1 (List.mem_of_find?_eq_some hfind)
    obtain rfl : (k : Int) + 1 = first := Option.some.inj hline
    exact h.line (Nat.le_of_lt (labelAt_lt hk))

/-- What the next line asks of the table is done as a call from outside does it, in debug mode and without. -/
theorem scan_within_limit (h : Short ls) (debug : Bool) {c : Call}
    (hc : c = .stage name (ls.length + 1) ∨ ∃ address, c = .commit address) :
    ∃ text, c.reply debug (scanned ls) = match c.run (scanned ls) with
      | .ok t => { table := t, printed := text }
      | .error e => { table := scanned ls, fault? := some e } := by
  have hlines : ∀ l ∈ (scanned ls).staged, isReportable debug l.line = true := by
    intro l hl
    obtain ⟨k, name', hk, -, rfl⟩ := mem_pending.1 hl
    exact isReportable_iff.2 fun _ => h.line (Nat.le_of_lt (labelAt_lt hk))
  have hprint : c.Printable debug := by
    rcases hc with rfl | ⟨address, rfl⟩
    · exact fun _ => h.line (Nat.le_refl _)
    · trivial
  obtain ⟨text, hreply⟩ := reply_printable hlines hprint
  refine ⟨text, hreply.trans ?_⟩
  cases hrun : c.run (scanned ls) with
  | ok t => rfl
  | error e =>
    rcases hc with rfl | ⟨address, rfl⟩
    · cases hfirst : (scanned ls).definingLine name with
      | none =>
        rw [Call.run, stage, hfirst] at hrun
        cases hrun
      | some first =>
        rw [Call.run, stage_defined rfl hfirst] at hrun
        cases hrun
        have hwritable : (Cause.duplicateSymbol name (some (ls.length + 1)) first).isWritable = true :=
          duplicate_writable.2 ⟨h.line (Nat.le_refl _), h.definingLine hfirst⟩
        simp only [Fault.checked, hwritable, if_true]
    · cases hrun

end Reference

end MipsAssembler
