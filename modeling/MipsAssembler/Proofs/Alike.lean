import Mathlib.Data.List.Forall2
import MipsAssembler.Proofs.Codes
import MipsAssembler.Proofs.Instruction
/-!
# Instructions that come to the same

The line of an instruction shows in the wording of its faults alone, and a label counts for nothing but the address of
its symbol. `assemble_alike` puts both together: two instructions with the same mnemonic at the same address, whose
arguments stand for the same in their tables, come to the same word or to faults of the same code. `code_alike` says so
of whole lines.
-/

namespace MipsAssembler

/-- The letter that a fault is recorded with. -/
def Fault.code : Fault → String
  | .refused cause _ => cause.kind.code
  | _ => Kind.io.code

/-- Two computations come to the same: to one value, or to faults with one code. -/
inductive Alike {α : Type} : Except Fault α → Except Fault α → Prop
  | ok (v : α) : Alike (.ok v) (.ok v)
  | error {e e' : Fault} : e.code = e'.code → Alike (.error e) (.error e')

namespace Alike

variable {α β : Type} {x y : Except Fault α}

theorem refl (x : Except Fault α) : Alike x x := by
  cases x with
  | error e => exact .error rfl
  | ok v => exact .ok v

theorem ok_right {v : α} (h : Alike x y) (hx : x = .ok v) : y = .ok v := by
  cases h with
  | ok v' => exact hx
  | error _ => cases hx

theorem error_right {e : Fault} (h : Alike x y) (hx : x = .error e) : ∃ e', y = .error e' ∧ e.code = e'.code := by
  cases h with
  | ok _ => cases hx
  | error he =>
    cases hx
    exact ⟨_, rfl, he⟩

theorem map (f : α → β) (h : Alike x y) : Alike (x.map f) (y.map f) := by
  cases h with
  | ok v => exact .ok (f v)
  | error he => exact .error he

/-- Computations that come to the same and go on alike come to the same. -/
theorem bind {f g : α → Except Fault β} (h : Alike x y) (hf : ∀ v, Alike (f v) (g v)) :
    Alike (x >>= f) (y >>= g) := by
  cases h with
  | ok v => exact hf v
  | error he => exact .error he

theorem mapM {f g : α → Except Fault β} (h : ∀ x, Alike (f x) (g x)) (l : List α) : Alike (l.mapM f) (l.mapM g) := by
  induction l with
  | nil => exact .ok []
  | cons x l ih =>
    rw [List.mapM_cons, List.mapM_cons]
    exact (h x).bind fun y => ih.bind fun ys => .ok (y :: ys)

end Alike

/-! ## The line of an instruction -/

section

variable (line line' : Option Int)

theorem Literal.parse_alike (token : Option String) : Alike (parse token line) (parse token line') := by
  unfold parse
  split
  · exact .error rfl
  · split
    · exact .error rfl
    · split
      · exact .ok _
      · exact .error rfl

theorem Slot.read_alike (s : Slot) (address : Int) (operands : List (Option String)) :
    Alike (s.read address operands line) (s.read address operands line') := by
  unfold Slot.read
  cases s.source with
  | constant | register => exact .refl _
  | literal | branch | jump => exact (Literal.parse_alike line line' _).map _

theorem Field.pack_alike (fs : List Field) : Alike (pack line fs) (pack line' fs) := by
  have hbits : ∀ f : Field, Alike (f.bits line) (f.bits line') := by
    intro f
    unfold bits
    split
    · exact .error rfl
    · split
      · exact .ok _
      · exact .error rfl
  induction fs with
  | nil => exact .ok 0
  | cons f rest ih =>
    unfold pack
    generalize pack line rest = x, pack line' rest = y at ih
    cases ih with
    | error he => exact .error he
    | ok low =>
      have hf := hbits f
      generalize f.bits line = x, f.bits line' = y at hf
      cases hf with
      | error he => exact .error he
      | ok high => exact .ok _

theorem Instruction.fieldsOf_alike (m : Mnemonic) (address : Int) (operands : List (Option String)) :
    Alike (fieldsOf m address operands line) (fieldsOf m address operands line') := by
  rw [fieldsOf_eq, fieldsOf_eq]
  split
  · exact .error rfl
  · have hread := Alike.mapM (fun s : Slot => s.read_alike line line' address operands) m.layout
    generalize m.layout.mapM (Slot.read · address operands line) = x,
      m.layout.mapM (Slot.read · address operands line') = y at hread
    cases hread with
    | error he => exact .error he
    | ok fs =>
      dsimp only
      split
      · exact .error rfl
      · split
        · exact .error rfl
        · exact .ok fs

theorem Instruction.word_alike (mnemonic : Option String) (address : Int) (operands : List (Option String)) :
    Alike (word mnemonic address operands line) (word mnemonic address operands line') := by
  unfold word fields
  cases Mnemonic.ofToken? mnemonic with
  | none => exact .error rfl
  | some m =>
    have hfields := fieldsOf_alike line line' m address operands
    dsimp only
    generalize fieldsOf m address operands line = x, fieldsOf m address operands line' = y at hfields
    cases hfields with
    | error he => exact .error he
    | ok fs => exact Field.pack_alike line line' fs

end

/-! ## The arguments of an instruction -/

namespace Operand

variable {t t' : SymbolTable} {token token' : String} {tokens tokens' : List String}

/-- Two arguments stand for the same, each in its table: they are labels with one address or none, or they are one
token that is no label. -/
inductive Same (t t' : SymbolTable) : String → String → Prop
  | label {token token' : String} : isLabelReference token = true → isLabelReference token' = true →
      (t.lookup token).map (·.address) = (t'.lookup token').map (·.address) → Same t t' token token'
  | plain {token : String} : isLabelReference token = false → Same t t' token token

theorem same_self (h : isLabelReference token = true →
    (t.lookup token).map (·.address) = (t'.lookup token).map (·.address)) : Same t t' token token := by
  cases hl : isLabelReference token with
  | true => exact .label hl hl (h hl)
  | false => exact .plain hl

theorem resolveOne_alike (line line' : Option Int) (h : Same t t' token token') :
    Alike (resolveOne t line token) (resolveOne t' line' token') := by
  rw [resolveOne_eq, resolveOne_eq]
  cases h with
  | plain hl =>
    rw [hl]
    cases splitOffset? token with
    | none => exact .ok _
    | some _ => exact .ok _
  | label hl hl' hsame =>
    rw [splitOffset_label hl, splitOffset_label hl']
    simp only [hl, hl', if_true]
    cases hx : t.lookup token with
    | none =>
      rw [hx, Option.map_none, eq_comm, Option.map_eq_none_iff] at hsame
      rw [hsame]
      exact .error rfl
    | some x =>
      rw [hx, Option.map_some, eq_comm, Option.map_eq_some_iff] at hsame
      obtain ⟨x', hx', haddress⟩ := hsame
      simp only [hx', haddress]
      exact .ok _

theorem resolve_alike (line line' : Option Int) (h : List.Forall₂ (Same t t') tokens tokens') :
    Alike (resolve t line tokens) (resolve t' line' tokens') := by
  induction h with
  | nil => exact .ok []
  | @cons token token' tokens tokens' hsame _ ih =>
    have hone := resolveOne_alike line line' hsame
    rw [resolve_cons_eq, resolve_cons_eq]
    generalize resolveOne t line token = x, resolveOne t' line' token' = y at hone
    cases hone with
    | error he => exact .error he
    | ok first =>
      dsimp only
      generalize resolve t line tokens = x, resolve t' line' tokens' = y at ih
      cases ih with
      | error he => exact .error he
      | ok more => exact .ok _

end Operand

/-- Instructions with the same mnemonic at the same address whose arguments stand for the same come to the same. -/
theorem Instruction.assemble_alike {t t' : SymbolTable} {tokens tokens' : List String} (line line' : Option Int)
    (address : Int) (mnemonic : String) (h : List.Forall₂ (Operand.Same t t') tokens tokens') :
    Alike (assemble t address line mnemonic tokens) (assemble t' address line' mnemonic tokens') := by
  have hresolve := Operand.resolve_alike line line' h
  unfold assemble
  generalize Operand.resolve t line tokens = x, Operand.resolve t' line' tokens' = y at hresolve
  cases hresolve with
  | error he => exact .error he
  | ok operands => exact word_alike line line' _ _ _

/-! ## Whole lines -/

namespace Reference

variable {t t' : SymbolTable} {ls ls' : List SourceLine} {s s' : SourceLine}

/-- Lines whose statements come to the same have the same code, or faults of the same code. -/
theorem code_alike (hvalid : s.statement?.isSome = s'.statement?.isSome)
    (hmnemonic : s.statement.mnemonic = s'.statement.mnemonic) (haddress : address ls = address ls')
    (hoperands : List.Forall₂ (Operand.Same t t') s.statement.operands s'.statement.operands) :
    Alike (code t ls s) (code t' ls' s') := by
  unfold code
  cases hst : s.statement? with
  | none =>
    rw [hst, Option.isSome_none, eq_comm, Option.isSome_eq_false_iff, Option.isNone_iff_eq_none] at hvalid
    rw [hvalid]
    exact .error rfl
  | some st =>
    rw [hst, Option.isSome_some, eq_comm, Option.isSome_iff_exists] at hvalid
    obtain ⟨st', hst'⟩ := hvalid
    have hs : s.statement = st := by simp [SourceLine.statement, hst]
    have hs' : s'.statement = st' := by simp [SourceLine.statement, hst']
    rw [hs, hs'] at hmnemonic hoperands
    simp only [hst', ← hmnemonic, ← haddress]
    cases st.mnemonic with
    | none => exact .ok _
    | some m =>
      have hw := Instruction.assemble_alike (some (ls.length + 1)) (some (ls'.length + 1)) (address ls) m hoperands
      dsimp only
      generalize Instruction.assemble t (address ls) (some (ls.length + 1)) m st.operands = x,
        Instruction.assemble t' (address ls) (some (ls'.length + 1)) m st'.operands = y at hw
      cases hw with
      | error he => exact .error he
      | ok w => exact .ok _

end Reference

end MipsAssembler
