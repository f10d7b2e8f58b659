import MipsAssembler.Instruction
/-!
# Instructions by layout

Each mnemonic takes its operands in an order of its own. That order does not show in the outcome: all operands are
asked for before a literal is read (`takeFields_eq`), so a missing one comes before a bad literal, and in the end the
cursor stands behind the last operand that the instruction has (`takeFields_run`). What an instruction gives can
therefore be read off two tables, its number of operands and its layout, which lists the fields of the word from the
most significant one down and says where each value comes from (`fieldsOf_eq`).
-/

namespace MipsAssembler

/-- Where the value of a field comes from. Operands are counted from zero. -/
inductive Source where
  | constant (value : Option Nat)
  | register (operand : Nat)
  | literal (operand : Nat)
  /-- The distance in instructions from the next instruction. -/
  | branch (operand : Nat)
  /-- The target counted in instructions. -/
  | jump (operand : Nat)
deriving DecidableEq

structure Slot where
  field : String
  source : Source
deriving DecidableEq

namespace Mnemonic

/-- The number of operands. -/
def arity : Mnemonic → Nat
  | add | sub | and | or | nor | slt | sll | lw | sw | beq | addi => 3
  | jr | j => 1
  | nop => 0

/-- The positions that a mnemonic asks for, counted from one, in its order. -/
def fetches : Mnemonic → List Nat
  | add | sub | and | or | nor | slt => [2, 3, 1]
  | sll | beq => [1, 2, 3]
  | lw | sw => [3, 1, 2]
  | addi => [2, 1, 3]
  | jr | j => [1]
  | nop => []

/-- The fields of a register instruction behind its opcode. -/
def registerSlots (m : Mnemonic) (rs rt rd sa : Source) : List Slot :=
  [⟨"rs", rs⟩, ⟨"rt", rt⟩, ⟨"rd", rd⟩, ⟨"sa", sa⟩, ⟨"func", .constant m.function?⟩]

/-- The fields of an instruction with an immediate value behind its opcode. -/
def immediateSlots (rs rt immediate : Source) : List Slot := [⟨"rs", rs⟩, ⟨"rt", rt⟩, ⟨"immediate", immediate⟩]

/-- The fields behind the opcode. -/
def slotsBehind (m : Mnemonic) : List Slot :=
  let zero : Source := .constant (some 0)
  match m with
  | add | sub | and | or | nor | slt => m.registerSlots (.register 1) (.register 2) (.register 0) zero
  | sll => m.registerSlots zero (.register 1) (.register 0) (.literal 2)
  | jr => m.registerSlots (.register 0) zero zero zero
  | nop => m.registerSlots zero zero zero zero
  | lw | sw => immediateSlots (.register 2) (.register 0) (.literal 1)
  | addi => immediateSlots (.register 1) (.register 0) (.literal 2)
  | beq => immediateSlots (.register 0) (.register 1) (.branch 2)
  | j => [⟨"address", .jump 0⟩]

def layout (m : Mnemonic) : List Slot := ⟨"op", .constant (some m.opcode)⟩ :: m.slotsBehind

/-- Each operand is asked for. -/
theorem mem_fetches (m : Mnemonic) {p : Nat} : p ∈ m.fetches ↔ 0 < p ∧ p ≤ m.arity := by
  have hperm : m.fetches.Perm (List.range' 1 m.arity) := by cases m <;> decide
  rw [hperm.mem_iff, List.mem_range'_1]
  omega

theorem fetches_highest (m : Mnemonic) : m.fetches.foldl max 0 = m.arity := by
  cases m <;> rfl

end Mnemonic

/-- The field that a slot of a layout gives for the instruction at `address`. -/
def Slot.read (s : Slot) (address : Int) (operands : List (Option String)) (line : Option Int) : Except Fault Field :=
  match s.source with
  | .constant n => .ok (Instruction.constantField s.field n)
  | .register i => .ok (Instruction.registerField s.field operands[i]?.join)
  | .literal i => Instruction.literalField s.field operands[i]?.join line 0 0
  | .branch i => Instruction.literalField s.field operands[i]?.join line 2 (address + instructionSize)
  | .jump i => Instruction.literalField s.field operands[i]?.join line 2 0

/-- The place of an unknown register is told from the number of every known one. -/
theorem Register.numberOf_unknown {token : Option String} : numberOf token = unknown ↔ ofToken? token = none := by
  unfold numberOf unknown
  cases ofToken? token <;> simp

namespace Instruction

variable {m : Mnemonic} {address : Int} {operands : List (Option String)} {line : Option Int} {positions : List Nat}
  {c : OperandCursor}

/-! ## Asking for operands -/

/-- Asks for operands one after another. -/
def takeAll (line : Option Int) : List Nat → OperandCursor → Except Fault OperandCursor
  | [], c => .ok c
  | position :: rest, c =>
    match take line position c with
    | .error e => .error e
    | .ok (_, c) => takeAll line rest c

theorem take_behind {position : Nat} (h : c.operands.length < position) :
    take line position c = .error (.refused .tooFewOperands line) := by
  rw [take, if_pos h]

/-- No operand is read out of range: where none stands, there are too few. -/
theorem take_eq {position : Nat} (hpos : 0 < position) :
    take line position c =
      match c.operands[position - 1]? with
      | none => .error (.refused .tooFewOperands line)
      | some token => .ok (token, { c with consumed := max c.consumed position }) := by
  by_cases h : c.operands.length < position
  · rw [take_behind h, List.getElem?_eq_none (by omega)]
  · rw [take, if_neg h, List.getElem?_eq_getElem (by omega)]

theorem take_present {position : Nat} (hpos : 0 < position) (h : position ≤ c.operands.length) (line : Option Int) :
    ∃ token, take line position c = .ok (token, { c with consumed := max c.consumed position }) := by
  rw [take_eq hpos, List.getElem?_eq_getElem (by omega)]
  exact ⟨_, rfl⟩

/-- One position behind the operands is enough to fail, wherever it stands. -/
theorem takeAll_few (hpos : ∀ p ∈ positions, 0 < p) (h : ∃ p ∈ positions, c.operands.length < p) :
    takeAll line positions c = .error (.refused .tooFewOperands line) := by
  induction positions generalizing c with
  | nil => simp at h
  | cons p rest ih =>
    rw [List.forall_mem_cons] at hpos
    rw [takeAll]
    by_cases hp : c.operands.length < p
    · rw [take_behind hp]
    · obtain ⟨token, htake⟩ := take_present hpos.1 (Nat.not_lt.1 hp) line
      rw [htake]
      refine ih hpos.2 ?_
      obtain ⟨q, hq, hlt⟩ := h
      rcases List.mem_cons.1 hq with rfl | hq
      · exact absurd hlt hp
      · exact ⟨q, hq, hlt⟩

/-- The cursor remembers the highest position. -/
theorem takeAll_enough (hpos : ∀ p ∈ positions, 0 < p) (h : ∀ p ∈ positions, p ≤ c.operands.length) :
    takeAll line positions c = .ok { c with consumed := positions.foldl max c.consumed } := by
  induction positions generalizing c with
  | nil => rfl
  | cons p rest ih =>
    rw [List.forall_mem_cons] at hpos h
    obtain ⟨token, htake⟩ := take_present hpos.1 h.1 line
    rw [takeAll, htake]
    exact ih hpos.2 h.2

/-! ## Fetching in order, reading by layout -/

section Reader

variable {α β : Type}

theorem pure_run (x : α) (c : OperandCursor) : (pure x : OperandReader α) c = .ok (x, c) := rfl

theorem bind_run (r : OperandReader α) (f : α → OperandReader β) (c : OperandCursor) :
    (r >>= f) c =
      match r c with
      | .error e => .error e
      | .ok (x, c) => f x c := by
  show (r c).bind (fun x => f x.1 x.2) = _
  cases r c <;> rfl

/-- A literal is read without the cursor. -/
theorem lift_run (r : Except Fault α) (c : OperandCursor) :
    (liftM r : OperandReader α) c = r.map fun x => (x, c) := by
  cases r <;> rfl

end Reader

/-- Every mnemonic asks for all of its operands before it reads its literal, so the fields can as well be read when the
asking is over. -/
theorem takeFields_eq (m : Mnemonic) (address : Int) (line : Option Int) (operands : List (Option String)) :
    (takeFields m address line).run { operands } =
      match takeAll line m.fetches { operands } with
      | .error e => .error e
      | .ok c => (m.slotsBehind.mapM (Slot.read · address operands line)).map fun fs => (fs, c) := by
  cases h0 : operands[0]? <;> cases h1 : operands[1]? <;> cases h2 : operands[2]? <;> cases m <;>
    simp only [takeFields, takeRegister, takeLiteral, take_eq, takeAll, StateT.run, bind_run, pure_run, lift_run,
      Mnemonic.fetches, Mnemonic.slotsBehind, Mnemonic.registerSlots, Mnemonic.immediateSlots, Slot.read,
      List.mapM_cons, List.mapM_nil, Except.map, h0, h1, h2, Option.join_some, Nat.zero_lt_succ, Nat.lt_add_one] <;>
    simp only [bind, Except.bind, pure, Except.pure]
  -- What is left are the mnemonics with a literal.
  all_goals
    generalize literalField _ _ _ _ _ = literal
    cases literal <;> rfl

/-- With too few operands the asking fails. With enough of them it ends behind the last one that the instruction has. -/
theorem takeFields_run (m : Mnemonic) (address : Int) (line : Option Int) (operands : List (Option String)) :
    (takeFields m address line).run { operands } =
      if operands.length < m.arity then .error (.refused .tooFewOperands line)
      else (m.slotsBehind.mapM (Slot.read · address operands line)).map
        fun fs => (fs, { operands, consumed := m.arity }) := by
  have hpos : ∀ p ∈ m.fetches, 0 < p := fun p hp => (m.mem_fetches.1 hp).1
  rw [takeFields_eq]
  by_cases hfew : operands.length < m.arity
  · have hlast : ∃ p ∈ m.fetches, operands.length < p := ⟨m.arity, m.mem_fetches.2 (by omega), hfew⟩
    rw [if_pos hfew, takeAll_few hpos hlast]
  · have hall : ∀ p ∈ m.fetches, p ≤ operands.length := fun p hp =>
      Nat.le_trans (m.mem_fetches.1 hp).2 (Nat.not_lt.1 hfew)
    rw [if_neg hfew, takeAll_enough hpos hall, m.fetches_highest]

/-- The fields of an instruction can be read off its layout. -/
theorem fieldsOf_eq (m : Mnemonic) (address : Int) (operands : List (Option String)) (line : Option Int) :
    fieldsOf m address operands line =
      if operands.length < m.arity then .error (.refused .tooFewOperands line)
      else
        match m.layout.mapM (Slot.read · address operands line) with
        | .error e => .error e
        | .ok fields =>
          match fields.find? fun f => f.isRegister && f.value = some Register.unknown with
          | some f => .error (.refused (.unknownRegister f.token) line)
          | none => if m.arity < operands.length then .error (.refused .tooManyOperands line) else .ok fields := by
  have hop : Slot.read ⟨"op", .constant (some m.opcode)⟩ address operands line =
      .ok (constantField "op" (some m.opcode)) := rfl
  rw [fieldsOf, takeFields_run]
  by_cases hfew : operands.length < m.arity
  · rw [if_pos hfew, if_pos hfew]
  · rw [if_neg hfew, if_neg hfew, Mnemonic.layout, List.mapM_cons, hop]
    cases m.slotsBehind.mapM (Slot.read · address operands line) with
    | error e => rfl
    | ok fs =>
      simp only [Except.map, bind, Except.bind, pure, Except.pure]
      cases (constantField "op" (some m.opcode) :: fs).find?
          fun f => f.isRegister && f.value = some Register.unknown with
      | some f => rfl
      | none => simp only [OperandCursor.hasUnused, decide_eq_true_eq]

end Instruction

end MipsAssembler
