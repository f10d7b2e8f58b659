import MipsAssembler.Proofs.Alike
import MipsAssembler.Proofs.Unexpected
/-!
# What an instruction is refused for

An instruction may be wrong in several ways at once. `Refused` says which of them it is refused for: its mnemonic comes
first, then missing operands, its literal, its registers in the order of their fields, and spare operands. Without any
of these its operands fit (`Fits`), and it has its fields (`fields_outcome`).
-/

namespace MipsAssembler

namespace Mnemonic

/-- The operand where the literal belongs is none that can be read. -/
def BadLiteral (m : Mnemonic) (operands : List (Option String)) (token : Option String) : Prop :=
  ∃ i, m.literalPosition? = some i ∧ operands[i]? = some token ∧ ∀ t, token = some t → Literal.value? t = none

/-- The operand that goes to a part of the word, if it names no register. -/
def unknownAt? (m : Mnemonic) (operands : List (Option String)) (p : Part) : Option (Option String) :=
  ((m.operandParts.idxOf? p).bind (operands[·]?)).filter fun token => ∀ name ∈ Register.names, token ≠ some name

/-- The first operand in the place of a register that names none, in the order of the fields. -/
def firstUnknown? (m : Mnemonic) (operands : List (Option String)) : Option (Option String) :=
  [Part.rs, .rt, .rd].findSome? (m.unknownAt? operands)

/-- The instruction has as many operands as it takes, each in its place. -/
structure Fits (m : Mnemonic) (operands : List (Option String)) : Prop where
  length : operands.length = m.arity
  operand : ∀ (i : Nat) p, m.operandParts[i]? = some p → ∃ token, operands[i]? = some (some token) ∧
    if p.isRegister then token ∈ Register.names else ∃ v, Literal.value? token = some v

end Mnemonic

/-- What an instruction with these operands is refused for. -/
inductive Instruction.Refused (operands : List (Option String)) : Option String → Cause → Prop
  | unknownInstruction {mnemonic : Option String} : (∀ m : Mnemonic, mnemonic ≠ some m.name) →
      Refused operands mnemonic (.unknownInstruction mnemonic)
  | tooFew {m : Mnemonic} : operands.length < m.arity → Refused operands (some m.name) .tooFewOperands
  | malformedLiteral {m : Mnemonic} {token : Option String} : m.arity ≤ operands.length →
      m.BadLiteral operands token → Refused operands (some m.name) (.malformedLiteral token)
  | unknownRegister {m : Mnemonic} {token : Option String} : m.arity ≤ operands.length →
      (∀ literal, ¬ m.BadLiteral operands literal) → m.firstUnknown? operands = some token →
      Refused operands (some m.name) (.unknownRegister token)
  | tooMany {m : Mnemonic} : m.arity < operands.length → (∀ literal, ¬ m.BadLiteral operands literal) →
      m.firstUnknown? operands = none → Refused operands (some m.name) .tooManyOperands

variable {m : Mnemonic} {address : Int} {operands : List (Option String)} {line : Option Int}

/-! ## Operands by position -/

/-- The operand that a source takes as a register. -/
def Source.register? : Source → Option Nat
  | .register i => some i
  | .constant _ | .literal _ | .branch _ | .jump _ => none

namespace Mnemonic

theorem slot_register (m : Mnemonic) : ∀ x ∈ m.slots,
    x.2.source.register? = if x.1.isRegister then m.operandParts.idxOf? x.1 else none := by
  cases m <;> decide

/-- In every layout registers go to the fields that are looked at for unknown ones, and literals to others. -/
theorem layout_fieldKind (m : Mnemonic) : ∀ s ∈ m.layout,
    (s.source.register?.isSome = true → Field.isRegister ⟨s.field, none, none⟩ = true) ∧
      (s.source.literal?.isSome = true → Field.isRegister ⟨s.field, none, none⟩ = false) := by
  cases m <;> decide

theorem getElem_idxOf {i : Nat} {p : Part} (h : m.operandParts.idxOf? p = some i) : m.operandParts[i]? = some p := by
  obtain ⟨hi, hp, -⟩ := List.findIdx?_eq_some_iff_getElem.1 h
  rw [List.getElem?_eq_getElem hi, beq_iff_eq.1 hp]

theorem literalPosition_eq (m : Mnemonic) : ∀ x ∈ m.operandParts.zipIdx,
    x.1.isRegister = false → m.literalPosition? = some x.2 := by
  cases m <;> decide

/-- Only the fields for registers hold registers, and they come in the same order in every format. -/
theorem findSome_parts (m : Mnemonic) (operands : List (Option String)) :
    (m.format.parts.findSome? fun p => if p.isRegister then m.unknownAt? operands p else none) =
      m.firstUnknown? operands := by
  cases m <;> rfl

theorem literalPosition_part {i : Nat} (h : m.literalPosition? = some i) :
    ∃ p, m.operandParts[i]? = some p ∧ p.isRegister = false := by
  obtain ⟨hi, hp, -⟩ := List.findIdx?_eq_some_iff_getElem.1 h
  exact ⟨_, List.getElem?_eq_getElem hi, by simpa using hp⟩

theorem getElem_operand (hlen : m.arity ≤ operands.length) {i : Nat} {p : Part} (h : m.operandParts[i]? = some p) :
    ∃ token, operands[i]? = some token := by
  have hi := (List.getElem?_eq_some_iff.1 h).1
  rw [length_operandParts] at hi
  exact ⟨_, List.getElem?_eq_getElem (Nat.lt_of_lt_of_le hi hlen)⟩

end Mnemonic

theorem Register.ofToken_none {token : Option String} :
    ofToken? token = none ↔ ∀ name ∈ names, token ≠ some name := by
  cases token with
  | none => simp [ofToken?]
  | some t =>
    simp only [ofToken?, number?, List.findIdx?_eq_none_iff, decide_eq_false_iff_not, ne_eq, Option.some.injEq]
    exact forall₂_congr fun name _ => ⟨fun h h' => h h'.symm, fun h h' => h h'.symm⟩

/-! ## Literals -/

theorem Literal.parse_of_value {t : String} {v : Int} (h : value? t = some v) (line : Option Int) :
    parse (some t) line = .ok v := by
  have hnone : parse (some t) none = .ok v := by
    unfold value? at h
    cases hp : parse (some t) none with
    | error e => rw [hp] at h; cases h
    | ok u =>
      rw [hp] at h
      cases h
      rfl
  exact (parse_alike none line (some t)).ok_right hnone

namespace Instruction

/-- No operand is a decimal number that is too long to be read. -/
def Readable (operands : List (Option String)) : Prop :=
  ∀ token n, some token ∈ operands → ¬ Literal.LongDecimal token n

/-- A token that can be read fails in one way. -/
theorem parse_malformed (hr : Readable operands) {token : Option String} (ht : token ∈ operands) {e : Fault}
    (h : Literal.parse token line = .error e) : e = .refused (.malformedLiteral token) line := by
  rcases Literal.parse_error h with he | ⟨t, n, rfl, hlong, -⟩
  · exact he
  · exact absurd (Literal.tooLong_iff.1 hlong) (hr t n ht)

theorem read_badLiteral (hr : Readable operands) {token : Option String} (h : m.BadLiteral operands token) :
    m.layout.mapM (Slot.read · address operands line) = .error (.refused (.malformedLiteral token) line) := by
  obtain ⟨i, hi, ht, hbad⟩ := h
  have hparse : Literal.parse token line = .error (.refused (.malformedLiteral token) line) := by
    cases hp : Literal.parse token line with
    | error e => rw [parse_malformed hr (List.mem_of_getElem? ht) hp]
    | ok v =>
      obtain ⟨t, htoken, hv⟩ := value_of_parse hp
      rw [hbad t htoken] at hv
      cases hv
  refine layout_read_error hi fun s hs => ?_
  obtain ⟨adjust, hread⟩ := Slot.read_literal hs
  rw [hread, ht, Option.join_some, hparse]
  rfl

theorem read_goodLiteral (hlen : m.arity ≤ operands.length)
    (h : ∀ literal, ¬ m.BadLiteral operands literal) (address : Int) (line : Option Int) :
    ∃ fs, m.layout.mapM (Slot.read · address operands line) = .ok fs := by
  cases hread : m.layout.mapM (Slot.read · address operands line) with
  | ok fs => exact ⟨fs, rfl⟩
  | error e =>
    exfalso
    obtain ⟨s, hs, he⟩ := mapM_error hread
    cases hl : s.source.literal? with
    | none =>
      obtain ⟨f, hf⟩ := Slot.read_other hl address operands line
      rw [hf] at he
      cases he
    | some i =>
      have hi : m.literalPosition? = some i := by
        rcases m.layout_literal s hs with hnone | hpos
        · rw [hl] at hnone
          cases hnone
        · rw [← hpos, hl]
      obtain ⟨p, hp, -⟩ := Mnemonic.literalPosition_part hi
      obtain ⟨token, ht⟩ := Mnemonic.getElem_operand hlen hp
      obtain ⟨adjust, hslot⟩ := Slot.read_literal hl
      rw [hslot, ht, Option.join_some] at he
      refine h token ⟨i, hi, ht, ?_⟩
      rintro t rfl
      cases hv : Literal.value? t with
      | none => rfl
      | some v =>
        rw [Literal.parse_of_value hv] at he
        cases he

/-! ## Registers -/

/-- Only an operand can be an unknown register: constants are not negative, and literals go to other fields. -/
theorem known_unless_register {s : Slot} (hs : s ∈ m.layout) (hr : s.source.register? = none) {f : Field}
    (hf : s.read address operands line = .ok f) : (f.isRegister && f.value = some Register.unknown) = false := by
  have hfield := (m.layout_fieldKind s hs).2
  cases hsource : s.source with
  | register i => rw [hsource] at hr; cases hr
  | constant n =>
    simp only [Slot.read, hsource] at hf
    cases hf
    have hvalue : n.map Int.ofNat ≠ some Register.unknown := by
      cases n <;> simp [Register.unknown]
    rw [Bool.and_eq_false_iff, decide_eq_false_iff_not]
    exact .inr hvalue
  | literal i | branch i | jump i =>
    rw [hsource] at hfield
    rw [Bool.and_eq_false_iff, Field.isRegister, (Slot.read_value hf).1]
    exact .inl (hfield rfl)

/-- A slot reads an unknown register exactly where an operand names none. -/
theorem slot_unknown (hlen : m.arity ≤ operands.length) {x : Part × Slot} (hx : x ∈ m.slots) {f : Field}
    (hf : x.2.read address operands line = .ok f) :
    (if f.isRegister && f.value = some Register.unknown then some f.token else none) =
      if x.1.isRegister then m.unknownAt? operands x.1 else none := by
  obtain ⟨p, s⟩ := x
  have hs : s ∈ m.layout := (List.of_mem_zip hx).2
  have hregister := m.slot_register _ hx
  dsimp only at hf hregister ⊢
  cases hr : s.source.register? with
  | none =>
    rw [hr] at hregister
    rw [known_unless_register hs hr hf, if_neg Bool.false_ne_true]
    split at hregister
    · rename_i hp
      rw [if_pos hp, Mnemonic.unknownAt?, ← hregister]
      rfl
    · rename_i hp
      rw [if_neg hp]
  | some i =>
    have hsource : s.source = .register i := by
      cases hsource : s.source with
      | register j =>
        rw [hsource] at hr
        cases hr
        rfl
      | constant | literal | branch | jump => rw [hsource] at hr; cases hr
    rw [hr] at hregister
    split at hregister
    · rename_i hp
      have hi : i < operands.length :=
        Nat.lt_of_lt_of_le (m.layout_operand s hs i (by rw [hsource]; rfl)) hlen
      obtain ⟨token, ht⟩ : ∃ token, operands[i]? = some token := ⟨_, List.getElem?_eq_getElem hi⟩
      have hname : f.isRegister = true := by
        rw [Field.isRegister, (Slot.read_value hf).1]
        exact (m.layout_fieldKind s hs).1 (by rw [hr]; rfl)
      have hfield : f = registerField s.field token := by
        simp only [Slot.read, hsource, ht, Option.join_some] at hf
        cases hf
        rfl
      have hunknown : decide (f.value = some Register.unknown) =
          decide (∀ name ∈ Register.names, token ≠ some name) := by
        rw [decide_eq_decide, hfield, registerField, Option.some_inj, Register.numberOf_unknown, Register.ofToken_none]
      rw [hname, hunknown, if_pos hp, Mnemonic.unknownAt?, ← hregister, Option.bind_some, ht, Option.filter_some,
        Bool.true_and, hfield, registerField]
    · cases hregister

theorem find_unknown (hlen : m.arity ≤ operands.length) {fs : List Field}
    (h : m.layout.mapM (Slot.read · address operands line) = .ok fs) :
    (fs.find? fun f => f.isRegister && f.value = some Register.unknown).map (·.token) = m.firstUnknown? operands := by
  have hparts : m.format.parts.length = m.layout.length := by
    simpa using (congrArg List.length m.layout_fields).symm
  rw [← m.findSome_parts operands]
  exact mapM_find hparts (fun x hx f hf => slot_unknown hlen hx hf) h

/-! ## One check after another -/

/-- With enough operands and a literal that can be read, the registers decide, and then the number of operands. -/
theorem fieldsOf_goodLiteral (hlen : m.arity ≤ operands.length) (h : ∀ literal, ¬ m.BadLiteral operands literal) :
    ∃ fs, fieldsOf m address operands line =
      match m.firstUnknown? operands with
      | some token => .error (.refused (.unknownRegister token) line)
      | none => if m.arity < operands.length then .error (.refused .tooManyOperands line) else .ok fs := by
  obtain ⟨fs, hread⟩ := read_goodLiteral hlen h address line
  refine ⟨fs, ?_⟩
  rw [← find_unknown hlen hread]
  rw [fieldsOf_eq, if_neg (Nat.not_lt.2 hlen), hread]
  dsimp only
  cases fs.find? fun f => f.isRegister && f.value = some Register.unknown with
  | none => rfl
  | some f => rfl

theorem fields_known (m : Mnemonic) :
    fields (some m.name) address operands line = fieldsOf m address operands line := by
  unfold fields
  rw [Mnemonic.ofToken_some_name]

theorem Refused.fields {mnemonic : Option String} {cause : Cause} (hr : Readable operands)
    (h : Refused operands mnemonic cause) : fields mnemonic address operands line = .error (.refused cause line) := by
  cases h with
  | unknownInstruction hno =>
    unfold Instruction.fields
    cases hm : Mnemonic.ofToken? mnemonic with
    | none => rfl
    | some m => exact absurd (Mnemonic.ofToken_name hm) (hno m)
  | tooFew hlen =>
    rw [fields_known, fieldsOf_eq, if_pos hlen]
  | malformedLiteral hlen hbad =>
    rw [fields_known, fieldsOf_eq, if_neg (Nat.not_lt.2 hlen), read_badLiteral hr hbad]
  | unknownRegister hlen hgood hfirst =>
    obtain ⟨fs, hfs⟩ := fieldsOf_goodLiteral hlen hgood
    rw [fields_known, hfs, hfirst]
  | tooMany hlen hgood hnone =>
    obtain ⟨fs, hfs⟩ := fieldsOf_goodLiteral (Nat.le_of_lt hlen) hgood
    rw [fields_known, hfs, hnone]
    exact if_pos hlen

end Instruction

namespace Mnemonic

/-! ## Operands that fit -/

theorem Fits.literal (h : m.Fits operands) (literal : Option String) : ¬ m.BadLiteral operands literal := by
  rintro ⟨i, hi, ht, hbad⟩
  obtain ⟨p, hp, hliteral⟩ := literalPosition_part hi
  obtain ⟨token, htoken, hv⟩ := h.operand i p hp
  rw [hliteral, if_neg Bool.false_ne_true] at hv
  obtain ⟨v, hv⟩ := hv
  rw [ht] at htoken
  rw [hbad token (Option.some.inj htoken)] at hv
  cases hv

theorem Fits.registers (h : m.Fits operands) : m.firstUnknown? operands = none := by
  rw [firstUnknown?, List.findSome?_eq_none_iff]
  intro p hp
  have hregister : p.isRegister = true := by
    revert hp
    cases p <;> decide
  unfold unknownAt?
  cases hi : m.operandParts.idxOf? p with
  | none => rfl
  | some i =>
    obtain ⟨token, ht, hname⟩ := h.operand i p (getElem_idxOf hi)
    rw [hregister, if_pos rfl] at hname
    rw [Option.bind_some, ht, Option.filter_some, if_neg]
    rw [decide_eq_true_eq]
    exact fun hno => hno token hname rfl

end Mnemonic

namespace Instruction

theorem fields_of_fits (h : m.Fits operands) (address : Int) (line : Option Int) :
    ∃ fs, fields (some m.name) address operands line = .ok fs := by
  obtain ⟨fs, hfs⟩ := fieldsOf_goodLiteral (Nat.le_of_eq h.length.symm) h.literal
  refine ⟨fs, ?_⟩
  rw [fields_known, hfs, h.registers]
  exact if_neg (Nat.not_lt.2 (Nat.le_of_eq h.length))

end Instruction

end MipsAssembler
