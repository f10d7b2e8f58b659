import MipsAssembler.Proofs.Positional
import MipsAssembler.Proofs.Refusal
/-!
# Where a word overflows

An instruction that has its fields has its word too, unless its literal is out of range. `InRange` gives the range for
each mnemonic in terms of the literal as it was written, before a target is counted in instructions. Codes and numbers
of registers always fit, so a word can overflow at the field of the literal alone (`pack_overflow_iff`). The distance of
a branch grows with its address and can be too long for the report, which no other value can.
-/

namespace MipsAssembler

/-- The value of a source that takes no operand. -/
def Source.constant? : Source → Option Nat
  | .constant n => n
  | .register _ | .literal _ | .branch _ | .jump _ => none

namespace Mnemonic

/-! ## Ranges -/

/-- The numbers that the literal of the instruction at `address` can be. -/
def InRange (m : Mnemonic) (address v : Int) : Prop :=
  match m with
  | addi | lw | sw => -32768 ≤ v ∧ v ≤ 32767
  | sll => 0 ≤ v ∧ v ≤ 31
  | j => 0 ≤ v ∧ v ≤ 0xFFFFFFF
  | beq => -0x20000 ≤ v - (address + 4) ∧ v - (address + 4) ≤ 0x1FFFF
  | add | sub | and | or | nor | slt | jr | nop => True

/-- The operand that goes to part `p` of the word is a literal of value `v`. -/
def TakesLiteral (m : Mnemonic) (operands : List (Option String)) (p : Part) (token : String) (v : Int) : Prop :=
  ∃ i : Nat, m.operandParts[i]? = some p ∧ p.isRegister = false ∧ operands[i]? = some (some token) ∧
    Literal.value? token = some v

/-- The parts of a word that literals go to. -/
theorem literal_part (m : Mnemonic) : ∀ p ∈ m.operandParts, p.isRegister = false →
    p = .sa ∧ m = sll ∨ p = .immediate ∧ (m = addi ∨ m = lw ∨ m = sw) ∨ p = .immediate ∧ m = beq ∨
      p = .address ∧ m = j := by
  cases m <;> decide

theorem TakesLiteral.part {m : Mnemonic} {operands : List (Option String)} {p : Part} {token : String} {v : Int}
    (h : m.TakesLiteral operands p token v) : p ∈ [Part.sa, .immediate, .address] := by
  obtain ⟨i, hi, hp, -⟩ := h
  rcases m.literal_part p (List.mem_of_getElem? hi) hp with ⟨rfl, -⟩ | ⟨rfl, -⟩ | ⟨rfl, -⟩ | ⟨rfl, -⟩ <;> decide

/-- Targets are rounded down to instructions, so a range of a field is four times as wide in bytes. -/
theorem fits_iff_inRange {m : Mnemonic} {p : Part} {f : Field} (hp : p ∈ m.operandParts) (hr : p.isRegister = false)
    (hname : f.name = p.name) (address v : Int) : f.fits (m.adjust address v) = true ↔ m.InRange address v := by
  rcases m.literal_part p hp hr with ⟨rfl, rfl⟩ | ⟨rfl, hm⟩ | ⟨rfl, rfl⟩ | ⟨rfl, rfl⟩
  · rw [Field.fits_unsigned (by rw [Field.isSigned, hname]; rfl), Field.width, hname]
    show 0 ≤ v ∧ v < 32 ↔ 0 ≤ v ∧ v ≤ 31
    omega
  · rw [Field.fits_signed (by rw [Field.isSigned, hname]; rfl), Field.width, hname]
    rcases hm with rfl | rfl | rfl
    all_goals
      show -32768 ≤ v ∧ v < 32768 ↔ -32768 ≤ v ∧ v ≤ 32767
      omega
  · rw [Field.fits_signed (by rw [Field.isSigned, hname]; rfl), Field.width, hname, adjust, Int.shiftRight_eq_div_pow]
    show -32768 ≤ (v - (address + 4)) / 4 ∧ (v - (address + 4)) / 4 < 32768 ↔
      -131072 ≤ v - (address + 4) ∧ v - (address + 4) ≤ 131071
    omega
  · rw [Field.fits_unsigned (by rw [Field.isSigned, hname]; rfl), Field.width, hname, adjust, Int.shiftRight_eq_div_pow]
    show 0 ≤ v / 4 ∧ v / 4 < 67108864 ↔ 0 ≤ v ∧ v ≤ 268435455
    omega

/-! ## What the slots of a layout hold -/

theorem layout_constant (m : Mnemonic) :
    ∀ s ∈ m.layout, ∀ n ∈ s.source.constant?, Field.fits ⟨s.field, some n, none⟩ n = true := by
  cases m <;> decide

theorem layout_operandSource (m : Mnemonic) : ∀ s ∈ m.layout, ∀ i ∈ s.source.operand?,
    ∃ p ∈ m.operandParts[i]?, s = ⟨p.name, m.operandSource p i⟩ := by
  cases m <;> decide

end Mnemonic

theorem Register.number_lt {token : String} {n : Nat} (h : number? token = some n) : n < 32 :=
  (List.getElem?_eq_some_iff.1 (getElem_number h)).1

/-- The number of a register fits its field. -/
theorem Part.fits_register {p : Part} {f : Field} {n : Nat} (hp : p.isRegister = true) (hname : f.name = p.name)
    (hn : n < 32) : f.fits n = true := by
  have hsigned : f.isSigned = false := by
    rw [field_signed hname, decide_eq_false_iff_not]
    rintro rfl
    cases hp
  have hwidth : f.width = 5 := by
    rw [field_width hname]
    revert hp
    cases p <;> decide
  rw [Field.fits_unsigned hsigned, hwidth]
  show (0 : Int) ≤ n ∧ (n : Int) < 32
  omega

namespace Instruction

/-! ## Fields that fit -/

variable {m : Mnemonic} {mnemonic : Option String} {address : Int} {operands : List (Option String)}
  {line : Option Int} {fs : List Field} {f : Field} {e : Fault}

theorem register_field {p : Part} {i : Nat} (hp : p.isRegister = true)
    (h : Slot.read ⟨p.name, m.operandSource p i⟩ address operands line = .ok f)
    (hknown : f.isRegister = true → f.value ≠ some Register.unknown) (hv : f.value ≠ none) :
    ∃ v, f.value = some v ∧ f.fits v = true := by
  obtain ⟨v, hv⟩ := Option.ne_none_iff_exists'.1 hv
  obtain ⟨token, -, hvalue⟩ := operand_read h hknown hv
  rw [Mnemonic.operandValue?, if_pos hp, Option.map_eq_some_iff] at hvalue
  obtain ⟨n, hn, rfl⟩ := hvalue
  exact ⟨n, hv, Part.fits_register hp (Slot.read_value h).1 (Register.number_lt hn)⟩

theorem literal_field {p : Part} {i : Nat} (hi : m.operandParts[i]? = some p) (hp : p.isRegister = false)
    (h : Slot.read ⟨p.name, m.operandSource p i⟩ address operands line = .ok f) :
    ∃ token v, m.TakesLiteral operands p token v ∧ f = ⟨p.name, some (m.adjust address v), some token⟩ := by
  rw [literal_slot hp] at h
  cases hparse : Literal.parse operands[i]?.join line with
  | error e => rw [hparse] at h; cases h
  | ok v =>
    rw [hparse] at h
    obtain ⟨token, htoken, hv⟩ := value_of_parse hparse
    rw [htoken] at h
    cases h
    exact ⟨token, v, ⟨i, hi, hp, Option.join_eq_some_iff.1 htoken, hv⟩, rfl⟩

/-- A field fits, or it holds the literal. -/
theorem field_cases (hf : fieldsOf m address operands line = .ok fs) (hmem : f ∈ fs) :
    (∃ v, f.value = some v ∧ f.fits v = true) ∨ ∃ p token v, m.TakesLiteral operands p token v ∧
      f = ⟨p.name, some (m.adjust address v), some token⟩ := by
  obtain ⟨-, hread, hknown⟩ := fieldsOf_ok hf
  obtain ⟨s, hs, hsf⟩ := mapM_mem hread hmem
  cases hop : s.source.operand? with
  | none =>
    obtain ⟨n, hn⟩ : ∃ n, s.source = .constant (some n) := by
      cases hsource : s.source with
      | constant n =>
        cases n with
        | none => exact absurd hsource (layout_valued m s hs)
        | some n => exact ⟨n, rfl⟩
      | register | literal | branch | jump => rw [hsource] at hop; cases hop
    have hfits := m.layout_constant s hs n (by rw [hn]; rfl)
    simp only [Slot.read, hn] at hsf
    cases hsf
    exact .inl ⟨n, rfl, hfits⟩
  | some i =>
    obtain ⟨p, hp, rfl⟩ := m.layout_operandSource s hs i hop
    cases hr : p.isRegister with
    | true => exact .inl (register_field hr hsf (hknown f hmem) (fieldsOf_values hf f hmem))
    | false => exact .inr ⟨p, literal_field hp hr hsf⟩

theorem literal_mem {p : Part} {token : String} {v : Int} (hf : fieldsOf m address operands line = .ok fs)
    (h : m.TakesLiteral operands p token v) : ⟨p.name, some (m.adjust address v), some token⟩ ∈ fs := by
  obtain ⟨i, hi, hp, htoken, hv⟩ := h
  obtain ⟨-, hread, -⟩ := fieldsOf_ok hf
  have hslot := m.operand_slot (p, i) (List.mk_mem_zipIdx_iff_getElem?.2 hi)
  obtain ⟨f, hmem, hsf⟩ := mapM_zip hread hslot
  rw [literal_slot hp, htoken, Option.join_some, Literal.parse_of_value hv] at hsf
  cases hsf
  exact (List.of_mem_zip hmem).2

/-! ## Words that overflow -/

theorem fits_literal {p : Part} {token : String} {v : Int} (h : m.TakesLiteral operands p token v) (address : Int) :
    Field.fits ⟨p.name, some (m.adjust address v), some token⟩ (m.adjust address v) = true ↔ m.InRange address v := by
  obtain ⟨i, hi, hp, -, -⟩ := h
  exact Mnemonic.fits_iff_inRange (List.mem_of_getElem? hi) hp rfl address v

theorem literal_overflow {p : Part} {token : String} {v : Int} (h : m.TakesLiteral operands p token v)
    (hrange : ¬ m.InRange address v) (line : Option Int) :
    Field.bits ⟨p.name, some (m.adjust address v), some token⟩ line =
      .error (.refused (.fieldOverflow p.name (m.adjust address v) p.width (some token)) line) := by
  rw [Field.bits_overflow rfl (mt (fits_literal h address).1 hrange), Part.field_width rfl]

/-- Packing fails at a literal that is out of range. -/
theorem pack_failed (hf : fieldsOf m address operands line = .ok fs) (h : Field.pack line fs = .error e) :
    ∃ p token v, m.TakesLiteral operands p token v ∧ ¬ m.InRange address v ∧
      e = .refused (.fieldOverflow p.name (m.adjust address v) p.width (some token)) line := by
  obtain ⟨f, hmem, hbits⟩ := Field.pack_error h
  have hnot : ∀ v, f.value = some v → ¬ f.fits v = true := by
    intro v hv hfits
    obtain ⟨b, hb⟩ := Field.bits_fits hv hfits line
    rw [hb] at hbits
    cases hbits
  rcases field_cases hf hmem with ⟨v, hv, hfits⟩ | ⟨p, token, v, hliteral, rfl⟩
  · exact absurd hfits (hnot v hv)
  · have hrange : ¬ m.InRange address v := mt (fits_literal hliteral address).2 (hnot _ rfl)
    rw [literal_overflow hliteral hrange] at hbits
    exact ⟨p, token, v, hliteral, hrange, (Except.error.inj hbits).symm⟩

/-- A literal has 32 bits, so only the distance of a branch can be too long to be written, far from where it stands. -/
theorem literal_short {p : Part} {token : String} {v : Int} (h : m.TakesLiteral operands p token v)
    (hm : m = .beq → address.natAbs < 10 ^ maxDecimalDigits) :
    (m.adjust address v).natAbs < 10 ^ maxDecimalDigits := by
  obtain ⟨i, hi, hp, -, hv⟩ := h
  obtain ⟨hlow, hhigh⟩ := Literal.parse_int32 (Literal.parse_of_value hv none)
  have hpow : 10 ^ 10 ≤ 10 ^ maxDecimalDigits := Nat.pow_le_pow_right (by decide) (by decide)
  have hadjust : m.adjust address v = v ∨ m.adjust address v = v / 4 ∨
      (m = .beq ∧ m.adjust address v = (v - (address + 4)) / 4) := by
    rcases m.literal_part p (List.mem_of_getElem? hi) hp with ⟨-, rfl⟩ | ⟨-, rfl | rfl | rfl⟩ | ⟨-, rfl⟩ | ⟨-, rfl⟩
    · exact .inl rfl
    · exact .inl rfl
    · exact .inl rfl
    · exact .inl rfl
    · exact .inr (.inr ⟨rfl, Int.shiftRight_eq_div_pow (v - (address + 4)) 2⟩)
    · exact .inr (.inl (Int.shiftRight_eq_div_pow v 2))
  generalize 10 ^ maxDecimalDigits = limit at hpow hm ⊢
  rcases hadjust with h | h | ⟨hbeq, h⟩
  · rw [h]
    omega
  · rw [h]
    omega
  · have hnear := hm hbeq
    rw [h]
    omega

/-- The literal of an instruction stands in one place. -/
theorem literal_unique {p p' : Part} {token token' : String} {v v' : Int} (h : m.TakesLiteral operands p token v)
    (h' : m.TakesLiteral operands p' token' v') : p = p' ∧ token = token' ∧ v = v' := by
  obtain ⟨i, hi, hp, ht, hv⟩ := h
  obtain ⟨i', hi', hp', ht', hv'⟩ := h'
  have hpos := m.literalPosition_eq (p, i) (List.mk_mem_zipIdx_iff_getElem?.2 hi) hp
  have hpos' := m.literalPosition_eq (p', i') (List.mk_mem_zipIdx_iff_getElem?.2 hi') hp'
  obtain rfl : i = i' := Option.some.inj (hpos.symm.trans hpos')
  rw [hi] at hi'
  rw [ht] at ht'
  cases hi'
  cases ht'
  rw [hv] at hv'
  exact ⟨rfl, rfl, Option.some.inj hv'⟩

/-- Fields whose literal is out of range are not packed. -/
theorem packChecked_outOfRange {p : Part} {token : String} {v : Int} (hf : fieldsOf m address operands line = .ok fs)
    (h : m.TakesLiteral operands p token v) (hrange : ¬ m.InRange address v) :
    Field.packChecked line fs =
      .error (Fault.refused (.fieldOverflow p.name (m.adjust address v) p.width (some token)) line).checked := by
  cases hpack : Field.pack line fs with
  | ok w =>
    obtain ⟨b, hb⟩ := Field.pack_mem hpack (literal_mem hf h)
    rw [literal_overflow h hrange] at hb
    cases hb
  | error e =>
    obtain ⟨p', token', v', h', -, rfl⟩ := pack_failed hf hpack
    obtain ⟨rfl, rfl, rfl⟩ := literal_unique h h'
    exact Field.packChecked_error hpack

/-- What becomes of the word of an instruction whose fields are there. If its literal is in range it is packed. Else it
overflows, at the field of the literal, and the report shows the value of the field. Only a branch so far away that its
distance has more digits than can be written fails without a report, and packing fails in no other way. -/
theorem pack_overflow_iff {mnemonic : Option String} {address : Int} {operands : List (Option String)}
    {line : Option Int} {fs : List Field} (h : fields mnemonic address operands line = .ok fs) :
    ∃ m : Mnemonic, mnemonic = some m.name ∧
      ((∃ field value width token,
          Field.packChecked line fs = .error (.refused (.fieldOverflow field value width token) line)) ↔
        ∃ p token v, m.TakesLiteral operands p token v ∧ ¬ m.InRange address v ∧
          (m.adjust address v).natAbs < 10 ^ maxDecimalDigits) ∧
      (Field.packChecked line fs = .error .integerTooLong ↔
        ∃ p token v, m.TakesLiteral operands p token v ∧ ¬ m.InRange address v ∧
          10 ^ maxDecimalDigits ≤ (m.adjust address v).natAbs) ∧
      ∀ e, Field.packChecked line fs = .error e → (e = .integerTooLong ∧ m = .beq) ∨
        ∃ p ∈ [Part.sa, .immediate, .address], ∃ token v, m.TakesLiteral operands p token v ∧
          e = .refused (.fieldOverflow p.name (m.adjust address v) p.width (some token)) line := by
  obtain ⟨m, hm, hf⟩ := fields_ok h
  -- All three parts go back to the one literal that is out of range.
  have hfailed : ∀ e, Field.packChecked line fs = .error e → ∃ p token v, m.TakesLiteral operands p token v ∧
      ¬ m.InRange address v ∧
        e = (Fault.refused (.fieldOverflow p.name (m.adjust address v) p.width (some token)) line).checked := by
    intro e he
    cases hpack : Field.pack line fs with
    | ok w => rw [Field.packChecked_ok.2 hpack] at he; cases he
    | error e' =>
      rw [Field.packChecked_error hpack] at he
      cases he
      obtain ⟨p, token, v, hliteral, hrange, rfl⟩ := pack_failed hf hpack
      exact ⟨p, token, v, hliteral, hrange, rfl⟩
  refine ⟨m, hm, ⟨?_, ?_⟩, ⟨?_, ?_⟩, ?_⟩
  · rintro ⟨field, value, width, token, hpack⟩
    obtain ⟨p, token, v, hliteral, hrange, he⟩ := hfailed _ hpack
    refine ⟨p, token, v, hliteral, hrange, Nat.not_le.1 fun hlong => ?_⟩
    rw [(Field.overflow_checked line p.name _ p.width (some token)).2 hlong] at he
    cases he
  · rintro ⟨p, token, v, hliteral, hrange, hshort⟩
    rw [packChecked_outOfRange hf hliteral hrange, (Field.overflow_checked line p.name _ p.width (some token)).1 hshort]
    exact ⟨_, _, _, _, rfl⟩
  · intro hpack
    obtain ⟨p, token, v, hliteral, hrange, he⟩ := hfailed _ hpack
    refine ⟨p, token, v, hliteral, hrange, Nat.not_lt.1 fun hshort => ?_⟩
    rw [(Field.overflow_checked line p.name _ p.width (some token)).1 hshort] at he
    cases he
  · rintro ⟨p, token, v, hliteral, hrange, hlong⟩
    rw [packChecked_outOfRange hf hliteral hrange, (Field.overflow_checked line p.name _ p.width (some token)).2 hlong]
  · intro e hpack
    obtain ⟨p, token, v, hliteral, -, rfl⟩ := hfailed e hpack
    rcases Nat.lt_or_ge (m.adjust address v).natAbs (10 ^ maxDecimalDigits) with hshort | hlong
    · rw [(Field.overflow_checked line p.name _ p.width (some token)).1 hshort]
      exact .inr ⟨p, hliteral.part, token, v, hliteral, rfl⟩
    · rw [(Field.overflow_checked line p.name _ p.width (some token)).2 hlong]
      refine .inl ⟨rfl, ?_⟩
      by_contra hbeq
      exact absurd (literal_short hliteral fun hm => absurd hm hbeq) (Nat.not_lt.2 hlong)

/-- A branch to one byte below the lowest target that it can reach. -/
theorem pack_overflow_iff_of_far_branch :
    ∃ fs, fields (some "beq") 0x1FFFC [some "$zero", some "$zero", some "-1"] (some 5) = .ok fs ∧
      ∃ field value width token,
        Field.packChecked (some 5) fs = .error (.refused (.fieldOverflow field value width token) (some 5)) := by
  have h : fields (some "beq") 0x1FFFC [some "$zero", some "$zero", some "-1"] (some 5) =
    .ok [⟨"op", some 4, none⟩, ⟨"rs", some 0, some "$zero"⟩, ⟨"rt", some 0, some "$zero"⟩,
      ⟨"immediate", some (-32769), some "-1"⟩] := rfl
  obtain ⟨m, hm, hiff, -⟩ := pack_overflow_iff h
  obtain rfl : m = .beq := Mnemonic.name_inj (Option.some.inj hm).symm
  have hpow : 10 ^ 5 ≤ 10 ^ maxDecimalDigits := Nat.pow_le_pow_right (by decide) (by decide)
  refine ⟨_, h, hiff.2 ⟨.immediate, "-1", -1, ⟨2, rfl, rfl, rfl, by decide +kernel⟩, ?_, Nat.lt_of_lt_of_le ?_ hpow⟩⟩
  · rintro ⟨hlow, -⟩
    exact absurd hlow (by decide)
  · decide

/-- A branch can be so far away that its distance is too long for the report that it does not fit. -/
theorem pack_long_distance :
    ∃ fs, fields (some "beq") (4 * Literal.longNumber) [some "$t0", some "$t1", some "0"] none = .ok fs ∧
      ¬ Mnemonic.beq.InRange (4 * Literal.longNumber) 0 ∧
      ∀ cause, Field.packChecked none fs ≠ .error (.refused cause none) := by
  have hfields : ∀ address : Int, fieldsOf .beq address [some "$t0", some "$t1", some "0"] none =
      .ok [⟨"op", some 4, none⟩, ⟨"rs", some 8, some "$t0"⟩, ⟨"rt", some 9, some "$t1"⟩,
        ⟨"immediate", some ((0 - (address + 4)) >>> (2 : Nat)), some "0"⟩] := fun _ => rfl
  have hlarge : 0x20000 < Literal.longNumber := Literal.lt_longNumber (by decide)
  have hliteral : Mnemonic.beq.TakesLiteral [some "$t0", some "$t1", some "0"] .immediate "0" 0 :=
    ⟨2, rfl, rfl, rfl, by decide +kernel⟩
  have hrange : ¬ Mnemonic.beq.InRange (4 * Literal.longNumber) 0 := by
    rintro ⟨hlow, -⟩
    omega
  have hlong : 10 ^ maxDecimalDigits ≤ (Mnemonic.beq.adjust (4 * Literal.longNumber) 0).natAbs := by
    have hdistance : Mnemonic.beq.adjust (4 * Literal.longNumber) 0 = -(Literal.longNumber + 1) := by
      rw [Mnemonic.adjust, Int.shiftRight_eq_div_pow]
      omega
    have hle := Literal.le_longNumber
    rw [hdistance]
    omega
  refine ⟨_, hfields _, hrange, fun cause hcause => ?_⟩
  rw [packChecked_outOfRange (hfields _) hliteral hrange, (Field.overflow_checked none _ _ _ _).2 hlong] at hcause
  cases hcause

end Instruction

end MipsAssembler
