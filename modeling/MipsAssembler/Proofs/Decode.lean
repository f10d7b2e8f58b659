import MipsAssembler.Proofs.Instruction
/-!
# Taking a machine word apart

A word is cut into parts by its format. What the parts hold is the instruction: the codes of its mnemonic, what each
operand stands for in the part that the instruction set gives it, and zero everywhere else (`Holds`, `word_holds`).
So a word tells the instruction it was made from, but for `nop`, which is a shift of register zero by nothing
(`word_decodes`).
-/

namespace MipsAssembler

/-! ## Parts of a word -/

inductive Part where
  | op
  | rs
  | rt
  | rd
  | sa
  | func
  | immediate
  | address
deriving DecidableEq

namespace Part

def name : Part → String
  | op => "op"
  | rs => "rs"
  | rt => "rt"
  | rd => "rd"
  | sa => "sa"
  | func => "func"
  | immediate => "immediate"
  | address => "address"

/-- The most significant bit of the part. -/
def high : Part → Nat
  | op => 31
  | rs => 25
  | rt => 20
  | rd => 15
  | sa => 10
  | func => 5
  | immediate => 15
  | address => 25

/-- The least significant bit of the part. -/
def low : Part → Nat
  | op => 26
  | rs => 21
  | rt => 16
  | rd => 11
  | sa => 6
  | func | immediate | address => 0

def width (p : Part) : Nat := p.high - p.low + 1

/-- The bits of a word that make up the part. -/
def slice (p : Part) (w : Nat) : BitVec p.width := (BitVec.ofNat 32 w).extractLsb' p.low p.width

/-- The number that the part of a word holds. The immediate value is in two's complement. -/
def read (p : Part) (w : Nat) : Int := if p = immediate then (p.slice w).toInt else (p.slice w).toNat

/-- Whether the part holds the number of a register. -/
def isRegister : Part → Bool
  | rs | rt | rd => true
  | op | sa | func | immediate | address => false

/-- A field without a value in the place of the part. -/
def field (p : Part) : Field := ⟨p.name, none, none⟩

/-- Each part starts right above the ones after it. -/
def Stacked : List Part → Prop
  | [] => True
  | p :: rest => p.low = Field.totalWidth (rest.map field) ∧ Stacked rest

end Part

/-- The parts of a word from the most significant one down. -/
def Format.parts : Format → List Part
  | .r => [.op, .rs, .rt, .rd, .sa, .func]
  | .i => [.op, .rs, .rt, .immediate]
  | .j => [.op, .address]

/-- The part that each operand goes to. -/
def Mnemonic.operandParts : Mnemonic → List Part
  | add | sub | and | or | nor | slt => [.rd, .rs, .rt]
  | sll => [.rd, .rt, .sa]
  | jr => [.rs]
  | nop => []
  | lw | sw => [.rt, .immediate, .rs]
  | addi => [.rt, .rs, .immediate]
  | beq => [.rs, .rt, .immediate]
  | j => [.address]

def Literal.value? (token : String) : Option Int := (Literal.parse (some token) none).toOption

/-- What a literal stands for in the instruction at `address`. Targets are counted in instructions, the target of a
branch from the next one. -/
def Mnemonic.adjust (m : Mnemonic) (address v : Int) : Int :=
  match m with
  | beq => (v - (address + 4)) >>> (2 : Nat)
  | j => v >>> (2 : Nat)
  | _ => v

/-- What an operand of the instruction at `address` stands for. -/
def Mnemonic.operandValue? (m : Mnemonic) (address : Int) (p : Part) (token : String) : Option Int :=
  if p.isRegister then (Register.number? token).map Int.ofNat else (Literal.value? token).map (m.adjust address)

namespace Instruction

/-- The word holds the codes of the mnemonic, what the operands stand for, and zero in every other part. -/
structure Holds (m : Mnemonic) (address : Int) (operands : List (Option String)) (w : Nat) : Prop where
  op : Part.op.read w = m.opcode
  func : ∀ c, m.function? = some c → Part.func.read w = c
  arity : operands.length = m.operandParts.length
  operand : ∀ (i : Nat) p, m.operandParts[i]? = some p →
    ∃ token, operands[i]? = some (some token) ∧ m.operandValue? address p token = some (p.read w)
  unused : ∀ p ∈ m.format.parts, p ≠ .op → p ≠ .func → p ∉ m.operandParts → p.read w = 0

/-- The operands of two instructions say the same: they name the same registers, and literals stand for the same. -/
def Agree (m : Mnemonic) (address : Int) (operands operands' : List (Option String)) : Prop :=
  operands.length = operands'.length ∧ ∀ (i : Nat) p, m.operandParts[i]? = some p →
    ∃ token token' v, operands[i]? = some (some token) ∧ operands'[i]? = some (some token') ∧
      m.operandValue? address p token = some v ∧ m.operandValue? address p token' = some v ∧
      (p.isRegister = true → token = token')

/-- The instruction is `nop`, or a shift of register zero by nothing. -/
def Idle (mnemonic : Option String) (operands : List (Option String)) : Prop :=
  mnemonic = some "nop" ∧ operands = [] ∨
    ∃ token, mnemonic = some "sll" ∧ operands = [some "$zero", some "$zero", some token] ∧
      Literal.value? token = some 0

end Instruction

/-! ## Parts and fields -/

namespace Part

variable {p : Part} {ps : List Part} {f : Field} {fs : List Field} {line : Option Int} {w w' : Nat}

theorem field_width (h : f.name = p.name) : f.width = p.width := by
  rw [Field.width, h]
  cases p <;> rfl

theorem field_signed (h : f.name = p.name) : f.isSigned = decide (p = immediate) := by
  rw [Field.isSigned, h]
  cases p <;> rfl

theorem slice_toNat (hw : w < Field.capacity 32) :
    (p.slice w).toNat = w / Field.capacity p.low % Field.capacity p.width := by
  have hvalue : (BitVec.ofNat 32 w).toNat = w := (BitVec.toNat_ofNat w 32).trans (Nat.mod_eq_of_lt hw)
  rw [slice, BitVec.extractLsb'_toNat, hvalue, Nat.shiftRight_eq_div_pow, Field.capacity, Field.capacity,
    Nat.one_shiftLeft, Nat.one_shiftLeft]

theorem stacked (format : Format) : Stacked format.parts := by
  cases format <;> simp [Format.parts, Stacked, Field.totalWidth, Field.width, field, name, low]

/-- A part of a word holds the value of the field in its place. -/
theorem read_packed (before : List Field) (hs : Stacked ps) (hn : fs.map Field.name = ps.map name)
    (hw : w < Field.capacity 32) (h : Field.pack line (before ++ fs) = .ok w) :
    ∀ x ∈ ps.zip fs, x.2.value = some (x.1.read w) := by
  induction ps generalizing fs before with
  | nil => simp
  | cons p ps ih =>
    cases fs with
    | nil => simp
    | cons f fs =>
      obtain ⟨hlow, hs⟩ := hs
      rw [List.map_cons, List.map_cons, List.cons.injEq] at hn
      obtain ⟨hname, hn⟩ := hn
      rw [List.zip_cons_cons, List.forall_mem_cons]
      have hsnoc : Field.pack line (before ++ [f] ++ fs) = .ok w := by simpa using h
      refine ⟨?_, ih (before ++ [f]) hs hn hsnoc⟩
      obtain ⟨b, hb, hslice⟩ := Field.pack_slice h
      have htotal : Field.totalWidth fs = p.low := by
        rw [hlow]
        apply Field.totalWidth_congr
        rw [hn, List.map_map]
        rfl
      rw [htotal, field_width hname, ← slice_toNat hw] at hslice
      by_cases hp : p = immediate
      · rw [Field.bits_signed (by simp [field_signed hname, hp]) hb, read, if_pos hp, ← hslice, field_width hname]
        simp
      · rw [Field.bits_unsigned (by simp [field_signed hname, hp]) hb, read, if_neg hp, hslice]

/-- A word is told by its parts. -/
theorem eq_of_read (format : Format) (hw : w < Field.capacity 32) (hw' : w' < Field.capacity 32)
    (h : ∀ p ∈ format.parts, p.read w = p.read w') : w = w' := by
  have hslice : ∀ p ∈ format.parts,
      w / Field.capacity p.low % Field.capacity p.width = w' / Field.capacity p.low % Field.capacity p.width := by
    intro p hp
    rw [← slice_toNat hw, ← slice_toNat hw']
    have hread := h p hp
    unfold read at hread
    split at hread
    · rw [BitVec.toInt_inj.1 hread]
    · exact_mod_cast hread
  have h32 : Field.capacity 32 = 4294967296 := rfl
  rw [h32] at hw hw'
  cases format <;> simp [Format.parts, low, width, high, Field.capacity] at hslice <;> omega

end Part

/-! ## The parts of an instruction -/

namespace Mnemonic

/-- The slot that fills each part of the word. -/
def slots (m : Mnemonic) : List (Part × Slot) := m.format.parts.zip m.layout

def literalSource (m : Mnemonic) (i : Nat) : Source :=
  match m with
  | beq => .branch i
  | j => .jump i
  | _ => .literal i

/-- Where the value of an operand's part comes from. -/
def operandSource (m : Mnemonic) (p : Part) (i : Nat) : Source :=
  if p.isRegister then .register i else m.literalSource i

theorem layout_fields (m : Mnemonic) : m.layout.map Slot.field = m.format.parts.map Part.name := by
  cases m <;> rfl

theorem op_slot (m : Mnemonic) : (Part.op, ⟨"op", .constant (some m.opcode)⟩) ∈ m.slots := by
  cases m <;> decide

theorem func_slot (m : Mnemonic) {c : Nat} (h : m.function? = some c) :
    (Part.func, ⟨"func", .constant (some c)⟩) ∈ m.slots := by
  cases m <;> cases h <;> decide

theorem operand_slot (m : Mnemonic) : ∀ x ∈ m.operandParts.zipIdx,
    (x.1, ⟨x.1.name, m.operandSource x.1 x.2⟩) ∈ m.slots := by
  cases m <;> decide

theorem unused_slot (m : Mnemonic) : ∀ p ∈ m.format.parts, p ≠ .op → p ≠ .func → p ∉ m.operandParts →
    (p, ⟨p.name, .constant (some 0)⟩) ∈ m.slots := by
  cases m <;> decide

theorem length_operandParts (m : Mnemonic) : m.operandParts.length = m.arity := by
  cases m <;> rfl

/-- The codes tell the mnemonic, but for `nop` and the shift it stands for. -/
theorem eq_of_codes {m m' : Mnemonic} (hop : m.opcode = m'.opcode) (hfunc : m.function? = m'.function?) :
    m = m' ∨ m = nop ∧ m' = sll ∨ m = sll ∧ m' = nop := by
  cases m <;> cases m' <;> revert hop hfunc <;> decide

/-- A part holds the opcode or the function code, belongs to an operand, or is unused. -/
theorem part_cases {m : Mnemonic} {p : Part} (hp : p ∈ m.format.parts) :
    p = .op ∨ (p = .func ∧ ∃ c, m.function? = some c) ∨ (∃ i : Nat, m.operandParts[i]? = some p) ∨
      p ≠ .op ∧ p ≠ .func ∧ p ∉ m.operandParts := by
  by_cases hop : p = .op
  · exact .inl hop
  by_cases hfunc : p = .func
  · rw [hfunc] at hp
    have hsome : m.function?.isSome = true := by cases m <;> revert hp <;> decide
    exact .inr (.inl ⟨hfunc, Option.isSome_iff_exists.1 hsome⟩)
  by_cases hused : p ∈ m.operandParts
  · exact .inr (.inr (.inl (List.mem_iff_getElem?.1 hused)))
  · exact .inr (.inr (.inr ⟨hop, hfunc, hused⟩))

theorem function_isSome (m : Mnemonic) : m.function?.isSome = decide (m.opcode = 0) := by
  cases m <;> rfl

end Mnemonic

/-- The number of a register is its place among the names. -/
theorem Register.getElem_number {name : String} {n : Nat} (h : number? name = some n) : names[n]? = some name := by
  obtain ⟨hn, hname, -⟩ := List.findIdx?_eq_some_iff_getElem.1 h
  rw [decide_eq_true_eq] at hname
  rw [List.getElem?_eq_getElem hn, hname]

theorem Register.number_inj {name name' : String} {n : Nat} (h : number? name = some n)
    (h' : number? name' = some n) : name = name' :=
  Option.some.inj ((getElem_number h).symm.trans (getElem_number h'))

namespace Instruction

variable {m m' : Mnemonic} {mnemonic : Option String} {address : Int} {operands operands' : List (Option String)}
  {line : Option Int} {w w' : Nat}

theorem fieldsOf_names {fs : List Field} (hf : fieldsOf m address operands line = .ok fs) :
    fs.map Field.name = m.format.parts.map Part.name := by
  obtain ⟨-, hread, -⟩ := fieldsOf_ok hf
  rw [mapM_map (fun s f hs => (Slot.read_value hs).1) hread, Mnemonic.layout_fields]

/-- A word has 32 bits. -/
theorem word_lt {fs : List Field} (hf : fieldsOf m address operands line = .ok fs) (h : Field.pack line fs = .ok w) :
    w < Field.capacity 32 := by
  have htotal : Field.totalWidth fs = 32 := by
    have hnames : fs.map Field.name = (m.format.parts.map Part.field).map Field.name := by
      rw [fieldsOf_names hf, List.map_map]
      rfl
    rw [Field.totalWidth_congr hnames]
    cases m.format <;> simp [Format.parts, Field.totalWidth, Field.width, Part.field, Part.name]
  have hlt := Field.pack_lt h
  rwa [htotal] at hlt

/-- Every part of the word holds what its slot reads. -/
theorem slot_read {fs : List Field} {p : Part} {s : Slot} (hf : fieldsOf m address operands line = .ok fs)
    (h : Field.pack line fs = .ok w) (hs : (p, s) ∈ m.slots) :
    ∃ f ∈ fs, s.read address operands line = .ok f ∧ f.value = some (p.read w) := by
  obtain ⟨-, hread, -⟩ := fieldsOf_ok hf
  obtain ⟨f, hmem, hsf⟩ := mapM_zip hread hs
  exact ⟨f, (List.of_mem_zip hmem).2, hsf,
    Part.read_packed [] (Part.stacked m.format) (fieldsOf_names hf) (word_lt hf h) h (p, f) hmem⟩

/-- A slot that does not read an operand gives its constant. -/
theorem constant_read {fs : List Field} {p : Part} {name : String} {n : Nat}
    (hf : fieldsOf m address operands line = .ok fs) (h : Field.pack line fs = .ok w)
    (hs : (p, ⟨name, .constant (some n)⟩) ∈ m.slots) : p.read w = n := by
  obtain ⟨f, -, hread, hvalue⟩ := slot_read hf h hs
  cases hread
  exact (Option.some.inj hvalue).symm

theorem value_of_parse {token : Option String} {v : Int} (h : Literal.parse token line = .ok v) :
    ∃ t, token = some t ∧ Literal.value? t = some v := by
  unfold Literal.parse at h
  split at h
  · cases h
  · rename_i s hs
    obtain ⟨t, rfl, ht⟩ := Option.bind_eq_some_iff.1 hs
    split at h
    · cases h
    · rename_i hshort
      split at h
      · rename_i hfits
        cases h
        refine ⟨t, rfl, ?_⟩
        simp [Literal.value?, Literal.parse, ht, hshort, hfits, Except.toOption]
      · cases h

theorem literal_slot {p : Part} (hp : p.isRegister = false) (name : String) (i : Nat) :
    Slot.read ⟨name, m.operandSource p i⟩ address operands line =
      (Literal.parse operands[i]?.join line).map fun v => ⟨name, some (m.adjust address v), operands[i]?.join⟩ := by
  rw [Mnemonic.operandSource, hp, if_neg Bool.false_ne_true]
  cases m <;> simp [Slot.read, literalField, Mnemonic.literalSource, Mnemonic.adjust, instructionSize]

/-- The part of an operand holds what the operand stands for, unless it is a register that is not known. -/
theorem operand_read {f : Field} {p : Part} {i : Nat} {v : Int}
    (h : Slot.read ⟨p.name, m.operandSource p i⟩ address operands line = .ok f)
    (hknown : f.isRegister = true → f.value ≠ some Register.unknown) (hv : f.value = some v) :
    ∃ token, operands[i]? = some (some token) ∧ m.operandValue? address p token = some v := by
  unfold Mnemonic.operandValue?
  cases hp : p.isRegister with
  | true =>
    rw [Mnemonic.operandSource, hp, if_pos rfl] at h
    cases h
    have hreg : (registerField p.name operands[i]?.join).isRegister = true := by
      cases p <;> first | rfl | cases hp
    have hnumber : Register.numberOf operands[i]?.join ≠ Register.unknown := fun hn => hknown hreg (congrArg some hn)
    obtain ⟨n, hn⟩ := Option.ne_none_iff_exists'.1 (mt Register.numberOf_unknown.2 hnumber)
    obtain rfl : (n : Int) = v := by
      simpa [registerField, Register.numberOf, hn] using hv
    cases htoken : operands[i]?.join with
    | none => rw [htoken] at hn; cases hn
    | some token =>
      rw [htoken] at hn
      exact ⟨token, Option.join_eq_some_iff.1 htoken, Option.map_eq_some_iff.2 ⟨n, hn, rfl⟩⟩
  | false =>
    rw [literal_slot hp] at h
    cases hparse : Literal.parse operands[i]?.join line with
    | error e => rw [hparse] at h; cases h
    | ok u =>
      rw [hparse] at h
      cases h
      obtain ⟨token, htoken, hu⟩ := value_of_parse hparse
      refine ⟨token, Option.join_eq_some_iff.1 htoken, ?_⟩
      rw [if_neg Bool.false_ne_true, hu]
      exact hv

/-- The word of an instruction holds the instruction. -/
theorem word_holds {fs : List Field} (hf : fieldsOf m address operands line = .ok fs)
    (h : Field.pack line fs = .ok w) : Holds m address operands w where
  op := constant_read hf h m.op_slot
  func := by
    intro c hc
    exact constant_read hf h (m.func_slot hc)
  arity := by
    obtain ⟨harity, -⟩ := fieldsOf_ok hf
    rw [harity, m.length_operandParts]
  operand := by
    intro i p hp
    have hslot := m.operand_slot (p, i) (List.mk_mem_zipIdx_iff_getElem?.2 hp)
    obtain ⟨f, hmem, hread, hvalue⟩ := slot_read hf h hslot
    obtain ⟨-, -, hknown⟩ := fieldsOf_ok hf
    exact operand_read hread (hknown f hmem) hvalue
  unused := by
    intro p hp hop hfunc hunused
    exact constant_read hf h (m.unused_slot p hp hop hfunc hunused)

/-! ## The instruction of a word -/

theorem Holds.codes (h : Holds m address operands w) (h' : Holds m' address operands' w) :
    m.opcode = m'.opcode ∧ m.function? = m'.function? := by
  have hop : m.opcode = m'.opcode := by
    have := h.op.symm.trans h'.op
    omega
  refine ⟨hop, ?_⟩
  have hsome : m.function?.isSome = m'.function?.isSome := by
    rw [Mnemonic.function_isSome, Mnemonic.function_isSome, hop]
  cases hc : m.function? with
  | none =>
    rw [hc] at hsome
    exact (Option.not_isSome_iff_eq_none.1 (by simp [← hsome])).symm
  | some c =>
    rw [hc] at hsome
    obtain ⟨c', hc'⟩ := Option.isSome_iff_exists.1 hsome.symm
    have := (h.func c hc).symm.trans (h'.func c' hc')
    rw [hc', Option.some_inj]
    omega

theorem Holds.agree (h : Holds m address operands w) (h' : Holds m address operands' w) :
    Agree m address operands operands' := by
  refine ⟨h.arity.trans h'.arity.symm, fun i p hp => ?_⟩
  obtain ⟨token, htoken, hv⟩ := h.operand i p hp
  obtain ⟨token', htoken', hv'⟩ := h'.operand i p hp
  refine ⟨token, token', _, htoken, htoken', hv, hv', fun hreg => ?_⟩
  rw [Mnemonic.operandValue?, if_pos hreg, Option.map_eq_some_iff] at hv hv'
  obtain ⟨n, hn, hval⟩ := hv
  obtain ⟨n', hn', hval'⟩ := hv'
  obtain rfl := Int.ofNat.inj (hval.trans hval'.symm)
  exact Register.number_inj hn hn'

/-- Two words of a mnemonic that hold the same for each operand are the same. -/
theorem Holds.eq_of_operands {address' : Int} (h : Holds m address operands w) (h' : Holds m address' operands' w')
    (hread : ∀ (i : Nat) p, m.operandParts[i]? = some p → p.read w = p.read w') (hw : w < Field.capacity 32)
    (hw' : w' < Field.capacity 32) : w = w' := by
  refine Part.eq_of_read m.format hw hw' fun p hp => ?_
  rcases Mnemonic.part_cases hp with rfl | ⟨rfl, c, hc⟩ | ⟨i, hi⟩ | ⟨hop, hfunc, hunused⟩
  · rw [h.op, h'.op]
  · rw [h.func c hc, h'.func c hc]
  · exact hread i p hi
  · rw [h.unused p hp hop hfunc hunused, h'.unused p hp hop hfunc hunused]

/-- Instructions whose operands say the same have the same word. -/
theorem Holds.eq_of_agree (h : Holds m address operands w) (h' : Holds m address operands' w')
    (hagree : Agree m address operands operands') (hw : w < Field.capacity 32)
    (hw' : w' < Field.capacity 32) : w = w' := by
  refine h.eq_of_operands h' (fun i p hi => ?_) hw hw'
  obtain ⟨token, htoken, hread⟩ := h.operand i p hi
  obtain ⟨token', htoken', hread'⟩ := h'.operand i p hi
  obtain ⟨t, t', v, ht, ht', hv, hv', -⟩ := hagree.2 i p hi
  rw [htoken] at ht
  rw [htoken'] at ht'
  cases ht
  cases ht'
  rw [hread] at hv
  rw [hread'] at hv'
  rw [Option.some.inj hv, Option.some.inj hv']

theorem zero_of_register {p : Part} {token : String} (hp : p.isRegister = true)
    (h : m.operandValue? address p token = some 0) : token = "$zero" := by
  rw [Mnemonic.operandValue?, if_pos hp, Option.map_eq_some_iff] at h
  obtain ⟨n, hn, hzero⟩ := h
  obtain rfl : n = 0 := Int.ofNat.inj hzero
  exact Register.number_inj hn (by decide)

/-- A shift that leaves every part of the word zero is one of register zero by nothing. -/
theorem Holds.idle (h : Holds .sll address operands w) (h' : Holds .nop address operands' w) :
    Idle (some "sll") operands := by
  have hzero : ∀ p ∈ Mnemonic.nop.format.parts, p ≠ .op → p ≠ .func → p.read w = 0 :=
    fun p hp hop hfunc => h'.unused p hp hop hfunc (by simp [Mnemonic.operandParts])
  obtain ⟨rd, hrd, hd⟩ := h.operand 0 .rd rfl
  obtain ⟨rt, hrt, ht⟩ := h.operand 1 .rt rfl
  obtain ⟨sa, hsa, ha⟩ := h.operand 2 .sa rfl
  rw [hzero _ (by decide) (by decide) (by decide)] at hd ht ha
  obtain rfl := zero_of_register rfl hd
  obtain rfl := zero_of_register rfl ht
  refine .inr ⟨sa, rfl, ?_, ?_⟩
  · have hlen : operands.length = 3 := h.arity
    match operands, hlen with
    | [_, _, _], _ =>
      cases hrd
      cases hrt
      cases hsa
      rfl
  · obtain ⟨v, hv, rfl⟩ := Option.map_eq_some_iff.1 ha
    exact hv

theorem Idle.operand_zero {i : Nat} {p : Part} {token : String} {v : Int} (h : Idle (some m.name) operands)
    (hp : m.operandParts[i]? = some p) (ht : operands[i]? = some (some token))
    (hv : m.operandValue? address p token = some v) : v = 0 := by
  rcases h with ⟨-, rfl⟩ | ⟨t, hname, rfl, ht0⟩
  · cases ht
  · obtain rfl : m = .sll := Mnemonic.name_inj (Option.some.inj hname)
    match i, hp, ht with
    | 0, rfl, rfl => exact (Option.some.inj hv).symm
    | 1, rfl, rfl => exact (Option.some.inj hv).symm
    | 2, rfl, rfl =>
      obtain ⟨u, hu, rfl⟩ := Option.map_eq_some_iff.1 hv
      exact Option.some.inj (hu.symm.trans ht0)

/-- The word of an instruction that does nothing is zero. -/
theorem Holds.eq_zero (h : Holds m address operands w) (hidle : Idle (some m.name) operands)
    (hw : w < Field.capacity 32) : w = 0 := by
  have hcodes : m.opcode = 0 ∧ m.function? = some 0 := by
    rcases hidle with ⟨hname, -⟩ | ⟨-, hname, -⟩
    · obtain rfl : m = .nop := Mnemonic.name_inj (Option.some.inj hname)
      decide
    · obtain rfl : m = .sll := Mnemonic.name_inj (Option.some.inj hname)
      decide
  have hread : ∀ p : Part, p.read 0 = 0 := by
    intro p
    cases p <;> decide
  refine Part.eq_of_read m.format hw (by decide) fun p hp => ?_
  rw [hread]
  rcases Mnemonic.part_cases hp with rfl | ⟨rfl, -⟩ | ⟨i, hi⟩ | ⟨hop, hfunc, hunused⟩
  · rw [h.op, hcodes.1]
    rfl
  · exact h.func 0 hcodes.2
  · obtain ⟨token, htoken, hv⟩ := h.operand i p hi
    exact hidle.operand_zero hi htoken hv
  · exact h.unused p hp hop hfunc hunused

/-- A word has 32 bits and holds the instruction it was made from. No other instruction at the address has this word,
but for `nop` and the shift of register zero by nothing. -/
theorem word_decodes (h : word mnemonic address operands line = .ok w) :
    w < 0x100000000 ∧ ∃ m : Mnemonic, mnemonic = some m.name ∧ Holds m address operands w ∧
      ∀ mnemonic' operands' line' w', word mnemonic' address operands' line' = .ok w' →
        (w = w' ↔ mnemonic = mnemonic' ∧ Agree m address operands operands' ∨
          mnemonic ≠ mnemonic' ∧ Idle mnemonic operands ∧ Idle mnemonic' operands') := by
  obtain ⟨m, fs, rfl, hf, hpack⟩ := word_ok h
  have hw := word_lt hf hpack
  have hholds := word_holds hf hpack
  refine ⟨hw, m, rfl, hholds, ?_⟩
  intro mnemonic' operands' line' w' h'
  obtain ⟨m', fs', rfl, hf', hpack'⟩ := word_ok h'
  have hw' := word_lt hf' hpack'
  have hholds' := word_holds hf' hpack'
  constructor
  · rintro rfl
    obtain ⟨hop, hfunc⟩ := hholds.codes hholds'
    rcases Mnemonic.eq_of_codes hop hfunc with rfl | ⟨rfl, rfl⟩ | ⟨rfl, rfl⟩
    · exact .inl ⟨rfl, hholds.agree hholds'⟩
    · have hnone : operands = [] := List.eq_nil_of_length_eq_zero hholds.arity
      exact .inr ⟨by decide, .inl ⟨rfl, hnone⟩, hholds'.idle hholds⟩
    · have hnone : operands' = [] := List.eq_nil_of_length_eq_zero hholds'.arity
      exact .inr ⟨by decide, hholds.idle hholds', .inl ⟨rfl, hnone⟩⟩
  · rintro (⟨hname, hagree⟩ | ⟨-, hidle, hidle'⟩)
    · obtain rfl := Mnemonic.name_inj (Option.some.inj hname)
      exact hholds.eq_of_agree hholds' hagree hw hw'
    · rw [hholds.eq_zero hidle hw, hholds'.eq_zero hidle' hw']

/-- A branch back over two instructions. -/
theorem word_decodes_of_branch_back :
    word (some "beq") 8 [some "$t0", some "$t1", some "0"] (some 3) = .ok 0x1109FFFD ∧
      (0x1109FFFD < 0x100000000 ∧ ∃ m : Mnemonic, some "beq" = some m.name ∧
        Holds m 8 [some "$t0", some "$t1", some "0"] 0x1109FFFD ∧
        ∀ mnemonic' operands' line' w', word mnemonic' 8 operands' line' = .ok w' →
          (0x1109FFFD = w' ↔
            some "beq" = mnemonic' ∧ Agree m 8 [some "$t0", some "$t1", some "0"] operands' ∨
            some "beq" ≠ mnemonic' ∧ Idle (some "beq") [some "$t0", some "$t1", some "0"] ∧
              Idle mnemonic' operands')) := by
  have h : word (some "beq") 8 [some "$t0", some "$t1", some "0"] (some 3) = .ok 0x1109FFFD := rfl
  exact ⟨h, word_decodes h⟩

end Instruction

end MipsAssembler
