import MipsAssembler.Assembler.Pass
import MipsAssembler.Proofs.Layout
import MipsAssembler.Proofs.Operand
import MipsAssembler.Proofs.Packing
/-!
# What an instruction gives

An instruction that cannot be encoded is refused, or one of its operands is a decimal literal that is too long
(`assemble_error`). In the word of one that can, the last field of its layout is what the word leaves modulo the
field's width (`word_last`).
-/

namespace MipsAssembler

/-! ## Mnemonics by name -/

namespace Mnemonic

theorem ofToken_some_name (m : Mnemonic) : ofToken? (some m.name) = some m := by
  cases m <;> decide

theorem ofToken_name {m : Mnemonic} {mnemonic : Option String} (h : ofToken? mnemonic = some m) :
    mnemonic = some m.name := by
  cases mnemonic with
  | none => cases h
  | some token =>
    have hname : m.name = token := by simpa using List.find?_some h
    rw [hname]

theorem name_inj {m m' : Mnemonic} (h : m.name = m'.name) : m = m' := by
  have hm := ofToken_some_name m
  rw [h, ofToken_some_name] at hm
  exact (Option.some.inj hm).symm

end Mnemonic

/-! ## Reading the fields -/

section

variable {α β ε : Type} {f : α → Except ε β}

theorem mapM_error {l : List α} {e : ε} (h : l.mapM f = .error e) : ∃ x ∈ l, f x = .error e := by
  induction l with
  | nil => cases h
  | cons x rest ih =>
    rw [List.mapM_cons] at h
    cases hx : f x with
    | error e' =>
      rw [hx] at h
      cases h
      exact ⟨x, List.mem_cons_self, hx⟩
    | ok y =>
      rw [hx] at h
      cases hrest : rest.mapM f with
      | error e' =>
        rw [hrest] at h
        cases h
        obtain ⟨z, hz, hze⟩ := ih hrest
        exact ⟨z, List.mem_cons_of_mem x hz, hze⟩
      | ok ys => rw [hrest] at h; cases h

theorem mapM_cons_ok {l : List α} {x : α} {ys : List β} (h : (x :: l).mapM f = .ok ys) :
    ∃ y rest, f x = .ok y ∧ l.mapM f = .ok rest ∧ ys = y :: rest := by
  rw [List.mapM_cons] at h
  cases hx : f x with
  | error e => rw [hx] at h; cases h
  | ok y =>
    rw [hx] at h
    cases hl : l.mapM f with
    | error e => rw [hl] at h; cases h
    | ok rest =>
      rw [hl] at h
      cases h
      exact ⟨y, rest, rfl, rfl, rfl⟩

theorem mapM_snoc_ok {l : List α} {x : α} {ys : List β} (h : (l ++ [x]).mapM f = .ok ys) :
    ∃ zs y, l.mapM f = .ok zs ∧ f x = .ok y ∧ ys = zs ++ [y] := by
  induction l generalizing ys with
  | nil =>
    obtain ⟨y, rest, hx, hrest, rfl⟩ := mapM_cons_ok h
    cases hrest
    exact ⟨[], y, rfl, hx, rfl⟩
  | cons x' l ih =>
    obtain ⟨y', rest, hx', hrest, rfl⟩ := mapM_cons_ok h
    obtain ⟨zs, y, hl, hx, rfl⟩ := ih hrest
    exact ⟨y' :: zs, y, by rw [List.mapM_cons, hx', hl]; rfl, hx, rfl⟩

theorem mapM_mem {l : List α} {ys : List β} {y : β} (h : l.mapM f = .ok ys) (hy : y ∈ ys) : ∃ x ∈ l, f x = .ok y := by
  induction l generalizing ys with
  | nil =>
    cases h
    cases hy
  | cons x l ih =>
    obtain ⟨z, rest, hx, hrest, rfl⟩ := mapM_cons_ok h
    rcases List.mem_cons.1 hy with rfl | hy
    · exact ⟨x, List.mem_cons_self, hx⟩
    · obtain ⟨u, hu, huy⟩ := ih hrest hy
      exact ⟨u, List.mem_cons_of_mem x hu, huy⟩

/-- One error is enough for all. -/
theorem mapM_error_of_mem {l : List α} {x : α} {e : ε} (hx : x ∈ l) (he : f x = .error e)
    (hall : ∀ y ∈ l, ∀ e', f y = .error e' → e' = e) : l.mapM f = .error e := by
  cases h : l.mapM f with
  | error e' =>
    obtain ⟨y, hy, hye⟩ := mapM_error h
    rw [hall y hy e' hye]
  | ok ys =>
    exfalso
    clear hall
    induction l generalizing ys with
    | nil => cases hx
    | cons z l ih =>
      obtain ⟨y, rest, hz, hrest, rfl⟩ := mapM_cons_ok h
      rcases List.mem_cons.1 hx with rfl | hx
      · rw [he] at hz
        cases hz
      · exact ih hx rest hrest

theorem mapM_map {γ : Type} {l : List α} {ys : List β} {g : β → γ} {k : α → γ} (hf : ∀ x y, f x = .ok y → g y = k x)
    (h : l.mapM f = .ok ys) : ys.map g = l.map k := by
  induction l generalizing ys with
  | nil =>
    cases h
    rfl
  | cons x l ih =>
    obtain ⟨y, rest, hx, hrest, rfl⟩ := mapM_cons_ok h
    rw [List.map_cons, List.map_cons, hf x y hx, ih hrest]

theorem mapM_zip {γ : Type} {l : List α} {ys : List β} {cs : List γ} {c : γ} {x : α} (h : l.mapM f = .ok ys)
    (hx : (c, x) ∈ cs.zip l) : ∃ y, (c, y) ∈ cs.zip ys ∧ f x = .ok y := by
  induction l generalizing ys cs with
  | nil => simp at hx
  | cons x' l ih =>
    obtain ⟨y', rest, hx', hrest, rfl⟩ := mapM_cons_ok h
    cases cs with
    | nil => simp at hx
    | cons c' cs =>
      rw [List.zip_cons_cons, List.mem_cons] at hx
      rcases hx with hhead | htail
      · cases hhead
        exact ⟨y', by simp, hx'⟩
      · obtain ⟨y, hy, hfy⟩ := ih hrest htail
        exact ⟨y, List.mem_cons_of_mem _ hy, hfy⟩

/-- Searching what was read for a key is searching what stands for it. -/
theorem mapM_find {γ δ : Type} {l : List α} {ys : List β} {cs : List γ} {bad : β → Bool} {key : β → δ}
    {g : γ → Option δ} (hlen : cs.length = l.length)
    (hf : ∀ x ∈ cs.zip l, ∀ y, f x.2 = .ok y → (if bad y then some (key y) else none) = g x.1)
    (h : l.mapM f = .ok ys) : (ys.find? bad).map key = cs.findSome? g := by
  induction l generalizing cs ys with
  | nil =>
    cases h
    rw [List.length_eq_zero_iff.1 hlen]
    rfl
  | cons x l ih =>
    obtain ⟨y, rest, hx, hrest, rfl⟩ := mapM_cons_ok h
    cases cs with
    | nil => cases hlen
    | cons c cs =>
      have hy := hf (c, x) (by simp) y hx
      have htail := ih (Nat.succ.inj hlen) (fun x' hx' => hf x' (List.mem_cons_of_mem _ hx')) hrest
      rw [List.find?_cons, List.findSome?_cons, ← hy]
      cases bad y with
      | true => rfl
      | false => exact htail

end

/-- The operand that a source takes as a literal. -/
def Source.literal? : Source → Option Nat
  | .constant _ | .register _ => none
  | .literal i | .branch i | .jump i => some i

/-- An operand is a decimal literal that is too long, and this is what it gives. -/
def LongLiteral (operands : List (Option String)) (e : Fault) : Prop :=
  ∃ token n, some token ∈ operands ∧ Literal.TooLong token n ∧ e = .literalTooLong n

variable {address : Int} {operands : List (Option String)} {line : Option Int} {e : Fault}

theorem Slot.read_other {s : Slot} (h : s.source.literal? = none) (address : Int) (operands : List (Option String))
    (line : Option Int) : ∃ f, s.read address operands line = .ok f := by
  unfold Slot.read
  cases hs : s.source with
  | constant | register => exact ⟨_, rfl⟩
  | literal | branch | jump => rw [hs] at h; cases h

theorem Slot.read_literal {s : Slot} {i : Nat} (h : s.source.literal? = some i) : ∃ adjust : Int → Int,
    s.read address operands line = (Literal.parse operands[i]?.join line).map
      fun v => ⟨s.field, some (adjust v), operands[i]?.join⟩ := by
  unfold Slot.read
  cases hs : s.source with
  | constant | register => rw [hs] at h; cases h
  | literal | branch | jump =>
    rw [hs] at h
    cases h
    exact ⟨_, rfl⟩

theorem Slot.read_error {s : Slot} (h : s.read address operands line = .error e) :
    (∃ cause, e = .refused cause line) ∨ LongLiteral operands e := by
  cases hs : s.source.literal? with
  | none =>
    obtain ⟨f, hf⟩ := Slot.read_other hs address operands line
    rw [hf] at h
    cases h
  | some i =>
    obtain ⟨adjust, hread⟩ := Slot.read_literal hs
    rw [hread] at h
    cases hp : Literal.parse operands[i]?.join line with
    | ok v => rw [hp] at h; cases h
    | error e' =>
      rw [hp] at h
      cases h
      rcases Literal.parse_error hp with rfl | ⟨token, n, ht, hlong, rfl⟩
      · exact .inl ⟨_, rfl⟩
      · have hmem : some token ∈ operands := List.mem_of_getElem? (Option.join_eq_some_iff.1 ht)
        exact .inr ⟨token, n, hmem, hlong, rfl⟩

/-- Only a constant can be without a value. -/
theorem Slot.read_value {s : Slot} {f : Field} (h : s.read address operands line = .ok f) :
    f.name = s.field ∧ (f.value = none → s.source = .constant none) := by
  unfold Slot.read at h
  cases hs : s.source with
  | constant n =>
    simp only [hs] at h
    cases h
    refine ⟨rfl, fun hv => ?_⟩
    rw [Option.map_eq_none_iff.1 hv]
  | register i =>
    simp only [hs] at h
    cases h
    exact ⟨rfl, nofun⟩
  | literal i | branch i | jump i =>
    simp only [hs, Instruction.literalField] at h
    cases hp : Literal.parse operands[i]?.join line with
    | error e => rw [hp] at h; cases h
    | ok v =>
      rw [hp] at h
      cases h
      exact ⟨rfl, nofun⟩

/-- Every register instruction has a function code, so no constant of a layout is missing. -/
theorem layout_valued (m : Mnemonic) : ∀ s ∈ m.layout, s.source ≠ .constant none := by
  cases m <;> decide

namespace Instruction

theorem fieldsOf_ok {m : Mnemonic} {fs : List Field} (h : fieldsOf m address operands line = .ok fs) :
    operands.length = m.arity ∧ m.layout.mapM (Slot.read · address operands line) = .ok fs ∧
      ∀ f ∈ fs, f.isRegister = true → f.value ≠ some Register.unknown := by
  rw [fieldsOf_eq] at h
  split at h
  · cases h
  · rename_i hfew
    split at h
    · cases h
    · rename_i fs' hread
      split at h
      · cases h
      · rename_i hknown
        split at h
        · cases h
        · rename_i hmany
          cases h
          refine ⟨by omega, hread, fun f hf hr hv => ?_⟩
          have := List.find?_eq_none.1 hknown f hf
          simp [hr, hv] at this

/-- An instruction without fields is refused, or has enough operands and one that cannot be read. -/
theorem fieldsOf_failed {m : Mnemonic} (h : fieldsOf m address operands line = .error e) :
    (∃ cause, e = .refused cause line) ∨
      m.arity ≤ operands.length ∧ ∃ s ∈ m.layout, s.read address operands line = .error e := by
  rw [fieldsOf_eq] at h
  split at h
  · cases h
    exact .inl ⟨_, rfl⟩
  · rename_i hfew
    split at h
    · rename_i hread
      cases h
      exact .inr ⟨Nat.le_of_not_lt hfew, mapM_error hread⟩
    · split at h
      · cases h
        exact .inl ⟨_, rfl⟩
      · split at h
        · cases h
          exact .inl ⟨_, rfl⟩
        · cases h

/-- No field is without a value when it comes to packing. -/
theorem fieldsOf_values {m : Mnemonic} {fs : List Field} (h : fieldsOf m address operands line = .ok fs) :
    ∀ f ∈ fs, f.value ≠ none := by
  intro f hf hv
  obtain ⟨-, hread, -⟩ := fieldsOf_ok h
  obtain ⟨s, hs, hsf⟩ := mapM_mem hread hf
  exact layout_valued m s hs ((Slot.read_value hsf).2 hv)

theorem fields_ok {mnemonic : Option String} {fs : List Field} (h : fields mnemonic address operands line = .ok fs) :
    ∃ m, mnemonic = some (Mnemonic.name m) ∧ fieldsOf m address operands line = .ok fs := by
  unfold fields at h
  cases hm : Mnemonic.ofToken? mnemonic with
  | none => rw [hm] at h; cases h
  | some m =>
    rw [hm] at h
    exact ⟨m, Mnemonic.ofToken_name hm, h⟩

theorem word_ok {mnemonic : Option String} {w : Nat} (h : word mnemonic address operands line = .ok w) :
    ∃ m fs, mnemonic = some (Mnemonic.name m) ∧ fieldsOf m address operands line = .ok fs ∧
      Field.pack line fs = .ok w := by
  unfold word at h
  cases hf : fields mnemonic address operands line with
  | error e => rw [hf] at h; cases h
  | ok fs =>
    rw [hf] at h
    obtain ⟨m, hm, hfields⟩ := fields_ok hf
    exact ⟨m, fs, hm, hfields, h⟩

/-- An instruction without a word is refused, or its mnemonic is known and its fields cannot be read. -/
theorem word_failed {mnemonic : Option String} (h : word mnemonic address operands line = .error e) :
    (∃ cause, e = .refused cause line) ∨
      ∃ m, mnemonic = some (Mnemonic.name m) ∧ fieldsOf m address operands line = .error e := by
  unfold word fields at h
  cases hm : Mnemonic.ofToken? mnemonic with
  | none =>
    simp only [hm] at h
    cases h
    exact .inl ⟨_, rfl⟩
  | some m =>
    simp only [hm] at h
    cases hf : fieldsOf m address operands line with
    | error e' =>
      simp only [hf] at h
      cases h
      exact .inr ⟨m, Mnemonic.ofToken_name hm, hf⟩
    | ok fs =>
      simp only [hf] at h
      obtain ⟨f, hmem, hbits⟩ := Field.pack_error h
      rcases Field.bits_error hbits with hv | hc
      · exact absurd hv (fieldsOf_values hf f hmem)
      · exact .inl hc

theorem word_error {mnemonic : Option String} (h : word mnemonic address operands line = .error e) :
    (∃ cause, e = .refused cause line) ∨ LongLiteral operands e := by
  rcases word_failed h with hc | ⟨m, -, hf⟩
  · exact .inl hc
  · rcases fieldsOf_failed hf with hc | ⟨-, s, -, hs⟩
    · exact .inl hc
    · exact Slot.read_error hs

/-- The last field of a word, and the operands it takes. -/
theorem word_last {m : Mnemonic} {mnemonic : String} {s : Slot} {w : Nat}
    (hm : Mnemonic.ofToken? (some mnemonic) = some m) (hl : m.layout.getLast? = some s)
    (h : word (some mnemonic) address operands line = .ok w) :
    operands.length = m.arity ∧
      ∃ f b, s.read address operands line = .ok f ∧ f.bits line = .ok b ∧ w % Field.capacity f.width = b := by
  obtain ⟨m', fs, hname, hf, hpack⟩ := word_ok h
  rw [hname, Mnemonic.ofToken_some_name] at hm
  cases hm
  obtain ⟨harity, hread, -⟩ := fieldsOf_ok hf
  obtain ⟨slots, hslots⟩ := List.getLast?_eq_some_iff.1 hl
  rw [hslots] at hread
  obtain ⟨fs', f, -, hs, rfl⟩ := mapM_snoc_ok hread
  obtain ⟨b, hb, hw⟩ := Field.pack_last hpack
  exact ⟨harity, f, b, hs, hb, hw⟩

/-! ## Arguments and all -/

variable {t : SymbolTable} {mnemonic : String} {tokens : List String}

theorem assemble_ok {w : Nat} : assemble t address line mnemonic tokens = .ok w ↔ ∃ operands,
    Operand.resolve t line tokens = .ok operands ∧ word (some mnemonic) address (operands.map some) line = .ok w := by
  rw [assemble]
  cases Operand.resolve t line tokens <;> simp

/-- An instruction that cannot be assembled is refused, or an operand is a decimal literal that is too long. -/
theorem assemble_error (h : assemble t address line mnemonic tokens = .error e) :
    (∃ cause, e = .refused cause line) ∨
      ∃ operands, Operand.resolve t line tokens = .ok operands ∧ LongLiteral (operands.map some) e := by
  unfold assemble at h
  cases hr : Operand.resolve t line tokens with
  | error e' =>
    rw [hr] at h
    cases h
    obtain ⟨name, rfl⟩ := Operand.resolve_error hr
    exact .inl ⟨_, rfl⟩
  | ok operands =>
    rw [hr] at h
    exact (word_error h).imp_right fun hlong => ⟨operands, rfl, hlong⟩

/-- The last field of an instruction whose last argument is a label. -/
theorem assemble_label {m : Mnemonic} {slot : Slot} {token : String} {w : Nat}
    (hm : Mnemonic.ofToken? (some mnemonic) = some m) (hl : m.layout.getLast? = some slot)
    (ht : tokens.getLast? = some token) (href : Operand.isLabelReference token = true)
    (h : assemble t address line mnemonic tokens = .ok w) :
    ∃ s, t.lookup token = some s ∧ ∃ operands f b,
      operands[m.arity - 1]?.join = some (Text.decimal s.address) ∧ slot.read address operands line = .ok f ∧
      f.bits line = .ok b ∧ w % Field.capacity f.width = b := by
  obtain ⟨tokens, rfl⟩ := List.getLast?_eq_some_iff.1 ht
  obtain ⟨operands, hr, hword⟩ := assemble_ok.1 h
  obtain ⟨s, before, hs, rfl⟩ := Operand.resolve_snoc_label href hr
  obtain ⟨harity, f, b, hread, hbits, hw⟩ := word_last hm hl hword
  have hlen : m.arity - 1 = before.length := by
    rw [← harity]
    simp
  exact ⟨s, hs, _, f, b, by simp [hlen], hread, hbits, hw⟩

theorem field_decimal {n : Int} {make : Int → Field} {f : Field}
    (h : (Literal.parse (some (Text.decimal n)) line).map make = .ok f) : f = make n := by
  cases hp : Literal.parse (some (Text.decimal n)) line with
  | error e => rw [hp] at h; cases h
  | ok v =>
    rw [hp, Literal.parse_decimal hp] at h
    cases h
    rfl

/-- A literal that is shifted by two bits counts instructions. -/
theorem literalField_instructions {name : String} {token : Option String} {base : Int} :
    literalField name token line 2 base =
      (Literal.parse token line).map fun v => ⟨name, some ((v - base) / 4), token⟩ := by
  simp only [literalField, Int.shiftRight_eq_div_pow]
  rfl

/-- A branch to a label holds the distance to its symbol, counted in instructions from the next one. -/
theorem assemble_branch {rs rt token : String} {w : Nat} (href : Operand.isLabelReference token = true)
    (h : assemble t address line "beq" [rs, rt, token] = .ok w) :
    ∃ s, t.lookup token = some s ∧ (BitVec.ofInt 16 w).toInt = (s.address - (address + 4)) / 4 := by
  have hlast : Mnemonic.beq.layout.getLast? = some ⟨"immediate", .branch 2⟩ := rfl
  obtain ⟨s, hs, operands, f, b, htoken, hread, hbits, hw⟩ := assemble_label rfl hlast rfl href h
  have htoken' : operands[2]?.join = some (Text.decimal s.address) := htoken
  simp only [Slot.read, htoken', literalField_instructions] at hread
  obtain rfl := field_decimal hread
  obtain ⟨d, hd, hfits, rfl⟩ := Field.bits_ok hbits
  cases hd
  obtain ⟨hlo, hhi⟩ : -32768 ≤ (s.address - (address + 4)) / 4 ∧ (s.address - (address + 4)) / 4 < 32768 :=
    (Field.fits_signed rfl).1 hfits
  have hw' : w % 65536 = ((s.address - (address + 4)) / 4 % 65536).toNat := hw
  refine ⟨s, hs, ?_⟩
  rw [BitVec.toInt_ofInt, Int.bmod_def]
  split <;> omega

/-- A jump to a label holds the address of its symbol, counted in instructions. -/
theorem assemble_jump {token : String} {w : Nat} (href : Operand.isLabelReference token = true)
    (h : assemble t address line "j" [token] = .ok w) :
    ∃ s, t.lookup token = some s ∧ (BitVec.ofInt 26 w).toNat = s.address / 4 := by
  have hlast : Mnemonic.j.layout.getLast? = some ⟨"address", .jump 0⟩ := rfl
  obtain ⟨s, hs, operands, f, b, htoken, hread, hbits, hw⟩ := assemble_label rfl hlast rfl href h
  have htoken' : operands[0]?.join = some (Text.decimal s.address) := htoken
  simp only [Slot.read, htoken', literalField_instructions, Int.sub_zero] at hread
  obtain rfl := field_decimal hread
  obtain ⟨d, hd, hfits, rfl⟩ := Field.bits_ok hbits
  cases hd
  obtain ⟨hlo, hhi⟩ : 0 ≤ s.address / 4 ∧ s.address / 4 < 67108864 := (Field.fits_unsigned rfl).1 hfits
  have hw' : w % 67108864 = (s.address / 4 % 67108864).toNat := hw
  refine ⟨s, hs, ?_⟩
  rw [BitVec.toNat_ofInt]
  omega

end Instruction

end MipsAssembler
