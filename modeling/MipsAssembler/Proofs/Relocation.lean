import MipsAssembler.Proofs.Appending
import MipsAssembler.Proofs.Decode
import MipsAssembler.Proofs.Targets
/-!
# Instructions in front of a source

`nop` lines in front of a source move its symbols and its instructions by the same distance. A word that was made from
registers and literals alone stays, and so does a branch to a label, since both ends move. A jump to a label grows by
the number of instructions. `assemble_relocated` says so for runs.
-/

namespace MipsAssembler

/-! ## Moved tables -/

/-- The symbol behind `k` more instructions, each on a line of its own. -/
def Symbol.shift (k : Nat) (x : Symbol) : Symbol :=
  { x with address := x.address + 4 * k, line := x.line.map (· + k) }

def StagedLabel.shift (k : Nat) (l : StagedLabel) : StagedLabel := { l with line := l.line.map (· + k) }

/-- The table with all its symbols behind `k` more instructions. -/
def SymbolTable.shift (k : Nat) (t : SymbolTable) : SymbolTable :=
  { t with symbols := t.symbols.map (·.shift k), staged := t.staged.map (·.shift k) }

theorem SymbolTable.lookup_shift (k : Nat) (t : SymbolTable) (name : String) :
    (t.shift k).lookup name = (t.lookup name).map (·.shift k) := by
  simp only [lookup, shift, List.find?_map, Function.comp_def, Symbol.shift]

/-! ## Operands -/

/-- What has the shape of a literal is no register. -/
theorem Register.number_literal {token : String} {s : Literal.Shape} (h : Literal.shape? token.toList = some s) :
    number? token = none := by
  have hshape : ∀ name ∈ names, Literal.shape? name.toList = none := by decide
  refine List.findIdx?_eq_none_iff.2 fun name hname => decide_eq_false ?_
  rintro rfl
  rw [hshape _ hname] at h
  cases h

theorem Register.number_decimal (n : Int) : number? (Text.decimal n) = none := by
  obtain ⟨s, hs, -⟩ := Literal.shape_decimal n
  exact number_literal hs

theorem Literal.value_decimal {n v : Int} (h : value? (Text.decimal n) = some v) : v = n := by
  unfold value? at h
  cases hp : parse (some (Text.decimal n)) none with
  | error e => rw [hp] at h; cases h
  | ok v' =>
    rw [hp] at h
    cases h
    exact parse_decimal hp

namespace Operand

variable {t t' : SymbolTable} {line line' : Option Int} {token rs rt name : String} {tokens operands : List String}

theorem resolveOne_ne_nil (h : resolveOne t line token = .ok operands) : operands ≠ [] := by
  rintro rfl
  rw [resolveOne_eq] at h
  split at h
  · cases h
  · split at h
    · split at h <;> cases h
    · cases h

/-- An argument that gives a register is no label, so it gives the same in all tables. -/
theorem register_stays {first first' : String} {n : Nat} (h : resolveOne t line token = .ok [first])
    (hn : Register.number? first = some n) (h' : resolveOne t' line' token = .ok [first']) : first' = first := by
  have hplain : isLabelReference token = false := by
    rw [Bool.eq_false_iff]
    intro hl
    obtain ⟨x, -, hx⟩ := resolveOne_label hl h
    cases hx
    rw [Register.number_decimal] at hn
    cases hn
  rw [(resolveOne_alike line line' (.plain hplain)).ok_right h] at h'
  cases h'
  rfl

/-- Arguments that are no labels give the same operands in all tables. -/
theorem resolve_plain (hl : ∀ token ∈ tokens, isLabelReference token = false)
    (h : resolve t line tokens = .ok operands) : resolve t' line' tokens = .ok operands :=
  (resolve_alike line line' (List.forall₂_same.2 fun token hmem => .plain (hl token hmem))).ok_right h

/-- The operand of a jump to a label. -/
theorem resolve_jump (hl : isLabelReference name = true) (h : resolve t line [name] = .ok operands) :
    ∃ x, t.lookup name = some x ∧ operands = [Text.decimal x.address] := by
  obtain ⟨first, more, hfirst, hmore, rfl⟩ := resolve_cons.1 h
  cases hmore
  obtain ⟨x, hx, rfl⟩ := resolveOne_label hl hfirst
  exact ⟨x, hx, rfl⟩

/-- The three operands of a branch to a label. -/
theorem resolve_branch (hl : isLabelReference name = true) (h : resolve t line [rs, rt, name] = .ok operands)
    (hlen : operands.length = 3) : ∃ first second x, resolveOne t line rs = .ok [first] ∧
      resolveOne t line rt = .ok [second] ∧ t.lookup name = some x ∧
      operands = [first, second, Text.decimal x.address] := by
  obtain ⟨f₁, more₁, h₁, hmore₁, rfl⟩ := resolve_cons.1 h
  obtain ⟨f₂, more₂, h₂, hmore₂, rfl⟩ := resolve_cons.1 hmore₁
  obtain ⟨x, hx, rfl⟩ := resolve_jump hl hmore₂
  have hpos₁ := List.length_pos_iff.2 (resolveOne_ne_nil h₁)
  have hpos₂ := List.length_pos_iff.2 (resolveOne_ne_nil h₂)
  simp only [List.length_append, List.length_cons, List.length_nil] at hlen
  obtain ⟨first, rfl⟩ := List.length_eq_one_iff.1 (show f₁.length = 1 by omega)
  obtain ⟨second, rfl⟩ := List.length_eq_one_iff.1 (show f₂.length = 1 by omega)
  exact ⟨first, second, x, h₁, h₂, hx, rfl⟩

end Operand

/-! ## Words -/

theorem Part.read_unsigned {p : Part} {w : Nat} (hp : p ≠ immediate) (hw : w < Field.capacity 32) :
    p.read w = (w / Field.capacity p.low % Field.capacity p.width : Nat) := by
  rw [read, if_neg hp, slice_toNat hw]

namespace Instruction

variable {t t' : SymbolTable} {address : Int} {line line' : Option Int} {mnemonic rs rt name : String}
  {tokens : List String} {w w' k : Nat}

theorem assemble_holds (h : assemble t address line mnemonic tokens = .ok w) : ∃ m operands,
    mnemonic = Mnemonic.name m ∧ Operand.resolve t line tokens = .ok operands ∧
      Holds m address (operands.map some) w ∧ w < Field.capacity 32 := by
  obtain ⟨operands, hops, hword⟩ := assemble_ok.1 h
  obtain ⟨m, fs, hm, hf, hpack⟩ := word_ok hword
  exact ⟨m, operands, Option.some.inj hm, hops, word_holds hf hpack, word_lt hf hpack⟩

/-- The part of an operand holds what the operand stands for. -/
theorem Holds.value {m : Mnemonic} {operands : List String} {i : Nat} {p : Part} {token : String}
    (h : Holds m address (operands.map some) w) (hp : m.operandParts[i]? = some p) (hi : operands[i]? = some token) :
    m.operandValue? address p token = some (p.read w) := by
  obtain ⟨token', htoken, hread⟩ := h.operand i p hp
  rw [List.getElem?_map, hi] at htoken
  cases htoken
  exact hread

theorem Holds.register {m : Mnemonic} {operands : List String} {i : Nat} {p : Part} {token : String}
    (h : Holds m address (operands.map some) w) (hp : m.operandParts[i]? = some p) (hr : p.isRegister = true)
    (hi : operands[i]? = some token) : ∃ n : Nat, Register.number? token = some n ∧ p.read w = n := by
  have hvalue := h.value hp hi
  rw [Mnemonic.operandValue?, if_pos hr, Option.map_eq_some_iff] at hvalue
  obtain ⟨n, hn, hread⟩ := hvalue
  exact ⟨n, hn, hread.symm⟩

theorem Holds.target {m : Mnemonic} {operands : List String} {i : Nat} {p : Part} {n : Int}
    (h : Holds m address (operands.map some) w) (hp : m.operandParts[i]? = some p) (hr : p.isRegister = false)
    (hi : operands[i]? = some (Text.decimal n)) : p.read w = m.adjust address n := by
  have hvalue := h.value hp hi
  rw [Mnemonic.operandValue?, hr, if_neg Bool.false_ne_true, Option.map_eq_some_iff] at hvalue
  obtain ⟨v, hv, hread⟩ := hvalue
  rw [← hread, Literal.value_decimal hv]

/-- Only a branch asks where it stands. -/
theorem assemble_plain {address' : Int} (hl : ∀ token ∈ tokens, Operand.isLabelReference token = false)
    (hm : mnemonic ≠ "beq") (h : assemble t address line mnemonic tokens = .ok w)
    (h' : assemble t' address' line' mnemonic tokens = .ok w') : w' = w := by
  obtain ⟨m, operands, rfl, hops, hholds, hw⟩ := assemble_holds h
  obtain ⟨m', operands', hm', hops', hholds', hw'⟩ := assemble_holds h'
  obtain rfl := Mnemonic.name_inj hm'
  rw [Operand.resolve_plain hl hops] at hops'
  cases hops'
  -- What a literal stands for depends on the address in a branch alone.
  have hvalue : ∀ p token, m.operandValue? address' p token = m.operandValue? address p token := by
    intro p token
    have hadjust : m.adjust address' = m.adjust address := by
      cases m with
      | beq => exact absurd rfl hm
      | _ => rfl
    rw [Mnemonic.operandValue?, Mnemonic.operandValue?, hadjust]
  refine hholds'.eq_of_operands hholds (fun i p hp => ?_) hw' hw
  obtain ⟨token, htoken, hread⟩ := hholds.operand i p hp
  obtain ⟨token', htoken', hread'⟩ := hholds'.operand i p hp
  rw [htoken] at htoken'
  cases htoken'
  rw [hvalue, hread] at hread'
  exact (Option.some.inj hread').symm

/-- A branch to a label and its target move together. -/
theorem assemble_branch_shift (hl : Operand.isLabelReference name = true)
    (h : assemble t address line "beq" [rs, rt, name] = .ok w)
    (h' : assemble (t.shift k) (address + 4 * k) line' "beq" [rs, rt, name] = .ok w') : w' = w := by
  obtain ⟨m, operands, hm, hops, hholds, hw⟩ := assemble_holds h
  obtain ⟨m', operands', hm', hops', hholds', hw'⟩ := assemble_holds h'
  obtain rfl : m = .beq := Mnemonic.name_inj hm.symm
  obtain rfl : m' = .beq := Mnemonic.name_inj hm'.symm
  obtain ⟨y, z, x, hy, hz, hx, rfl⟩ := Operand.resolve_branch hl hops ((List.length_map _).symm.trans hholds.arity)
  obtain ⟨y', z', x', hy', hz', hx', rfl⟩ :=
    Operand.resolve_branch hl hops' ((List.length_map _).symm.trans hholds'.arity)
  rw [SymbolTable.lookup_shift, hx] at hx'
  cases hx'
  -- Both registers are no labels, so they are the same in both tables. Only the target is another.
  obtain ⟨n, hn, hrs⟩ := hholds.register (i := 0) rfl rfl rfl
  obtain ⟨m, hm, hrt⟩ := hholds.register (i := 1) rfl rfl rfl
  obtain rfl := Operand.register_stays hy hn hy'
  obtain rfl := Operand.register_stays hz hm hz'
  obtain ⟨n', hn', hrs'⟩ := hholds'.register (i := 0) rfl rfl rfl
  obtain ⟨m', hm', hrt'⟩ := hholds'.register (i := 1) rfl rfl rfl
  obtain rfl := Option.some.inj (hn.symm.trans hn')
  obtain rfl := Option.some.inj (hm.symm.trans hm')
  have himm := hholds.target (i := 2) rfl rfl rfl
  have himm' := hholds'.target (i := 2) rfl rfl rfl
  have hsame : Mnemonic.beq.adjust (address + 4 * k) (x.shift k).address = Mnemonic.beq.adjust address x.address := by
    show (x.address + 4 * k - (address + 4 * k + 4)) >>> (2 : Nat) = (x.address - (address + 4)) >>> (2 : Nat)
    congr 1
    omega
  refine hholds'.eq_of_operands hholds (fun i p hp => ?_) hw' hw
  rcases i with _ | _ | _ | i <;> cases hp
  · rw [hrs', hrs]
  · rw [hrt', hrt]
  · rw [himm', himm, hsame]

/-- A jump to a label grows with its target, and stays a jump. -/
theorem assemble_jump_shift {address' : Int} (hl : Operand.isLabelReference name = true)
    (h : assemble t address line "j" [name] = .ok w)
    (h' : assemble (t.shift k) address' line' "j" [name] = .ok w') : w' = w + k := by
  obtain ⟨m, operands, hm, hops, hholds, hw⟩ := assemble_holds h
  obtain ⟨m', operands', hm', hops', hholds', hw'⟩ := assemble_holds h'
  obtain rfl : m = .j := Mnemonic.name_inj hm.symm
  obtain rfl : m' = .j := Mnemonic.name_inj hm'.symm
  obtain ⟨x, hx, rfl⟩ := Operand.resolve_jump hl hops
  obtain ⟨x', hx', rfl⟩ := Operand.resolve_jump hl hops'
  rw [SymbolTable.lookup_shift, hx] at hx'
  cases hx'
  have hop := hholds.op
  have hop' := hholds'.op
  have htarget : Part.address.read w = x.address >>> (2 : Nat) := hholds.target (i := 0) rfl rfl rfl
  have htarget' : Part.address.read w' = (x.address + 4 * k) >>> (2 : Nat) := hholds'.target (i := 0) rfl rfl rfl
  rw [Part.read_unsigned (by decide) hw] at hop htarget
  rw [Part.read_unsigned (by decide) hw'] at hop' htarget'
  rw [Int.shiftRight_eq_div_pow] at htarget htarget'
  -- The target fits its part in both words, so nothing is carried into the code of the jump.
  simp [Part.low, Part.width, Part.high, Mnemonic.opcode, Field.capacity] at hop hop' htarget htarget' hw hw'
  omega

end Instruction

/-! ## Lines -/

theorem Utf8.EndsLine.append {bs more : List UInt8} (h : EndsLine bs) (h' : EndsLine more) : EndsLine (bs ++ more) := by
  intro b hb
  rw [List.getLast?_append] at hb
  cases hm : more.getLast? with
  | none =>
    rw [hm] at hb
    exact h b hb
  | some c =>
    rw [hm] at hb
    exact h' b (hm.trans hb)

namespace Reference

def nopText : List UInt8 := Utf8.bytes "    nop\n"

/-- So many lines that do nothing. -/
def nops (k : Nat) : List UInt8 := (List.replicate k nopText).flatten

def nopLine : SourceLine := SourceLine.parse "    nop\n"

def nopLines (k : Nat) : List SourceLine := List.replicate k nopLine

variable {source : List UInt8} {ls : List SourceLine} {s : SourceLine} {codes codes' : List Listing.Code} {k i : Nat}

theorem reads_nops (k : Nat) : Utf8.EndsLine (nops k) ∧ Reads (nops k) (nopLines k) := by
  have hend : Utf8.EndsLine nopText := by decide +kernel
  have hreads : Reads nopText [nopLine] := by decide +kernel
  induction k with
  | zero => exact ⟨nofun, rfl⟩
  | succ k ih => exact ⟨hend.append ih.1, reads_append hend hreads ih.2⟩

theorem nopLine_isInstruction : nopLine.isInstruction = true := by decide +kernel

theorem address_shift (k : Nat) (ls : List SourceLine) : address (nopLines k ++ ls) = address ls + 4 * k := by
  simp [address, count, nopLines, List.countP_replicate, nopLine_isInstruction]
  omega

theorem definitions_nopLines (k : Nat) : definitions (nopLines k) = [] := by
  have hlabel : nopLine.statement.label = none := by decide +kernel
  refine List.eq_nil_iff_forall_not_mem.2 fun d hd => ?_
  obtain ⟨s, hs, hd⟩ := Option.bind_eq_some_iff.1 (mem_definitions.1 hd)
  rw [(List.mem_replicate.1 (List.mem_of_getElem? hs)).2, hlabel] at hd
  cases hd

theorem ownLabel_shift (k : Nat) (ls : List SourceLine) (s : SourceLine) :
    ownLabel (nopLines k ++ ls) s = (ownLabel ls s).map (·.shift k) := by
  unfold ownLabel
  cases s.statement.label with
  | none => rfl
  | some name =>
    simp [StagedLabel.shift, nopLines]
    omega

/-- The scan finds the same labels, further down. -/
theorem scanned_shift (k : Nat) (ls : List SourceLine) : scanned (nopLines k ++ ls) = (scanned ls).shift k := by
  -- Symbols and waiting labels depend on each other line by line, so they are moved in one induction.
  suffices symbols (nopLines k ++ ls) = (symbols ls).map (·.shift k) ∧
      pending (nopLines k ++ ls) = (pending ls).map (·.shift k) by
    simp [scanned, SymbolTable.shift, this]
  induction ls using List.reverseRecOn with
  | nil =>
    rw [List.append_nil, symbols, pending, definitions_nopLines]
    exact ⟨rfl, rfl⟩
  | append_singleton ls s ih =>
    rw [← List.append_assoc]
    cases hi : s.isInstruction with
    | false =>
      rw [symbols_snoc_other hi, symbols_snoc_other hi, pending_snoc_other hi, pending_snoc_other hi, ih.1, ih.2,
        ownLabel_shift, List.map_append]
      exact ⟨rfl, rfl⟩
    | true =>
      rw [symbols_snoc_instruction hi, symbols_snoc_instruction hi, pending_snoc_instruction hi,
        pending_snoc_instruction hi, ih.1, ih.2, ownLabel_shift, address_shift]
      refine ⟨?_, rfl⟩
      simp [commitAt, Function.comp_def, Symbol.shift, StagedLabel.shift]

theorem table_shift (k : Nat) (ls : List SourceLine) : table (nopLines k ++ ls) = (table ls).shift k := by
  rw [← freeze_scanned, scanned_shift]
  rfl

/-- The words of a line and of the same line behind `k` more instructions. -/
structure Relocated (k : Nat) (s : SourceLine) (w w' : Int) : Prop where
  plain : (∀ token ∈ s.statement.operands, Operand.isLabelReference token = false) →
    s.statement.mnemonic ≠ some "beq" → w' = w
  branch : ∀ rs rt name, s.statement.mnemonic = some "beq" → s.statement.operands = [rs, rt, name] →
    Operand.isLabelReference name = true → w' = w
  jump : ∀ name, s.statement.mnemonic = some "j" → s.statement.operands = [name] →
    Operand.isLabelReference name = true → w' = w + k

theorem relocated {pc w : Int} (h : Coded (table ls) ls codes)
    (h' : Coded (table (nopLines k ++ ls)) (nopLines k ++ ls) codes') (hs : ls[i]? = some s)
    (hc : codes[i]? = some (.encoded pc w)) :
    ∃ w', codes'[k + i]? = some (.encoded (pc + 4 * k) w') ∧ Relocated k s w w' := by
  obtain ⟨hpc, m, n, hm, rfl, hw⟩ := encoded_line h hs hc
  have hs' : (nopLines k ++ ls)[k + i]? = some s := by
    rw [List.getElem?_append_right (by simp [nopLines]), ← hs]
    simp [nopLines]
  have hlt : k + i < codes'.length := h'.1 ▸ (List.getElem?_eq_some_iff.1 hs').1
  have hcode := h'.2 (k + i) s codes'[k + i] hs' (List.getElem?_eq_getElem hlt)
  have haddress : address ((nopLines k ++ ls).take (k + i)) = pc + 4 * k := by
    have htake : (nopLines k ++ ls).take (k + i) = nopLines k ++ ls.take i := by
      simp [nopLines, List.take_append, List.take_replicate]
    rw [htake, address_shift, hpc]
  rcases ((code_take hs').1 hcode).2 with ⟨hnone, -⟩ | ⟨m', n', hm', he, hw'⟩
  · rw [hm] at hnone
    cases hnone
  · rw [hm] at hm'
    cases hm'
    rw [haddress] at he hw'
    rw [table_shift] at hw'
    refine ⟨n', by rw [List.getElem?_eq_getElem hlt, he], ?_, ?_, ?_⟩
    · intro hl hne
      rw [Instruction.assemble_plain hl (fun hbeq => hne (hm.trans (congrArg some hbeq))) hw hw']
    · intro rs rt name hbeq ho hl
      cases hm.symm.trans hbeq
      rw [ho] at hw hw'
      rw [Instruction.assemble_branch_shift hl hw hw']
    · intro name hj ho hl
      cases hm.symm.trans hj
      rw [ho] at hw hw'
      rw [Instruction.assemble_jump_shift hl hw hw']
      push_cast
      rfl

end Reference

namespace Assembler

open Reference

variable {a a' b b' : Assembler} {source : List UInt8}

/-- A source that is assembled on its own and behind `k` lines that do nothing. All its symbols move by `4 * k`, and
each instruction is found `k` lines further down with the word that `Relocated` says. -/
theorem assemble_relocated (k : Nat) (h : a.Fresh source) (hb : a.assemble = (b, .ok true))
    (h' : a'.Fresh (nops k ++ source)) (hb' : a'.assemble = (b', .ok true)) :
    b'.symbols = b.symbols.shift k ∧
      ∃ ls codes codes', Reads source ls ∧ Coded b.symbols ls codes ∧ Coded b'.symbols (nopLines k ++ ls) codes' ∧
        Wrote a b (records ls codes ++ Listing.symbolBlock b.symbols) (machineCode codes) ∧
        Wrote a' b' (records (nopLines k ++ ls) codes' ++ Listing.symbolBlock b'.symbols) (machineCode codes') ∧
        ∀ (i : Nat) s pc w, ls[i]? = some s → codes[i]? = some (.encoded pc w) →
          ∃ w', codes'[k + i]? = some (.encoded (pc + 4 * k) w') ∧ Relocated k s w w' := by
  obtain ⟨r, hanswer, hout, hleaves⟩ := h.outcome_of hb
  obtain ⟨r', hanswer', hout', hleaves'⟩ := h'.outcome_of hb'
  obtain ⟨ls, codes, hreads, -, hcodes, rfl⟩ := hout.assembled_of_answer hanswer
  obtain ⟨ls', codes', hreads', -, hcodes', rfl⟩ := hout'.assembled_of_answer hanswer'
  obtain rfl := reads_unique (reads_append (reads_nops k).1 (reads_nops k).2 hreads) hreads'
  have ht : b.symbols = table ls := hleaves.symbols
  have ht' : b'.symbols = table (nopLines k ++ ls) := hleaves'.symbols
  rw [ht, ht']
  exact ⟨table_shift k ls, ls, codes, codes', hreads, hcodes, hcodes', hleaves.wrote, hleaves'.wrote,
    fun i s pc w hs hc => relocated hcodes hcodes' hs hc⟩

/-- A branch and a jump to the same label. -/
def twoWaysUp : List UInt8 := Utf8.bytes "up: beq $a0,$a1,up\n j up"

theorem assemble_relocated_of_twoWaysUp : ∃ b b' ls codes codes', (alone twoWaysUp).assemble = (b, .ok true) ∧
    (alone (nops 2 ++ twoWaysUp)).assemble = (b', .ok true) ∧ b'.symbols = b.symbols.shift 2 ∧
      Reads twoWaysUp ls ∧ Coded b.symbols ls codes ∧ Coded b'.symbols (nopLines 2 ++ ls) codes' ∧
      ∀ (i : Nat) s pc w, ls[i]? = some s → codes[i]? = some (.encoded pc w) →
        ∃ w', codes'[2 + i]? = some (.encoded (pc + 4 * (2 : Nat)) w') ∧ Relocated 2 s w w' := by
  obtain ⟨b, hb⟩ := exists_of_answer (show (alone twoWaysUp).assemble.2 = .ok true by decide +kernel)
  obtain ⟨b', hb'⟩ := exists_of_answer (show (alone (nops 2 ++ twoWaysUp)).assemble.2 = .ok true by decide +kernel)
  obtain ⟨ht, ls, codes, codes', hreads, hcodes, hcodes', -, -, hall⟩ :=
    assemble_relocated 2 (alone_fresh twoWaysUp) hb (alone_fresh _) hb'
  exact ⟨b, b', ls, codes, codes', hb, hb', ht, hreads, hcodes, hcodes', hall⟩

end Assembler

end MipsAssembler
