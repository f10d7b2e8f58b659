import MipsAssembler.Proofs.Refusal
import MipsAssembler.Proofs.Relocation
import MipsAssembler.Proofs.Translation
/-!
# Loads and stores

An offset with its base register is two operands. The mnemonic is not looked at when they are split, but the literal
and the register behind it must go to parts of the word that hold such, one after the other, and only a load or a store
has these. So `offset($base)` is a way to write the last two operands of a load or a store and nothing else
(`assemble_baseOffset`).
-/

namespace MipsAssembler

namespace Register

variable {token : String} {n : Nat}

theorem mem_of_number (h : number? token = some n) : token ∈ names :=
  List.mem_of_getElem? (getElem_number h)

theorem Referred.first (h : Referred token) : ∃ cs, token.toList = '$' :: cs := by
  rcases h with hname | ⟨n, -, ds, hds, -⟩
  · have hfirst : ∀ name ∈ names, name.toList.head? = some '$' := by decide
    exact List.head?_eq_some_iff.1 (hfirst token hname)
  · exact ⟨ds, hds⟩

end Register

/-- A register is no literal. -/
theorem Literal.value_register {token : String} (h : Register.Referred token) : value? token = none := by
  obtain ⟨cs, hcs⟩ := h.first
  cases hv : value? token with
  | none => rfl
  | some v =>
    exfalso
    obtain ⟨t, ht, hwritten, -⟩ := reads_of_parse (parse_of_value hv none)
    cases ht
    rw [hcs] at hwritten
    cases hwritten with
    | bare hs =>
      obtain ⟨d, ds, hd, hdigit⟩ := hs.first
      cases hd
      exact absurd hdigit (by decide)

namespace Operand

variable {t : SymbolTable} {line : Option Int} {token offset base rt : String} {tokens more operands : List String}

/-! ## Arguments in a row -/

theorem resolve_append : resolve t line (tokens ++ more) = .ok operands ↔ ∃ a b,
    resolve t line tokens = .ok a ∧ resolve t line more = .ok b ∧ operands = a ++ b := by
  induction tokens generalizing operands with
  | nil => simp [resolve, resolveWith]
  | cons token rest ih =>
    rw [List.cons_append]
    simp only [resolve_cons, ih]
    constructor
    · rintro ⟨first, _, hfirst, ⟨a, b, ha, hb, rfl⟩, rfl⟩
      exact ⟨first ++ a, b, ⟨first, a, hfirst, ha, rfl⟩, hb, (List.append_assoc first a b).symm⟩
    · rintro ⟨_, b, ⟨first, a, hfirst, ha, rfl⟩, hb, rfl⟩
      exact ⟨first, a ++ b, hfirst, ⟨a, b, ha, hb, rfl⟩, List.append_assoc first a b⟩

theorem length_le_resolve (h : resolve t line tokens = .ok operands) : tokens.length ≤ operands.length := by
  induction tokens generalizing operands with
  | nil => exact Nat.zero_le _
  | cons token rest ih =>
    obtain ⟨first, more, hfirst, hmore, rfl⟩ := resolve_cons.1 h
    have hpos := List.length_pos_iff.2 (resolveOne_ne_nil hfirst)
    have hrest := ih hmore
    rw [List.length_cons, List.length_append]
    omega

theorem resolve_same (h : ∀ token ∈ tokens, resolveOne t line token = .ok [token]) :
    resolve t line tokens = .ok tokens := by
  induction tokens with
  | nil => rfl
  | cons token rest ih =>
    rw [List.forall_mem_cons] at h
    exact resolve_cons.2 ⟨[token], rest, h.1, ih h.2, rfl⟩

/-! ## Registers and offsets -/

theorem resolveOne_register (h : token ∈ Register.names) : resolveOne t line token = .ok [token] := by
  have hnames : ∀ name ∈ Register.names, isLabelReference name = false ∧ '(' ∉ name.toList := by decide
  exact resolveOne_plain (hnames token h).1 (hnames token h).2

theorem resolveOne_offset (h : Offset offset.toList) : resolveOne t line offset = .ok [offset] := by
  refine resolveOne_plain ?_ fun hmem => h.ne_paren _ hmem rfl
  have hoffset := isOffset_iff.2 h
  unfold isLabelReference
  cases hcs : offset.toList with
  | nil => rw [hcs] at hoffset; cases hoffset
  | cons c cs =>
    rw [hcs] at hoffset
    rcases isOffset_first hoffset with rfl | hdigit
    · rfl
    · simp [hdigit]

/-- Only a register gives a register alone. -/
theorem resolve_register {n : Nat} (hn : Register.number? rt = some n) (h : resolve t line tokens = .ok [rt]) :
    tokens = [rt] := by
  cases tokens with
  | nil => cases h
  | cons token rest =>
    obtain ⟨first, more, hfirst, hmore, happend⟩ := resolve_cons.1 h
    obtain ⟨rfl, -⟩ | ⟨rfl, rfl⟩ := List.singleton_eq_append_iff.1 happend
    · exact absurd rfl (resolveOne_ne_nil hfirst)
    · obtain rfl := List.length_eq_zero_iff.1 (Nat.le_zero.1 (length_le_resolve hmore))
      cases resolveOne_translates.1 hfirst with
      | label =>
        rw [Register.number_decimal] at hn
        cases hn
      | same => rfl

/-- The operands of a register and an offset with its base. -/
theorem resolve_baseOffset (hrt : rt ∈ Register.names) (hbase : base ∈ Register.names)
    (h : BaseOffset token offset base) :
    resolve t line [rt, token] = .ok [rt, offset, base] ∧
      resolve t line [rt, offset, base] = .ok [rt, offset, base] := by
  constructor
  · exact resolve_cons.2 ⟨[rt], [offset, base], resolveOne_register hrt,
      resolve_cons.2 ⟨[offset, base], [], resolveOne_translates.2 (.baseOffset h), rfl, rfl⟩, rfl⟩
  · refine resolve_same fun token hmem => ?_
    simp only [List.mem_cons, List.not_mem_nil, or_false] at hmem
    rcases hmem with rfl | rfl | rfl
    · exact resolveOne_register hrt
    · exact resolveOne_offset h.literal
    · exact resolveOne_register hbase

end Operand

/-! ## Where an offset may stand -/

/-- Of all mnemonics, only those of loads and stores take a literal with a register behind it. -/
theorem Mnemonic.literal_then_register (m : Mnemonic) : ∀ x ∈ m.operandParts.zipIdx, ∀ y ∈ m.operandParts.zipIdx,
    y.2 = x.2 + 1 → x.1.isRegister = false → y.1.isRegister = true → (m = lw ∨ m = sw) ∧ x.2 = 1 := by
  cases m <;> decide

namespace Instruction

variable {t : SymbolTable} {address : Int} {line : Option Int} {mnemonic token offset base : String}
  {tokens : List String} {w : Nat}

/-- A literal goes to no part for a register. -/
theorem Holds.part_of_offset {m : Mnemonic} {operands : List String} {i : Nat} {p : Part}
    (h : Holds m address (operands.map some) w) (hp : m.operandParts[i]? = some p) (hi : operands[i]? = some offset)
    (hoffset : Operand.Offset offset.toList) : p.isRegister = false := by
  rw [Bool.eq_false_iff]
  intro hr
  obtain ⟨n, hn, -⟩ := h.register hp hr hi
  obtain ⟨v, hv⟩ := hoffset.written
  obtain ⟨s, hs, -⟩ := Literal.shape_iff.2 hv
  rw [Register.number_literal hs] at hn
  cases hn

/-- A register goes to no part for a literal. -/
theorem Holds.part_of_base {m : Mnemonic} {operands : List String} {i : Nat} {p : Part}
    (h : Holds m address (operands.map some) w) (hp : m.operandParts[i]? = some p) (hi : operands[i]? = some base)
    (hbase : Register.Referred base) : p.isRegister = true := by
  by_contra hr
  have hvalue := h.value hp hi
  rw [Mnemonic.operandValue?, if_neg hr, Literal.value_register hbase] at hvalue
  cases hvalue

/-- What holds a literal and the register behind it is a load or a store. -/
theorem Holds.baseOffset {m : Mnemonic} {a b : List String}
    (h : Holds m address ((a ++ offset :: base :: b).map some) w) (hsplit : Operand.BaseOffset token offset base) :
    (m = .lw ∨ m = .sw) ∧ a.length = 1 ∧ b = [] := by
  have hlen : a.length + (b.length + 2) = m.operandParts.length := by simpa using h.arity
  obtain ⟨p, hp⟩ : ∃ p, m.operandParts[a.length]? = some p := ⟨_, List.getElem?_eq_getElem (by omega)⟩
  obtain ⟨q, hq⟩ : ∃ q, m.operandParts[a.length + 1]? = some q := ⟨_, List.getElem?_eq_getElem (by omega)⟩
  have hliteral : p.isRegister = false := h.part_of_offset hp (by simp) hsplit.literal
  have hregister : q.isRegister = true := h.part_of_base hq (by simp) hsplit.register
  obtain ⟨hm, ha⟩ := m.literal_then_register (p, a.length) (List.mk_mem_zipIdx_iff_getElem?.2 hp)
    (q, a.length + 1) (List.mk_mem_zipIdx_iff_getElem?.2 hq) rfl hliteral hregister
  have hparts : m.operandParts.length = 3 := by
    rcases hm with rfl | rfl <;> rfl
  exact ⟨hm, ha, List.length_eq_zero_iff.1 (by dsimp only at ha; omega)⟩

/-- An argument that is split has one argument in front of it and none behind it. -/
theorem assemble_split (h : assemble t address line mnemonic tokens = .ok w) (hmem : token ∈ tokens)
    (hsplit : Operand.BaseOffset token offset base) : (mnemonic = "lw" ∨ mnemonic = "sw") ∧
      ∃ rt, tokens = [rt, token] ∧ rt ∈ Register.names ∧ base ∈ Register.names := by
  obtain ⟨m, operands, rfl, hops, hholds, -⟩ := assemble_holds h
  obtain ⟨before, after, rfl⟩ := List.append_of_mem hmem
  obtain ⟨a, more, hbefore, hmore, rfl⟩ := Operand.resolve_append.1 hops
  obtain ⟨_, b, hone, hafter, rfl⟩ := Operand.resolve_cons.1 hmore
  rw [Operand.resolveOne_translates.2 (.baseOffset hsplit)] at hone
  cases hone
  obtain ⟨hm, ha, rfl⟩ := hholds.baseOffset hsplit
  -- The operands are those of a load or a store, and every argument gives at least one of them.
  obtain ⟨first, rfl⟩ := List.length_eq_one_iff.1 ha
  have hparts : m.operandParts = [.rt, .immediate, .rs] := by
    rcases hm with rfl | rfl <;> rfl
  obtain ⟨n, hn, -⟩ := hholds.register (i := 0) (by rw [hparts]; rfl) rfl rfl
  obtain ⟨k, hk, -⟩ := hholds.register (i := 2) (by rw [hparts]; rfl) rfl rfl
  obtain rfl := List.length_eq_zero_iff.1 (Nat.le_zero.1 (Operand.length_le_resolve hafter))
  obtain rfl := Operand.resolve_register hn hbefore
  exact ⟨hm.imp (congrArg Mnemonic.name) (congrArg Mnemonic.name), first, rfl, Register.mem_of_number hn,
    Register.mem_of_number hk⟩

/-- A load or a store that names its base on its own says the same. -/
theorem assemble_apart {rt : String} (hrt : rt ∈ Register.names) (hbase : base ∈ Register.names)
    (hsplit : Operand.BaseOffset token offset base) :
    assemble t address line mnemonic [rt, token] = assemble t address line mnemonic [rt, offset, base] := by
  obtain ⟨htwo, hthree⟩ := Operand.resolve_baseOffset hrt hbase hsplit (t := t)
  rw [assemble, assemble, htwo, hthree]

/-- An offset with its base is accepted as the last two operands of a load or a store, where it says the same as the
two on their own, and nowhere else. -/
theorem assemble_baseOffset (h : ∃ token ∈ tokens, (Operand.splitOffset? token).isSome = true) :
    assemble t address line mnemonic tokens = .ok w ↔ (mnemonic = "lw" ∨ mnemonic = "sw") ∧ ∃ rt offset base,
      tokens = [rt, offset ++ "(" ++ base ++ ")"] ∧ rt ∈ Register.names ∧ base ∈ Register.names ∧
        Operand.splitOffset? (offset ++ "(" ++ base ++ ")") = some (offset, base) ∧
        assemble t address line mnemonic [rt, offset, base] = .ok w := by
  obtain ⟨token, hmem, hsome⟩ := h
  constructor
  · intro hw
    obtain ⟨⟨offset, base⟩, htoken⟩ := Option.isSome_iff_exists.1 hsome
    have hsplit := Operand.splitOffset_iff.1 htoken
    obtain ⟨hm, rt, rfl, hrt, hbase⟩ := assemble_split hw hmem hsplit
    rw [assemble_apart hrt hbase hsplit] at hw
    obtain rfl := hsplit.text
    exact ⟨hm, rt, offset, base, rfl, hrt, hbase, htoken, hw⟩
  · rintro ⟨-, rt, offset, base, rfl, hrt, hbase, htoken, hw⟩
    rwa [assemble_apart hrt hbase (Operand.splitOffset_iff.1 htoken)]

theorem assemble_baseOffset_of_load : assemble {} 0 (some 3) "lw" ["$t0", "-4($sp)"] = .ok 0x8FA8FFFC ∧
    ("lw" = "lw" ∨ "lw" = "sw") ∧ ∃ rt offset base,
      ["$t0", "-4($sp)"] = [rt, offset ++ "(" ++ base ++ ")"] ∧ rt ∈ Register.names ∧ base ∈ Register.names ∧
        Operand.splitOffset? (offset ++ "(" ++ base ++ ")") = some (offset, base) ∧
        assemble {} 0 (some 3) "lw" [rt, offset, base] = .ok 0x8FA8FFFC := by
  have hw : assemble {} 0 (some 3) "lw" ["$t0", "-4($sp)"] = .ok 0x8FA8FFFC := by decide +kernel
  exact ⟨hw, (assemble_baseOffset ⟨"-4($sp)", by decide, by decide⟩).1 hw⟩

end Instruction

end MipsAssembler
