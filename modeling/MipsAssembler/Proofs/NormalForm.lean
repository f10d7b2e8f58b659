import MipsAssembler.Proofs.BaseOffset
import MipsAssembler.Proofs.Overflow
/-!
# Operands in normal form

An argument that is neither a label nor an offset with its base is `Normal`: it stays as it is, whatever symbols there
are. Resolving gives such operands only, so doing it again changes nothing (`resolve_normalizes`).

A literal with a base register behind it can be normal too, since not every literal may stand there. `Barred` are those
that may not. A load that has one of them in front of its base is short of an operand (`literal_base_iff`).
-/

namespace MipsAssembler

namespace Operand

variable {t : SymbolTable} {line : Option Int} {token literal offset base base' : String}
  {tokens operands parts : List String} {s : List Char} {v : Int}

/-! ## Arguments that stay -/

/-- The argument is neither a label nor an offset with its base. -/
structure Normal (token : String) : Prop where
  label : ¬ RefersToLabel token
  offset : ∀ offset base, ¬ BaseOffset token offset base

theorem Normal.resolveOne (h : Normal token) : resolveOne t line token = .ok [token] :=
  resolveOne_translates.2 (.same h.offset h.label)

theorem normal_of_plain (hlabel : ¬ RefersToLabel token) (hparen : ∀ c ∈ token.toList, c ≠ '(') : Normal token := by
  refine ⟨hlabel, fun offset base h => ?_⟩
  have hmem : '(' ∈ token.toList := by
    rw [h.text]
    simp
  exact hparen _ hmem rfl

theorem normal_register (h : Register.Referred token) : Normal token := by
  obtain ⟨cs, hcs⟩ := h.first
  refine normal_of_plain (fun hlabel => (hlabel '$' (by rw [hcs]; rfl)).1 rfl) ?_
  rcases h with hname | ⟨n, -, ds, hds, hplain⟩
  · have hnames : Register.names.all (·.toList.all (· ≠ '(')) = true := by decide
    rw [List.all_eq_true] at hnames
    simpa using hnames token hname
  · rw [hds, List.forall_mem_cons]
    exact ⟨by decide, hplain.1.ne_paren (by decide)⟩

/-- A literal with a plus could be a label, every other one is normal. -/
theorem normal_literal (h : Literal.Written token.toList v) (hplus : token.toList.head? ≠ some '+') : Normal token := by
  refine normal_of_plain (fun hlabel => ?_) h.ne_paren
  generalize hs : token.toList = s at h hplus
  unfold RefersToLabel at hlabel
  rw [hs] at hlabel
  cases h with
  | bare hs =>
    obtain ⟨d, ds, rfl, hd⟩ := hs.first
    exact (hlabel d rfl).2.2 (Literal.isDigit_range.1 hd)
  | plus => exact hplus rfl
  | minus => exact (hlabel '-' rfl).2.1 rfl

theorem Offset.head_ne_plus (h : Offset s) : s.head? ≠ some '+' := by
  intro hplus
  obtain ⟨cs, rfl⟩ := List.head?_eq_some_iff.1 hplus
  rcases isOffset_first (isOffset_iff.2 h) with hc | hc
  · exact absurd hc (by decide)
  · exact absurd hc (by decide)

theorem normal_offset (h : Offset token.toList) : Normal token := by
  obtain ⟨v, hv⟩ := h.written
  exact normal_literal hv h.head_ne_plus

/-- An address in decimal could stand in front of a base register. -/
theorem offset_decimal (n : Int) : Offset (Text.decimal n).toList := by
  cases n with
  | ofNat n =>
    rw [Text.decimal, Text.decimalNat, String.toList_ofList]
    exact .decimal (Literal.plain_digits n)
  | negSucc n =>
    have htext : (Text.decimal (.negSucc n)).toList = '-' :: Text.digits 10 (n + 1) := by
      simp [Text.decimal, Text.decimalNat]
    rw [htext]
    exact .negative (Literal.plain_digits (n + 1)) (Nat.succ_ne_zero n)

/-! ## Resolving once more -/

theorem Translates.normal (h : Translates t token parts) : ∀ x ∈ parts, Normal x := by
  cases h with
  | baseOffset h =>
    rw [List.forall_mem_cons, List.forall_mem_singleton]
    exact ⟨normal_offset h.literal, normal_register h.register⟩
  | label =>
    rw [List.forall_mem_singleton]
    exact normal_offset (offset_decimal _)
  | same hoffset hlabel =>
    rw [List.forall_mem_singleton]
    exact ⟨hlabel, hoffset⟩

theorem resolve_normal (h : resolve t line tokens = .ok operands) : ∀ x ∈ operands, Normal x := by
  induction tokens generalizing operands with
  | nil =>
    cases h
    exact List.forall_mem_nil _
  | cons token rest ih =>
    obtain ⟨first, more, hfirst, hmore, rfl⟩ := resolve_cons.1 h
    exact List.forall_mem_append.2 ⟨(resolveOne_translates.1 hfirst).normal, ih hmore⟩

/-- Resolving gives operands in normal form. None of them is a label or an offset with its base, so resolving them again
gives them back, whatever symbols there are then. -/
theorem resolve_normalizes (h : resolve t line tokens = .ok operands) :
    (∀ x ∈ operands, Normal x) ∧ ∀ t' line', resolve t' line' operands = .ok operands := by
  have hnormal := resolve_normal h
  exact ⟨hnormal, fun t' line' => resolve_same fun x hx => (hnormal x hx).resolveOne⟩

/-- A register, an offset with a base by number, and a label below zero. -/
theorem resolve_normalizes_of_label_below_zero :
    resolve { symbols := [⟨"end", -64, some 9⟩] } (some 1) ["$t0", "-4($31)", "end"] =
        .ok ["$t0", "-4", "$31", "-64"] ∧
      resolve {} none ["$t0", "-4", "$31", "-64"] = .ok ["$t0", "-4", "$31", "-64"] := by
  have h : resolve { symbols := [⟨"end", -64, some 9⟩] } (some 1) ["$t0", "-4($31)", "end"] =
    .ok ["$t0", "-4", "$31", "-64"] := by decide +kernel
  exact ⟨h, (resolve_normalizes h).2 {} none⟩

/-! ## Literals in front of a base register -/

/-- The literals that are no offsets: a minus in front of a zero, and a hexadecimal number with its mark in upper
case. -/
inductive Barred : List Char → Prop
  | minusZero {ds : List Char} : Barred ('-' :: '0' :: ds)
  | upperMark {ds : List Char} : Barred ('0' :: 'X' :: ds)

theorem Offset.not_barred (h : Offset s) : ¬ Barred s := by
  intro hbarred
  have hoffset := isOffset_iff.2 h
  cases hbarred with
  | minusZero => cases hoffset
  | upperMark => cases hoffset

theorem offset_of_not_barred (h : Literal.Written s v) (hplus : s.head? ≠ some '+') (hbarred : ¬ Barred s) :
    Offset s := by
  cases h with
  | bare hs =>
    cases hs with
    | hexadecimal hx hds =>
      rcases hx with rfl | rfl
      · exact .hexadecimal hds
      · exact absurd .upperMark hbarred
    | octal hds => exact .octal hds
    | decimal hds => exact .decimal hds
  | plus => exact absurd rfl hplus
  | minus hs =>
    cases hs with
    | hexadecimal => exact absurd .minusZero hbarred
    | octal => exact absurd .minusZero hbarred
    | decimal hds =>
      rcases hds.cases with ⟨rfl, -⟩ | ⟨_, _, _, _, _, hn⟩
      · exact absurd .minusZero hbarred
      · exact .negative hds hn

/-- The parenthesis tells where an offset ends. -/
theorem BaseOffset.offset_eq (h : BaseOffset (literal ++ "(" ++ base ++ ")") offset base')
    (hliteral : ∀ c ∈ literal.toList, c ≠ '(') : offset = literal := by
  have htext : literal.toList ++ '(' :: (base.toList ++ [')']) = offset.toList ++ '(' :: (base'.toList ++ [')']) := by
    simpa using congrArg String.toList h.text
  have hoffset := h.literal.ne_paren
  have hsame := congrArg (List.takeWhile (· ≠ '(')) htext
  rw [List.takeWhile_append_of_pos (by simpa using hliteral), List.takeWhile_append_of_pos (by simpa using hoffset)]
    at hsame
  simpa [String.toList_inj, eq_comm] using hsame

/-- A literal that is no offset keeps the register behind it. -/
theorem normal_barred (h : Literal.Written literal.toList v) (hplus : literal.toList.head? ≠ some '+')
    (hbarred : Barred literal.toList) : Normal (literal ++ "(" ++ base ++ ")") := by
  refine ⟨fun hlabel => (normal_literal h hplus).label fun c hc => hlabel c ?_, fun offset base' hsplit => ?_⟩
  · simp only [String.toList_append, List.append_assoc]
    rw [List.head?_append, hc]
    rfl
  · obtain rfl := hsplit.offset_eq h.ne_paren
    exact hsplit.literal.not_barred hbarred

theorem resolve_literal_base (h : Literal.Written literal.toList v) (hplus : literal.toList.head? ≠ some '+')
    (hbase : base ∈ Register.names) :
    resolve t line [literal ++ "(" ++ base ++ ")"] = .ok [literal, base] ↔ ¬ Barred literal.toList := by
  constructor
  · intro hresolve hbarred
    have hnormal : Normal (literal ++ "(" ++ base ++ ")") := normal_barred h hplus hbarred
    rw [resolve_same (by simpa using hnormal.resolveOne)] at hresolve
    exact absurd (congrArg List.length (Except.ok.inj hresolve)) (by simp)
  · intro hbarred
    have hsplit : BaseOffset (literal ++ "(" ++ base ++ ")") literal base :=
      ⟨rfl, offset_of_not_barred h hplus hbarred, .inl hbase⟩
    exact resolve_cons.2 ⟨_, [], resolveOne_translates.2 (.baseOffset hsplit), rfl, rfl⟩

end Operand

namespace Instruction

open Operand

variable {t : SymbolTable} {address : Int} {line : Option Int} {m : Mnemonic} {literal base rt token : String} {v : Int}

/-! ## Loads and stores with a base register -/

/-- Two operands are too few for a load or a store. -/
theorem assemble_tooFew (hm : m = .lw ∨ m = .sw) (hrt : rt ∈ Register.names) (htoken : Normal token) :
    assemble t address line m.name [rt, token] = .error (.refused .tooFewOperands line) := by
  have hresolve : resolve t line [rt, token] = .ok [rt, token] := by
    apply resolve_same
    rw [List.forall_mem_cons, List.forall_mem_singleton]
    exact ⟨resolveOne_register hrt, htoken.resolveOne⟩
  have harity : 2 < m.arity := by
    rcases hm with rfl | rfl <;> decide
  rw [assemble, hresolve]
  simp only [word, fields_known, fieldsOf_eq, List.map_cons, List.map_nil, List.length_cons, List.length_nil]
  rw [if_pos harity]

theorem memory_parts (hm : m = .lw ∨ m = .sw) : m.operandParts = [.rt, .immediate, .rs] := by
  rcases hm with rfl | rfl <;> rfl

theorem memory_fits (hm : m = .lw ∨ m = .sw) (hrt : rt ∈ Register.names) (hbase : base ∈ Register.names)
    (hv : Literal.value? literal = some v) : m.Fits [some rt, some literal, some base] := by
  refine ⟨by rcases hm with rfl | rfl <;> rfl, fun i p hp => ?_⟩
  rw [memory_parts hm] at hp
  match i with
  | 0 => cases hp; exact ⟨rt, rfl, hrt⟩
  | 1 => cases hp; exact ⟨literal, rfl, v, hv⟩
  | 2 => cases hp; exact ⟨base, rfl, hbase⟩
  | i + 3 => cases hp

/-- The literal of a load or a store is its second operand. -/
theorem memory_literal {p : Part} {u : Int} (hm : m = .lw ∨ m = .sw)
    (h : m.TakesLiteral [some rt, some literal, some base] p token u) : token = literal := by
  obtain ⟨i, hi, hp, htoken, -⟩ := h
  rw [memory_parts hm] at hi
  match i with
  | 0 => cases hi; cases hp
  | 1 => cases htoken; rfl
  | 2 => cases hi; cases hp
  | i + 3 => cases hi

/-- A load or a store with three operands has its word, unless its literal is out of range. -/
theorem assemble_memory (hm : m = .lw ∨ m = .sw) (hrt : rt ∈ Register.names) (hbase : base ∈ Register.names)
    (hliteral : Normal literal) (hv : Literal.value? literal = some v) (t : SymbolTable) (address : Int)
    (line : Option Int) :
    (∃ w, assemble t address line m.name [rt, literal, base] = .ok w) ∨
      ¬ (-32768 ≤ v ∧ v ≤ 32767) ∧ ∃ field value width, assemble t address line m.name [rt, literal, base] =
        .error (.refused (.fieldOverflow field value width (some literal)) line) := by
  have hresolve : resolve t line [rt, literal, base] = .ok [rt, literal, base] := by
    apply resolve_same
    rw [List.forall_mem_cons, List.forall_mem_cons, List.forall_mem_singleton]
    exact ⟨resolveOne_register hrt, hliteral.resolveOne, resolveOne_register hbase⟩
  obtain ⟨fs, hfs⟩ := fields_of_fits (memory_fits hm hrt hbase hv) address line
  have hword : assemble t address line m.name [rt, literal, base] = Field.pack line fs := by
    rw [assemble, hresolve]
    simp only [word, List.map_cons, List.map_nil, hfs]
  rw [hword]
  cases hpack : Field.pack line fs with
  | ok w => exact .inl ⟨w, rfl⟩
  | error e =>
    rw [fields_known] at hfs
    obtain ⟨p, token, u, htakes, hrange, rfl⟩ := pack_failed hfs hpack
    obtain rfl := memory_literal hm htakes
    obtain ⟨-, -, -, -, hu⟩ := htakes
    obtain rfl : v = u := Option.some.inj (hv.symm.trans hu)
    refine .inr ⟨?_, _, _, _, rfl⟩
    rcases hm with rfl | rfl <;> exact hrange

/-- A literal in front of a base register is split from it exactly if it is none of the barred ones, and exactly then a
load or a store says the same with it as with three operands. With a barred one it is short of an operand, though it
would have its word with three. -/
theorem literal_base_iff {literal base : String} {c : Char} {v : Int} {t : SymbolTable} {line : Option Int}
    (hread : Literal.parse (some literal) line = .ok v) (hfirst : literal.toList.head? = some c)
    (hc : c = '-' ∨ c.isDigit = true) (hbase : base ∈ Register.names) :
    (resolve t line [literal ++ "(" ++ base ++ ")"] = .ok [literal, base] ↔ ¬ Barred literal.toList) ∧
    ∀ m : Mnemonic, m = .lw ∨ m = .sw → ∀ rt ∈ Register.names, ∀ address,
      (assemble t address line m.name [rt, literal ++ "(" ++ base ++ ")"] =
        assemble t address line m.name [rt, literal, base] ↔ ¬ Barred literal.toList) ∧
      (Barred literal.toList →
        assemble t address line m.name [rt, literal ++ "(" ++ base ++ ")"] = .error (.refused .tooFewOperands line) ∧
        (-32768 ≤ v → v ≤ 32767 → ∃ w, assemble t address line m.name [rt, literal, base] = .ok w)) := by
  obtain ⟨_, ⟨⟩, hwritten, -⟩ := Literal.reads_of_parse hread
  obtain ⟨_, ⟨⟩, hv⟩ := value_of_parse hread
  have hplus : literal.toList.head? ≠ some '+' := by
    rintro hplus
    obtain rfl : c = '+' := Option.some.inj (hfirst.symm.trans hplus)
    exact hc.elim (by decide) (by decide)
  refine ⟨resolve_literal_base hwritten hplus hbase, fun m hm rt hrt address => ?_⟩
  have hmemory := assemble_memory hm hrt hbase (normal_literal hwritten hplus) hv t address line
  have hshort : Barred literal.toList →
      assemble t address line m.name [rt, literal ++ "(" ++ base ++ ")"] = .error (.refused .tooFewOperands line) :=
    fun hbarred => assemble_tooFew hm hrt (normal_barred hwritten hplus hbarred)
  refine ⟨⟨fun hsame hbarred => ?_, fun hbarred => ?_⟩, fun hbarred => ⟨hshort hbarred, fun hlow hhigh => ?_⟩⟩
  · rw [hshort hbarred] at hsame
    rcases hmemory with ⟨w, hw⟩ | ⟨-, field, value, width, he⟩
    · rw [hw] at hsame
      cases hsame
    · rw [he] at hsame
      cases hsame
  · exact assemble_apart hrt hbase ⟨rfl, offset_of_not_barred hwritten hplus hbarred, .inl hbase⟩
  · rcases hmemory with hw | ⟨hrange, -⟩
    · exact hw
    · exact absurd ⟨hlow, hhigh⟩ hrange

/-- A load from a negative offset in hexadecimal. -/
theorem literal_base_iff_of_negative_hexadecimal :
    Literal.parse (some "-0x10") (some 3) = .ok (-16) ∧
      resolve {} (some 3) ["-0x10($sp)"] ≠ .ok ["-0x10", "$sp"] ∧
      assemble {} 0 (some 3) "lw" ["$t0", "-0x10($sp)"] = .error (.refused .tooFewOperands (some 3)) ∧
      ∃ w, assemble {} 0 (some 3) "lw" ["$t0", "-0x10", "$sp"] = .ok w := by
  have hread : Literal.parse (some "-0x10") (some 3) = .ok (-16) := by decide +kernel
  have hbarred : Barred "-0x10".toList := .minusZero
  have hbase : "$sp" ∈ Register.names := by decide
  obtain ⟨hresolve, hmemory⟩ := literal_base_iff hread rfl (.inl rfl) hbase (t := {})
  obtain ⟨-, hword⟩ := hmemory .lw (.inl rfl) "$t0" (by decide) 0
  obtain ⟨hshort, hlong⟩ := hword hbarred
  exact ⟨hread, fun h => hresolve.1 h hbarred, hshort, hlong (by decide) (by decide)⟩

end Instruction

end MipsAssembler
