import MipsAssembler.Proofs.Decode
import MipsAssembler.Proofs.Diagnostic
import MipsAssembler.Proofs.Failure
import MipsAssembler.Proofs.Grammar
import MipsAssembler.Proofs.Utf8
/-!
# The one unexpected error

Whatever a source holds, a run refuses it or assembles it, with one exception: where a literal belongs, the first line
that cannot be encoded has a decimal number of more digits than can be read (`LongLine`). Only then is an error
recorded that is no refusal (`unexpected_iff_longLine`). No other fault comes up in a run, so no operand is read behind
the last one, no field without a value is packed, the table is never written to when it is frozen, and no pass starts
out of order.
-/

namespace MipsAssembler

/-! ## Where a literal is read -/

/-- The operand that a source takes, if it takes one. -/
def Source.operand? : Source → Option Nat
  | .constant _ => none
  | .register i | .literal i | .branch i | .jump i => some i

namespace Mnemonic

/-- The place of the literal among the operands. -/
def literalPosition? (m : Mnemonic) : Option Nat := m.operandParts.findIdx? (!·.isRegister)

theorem layout_literal (m : Mnemonic) :
    ∀ s ∈ m.layout, s.source.literal? = none ∨ s.source.literal? = m.literalPosition? := by
  cases m <;> decide

theorem exists_literal (m : Mnemonic) : m.literalPosition? = none ∨
    ∃ s ∈ m.layout, s.source.literal? = m.literalPosition? := by
  cases m <;> decide

/-- A layout takes no operand beyond the ones that the instruction has. -/
theorem layout_operand (m : Mnemonic) : ∀ s ∈ m.layout, ∀ i ∈ s.source.operand?, i < m.arity := by
  cases m <;> decide

end Mnemonic

variable {address : Int} {operands : List (Option String)} {line : Option Int} {n : Nat}

theorem Slot.read_tooLong {s : Slot} : s.read address operands line = .error (.literalTooLong n) ↔
    ∃ i token, s.source.literal? = some i ∧ operands[i]? = some (some token) ∧ Literal.LongDecimal token n := by
  cases hs : s.source.literal? with
  | none =>
    obtain ⟨f, hf⟩ := Slot.read_other hs address operands line
    simp [hf]
  | some i =>
    obtain ⟨adjust, hread⟩ := Slot.read_literal hs
    rw [hread]
    constructor
    · intro h
      cases hp : Literal.parse operands[i]?.join line with
      | ok v => rw [hp] at h; cases h
      | error e =>
        rw [hp] at h
        cases h
        rcases Literal.parse_error hp with he | ⟨token, n', ht, -, -⟩
        · cases he
        · rw [ht] at hp
          exact ⟨i, token, rfl, Option.join_eq_some_iff.1 ht, Literal.parse_tooLong.1 hp⟩
    · rintro ⟨_, token, ⟨⟩, ht, hlong⟩
      rw [Option.join_eq_some_iff.2 ht, Literal.parse_tooLong.2 hlong]
      rfl

namespace Instruction

/-- The operands of the instruction are enough, and the one where its literal belongs is a decimal number that is too
long to be read. -/
def TooLong (m : Mnemonic) (operands : List (Option String)) (n : Nat) : Prop :=
  m.arity ≤ operands.length ∧ ∃ i token, m.literalPosition? = some i ∧ operands[i]? = some (some token) ∧
    Literal.LongDecimal token n

/-- No slot but that of the literal can fail, so the order in which they are read does not matter. -/
theorem layout_read_error {m : Mnemonic} {i : Nat} {e : Fault} (hi : m.literalPosition? = some i)
    (hone : ∀ s : Slot, s.source.literal? = some i → s.read address operands line = .error e) :
    m.layout.mapM (Slot.read · address operands line) = .error e := by
  rcases m.exists_literal with hnone | ⟨s, hs, hpos⟩
  · rw [hi] at hnone
    cases hnone
  · refine mapM_error_of_mem hs (hone s (hpos.trans hi)) fun s' hs' e' he' => ?_
    rcases m.layout_literal s' hs' with hother | hpos'
    · obtain ⟨f, hf⟩ := Slot.read_other hother address operands line
      rw [hf] at he'
      cases he'
    · rw [hone s' (hpos'.trans hi)] at he'
      cases he'
      rfl

theorem fieldsOf_tooLong {m : Mnemonic} :
    fieldsOf m address operands line = .error (.literalTooLong n) ↔ TooLong m operands n := by
  constructor
  · intro h
    rcases fieldsOf_failed h with ⟨cause, hc⟩ | ⟨harity, s, hs, hread⟩
    · cases hc
    · obtain ⟨i, token, hi, ht, hlong⟩ := Slot.read_tooLong.1 hread
      refine ⟨harity, i, token, ?_, ht, hlong⟩
      rcases m.layout_literal s hs with hnone | hpos
      · rw [hi] at hnone
        cases hnone
      · rw [← hpos, hi]
  · rintro ⟨harity, i, token, hi, ht, hlong⟩
    have hread : m.layout.mapM (Slot.read · address operands line) = .error (.literalTooLong n) :=
      layout_read_error hi fun s hs => Slot.read_tooLong.2 ⟨i, token, hs, ht, hlong⟩
    rw [fieldsOf_eq, if_neg (Nat.not_lt.2 harity), hread]

theorem word_tooLong {mnemonic : String} :
    word (some mnemonic) address operands line = .error (.literalTooLong n) ↔
      ∃ m : Mnemonic, mnemonic = m.name ∧ TooLong m operands n := by
  constructor
  · intro h
    rcases word_failed h with ⟨cause, hc⟩ | ⟨m, hname, hf⟩
    · cases hc
    · exact ⟨m, Option.some.inj hname, fieldsOf_tooLong.1 hf⟩
  · rintro ⟨m, rfl, hlong⟩
    unfold word fields
    simp only [Mnemonic.ofToken_some_name, fieldsOf_tooLong.2 hlong]

/-- Asking for operands and reading the literal fail in the ways that instructions fail. -/
theorem takeFields_error {m : Mnemonic} {e : Fault} (h : (takeFields m address line).run { operands } = .error e) :
    (∃ cause, e = .refused cause line) ∨ LongLiteral operands e := by
  rw [takeFields_run] at h
  split at h
  · cases h
    exact .inl ⟨_, rfl⟩
  · cases hread : m.slotsBehind.mapM (Slot.read · address operands line) with
    | ok fs => rw [hread] at h; cases h
    | error e' =>
      rw [hread] at h
      cases h
      obtain ⟨s, -, hs⟩ := mapM_error hread
      exact Slot.read_error hs

/-- The cursor stays among the operands. -/
theorem takeFields_consumed {m : Mnemonic} {fs : List Field} {c : OperandCursor}
    (h : (takeFields m address line).run { operands } = .ok (fs, c)) :
    c.operands = operands ∧ c.consumed ≤ operands.length := by
  rw [takeFields_run] at h
  split at h
  · cases h
  · rename_i hlen
    cases hread : m.slotsBehind.mapM (Slot.read · address operands line) with
    | error e => rw [hread] at h; cases h
    | ok fs =>
      rw [hread] at h
      cases h
      exact ⟨rfl, Nat.not_lt.1 hlen⟩

end Instruction

/-! ## The line that is not refused -/

namespace Reference

variable {source : List UInt8} {t : SymbolTable} {ls : List SourceLine} {s : SourceLine} {k : Nat}

/-- The line is an instruction whose mnemonic is known, whose arguments can be resolved and are enough, and whose
literal is too long. -/
def LongInstruction (t : SymbolTable) (line : Int) (s : SourceLine) (n : Nat) : Prop :=
  ∃ m operands, s.statement.mnemonic = some (Mnemonic.name m) ∧
    Operand.resolve t (some line) s.statement.operands = .ok operands ∧ Instruction.TooLong m (operands.map some) n

theorem code_tooLong : code t ls s = .error (.literalTooLong n) ↔ LongInstruction t (ls.length + 1) s n := by
  rw [code_failed]
  constructor
  · rintro (⟨-, hc⟩ | ⟨mnemonic, hm, hw⟩)
    · cases hc
    · unfold Instruction.assemble at hw
      cases hr : Operand.resolve t (some ((ls.length : Int) + 1)) s.statement.operands with
      | error e =>
        rw [hr] at hw
        obtain ⟨name, rfl⟩ := Operand.resolve_error hr
        cases hw
      | ok operands =>
        rw [hr] at hw
        obtain ⟨m, rfl, hlong⟩ := Instruction.word_tooLong.1 hw
        exact ⟨m, operands, hm, hr, hlong⟩
  · rintro ⟨m, operands, hm, hr, hlong⟩
    refine .inr ⟨m.name, hm, ?_⟩
    rw [Instruction.assemble, hr]
    exact Instruction.word_tooLong.2 ⟨m, rfl, hlong⟩

/-- Line `k` is the first that cannot be encoded, in a source that can be scanned, and its literal is too long. -/
def LongLine (source : List UInt8) (k n : Nat) : Prop :=
  ∃ ls codes s, Reads source ls ∧ Distinct ls ∧ Coded (table ls) (ls.take k) codes ∧ ls[k]? = some s ∧
    LongInstruction (table ls) (k + 1) s n

end Reference

/-! ## What is recorded -/

namespace Assembler.LineFailure

open Reference

variable {f : LineFailure} {k : Nat}

/-- The failure is no refusal. -/
def Unexpected (f : LineFailure) : Prop := ∀ cause line, f.fault ≠ .refused cause line

theorem record_unexpected (h : f.Unexpected) : f.record =
    ⟨"Unexpected error processing line " ++ Text.decimal f.line ++ ": " ++ f.fault.message, some f.line, "F"⟩ := by
  unfold record
  split
  · rename_i cause line hf
    exact absurd hf (h cause line)
  · rfl

/-- An unexpected failure is not taken for a refusal. -/
theorem record_ne_refusal (h : f.Unexpected) (cause : Cause) (k : Nat) : f.record ≠ refusal cause k := by
  rw [record_unexpected h]
  intro heq
  have hcode : Kind.io.code = cause.kind.code := congrArg ErrorRecord.code heq
  cases cause with
  | undecodable line fault =>
    -- Only bytes that are no text are refused with the same code, and with another message.
    have hmessage : "Unexpected error processing line " ++ Text.decimal f.line ++ ": " ++ f.fault.message =
        "Cannot decode line " ++ Text.decimal line ++ " as utf-8: " ++ fault.message :=
      congrArg ErrorRecord.message heq
    have hfirst := congrArg (fun t => t.toList.head?) hmessage
    simp at hfirst
  | _ => simp [Kind.code, Cause.kind] at hcode

theorem fault_of_message (h : f.Unexpected) (hm : f.fault.message = (Fault.literalTooLong n).message) :
    f.fault = .literalTooLong n := by
  have hfirst : f.fault.message.toList.head? = some 'E' := by
    rw [hm]
    unfold Fault.message
    simp
  cases hf : f.fault with
  | refused cause line => exact absurd hf (h cause line)
  | literalTooLong digits =>
    rw [hf] at hm
    unfold Fault.message at hm
    rw [String.append_left_inj, String.append_right_inj] at hm
    rw [Text.decimalNat_inj hm]
  | integerTooLong =>
    -- The two messages about the limit part behind "conversion".
    rw [hf] at hm
    unfold Fault.message at hm
    have hchars := congrArg String.toList hm
    simp at hchars
  | _ =>
    rw [hf] at hfirst
    unfold Fault.message at hfirst
    simp at hfirst

/-- Of all failures that are no refusals, one with a literal that is too long is the only one with its record. -/
theorem record_eq_unexpected (h : f.Unexpected) :
    f.record = unexpected (.literalTooLong n) k ↔ f.line = k + 1 ∧ f.fault = .literalTooLong n := by
  rw [record_unexpected h]
  unfold unexpected
  rw [ErrorRecord.mk.injEq]
  constructor
  · rintro ⟨hmessage, hline, -⟩
    have hline : f.line = k + 1 := Option.some.inj hline
    rw [hline, String.append_right_inj] at hmessage
    exact ⟨hline, fault_of_message h hmessage⟩
  · rintro ⟨hline, hfault⟩
    rw [hline, hfault]
    exact ⟨rfl, rfl, rfl⟩

end Assembler.LineFailure

/-! ## Whole runs -/

namespace Reference

open Assembler

variable {source : List UInt8} {r : Result} {k : Nat}

/-- A line in front of one that was reached has a code. -/
theorem Coded.code_at {t : SymbolTable} {ls : List SourceLine} {codes : List Listing.Code} {s : SourceLine} {j : Nat}
    (h : Coded t (ls.take k) codes) (hs : ls[j]? = some s) (hj : j < k) : ∃ c, code t (ls.take j) s = .ok c := by
  have hlt : j < codes.length := by
    rw [h.1, List.length_take]
    have := (List.getElem?_eq_some_iff.1 hs).1
    omega
  refine ⟨codes[j], ?_⟩
  have hcode := h.2 j s codes[j] (by rw [List.getElem?_take_of_lt hj, hs]) (List.getElem?_eq_getElem hlt)
  rwa [List.take_take, Nat.min_eq_left (Nat.le_of_lt hj)] at hcode

/-- A run stops at a line whose literal is too long. -/
theorem Outcome.stops_at_longLine (h : Outcome source r) (hl : LongLine source k n) :
    r.errors = [unexpected (.literalTooLong n) k] := by
  obtain ⟨ls, codes, s, hreads, hd, hcodes, hs, hlong⟩ := hl
  have hk := (List.getElem?_eq_some_iff.1 hs).1
  have hcode : code (table ls) (ls.take k) s = .error (.literalTooLong n) := by
    rw [code_tooLong, List.length_take_of_le (Nat.le_of_lt hk)]
    exact hlong
  have hnone : ∀ c, code (table ls) (ls.take k) s ≠ .ok c := by
    intro c hc
    rw [hcode] at hc
    cases hc
  cases h with
  | @assembled _ all hreads' _ hall =>
    obtain rfl := reads_unique hreads hreads'
    have hall' : Coded (table ls) (ls.take ls.length) all := by rwa [List.take_length]
    obtain ⟨c, hc⟩ := hall'.code_at hs hk
    exact absurd hc (hnone c)
  | scanStopped hends => exact absurd ((passes_scanFault ls).2 hd) (hends.not_complete hreads)
  | encodeStopped hreads' _ hends hbefore =>
    obtain rfl := reads_unique hreads hreads'
    obtain ⟨j, s', e, rfl, hs', he, rfl⟩ := hends.stopped_at hreads
    have hcode' := codeFault_some he
    -- Neither of the two lines can stand in front of the other, since all lines in front of them have a code.
    rcases Nat.lt_trichotomy j k with hlt | rfl | hgt
    · obtain ⟨c, hc⟩ := hcodes.code_at hs' hlt
      rw [hc] at hcode'
      cases hcode'
    · rw [hs] at hs'
      cases hs'
      rw [hcode] at hcode'
      cases hcode'
      rfl
    · obtain ⟨c, hc⟩ := hbefore.code_at hs hgt
      exact absurd hc (hnone c)

/-- An error that is no refusal is that of a line whose literal is too long. -/
theorem Outcome.unexpected_iff {f : LineFailure} (h : Outcome source r) (hf : f.Unexpected) :
    f.record ∈ r.errors ↔ ∃ k n, LongLine source k n ∧ f.line = k + 1 ∧ f.fault = .literalTooLong n := by
  constructor
  · intro hmem
    cases ha : r.answer with
    | true =>
      obtain ⟨ls, codes, -, -, -, rfl⟩ := h.assembled_of_answer ha
      cases hmem
    | false =>
      obtain ⟨-, k, e, herr, hstops⟩ := h.stops ha
      rw [herr, List.mem_singleton] at hmem
      generalize r.listing = listing, r.binary = binary at hstops
      cases hstops with
      | undecodable | duplicate | refused => exact absurd hmem (LineFailure.record_ne_refusal hf _ k)
      | literalTooLong hreads hd hcodes hs hcode hres hlong =>
        obtain ⟨token, n, -, -, rfl⟩ := hlong
        rw [code_tooLong, List.length_take_of_le (Nat.le_of_lt (List.getElem?_eq_some_iff.1 hs).1)] at hcode
        obtain ⟨hline, hfault⟩ := (LineFailure.record_eq_unexpected hf).1 hmem
        exact ⟨k, n, ⟨_, _, _, hreads, hd, hcodes, hs, hcode⟩, hline, hfault⟩
  · rintro ⟨k, n, hlong, hat⟩
    rw [h.stops_at_longLine hlong, List.mem_singleton]
    exact (LineFailure.record_eq_unexpected hf).2 hat

end Reference

/-! ## A jump to nowhere -/

namespace Reference

/-- A jump to a number of `n` digits. -/
def longJump (n : Nat) : List Char := [' ', 'j', ' '] ++ List.replicate n '7'

theorem mem_longJump {n : Nat} {c : Char} (h : c ∈ longJump n) : c = ' ' ∨ c = 'j' ∨ c = '7' := by
  simp only [longJump, List.mem_append, List.mem_cons, List.not_mem_nil, or_false, List.mem_replicate] at h
  grind

theorem longJump_reads (n : Nat) :
    Reads (Utf8.encode (longJump n)) [SourceLine.parse (String.ofList (longJump n))] := by
  have hlines : Utf8.lines (Utf8.encode (longJump n)) = [Utf8.encode (longJump n)] := by
    apply Utf8.lines_single
    · exact Utf8.encode_ne_nil (List.cons_ne_nil _ _)
    · intro hmem
      rcases mem_longJump (Utf8.newline_mem_encode hmem) with hc | hc | hc <;> cases hc
  rw [Reads, hlines, List.map_singleton, List.map_singleton, SourceLine.ofBytes, Utf8.text, Utf8.decode_encode]
  rfl

/-- The line is its own text: it has no tabs and no line end. -/
theorem longJump_text (n : Nat) : SourceLine.expandTabs (SourceLine.dropLineEnd (longJump n)) = longJump n := by
  rw [SourceLine.dropLineEnd_same, SourceLine.expandTabs_same]
  · intro htab
    rcases mem_longJump htab with hc | hc | hc <;> cases hc
  · intro c hc
    rcases mem_longJump (List.mem_of_getLast? hc) with rfl | rfl | rfl <;> decide

theorem longJump_written {n : Nat} (hn : n ≠ 0) :
    Statement.Written ⟨none, some "j", [String.ofList (List.replicate n '7')], none⟩ (longJump n) := by
  have hblank : Statement.Blank [' '] := by simp [Statement.Blank, Statement.blanks]
  have hname : Statement.IsMnemonic "j" := by
    constructor
    · simp
    · simp
  have htoken : Statement.IsArgument (String.ofList (List.replicate n '7')) := by
    constructor
    · simpa using hn
    · intro c hc
      rw [String.toList_ofList] at hc
      rw [List.eq_of_mem_replicate hc]
      decide
  have hwritten : Statement.Written ⟨none, some "j", [String.ofList (List.replicate n '7')], none⟩ _ :=
    .mk .absent hblank (.applied hname hblank (List.cons_ne_nil _ _) htoken .nil (by simp)) (List.forall_mem_nil _)
      .absent (fun _ => List.cons_ne_nil _ _) (fun _ hnone => absurd hnone (List.cons_ne_nil _ _))
  simpa [longJump] using hwritten

theorem longJump_statement {n : Nat} (hn : n ≠ 0) : (SourceLine.parse (String.ofList (longJump n))).statement =
    ⟨none, some "j", [String.ofList (List.replicate n '7')], none⟩ := by
  have hread := Statement.ofChars_of_written (longJump_written hn)
  rw [← longJump_text] at hread
  rw [SourceLine.statement, SourceLine.parse, String.toList_ofList, hread]
  rfl

/-- The jump cannot be encoded. -/
theorem longJump_longLine {n : Nat} (h : maxDecimalDigits < n) : LongLine (Utf8.encode (longJump n)) 0 n := by
  have hn : n ≠ 0 := Nat.ne_of_gt (Nat.lt_of_le_of_lt (Nat.zero_le _) h)
  have hs := longJump_statement hn
  have hreads := longJump_reads n
  generalize SourceLine.parse (String.ofList (longJump n)) = s at hs hreads
  have hfirst : (List.replicate n '7').head? = some '7' := by
    rw [List.head?_replicate, if_neg hn]
  refine ⟨[s], [], s, hreads, ?_, coded_nil _, rfl, .j, [String.ofList (List.replicate n '7')], ?_, ?_, ?_, 0,
    String.ofList (List.replicate n '7'), rfl, rfl, [], List.replicate n '7', String.toList_ofList, .inl rfl, ?_, ?_,
    List.length_replicate, h⟩
  · intro i j name hi
    cases i with
    | zero => simp [labelAt?, hs] at hi
    | succ i => simp [labelAt?] at hi
  · rw [hs]
    rfl
  · have hlabel : Operand.isLabelReference (String.ofList (List.replicate n '7')) = false := by
      obtain ⟨n, rfl⟩ := Nat.exists_eq_succ_of_ne_zero hn
      rw [Operand.isLabelReference, String.toList_ofList]
      rfl
    have hparen : '(' ∉ (String.ofList (List.replicate n '7')).toList := by
      rw [String.toList_ofList, List.mem_replicate]
      rintro ⟨-, ⟨⟩⟩
    rw [hs, Operand.resolve_cons_eq, Operand.resolveOne_plain hlabel hparen]
    rfl
  · exact Nat.le_refl 1
  · intro c hc
    rw [List.eq_of_mem_replicate hc]
    rfl
  · rw [hfirst]
    decide

end Reference

namespace Assembler

open Reference

variable {a : Assembler} {source : List UInt8}

/-- Every run with a readable source and outputs that can be opened comes to an answer. An error that is no refusal is
recorded exactly if the first line that cannot be encoded has a literal that is too long, and for that line and that
fault only. Whatever operands an instruction gets, it takes none from behind the last one, and the fields that it hands
over all have a value. -/
theorem unexpected_iff_longLine (he : a.errors = []) (h : a.Ready source) :
    ∃ b answer, a.assemble = (b, .ok answer) ∧
      (∀ f : LineFailure, f.Unexpected → (f.record ∈ b.errors ↔
        ∃ k n, LongLine (a.sourceRead source) k n ∧ f.line = k + 1 ∧ f.fault = .literalTooLong n)) ∧
      ∀ m address operands line,
        (Instruction.takeFields m address line).run { operands } ≠ .error .operandOutOfRange ∧
        (∀ fs c, (Instruction.takeFields m address line).run { operands } = .ok (fs, c) →
          c.operands = operands ∧ c.consumed ≤ operands.length) ∧
        ∀ fs, Instruction.fieldsOf m address operands line = .ok fs → ∀ f ∈ fs, f.value ≠ none := by
  obtain ⟨b, r, hb, hout, hleaves⟩ := assemble_outcome h he
  refine ⟨b, r.answer, hb, ?_, ?_⟩
  · intro f hf
    rw [hleaves.errors]
    exact hout.unexpected_iff hf
  · intro m address operands line
    refine ⟨fun hrange => ?_, fun fs c => Instruction.takeFields_consumed, fun fs => Instruction.fieldsOf_values⟩
    rcases Instruction.takeFields_error hrange with ⟨cause, hc⟩ | ⟨token, n, -, -, hlong⟩
    · cases hc
    · cases hlong

/-- A jump to a number of 4301 digits is such a line. -/
theorem unexpected_iff_longLine_of_longJump :
    LongLine (Utf8.encode (longJump 4301)) 0 4301 ∧
      ∃ b answer, (alone (Utf8.encode (longJump 4301))).assemble = (b, .ok answer) ∧
        LineFailure.record ⟨1, .literalTooLong 4301, none⟩ ∈ b.errors := by
  have hlong : LongLine (Utf8.encode (longJump 4301)) 0 4301 := longJump_longLine (by decide)
  obtain ⟨b, answer, hb, hiff, -⟩ := unexpected_iff_longLine rfl (alone_ready (Utf8.encode (longJump 4301)))
  refine ⟨hlong, b, answer, hb, (hiff ⟨1, .literalTooLong 4301, none⟩ nofun).2 ⟨0, 4301, ?_, rfl, rfl⟩⟩
  rwa [(alone_separate _).sourceRead]

end Assembler

end MipsAssembler
