import Mathlib.Data.List.Basic
import MipsAssembler.Diagnostic
import MipsAssembler.Proofs.Literal
/-!
# What a diagnostic tells

The wording of a refusal loses nothing: kind, message and token together say what happened and with which values
(`Cause.diagnostic_injective`). A message shows the token it blames in quotes, unless a value read from it does not fit
(`Cause.message_quotes_token`), and the letter behind a message tells its kind (`Kind.code_injective`).
-/

namespace MipsAssembler

/-! ## Numbers inside a message -/

namespace Text

theorem decimalNat_inj {m n : Nat} (h : decimalNat m = decimalNat n) : m = n := by
  have hdigits : digits 10 m = digits 10 n := String.ofList_injective h
  have hread : ∀ k, Literal.positional 10 (digits 10 k) = k := Literal.positional_digits (by decide) (by decide)
  rw [← hread m, hdigits, hread]

theorem decimal_inj {m n : Int} (h : decimal m = decimal n) : m = n := by
  obtain ⟨s, hs, hm⟩ := Literal.shape_decimal m
  obtain ⟨s', hs', hn⟩ := Literal.shape_decimal n
  rw [h, hs'] at hs
  cases hs
  exact hm.symm.trans hn

theorem space_not_mem_decimalNat (n : Nat) : ' ' ∉ (decimalNat n).toList := by
  intro h
  rw [decimalNat, String.toList_ofList] at h
  obtain ⟨k, hk, hspace⟩ := Literal.mem_digits (by decide) h
  have hnone : ∀ k < 10, ' ' ≠ lowerDigit k := by decide
  exact hnone k hk hspace

theorem space_not_mem_decimal (n : Int) : ' ' ∉ (decimal n).toList := by
  cases n with
  | ofNat n => exact space_not_mem_decimalNat n
  | negSucc n =>
    rw [decimal, String.toList_append, List.mem_append]
    rintro (h | h)
    · exact absurd h (by decide)
    · exact space_not_mem_decimalNat _ h

theorem space_not_mem_decimalOrMissing (n : Option Int) : ' ' ∉ (decimalOrMissing n).toList := by
  cases n with
  | none => decide
  | some n => exact space_not_mem_decimal n

theorem decimalOrMissing_inj {m n : Option Int} (h : decimalOrMissing m = decimalOrMissing n) : m = n := by
  -- A number has the shape of a literal, and the word for a missing one has not.
  have hmissing : ∀ n, missing ≠ decimal n := by
    intro n hn
    obtain ⟨s, hs, -⟩ := Literal.shape_decimal n
    rw [← hn] at hs
    cases hs
  cases m with
  | none =>
    cases n with
    | none => rfl
    | some n => exact absurd h (hmissing n)
  | some m =>
    cases n with
    | none => exact absurd h.symm (hmissing m)
    | some n => rw [decimal_inj h]

end Text

/-- What stands in front of the first space, and what stands behind it. -/
theorem split_space {word word' rest rest' : List Char} (h : ' ' ∉ word) (h' : ' ' ∉ word')
    (heq : word ++ ' ' :: rest = word' ++ ' ' :: rest') : word = word' ∧ rest = rest' := by
  induction word generalizing word' with
  | nil =>
    cases word' with
    | nil => exact ⟨rfl, (List.cons.inj heq).2⟩
    | cons c word' => exact absurd (List.cons.inj heq).1 fun hc => h' (hc ▸ .head _)
  | cons c word ih =>
    cases word' with
    | nil => exact absurd (List.cons.inj heq).1 fun hc => h (hc ▸ .head _)
    | cons c' word' =>
      rw [List.mem_cons, not_or] at h h'
      obtain ⟨rfl, htail⟩ := List.cons.inj heq
      obtain ⟨rfl, hrest⟩ := ih h.2 h'.2 htail
      exact ⟨rfl, hrest⟩

theorem split_first {word word' rest rest' : String} (h : ' ' ∉ word.toList) (h' : ' ' ∉ word'.toList)
    (heq : word ++ (" " ++ rest) = word' ++ (" " ++ rest')) : word = word' ∧ rest = rest' := by
  have hchars := congrArg String.toList heq
  simp only [String.toList_append] at hchars
  obtain ⟨hword, hrest⟩ := split_space h h' hchars
  exact ⟨String.toList_inj.1 hword, String.toList_inj.1 hrest⟩

/-- What stands in front of the last space, and what stands behind it. -/
theorem split_last {word word' front front' : String} (h : ' ' ∉ word.toList) (h' : ' ' ∉ word'.toList)
    (heq : front ++ " " ++ word = front' ++ " " ++ word') : front = front' ∧ word = word' := by
  have hchars := congrArg (fun s => s.toList.reverse) heq
  simp only [String.toList_append, List.reverse_append] at hchars
  obtain ⟨hword, hfront⟩ := split_space (by simpa using h) (by simpa using h') hchars
  exact ⟨String.toList_inj.1 (List.reverse_inj.1 hfront), String.toList_inj.1 (List.reverse_inj.1 hword)⟩

/-! ## Kinds and causes -/

theorem Kind.code_injective : Function.Injective Kind.code := by
  intro k k' h
  cases k <;> cases k' <;> first | rfl | exact absurd h (by decide)

theorem Utf8.Fault.message_injective : Function.Injective Utf8.Fault.message := by
  intro f f' h
  cases f <;> cases f' <;> first | rfl | exact absurd h (by decide)

namespace Cause

/-- A message quotes the token that it blames. The message of an overflow shows the value instead. -/
theorem message_quotes_token {c : Cause} {token : String} (h : c.token = some token) (hk : c.kind ≠ .fieldOverflow) :
    ∃ front behind, c.message = front ++ "\"" ++ token ++ "\"" ++ behind := by
  cases c with
  | unknownInstruction mnemonic =>
    cases h
    exact ⟨"Unknown instruction ", "", String.toList_inj.1 (by unfold message; simp [Text.orMissing])⟩
  | malformedLiteral token =>
    cases h
    exact ⟨"Immediate field value ", " is not a decimal, hexadecimal or octal number",
      String.toList_inj.1 (by unfold message; simp [Text.orMissing])⟩
  | unknownRegister token =>
    cases h
    exact ⟨"Unknown register ", "", String.toList_inj.1 (by unfold message; simp [Text.orMissing])⟩
  | undefinedSymbol name =>
    cases h
    exact ⟨"Symbol ", " is not defined", String.toList_inj.1 (by unfold message; simp)⟩
  | duplicateSymbol name line first =>
    cases h
    exact ⟨"Symbol ", " on line " ++ Text.decimalOrMissing line ++ " is already defined on line " ++ Text.decimal first,
      String.toList_inj.1 (by unfold message; simp)⟩
  | fieldOverflow => exact absurd rfl hk
  | _ => cases h

theorem duplicateSymbol_inj {name : String} {line line' : Option Int} {first first' : Int}
    (h : (duplicateSymbol name line first).message = (duplicateSymbol name line' first').message) :
    line = line' ∧ first = first' := by
  have hrest : Text.decimalOrMissing line ++ (" " ++ ("is already defined on line " ++ Text.decimal first)) =
      Text.decimalOrMissing line' ++ (" " ++ ("is already defined on line " ++ Text.decimal first')) := by
    have hmark : " is already defined on line " = " " ++ "is already defined on line " := by simp
    unfold message at h
    simpa only [hmark, String.append_assoc, String.append_right_inj] using h
  obtain ⟨hline, hfirst⟩ := split_first (Text.space_not_mem_decimalOrMissing _)
    (Text.space_not_mem_decimalOrMissing _) hrest
  exact ⟨Text.decimalOrMissing_inj hline, Text.decimal_inj ((String.append_right_inj _).1 hfirst)⟩

theorem undecodable_inj {line line' : Int} {fault fault' : Utf8.Fault}
    (h : (undecodable line fault).message = (undecodable line' fault').message) : line = line' ∧ fault = fault' := by
  have hrest : Text.decimal line ++ (" " ++ ("as utf-8: " ++ fault.message)) =
      Text.decimal line' ++ (" " ++ ("as utf-8: " ++ fault'.message)) := by
    have hmark : " as utf-8: " = " " ++ "as utf-8: " := by simp
    unfold message at h
    simpa only [hmark, String.append_assoc, String.append_right_inj] using h
  obtain ⟨hline, hfault⟩ := split_first (Text.space_not_mem_decimal _) (Text.space_not_mem_decimal _) hrest
  exact ⟨Text.decimal_inj hline, Utf8.Fault.message_injective ((String.append_right_inj _).1 hfault)⟩

/-- The name of a field may hold spaces, so the message is read from its end. -/
theorem fieldOverflow_inj {field field' : String} {value value' : Int} {width width' : Nat}
    {token token' : Option String}
    (h : (fieldOverflow field value width token).message = (fieldOverflow field' value' width' token').message) :
    field = field' ∧ value = value' ∧ width = width' := by
  have hvalue : "\" value " = "\" value" ++ " " := by simp
  have hwidth : " does not fit in " = " does not fit in" ++ " " := by simp
  unfold message at h
  rw [String.append_left_inj, hwidth, ← String.append_assoc, ← String.append_assoc] at h
  obtain ⟨hfront, hw⟩ := split_last (Text.space_not_mem_decimalNat _) (Text.space_not_mem_decimalNat _) h
  rw [String.append_left_inj, hvalue, ← String.append_assoc, ← String.append_assoc] at hfront
  obtain ⟨hfield, hv⟩ := split_last (Text.space_not_mem_decimal _) (Text.space_not_mem_decimal _) hfront
  rw [String.append_left_inj, String.append_right_inj] at hfield
  exact ⟨hfield, Text.decimal_inj hv, Text.decimalNat_inj hw⟩

/-- A diagnostic says all that its cause does: no two refusals are reported alike. -/
theorem diagnostic_injective {c c' : Cause} {line line' : Option Int} (h : c.diagnostic line = c'.diagnostic line') :
    c = c' ∧ line = line' := by
  have hkind : c.kind = c'.kind := congrArg Diagnostic.kind h
  have hmessage : c.message = c'.message := congrArg Diagnostic.message h
  have htoken : c.token = c'.token := congrArg Diagnostic.token h
  refine ⟨?_, congrArg Diagnostic.line h⟩
  -- The kind leaves one cause, or two that differ in their wording, and the message or the token has its values.
  cases c with
  | invalidLine text =>
    cases c' <;> cases hkind
    unfold message at hmessage
    rw [String.append_left_inj, String.append_right_inj] at hmessage
    rw [hmessage]
  | unknownInstruction mnemonic =>
    cases c' <;> cases hkind
    rw [show mnemonic = _ from htoken]
    rfl
  | tooFewOperands =>
    cases c' <;> cases hkind
    · rfl
    · exact absurd hmessage (by decide)
  | tooManyOperands =>
    cases c' <;> cases hkind
    · exact absurd hmessage (by decide)
    · rfl
  | malformedLiteral token =>
    cases c' <;> cases hkind
    rw [show token = _ from htoken]
    rfl
  | unknownRegister token =>
    cases c' <;> cases hkind
    rw [show token = _ from htoken]
    rfl
  | undefinedSymbol name =>
    cases c' <;> cases hkind
    rw [show name = _ from Option.some.inj htoken]
  | duplicateSymbol name at? first =>
    cases c' <;> cases hkind
    cases htoken
    obtain ⟨rfl, rfl⟩ := duplicateSymbol_inj hmessage
    rfl
  | fieldOverflow field value width token =>
    cases c' <;> cases hkind
    cases htoken
    obtain ⟨rfl, rfl, rfl⟩ := fieldOverflow_inj hmessage
    rfl
  | undecodable at? fault =>
    cases c' <;> cases hkind
    obtain ⟨rfl, rfl⟩ := undecodable_inj hmessage
    rfl

end Cause

end MipsAssembler
