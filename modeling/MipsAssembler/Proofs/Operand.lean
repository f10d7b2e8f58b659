import MipsAssembler.Operand
import MipsAssembler.Proofs.Literal
/-!
# What arguments are resolved to

A label is never taken for an offset with its base (`splitOffset_label`), so it gives one operand, the address of its
symbol (`resolve_snoc_label`).
-/

namespace MipsAssembler.Operand

variable {t : SymbolTable} {line : Option Int} {token : String} {tokens : List String} {e : Fault}

/-- An offset starts with a digit or a minus. -/
theorem isOffset_first {c : Char} {cs : List Char} (h : isOffset (c :: cs) = true) : c = '-' ∨ c.isDigit = true := by
  unfold isOffset at h
  split at h
  · rename_i heq
    cases heq
    exact .inr (by decide)
  · rename_i heq
    cases heq
    exact .inr (by decide)
  · rename_i heq
    cases heq
    exact .inl rfl
  · rename_i heq
    cases heq
    exact .inr (Literal.isLeadingDigit_iff.1 (Bool.and_eq_true_iff.1 h).1).1
  · cases h

/-- A label is no offset with its base. -/
theorem splitOffset_label (h : isLabelReference token = true) : splitOffset? token = none := by
  have hoff : isOffset (token.toList.takeWhile (· ≠ '(')) = false := by
    rw [Bool.eq_false_iff]
    intro hoff
    unfold isLabelReference at h
    cases hl : token.toList with
    | nil =>
      rw [hl] at hoff
      cases hoff
    | cons c cs =>
      rw [hl] at h hoff
      by_cases hc : c = '('
      · simp [hc, isOffset] at hoff
      · rw [List.takeWhile_cons_of_pos (by simpa using hc)] at hoff
        rcases isOffset_first hoff with rfl | hd
        · simp at h
        · simp [hd] at h
  unfold splitOffset?
  simp only [hoff, Bool.false_and]
  split
  · split <;> rfl
  · rfl

theorem resolveOne_eq : resolveOne t line token =
    match splitOffset? token with
    | some (offset, base) => .ok [offset, base]
    | none =>
      if isLabelReference token then
        match t.lookup token with
        | some s => .ok [Text.decimal s.address]
        | none => .error (.refused (.undefinedSymbol token) line)
      else .ok [token] := rfl

theorem resolve_cons_eq : resolve t line (token :: tokens) =
    match resolveOne t line token with
    | .error e => .error e
    | .ok first =>
      match resolve t line tokens with
      | .error e => .error e
      | .ok more => .ok (first ++ more) := rfl

theorem resolveOne_label {first : List String} (h : isLabelReference token = true)
    (hr : resolveOne t line token = .ok first) : ∃ s, t.lookup token = some s ∧ first = [Text.decimal s.address] := by
  rw [resolveOne_eq, splitOffset_label h] at hr
  simp only [h, if_true] at hr
  split at hr
  · rename_i s hs
    cases hr
    exact ⟨s, hs, rfl⟩
  · cases hr

theorem resolveOne_lookup {s : Symbol} (h : isLabelReference token = true) (hs : t.lookup token = some s) :
    resolveOne t line token = .ok [Text.decimal s.address] := by
  rw [resolveOne_eq, splitOffset_label h]
  simp [h, hs]

/-- A token that is no label and holds no parenthesis stays as it is. -/
theorem resolveOne_plain (h : isLabelReference token = false) (hp : '(' ∉ token.toList) :
    resolveOne t line token = .ok [token] := by
  have hsplit : splitOffset? token = none := by
    unfold splitOffset?
    dsimp only
    split
    · rename_i rest heq
      have hmem : '(' ∈ token.toList.dropWhile (· ≠ '(') := by
        rw [heq]
        exact List.mem_cons_self
      exact absurd ((List.dropWhile_sublist _).subset hmem) hp
    · rfl
  rw [resolveOne_eq, hsplit]
  simp [h]

/-- Resolving fails at a label that is not defined, and nowhere else. -/
theorem resolveOne_error (h : resolveOne t line token = .error e) : e = .refused (.undefinedSymbol token) line := by
  rw [resolveOne_eq] at h
  split at h
  · cases h
  · split at h
    · split at h
      · cases h
      · cases h
        rfl
    · cases h

theorem resolve_error (h : resolve t line tokens = .error e) : ∃ name, e = .refused (.undefinedSymbol name) line := by
  induction tokens with
  | nil => cases h
  | cons token rest ih =>
    rw [resolve_cons_eq] at h
    cases hone : resolveOne t line token with
    | error e' =>
      rw [hone] at h
      cases h
      exact ⟨token, resolveOne_error hone⟩
    | ok first =>
      rw [hone] at h
      cases hrest : resolve t line rest with
      | error e' =>
        simp only [hrest] at h
        cases h
        exact ih hrest
      | ok more => simp only [hrest] at h; cases h

/-- The operands of the first argument come first. -/
theorem resolve_cons {operands : List String} : resolve t line (token :: tokens) = .ok operands ↔ ∃ first more,
    resolveOne t line token = .ok first ∧ resolve t line tokens = .ok more ∧ operands = first ++ more := by
  rw [resolve_cons_eq]
  cases resolveOne t line token with
  | error e => simp
  | ok first => cases resolve t line tokens <;> simp [eq_comm]

/-- A label at the end gives the last operand, the address of its symbol. -/
theorem resolve_snoc_label {operands : List String} (h : isLabelReference token = true)
    (hr : resolve t line (tokens ++ [token]) = .ok operands) :
    ∃ s before, t.lookup token = some s ∧ operands = before ++ [Text.decimal s.address] := by
  induction tokens generalizing operands with
  | nil =>
    obtain ⟨first, more, hone, hmore, rfl⟩ := resolve_cons.1 hr
    cases hmore
    obtain ⟨s, hs, rfl⟩ := resolveOne_label h hone
    exact ⟨s, [], hs, rfl⟩
  | cons other rest ih =>
    obtain ⟨first, more, -, hmore, rfl⟩ := resolve_cons.1 hr
    obtain ⟨s, before, hs, rfl⟩ := ih hmore
    exact ⟨s, first ++ before, hs, by rw [List.append_assoc]⟩

end MipsAssembler.Operand
