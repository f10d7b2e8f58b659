import MipsAssembler.Proofs.Numerals
import MipsAssembler.Proofs.Operand
/-!
# Arguments, one by one

Resolving translates each argument on its own and keeps their order. `Translates` says what an argument becomes: two
operands if it has the shape of an offset with its base (`BaseOffset`), the address of its symbol if it refers to a
label, and itself otherwise. `resolve_translates` puts it together: resolving gives the translations one after another,
unless a label is not defined or its address cannot be written.

A base register is told by a pattern that is written without the table of registers. The texts that fill the pattern are
counted out (`texts`), and they are the names of the table and the numbers from 0 to 31 (`isReference_iff`).
-/

namespace MipsAssembler

/-- `$` and a decimal number without leading zeros. -/
def Register.Numbered (token : String) (n : Nat) : Prop := ∃ ds, token.toList = '$' :: ds ∧ Literal.Plain ds n

/-- A register by its name, or by its number. -/
def Register.Referred (token : String) : Prop := token ∈ names ∨ ∃ n < 32, Numbered token n

namespace Operand

/-! ## Kinds of arguments -/

/-- The literals that may stand in front of a base register. -/
inductive Offset : List Char → Prop
  | hexadecimal {ds : List Char} {n : Nat} : Literal.Denotes 16 ds n → Offset ('0' :: 'x' :: ds)
  | octal {ds : List Char} {n : Nat} : Literal.Denotes 8 ds n → Offset ('0' :: ds)
  | decimal {ds : List Char} {n : Nat} : Literal.Plain ds n → Offset ds
  | negative {ds : List Char} {n : Nat} : Literal.Plain ds n → n ≠ 0 → Offset ('-' :: ds)

/-- An offset with its base register in parentheses. -/
structure BaseOffset (token offset base : String) : Prop where
  text : token = offset ++ "(" ++ base ++ ")"
  literal : Offset offset.toList
  register : Register.Referred base

/-- The argument starts with none of the characters that registers and literals start with. -/
def RefersToLabel (token : String) : Prop :=
  ∀ c, token.toList.head? = some c → c ≠ '$' ∧ c ≠ '-' ∧ ¬ ('0' ≤ c ∧ c ≤ '9')

/-- The argument refers to a label that is not in the table. -/
def Undefined (t : SymbolTable) (token : String) : Prop := RefersToLabel token ∧ t.lookup token = none

/-- The argument refers to a label whose address has more digits than can be written. -/
def Unwritable (t : SymbolTable) (token : String) : Prop :=
  RefersToLabel token ∧ ∃ s, t.lookup token = some s ∧ 10 ^ maxDecimalDigits ≤ s.address.natAbs

/-- What an argument becomes. -/
inductive Translates (t : SymbolTable) : String → List String → Prop
  | baseOffset {token offset base : String} : BaseOffset token offset base → Translates t token [offset, base]
  | label {token : String} {s : Symbol} : RefersToLabel token → t.lookup token = some s →
      Translates t token [Text.decimal s.address]
  | same {token : String} : (∀ offset base, ¬ BaseOffset token offset base) → ¬ RefersToLabel token →
      Translates t token [token]

end Operand

/-! ## Literals -/

namespace Literal

variable {base n : Nat} {s : List Char} {v : Int}

theorem Denotes.ne_paren (hbase : base ≤ 16) (h : Denotes base s n) : ∀ c ∈ s, c ≠ '(' := by
  rintro c hc rfl
  obtain ⟨k, hlt, hk⟩ := ((denotes_iff hbase).1 h).2.1 _ hc
  have hparen : ∀ k < 16, '(' ≠ Text.lowerDigit k ∧ '(' ≠ Text.upperDigit k := by decide
  obtain ⟨hlow, hup⟩ := hparen k (Nat.lt_of_lt_of_le hlt hbase)
  exact hk.elim hlow hup

theorem Unsigned.ne_paren (h : Unsigned s n) : ∀ c ∈ s, c ≠ '(' := by
  cases h with
  | hexadecimal hx hds => rcases hx with rfl | rfl <;> simpa using hds.ne_paren (by decide)
  | octal hds => simpa using hds.ne_paren (by decide)
  | decimal hds => exact hds.1.ne_paren (by decide)

/-- No parenthesis stands in a literal. -/
theorem Written.ne_paren (h : Written s v) : ∀ c ∈ s, c ≠ '(' := by
  cases h with
  | bare hs => exact hs.ne_paren
  | plus hs | minus hs => simpa using hs.ne_paren

end Literal

/-! ## Registers -/

namespace Register

/-- The texts that fill the places. -/
def texts : List Place → List (List Char)
  | [] => [[]]
  | p :: rest => (p.chars.flatMap fun c => (texts rest).map (c :: ·)) ++ if p.optional then texts rest else []

theorem fills_iff {ps : List Place} {s : List Char} : fills ps s = true ↔ s ∈ texts ps := by
  induction ps generalizing s with
  | nil => simp [fills, texts]
  | cons p rest ih => cases s <;> cases hp : p.optional <;> simp [fills, texts, hp, ih]

/-- A number below 100 has one or two digits. -/
def shortDigits (n : Nat) : List Char :=
  if n < 10 then [Text.lowerDigit n] else [Text.lowerDigit (n / 10), Text.lowerDigit (n % 10)]

theorem digits_short {n : Nat} (h : n < 100) : Text.digits 10 n = shortDigits n := by
  unfold shortDigits
  split
  · rename_i hn
    exact Literal.digits_small hn
  · rename_i hn
    rw [Literal.digits_large (by decide) hn, Literal.digits_small (by omega)]
    rfl

/-- What stands behind the `$` in the table and in the numbers of its registers. -/
def referred : List (List Char) := names.map (·.toList.tail) ++ (List.range 32).map shortDigits

-- Both sides are lists of 64 texts at most, so each is looked up in the other.
theorem texts_alternatives {s : List Char} : s ∈ alternatives.flatMap texts ↔ s ∈ referred := by
  have hsub : (alternatives.flatMap texts).all (referred.contains ·) = true := by decide +kernel
  have hsup : referred.all ((alternatives.flatMap texts).contains ·) = true := by decide +kernel
  simp only [List.all_eq_true, List.contains_iff_mem] at hsub hsup
  exact ⟨hsub s, hsup s⟩

theorem names_dollar {token : String} (h : token ∈ names) : token.toList = '$' :: token.toList.tail := by
  have hall : names.all (fun x => x.toList = '$' :: x.toList.tail) = true := by decide +kernel
  simpa using List.all_eq_true.1 hall token h

theorem numbered_iff {token : String} {n : Nat} : Numbered token n ↔ token.toList = '$' :: Text.digits 10 n := by
  constructor
  · rintro ⟨ds, htoken, hds⟩
    rw [htoken, hds.unique (Literal.plain_digits n)]
  · exact fun htoken => ⟨_, htoken, Literal.plain_digits n⟩

/-- The pattern of a base register, which is written without the table, takes the names of the table and the numbers
up to 31. -/
theorem isReference_iff {token : String} : isReference token = true ↔ Referred token := by
  have hpattern : isReference token = true ↔ ∃ rest, token.toList = '$' :: rest ∧ rest ∈ referred := by
    simp only [← texts_alternatives, List.mem_flatMap, ← fills_iff]
    unfold isReference
    split
    · rename_i rest hrest
      simp [hrest]
    · rename_i hno
      simp only [Bool.false_eq_true, false_iff, not_exists, not_and]
      exact fun rest hrest => absurd hrest (hno rest)
  rw [hpattern, Referred]
  constructor
  · rintro ⟨rest, htoken, hrest⟩
    rw [referred, List.mem_append, List.mem_map, List.mem_map] at hrest
    rcases hrest with ⟨name, hname, rfl⟩ | ⟨n, hn, rfl⟩
    · rw [← names_dollar hname, String.toList_inj] at htoken
      exact .inl (htoken ▸ hname)
    · rw [List.mem_range] at hn
      exact .inr ⟨n, hn, numbered_iff.2 (by rw [htoken, digits_short (by omega)])⟩
  · rintro (hname | ⟨n, hn, hnum⟩)
    · exact ⟨_, names_dollar hname, List.mem_append_left _ (List.mem_map_of_mem hname)⟩
    · rw [numbered_iff, digits_short (by omega)] at hnum
      exact ⟨_, hnum, List.mem_append_right _ (List.mem_map_of_mem (List.mem_range.2 hn))⟩

end Register

namespace Operand

variable {t : SymbolTable} {line : Option Int} {token offset base : String} {tokens operands : List String} {e : Fault}

/-! ## Offsets -/

theorem isOffset_octal {ds : List Char} (h : ds.all Literal.isOctalDigit = true) : isOffset ('0' :: ds) = true := by
  rw [isOffset]
  · exact h
  · rintro ds rfl
    rw [List.all_cons, Bool.and_eq_true] at h
    exact absurd h.1 (by decide)

theorem isOffset_leading {d : Char} {ds : List Char} (hd : Literal.isLeadingDigit d = true)
    (hds : ∀ c ∈ ds, c.isDigit = true) : isOffset (d :: ds) = true := by
  rw [isOffset]
  · rw [hd]
    exact List.all_eq_true.2 hds
  · rintro ds rfl
    exact absurd hd (by decide)
  · rintro rfl
    exact absurd hd (by decide)
  · rintro d ds rfl
    exact absurd hd (by decide)

theorem isOffset_iff {s : List Char} : isOffset s = true ↔ Offset s := by
  constructor
  · intro h
    unfold isOffset at h
    split at h
    · exact .hexadecimal ((Literal.run_iff (by decide) Literal.isHexDigit_iff).1 ⟨h, rfl⟩)
    · rename_i ds _
      cases ds with
      | nil => exact .decimal (Literal.plain_iff.1 ⟨rfl, rfl⟩)
      | cons d ds => exact .octal ((Literal.run_iff (by decide) Literal.isOctalDigit_iff).1 ⟨h, rfl⟩)
    · rename_i d ds
      obtain ⟨hd, hds⟩ := Bool.and_eq_true_iff.1 h
      exact .negative (Literal.plain_leading hd (List.all_eq_true.1 hds)) (Literal.positional_leading hd ds)
    · obtain ⟨hd, hds⟩ := Bool.and_eq_true_iff.1 h
      exact .decimal (Literal.plain_leading hd (List.all_eq_true.1 hds))
    · cases h
  · intro h
    cases h with
    | hexadecimal hds => exact ((Literal.run_iff (by decide) Literal.isHexDigit_iff).2 hds).1
    | octal hds =>
      obtain ⟨hrun, -⟩ := (Literal.run_iff (by decide) Literal.isOctalDigit_iff).2 hds
      exact isOffset_octal (Bool.and_eq_true_iff.1 hrun).2
    | decimal hds =>
      rcases hds.cases with ⟨rfl, -⟩ | ⟨d, rest, rfl, hlead, hrest, -⟩
      · rfl
      · exact isOffset_leading hlead hrest
    | negative hds hn =>
      rcases hds.cases with ⟨-, hzero⟩ | ⟨d, rest, rfl, hlead, hrest, -⟩
      · exact absurd hzero hn
      · exact Bool.and_eq_true_iff.2 ⟨hlead, List.all_eq_true.2 hrest⟩

theorem Offset.written {s : List Char} (h : Offset s) : ∃ v, Literal.Written s v := by
  cases h with
  | hexadecimal hds => exact ⟨_, .bare (.hexadecimal (.inl rfl) hds)⟩
  | octal hds => exact ⟨_, .bare (.octal hds)⟩
  | decimal hds => exact ⟨_, .bare (.decimal hds)⟩
  | negative hds => exact ⟨_, .minus (.decimal hds)⟩

/-- No parenthesis stands in an offset. -/
theorem Offset.ne_paren {s : List Char} (h : Offset s) : ∀ c ∈ s, c ≠ '(' := by
  obtain ⟨v, hv⟩ := h.written
  exact hv.ne_paren

/-! ## Offsets with their bases -/

theorem beforeClosing_iff {s base : List Char} : beforeClosing? s = some base ↔ s = base ++ [')'] := by
  induction s generalizing base with
  | nil => simp [beforeClosing?]
  | cons c rest ih =>
    cases rest with
    | nil =>
      by_cases hc : c = ')'
      · simp [beforeClosing?, hc]
      · cases base <;> simp [beforeClosing?, hc]
    | cons d rest =>
      rw [beforeClosing?, Option.map_eq_some_iff]
      · cases base with
        | nil => simp
        | cons b bs => simp [ih, and_comm, eq_comm]
      · exact nofun

theorem splitOffset_iff : splitOffset? token = some (offset, base) ↔ BaseOffset token offset base := by
  constructor
  · intro h
    unfold splitOffset? at h
    dsimp only at h
    split at h
    · rename_i rest hrest
      split at h
      · rename_i chars hchars
        split at h
        · rename_i hboth
          cases h
          obtain ⟨hoffset, hbase⟩ := Bool.and_eq_true_iff.1 hboth
          refine ⟨?_, ?_, Register.isReference_iff.1 hbase⟩
          · rw [← String.toList_inj]
            have htoken := List.takeWhile_append_dropWhile (p := (· ≠ '(')) (l := token.toList)
            rw [hrest, beforeClosing_iff.1 hchars] at htoken
            simpa using htoken.symm
          · rw [String.toList_ofList]
            exact isOffset_iff.1 hoffset
        · cases h
      · cases h
    · cases h
  · rintro ⟨rfl, hoffset, hbase⟩
    have hrun : ∀ c ∈ offset.toList, decide (c ≠ '(') = true := fun c hc => decide_eq_true (hoffset.ne_paren c hc)
    have htext : (offset ++ "(" ++ base ++ ")").toList = offset.toList ++ '(' :: (base.toList ++ [')']) := by simp
    unfold splitOffset?
    simp only [htext]
    rw [List.takeWhile_append_of_pos hrun, List.dropWhile_append_of_pos hrun]
    simp [beforeClosing_iff.2 rfl, isOffset_iff.2 hoffset, Register.isReference_iff.2 hbase]

/-! ## One argument -/

theorem isLabelReference_iff : isLabelReference token = true ↔ RefersToLabel token := by
  unfold isLabelReference RefersToLabel
  cases token.toList with
  | nil => simp
  | cons c cs =>
    simp only [List.head?_cons, Option.some.injEq, forall_eq', ← Literal.isDigit_range, Bool.not_eq_true',
      Bool.or_eq_false_iff, decide_eq_false_iff_not, Bool.not_eq_true, and_assoc, ne_eq]

theorem resolveOne_undefined :
    resolveOne t line token = .error e ↔ Undefined t token ∧ e = .refused (.undefinedSymbol token) line := by
  constructor
  · intro h
    refine ⟨?_, resolveOne_error h⟩
    rw [resolveOne_eq] at h
    split at h
    · cases h
    · split at h
      · rename_i hlabel
        split at h
        · cases h
        · rename_i hnone
          exact ⟨isLabelReference_iff.1 hlabel, hnone⟩
      · cases h
  · rintro ⟨⟨hlabel, hnone⟩, rfl⟩
    have href := isLabelReference_iff.2 hlabel
    rw [resolveOne_eq, splitOffset_label href]
    simp [href, hnone]

theorem resolveOne_translates {first : List String} :
    resolveOne t line token = .ok first ↔ Translates t token first := by
  constructor
  · intro h
    rw [resolveOne_eq] at h
    split at h
    · rename_i hsplit
      cases h
      exact .baseOffset (splitOffset_iff.1 hsplit)
    · rename_i hsplit
      split at h
      · rename_i hlabel
        split at h
        · rename_i hs
          cases h
          exact .label (isLabelReference_iff.1 hlabel) hs
        · cases h
      · rename_i hlabel
        cases h
        refine .same (fun offset base hbase => ?_) (fun href => hlabel (isLabelReference_iff.2 href))
        rw [splitOffset_iff.2 hbase] at hsplit
        cases hsplit
  · intro h
    cases h with
    | baseOffset hbase => rw [resolveOne_eq, splitOffset_iff.2 hbase]
    | label hlabel hs => exact resolveOne_lookup (isLabelReference_iff.2 hlabel) hs
    | same hbase hlabel =>
      have hsplit : splitOffset? token = none := by
        rw [Option.eq_none_iff_forall_ne_some]
        rintro ⟨offset, base⟩ hsplit
        exact hbase offset base (splitOffset_iff.1 hsplit)
      rw [resolveOne_eq, hsplit]
      simp [mt isLabelReference_iff.1 hlabel]

/-! ## Addresses of any size -/

theorem resolveOne_unwritable (h : Unwritable t token) :
    resolveOneWith Text.writeDecimal t line token = .error .integerTooLong := by
  obtain ⟨hlabel, s, hs, hlong⟩ := h
  have href := isLabelReference_iff.2 hlabel
  rw [resolveOneWith, splitOffset_label href]
  simp [href, hs, Text.writeDecimal, Literal.not_isWritable.2 hlong, Except.map]

theorem resolveOne_writable (h : ¬ Unwritable t token) :
    resolveOneWith Text.writeDecimal t line token = resolveOne t line token := by
  rw [resolveOne_eq, resolveOneWith]
  cases splitOffset? token with
  | some operands => rfl
  | none =>
    cases hlabel : isLabelReference token with
    | false => rfl
    | true =>
      cases hs : t.lookup token with
      | none => rfl
      | some s =>
        have hshort : Text.isWritable s.address = true := by
          rw [Literal.isWritable_iff, ← Nat.not_le]
          exact fun hlong => h ⟨isLabelReference_iff.1 hlabel, s, hs, hlong⟩
        rw [if_pos rfl, if_pos rfl]
        dsimp only
        rw [Text.writeDecimal, if_pos hshort]
        rfl

theorem resolveOne_checked {first : List String} : resolveOneWith Text.writeDecimal t line token = .ok first ↔
    ¬ Unwritable t token ∧ Translates t token first := by
  by_cases h : Unwritable t token
  · simp [resolveOne_unwritable h, h]
  · rw [resolveOne_writable h, resolveOne_translates]
    exact (and_iff_right h).symm

theorem resolveOne_checked_error : resolveOneWith Text.writeDecimal t line token = .error e ↔
    Undefined t token ∧ e = .refused (.undefinedSymbol token) line ∨ Unwritable t token ∧ e = .integerTooLong := by
  by_cases h : Unwritable t token
  · have hdefined : ¬ Undefined t token := by
      rintro ⟨-, hnone⟩
      obtain ⟨-, s, hs, -⟩ := h
      rw [hnone] at hs
      cases hs
    simp [resolveOne_unwritable h, h, hdefined, eq_comm]
  · rw [resolveOne_writable h, resolveOne_undefined]
    simp [h]

/-! ## All arguments -/

section Arguments

variable {write : Int → Except Fault String}

theorem resolveWith_cons_ok {rest : List String} : resolveWith write t line (token :: rest) = .ok operands ↔
    ∃ first more, resolveOneWith write t line token = .ok first ∧ resolveWith write t line rest = .ok more ∧
      operands = first ++ more := by
  rw [resolveWith]
  cases resolveOneWith write t line token with
  | error e => simp
  | ok first => cases resolveWith write t line rest <;> simp [eq_comm]

theorem resolveWith_cons_error {rest : List String} : resolveWith write t line (token :: rest) = .error e ↔
    resolveOneWith write t line token = .error e ∨
      ∃ first, resolveOneWith write t line token = .ok first ∧ resolveWith write t line rest = .error e := by
  rw [resolveWith]
  cases resolveOneWith write t line token with
  | error e' => simp
  | ok first => cases resolveWith write t line rest <;> simp

/-- Resolving puts the operands of the arguments one after another. -/
theorem resolveWith_ok : resolveWith write t line tokens = .ok operands ↔
    ∃ parts, List.Forall₂ (fun token part => resolveOneWith write t line token = .ok part) tokens parts ∧
      operands = parts.flatten := by
  induction tokens generalizing operands with
  | nil => simp [resolveWith, eq_comm]
  | cons token rest ih =>
    rw [resolveWith_cons_ok]
    constructor
    · rintro ⟨first, more, hone, hrest, rfl⟩
      obtain ⟨parts, hparts, rfl⟩ := ih.1 hrest
      exact ⟨first :: parts, .cons hone hparts, rfl⟩
    · rintro ⟨_, ⟨⟩, rfl⟩
      rename_i first parts hone hparts
      exact ⟨first, parts.flatten, hone, ih.2 ⟨parts, hparts, rfl⟩, rfl⟩

/-- The first argument that fails is the one that is reported. -/
theorem resolveWith_error : resolveWith write t line tokens = .error e ↔ ∃ before token after,
    tokens = before ++ token :: after ∧ (∀ x ∈ before, ∀ e', resolveOneWith write t line x ≠ .error e') ∧
      resolveOneWith write t line token = .error e := by
  induction tokens with
  | nil => simp [resolveWith]
  | cons first rest ih =>
    rw [resolveWith_cons_error]
    constructor
    · rintro (hone | ⟨part, hone, hrest⟩)
      · exact ⟨[], first, rest, rfl, List.forall_mem_nil _, hone⟩
      · obtain ⟨before, token, after, rfl, hbefore, hfails⟩ := ih.1 hrest
        refine ⟨first :: before, token, after, rfl, List.forall_mem_cons.2 ⟨fun e' he' => ?_, hbefore⟩, hfails⟩
        rw [hone] at he'
        cases he'
    · rintro ⟨before, token, after, htokens, hbefore, hfails⟩
      cases before with
      | nil =>
        cases htokens
        exact .inl hfails
      | cons x before =>
        cases htokens
        rw [List.forall_mem_cons] at hbefore
        cases hone : resolveOneWith write t line first with
        | error e' => exact absurd hone (hbefore.1 e')
        | ok part => exact .inr ⟨part, rfl, ih.2 ⟨before, token, after, rfl, hbefore.2, hfails⟩⟩

end Arguments

/-- Resolving translates the arguments one by one. It fails exactly if one of them refers to a label that is not in the
table, and reports the first of these, unless it meets a label before it whose address has more digits than can be
written. Otherwise it gives the translations in order. The arguments that are split have a literal in front of their
parentheses, and every register that has a name or a number stands between some. -/
theorem resolve_translates (t : SymbolTable) (line : Option Int) (tokens : List String) :
    (∀ e, resolveChecked t line tokens = .error e ↔ ∃ before token after,
      tokens = before ++ token :: after ∧ (∀ x ∈ before, ¬ Undefined t x ∧ ¬ Unwritable t x) ∧
        (Undefined t token ∧ e = .refused (.undefinedSymbol token) line ∨
          Unwritable t token ∧ e = .integerTooLong)) ∧
    (∀ operands, resolveChecked t line tokens = .ok operands ↔
      (∀ token ∈ tokens, ¬ Unwritable t token) ∧
        ∃ parts, List.Forall₂ (Translates t) tokens parts ∧ operands = parts.flatten) ∧
    (∀ token offset base, splitOffset? token = some (offset, base) ↔ BaseOffset token offset base) ∧
    (∀ token offset base, splitOffset? token = some (offset, base) → ∃ v, Literal.Written offset.toList v) ∧
    ∀ base, (∃ token offset, splitOffset? token = some (offset, base)) ↔ Register.Referred base := by
  have hgood : ∀ x, (∀ e, resolveOneWith Text.writeDecimal t line x ≠ .error e) ↔
      ¬ Undefined t x ∧ ¬ Unwritable t x := by
    intro x
    simp only [ne_eq, resolveOne_checked_error, not_or, not_and, forall_and]
    exact and_congr ⟨fun h hx => h _ hx rfl, fun h e hx => absurd hx h⟩
      ⟨fun h hx => h _ hx rfl, fun h e hx => absurd hx h⟩
  refine ⟨fun e => ?_, fun operands => ?_, fun _ _ _ => splitOffset_iff,
    fun token offset base h => (splitOffset_iff.1 h).literal.written, fun base => ⟨?_, fun hbase => ?_⟩⟩
  · simp only [resolveChecked, resolveWith_error, hgood, resolveOne_checked_error]
  · simp only [resolveChecked, resolveWith_ok, resolveOne_checked, List.forall₂_and_left, and_assoc, exists_and_left]
  · rintro ⟨token, offset, h⟩
    exact (splitOffset_iff.1 h).register
  · have hzero : Offset "0".toList := isOffset_iff.1 rfl
    exact ⟨_, "0", splitOffset_iff.2 ⟨rfl, hzero, hbase⟩⟩

/-- The address of a label can be too long to be an operand. -/
theorem resolve_long_address :
    ¬ Undefined { symbols := [⟨"a", Literal.longNumber, some 1⟩] } "a" ∧
      ∀ operands, resolveChecked { symbols := [⟨"a", Literal.longNumber, some 1⟩] } none ["a"] ≠ .ok operands := by
  have hlookup : SymbolTable.lookup { symbols := [⟨"a", Literal.longNumber, some 1⟩] } "a" =
      some ⟨"a", Literal.longNumber, some 1⟩ := rfl
  have hlabel : RefersToLabel "a" := isLabelReference_iff.1 rfl
  refine ⟨fun hundefined => ?_, fun operands hok => ?_⟩
  · rw [Undefined, hlookup] at hundefined
    cases hundefined.2
  · obtain ⟨parts, hparts, -⟩ := resolveWith_ok.1 hok
    cases hparts
    rename_i hone _
    rw [resolveOne_unwritable ⟨hlabel, _, hlookup, Literal.le_longNumber⟩] at hone
    cases hone

end Operand

end MipsAssembler
