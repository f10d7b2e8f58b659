import MipsAssembler.Literal
/-!
# Numbers are read back

A label is handed to the encoder as a decimal number and read again there. `parse_decimal` says that what is read is
the number that was written. Reading fails in two ways only, and one of them is a decimal number of too many digits
(`parse_error`, `parse_tooLong`).
-/

namespace MipsAssembler.Literal

open Text

/-! ## The digits of a number -/

theorem positional_snoc (base : Nat) (ds : List Char) (d : Char) :
    positional base (ds ++ [d]) = base * positional base ds + digitValue d := by
  simp [positional]

theorem digitValue_lowerDigit : ∀ k < 16, digitValue (lowerDigit k) = k := by
  decide

theorem lowerDigit_decimal :
    ∀ k < 10, (lowerDigit k).isDigit = true ∧ (k ≠ 0 → isLeadingDigit (lowerDigit k) = true) := by
  decide

theorem digits_small {base n : Nat} (h : n < base) : digits base n = [lowerDigit n] := by
  rw [digits, if_pos (.inl h)]

theorem digits_large {base n : Nat} (hbase : 2 ≤ base) (h : ¬ n < base) :
    digits base n = digits base (n / base) ++ [lowerDigit (n % base)] := by
  rw [digits, if_neg (by omega)]

theorem digits_ne_nil (base n : Nat) : digits base n ≠ [] := by
  rw [digits]
  split <;> simp

theorem mem_digits {base n : Nat} {c : Char} (hbase : 2 ≤ base) (h : c ∈ digits base n) :
    ∃ k < base, c = lowerDigit k := by
  induction n using Nat.strongRecOn with
  | ind n ih =>
    by_cases hn : n < base
    · rw [digits_small hn, List.mem_singleton] at h
      exact ⟨n, hn, h⟩
    · rw [digits_large hbase hn, List.mem_append, List.mem_singleton] at h
      rcases h with h | h
      · exact ih (n / base) (Nat.div_lt_self (by omega) hbase) h
      · exact ⟨n % base, Nat.mod_lt n (by omega), h⟩

theorem positional_digits {base : Nat} (hlow : 2 ≤ base) (hhigh : base ≤ 16) (n : Nat) :
    positional base (digits base n) = n := by
  induction n using Nat.strongRecOn with
  | ind n ih =>
    by_cases h : n < base
    · rw [digits_small h, ← List.nil_append [lowerDigit n], positional_snoc, digitValue_lowerDigit n (by omega)]
      simp [positional]
    · have hmod : n % base < base := Nat.mod_lt n (by omega)
      rw [digits_large hlow h, positional_snoc, ih (n / base) (Nat.div_lt_self (by omega) hlow),
        digitValue_lowerDigit (n % base) (by omega)]
      exact Nat.div_add_mod n base

/-- The digits of a number other than zero are digits, and the first is not zero. -/
theorem digits_leading {n : Nat} (h : n ≠ 0) :
    ∃ d ds, digits 10 n = d :: ds ∧ isLeadingDigit d = true ∧ ds.all Char.isDigit = true := by
  induction n using Nat.strongRecOn with
  | ind n ih =>
    by_cases hn : n < 10
    · exact ⟨lowerDigit n, [], digits_small hn, (lowerDigit_decimal n hn).2 h, rfl⟩
    · obtain ⟨d, ds, hd, hlead, hall⟩ := ih (n / 10) (by omega) (by omega)
      have hlast := (lowerDigit_decimal (n % 10) (Nat.mod_lt n (by omega))).1
      refine ⟨d, ds ++ [lowerDigit (n % 10)], by rw [digits_large (by decide) hn, hd]; rfl, hlead, ?_⟩
      rw [List.all_append, hall, List.all_cons, hlast]
      rfl

/-! ## Reading a number -/

theorem parse_int32 {token : Option String} {line : Option Int} {v : Int} (h : parse token line = .ok v) :
    -0x80000000 ≤ v ∧ v < 0x80000000 := by
  unfold parse at h
  split at h
  · cases h
  · split at h
    · cases h
    · split at h
      · rename_i hfits
        cases h
        simpa [fitsInt32] using hfits
      · cases h

theorem magnitude_leading {d : Char} {ds : List Char} (hd : isLeadingDigit d = true)
    (hds : ds.all Char.isDigit = true) : magnitude? (d :: ds) = some ⟨10, d :: ds⟩ := by
  have h0 : d ≠ '0' := by
    rintro rfl
    exact absurd hd (by decide)
  have hplain : isPlainDecimal (d :: ds) = true := by
    unfold isPlainDecimal
    split
    · rfl
    · rename_i heq
      cases heq
      rw [hd, hds]
      rfl
    · rename_i heq
      cases heq
  unfold magnitude?
  split
  · simp_all
  · simp_all
  · simp_all
  · rw [if_pos hplain]

theorem magnitude_digits (n : Nat) : magnitude? (digits 10 n) = some ⟨10, digits 10 n⟩ := by
  by_cases h : n = 0
  · subst h
    rw [digits_small (by decide)]
    decide
  · obtain ⟨d, ds, hd, hlead, hall⟩ := digits_leading h
    rw [hd, magnitude_leading hlead hall]

/-- Digits without a sign in front are a literal without a sign. -/
theorem shape_digits (n : Nat) : shape? (digits 10 n) = some ⟨false, 10, digits 10 n⟩ := by
  have hsign : ∀ s, digits 10 n ≠ '+' :: s ∧ digits 10 n ≠ '-' :: s := by
    intro s
    by_cases h : n = 0
    · rw [h, digits_small (by decide)]
      constructor <;> intro h <;> exact absurd (List.cons.inj h).1 (by decide)
    · obtain ⟨d, ds, hd, hlead, -⟩ := digits_leading h
      rw [hd]
      constructor <;> rintro ⟨⟩ <;> exact absurd hlead (by decide)
  unfold shape?
  split
  · rename_i s heq
    exact absurd heq (hsign s).1
  · rename_i s heq
    exact absurd heq (hsign s).2
  · rw [magnitude_digits]
    rfl

/-- An integer in decimal has the shape of a literal with its value. -/
theorem shape_decimal (n : Int) : ∃ s, shape? (decimal n).toList = some s ∧ s.value = n := by
  cases n with
  | ofNat n =>
    refine ⟨⟨false, 10, digits 10 n⟩, ?_, ?_⟩
    · rw [decimal, decimalNat, String.toList_ofList, shape_digits]
    · simp [Shape.value, Magnitude.value, positional_digits]
  | negSucc n =>
    refine ⟨⟨true, 10, digits 10 (n + 1)⟩, ?_, ?_⟩
    · rw [decimal, decimalNat, String.toList_append,
        show (String.ofList (digits 10 (n + 1))).toList = digits 10 (n + 1) from String.toList_ofList]
      show (magnitude? (digits 10 (n + 1))).map _ = _
      rw [magnitude_digits]
      rfl
    · simp [Shape.value, Magnitude.value, positional_digits]
      omega

/-- An integer that was written in decimal and can be read is the integer. -/
theorem parse_decimal {n v : Int} {line : Option Int} (h : parse (some (decimal n)) line = .ok v) : v = n := by
  obtain ⟨s, hs, rfl⟩ := shape_decimal n
  unfold parse at h
  rw [Option.bind_some, hs] at h
  dsimp only at h
  split at h
  · cases h
  · split at h
    · cases h
      rfl
    · cases h

/-- The token is a decimal literal with more digits than can be read. -/
def TooLong (token : String) (n : Nat) : Prop :=
  ∃ s, shape? token.toList = some s ∧ s.magnitude.base = 10 ∧ s.magnitude.digits.length = n ∧ maxDecimalDigits < n

/-- Reading fails with a malformed literal, or with one that is too long. -/
theorem parse_error {token : Option String} {line : Option Int} {e : Fault} (h : parse token line = .error e) :
    e = .refused (.malformedLiteral token) line ∨ ∃ t n, token = some t ∧ TooLong t n ∧ e = .literalTooLong n := by
  unfold parse at h
  split at h
  · cases h
    exact .inl rfl
  · rename_i s hs
    split at h
    · rename_i hlong
      cases h
      obtain ⟨t, rfl, ht⟩ := Option.bind_eq_some_iff.1 hs
      obtain ⟨hbase, hlen⟩ : s.magnitude.base = 10 ∧ maxDecimalDigits < s.magnitude.digits.length := by
        simpa [Shape.isTooLong] using hlong
      exact .inr ⟨t, _, rfl, ⟨s, ht, hbase, rfl, hlen⟩, rfl⟩
    · split at h
      · cases h
      · cases h
        exact .inl rfl

/-! ## Numbers that are too long -/

/-- An optional sign and `n` decimal digits, too many to be read, without a leading zero. -/
def LongDecimal (token : String) (n : Nat) : Prop :=
  ∃ sign digits, token.toList = sign ++ digits ∧ (sign = [] ∨ sign = ['+'] ∨ sign = ['-']) ∧
    (∀ c ∈ digits, c.isDigit = true) ∧ digits.head? ≠ some '0' ∧ digits.length = n ∧ maxDecimalDigits < n

variable {token : String} {n : Nat} {cs : List Char}

theorem isLeadingDigit_iff {c : Char} : isLeadingDigit c = true ↔ c.isDigit = true ∧ c ≠ '0' := by
  simp only [isLeadingDigit, Char.isDigit, Bool.and_eq_true, decide_eq_true_eq, Char.le_def, ge_iff_le, ne_eq,
    Char.ext_iff, UInt32.le_iff_toNat_le, ← UInt32.toNat_inj]
  change (49 ≤ c.val.toNat ∧ c.val.toNat ≤ 57) ↔ (48 ≤ c.val.toNat ∧ c.val.toNat ≤ 57) ∧ ¬ c.val.toNat = 48
  omega

theorem isPlainDecimal_iff :
    isPlainDecimal cs = true ↔ cs ≠ [] ∧ (∀ c ∈ cs, c.isDigit = true) ∧ (cs.head? = some '0' → cs = ['0']) := by
  unfold isPlainDecimal
  split
  · simp
  · rename_i d ds hzero
    have hlead : (d = '0' → d :: ds = ['0']) ↔ d ≠ '0' := by
      constructor
      · rintro h rfl
        exact hzero rfl (List.cons.inj (h rfl)).2
      · exact fun h h' => absurd h' h
    rw [Bool.and_eq_true, isLeadingDigit_iff, List.all_eq_true, List.forall_mem_cons, List.head?_cons,
      Option.some.injEq, hlead, and_right_comm]
    simp
  · simp

theorem magnitude_decimal {m : Magnitude} (h : magnitude? cs = some m) (hb : m.base = 10) :
    m.digits = cs ∧ isPlainDecimal cs = true := by
  unfold magnitude? at h
  split at h <;> split at h <;> cases h
  · cases hb
  · cases hb
  · cases hb
  · rename_i hplain
    exact ⟨rfl, hplain⟩

/-- A literal is a magnitude behind an optional sign. -/
theorem shape_sign {s : Shape} (h : shape? cs = some s) : ∃ sign rest, cs = sign ++ rest ∧
    (sign = [] ∨ sign = ['+'] ∨ sign = ['-']) ∧ magnitude? rest = some s.magnitude := by
  unfold shape? at h
  split at h
  · rename_i rest
    obtain ⟨m, hm, rfl⟩ := Option.map_eq_some_iff.1 h
    exact ⟨['+'], rest, rfl, .inr (.inl rfl), hm⟩
  · rename_i rest
    obtain ⟨m, hm, rfl⟩ := Option.map_eq_some_iff.1 h
    exact ⟨['-'], rest, rfl, .inr (.inr rfl), hm⟩
  · obtain ⟨m, hm, rfl⟩ := Option.map_eq_some_iff.1 h
    exact ⟨[], _, rfl, .inl rfl, hm⟩

theorem shape_unsigned {d : Char} (ds : List Char) (h : d.isDigit = true) :
    shape? (d :: ds) = (magnitude? (d :: ds)).map (⟨false, ·⟩) := by
  unfold shape?
  split
  · rename_i heq
    cases heq
    exact absurd h (by decide)
  · rename_i heq
    cases heq
    exact absurd h (by decide)
  · rfl

/-- What is too long to be read is a decimal number. -/
theorem tooLong_iff : TooLong token n ↔ LongDecimal token n := by
  constructor
  · rintro ⟨s, hs, hbase, rfl, hlong⟩
    obtain ⟨sign, rest, htoken, hsign, hmag⟩ := shape_sign hs
    obtain ⟨rfl, hplain⟩ := magnitude_decimal hmag hbase
    obtain ⟨-, hdigits, hzero⟩ := isPlainDecimal_iff.1 hplain
    refine ⟨sign, s.magnitude.digits, htoken, hsign, hdigits, fun hlead => ?_, rfl, hlong⟩
    rw [hzero hlead] at hlong
    exact absurd hlong (by decide)
  · rintro ⟨sign, digits, htoken, hsign, hdigits, hlead, rfl, hlong⟩
    cases digits with
    | nil => exact absurd hlong (Nat.not_lt_zero _)
    | cons d ds =>
      rw [List.forall_mem_cons] at hdigits
      have hd : isLeadingDigit d = true := isLeadingDigit_iff.2 ⟨hdigits.1, by simpa using hlead⟩
      have hmag := magnitude_leading hd (List.all_eq_true.2 hdigits.2)
      suffices ∃ negative, shape? token.toList = some ⟨negative, 10, d :: ds⟩ by
        obtain ⟨negative, hshape⟩ := this
        exact ⟨_, hshape, rfl, rfl, hlong⟩
      rw [htoken]
      rcases hsign with rfl | rfl | rfl
      · exact ⟨false, by rw [List.nil_append, shape_unsigned ds hdigits.1, hmag]; rfl⟩
      · exact ⟨false, by simp [shape?, hmag]⟩
      · exact ⟨true, by simp [shape?, hmag]⟩

theorem parse_tooLong {line : Option Int} :
    parse (some token) line = .error (.literalTooLong n) ↔ LongDecimal token n := by
  rw [← tooLong_iff]
  constructor
  · intro h
    rcases parse_error h with he | ⟨t, n', ht, hlong, he⟩
    · cases he
    · cases ht
      cases he
      exact hlong
  · rintro ⟨s, hs, hbase, hlen, hlong⟩
    simp [parse, hs, Shape.isTooLong, hbase, hlen, hlong]

end MipsAssembler.Literal
