import Mathlib.Data.List.Forall2
import Mathlib.Data.Nat.Digits.Lemmas
import MipsAssembler.Proofs.Literal
/-!
# How numbers are written

`Written` says which texts are literals and what number each of them stands for, digit by digit and without reading.
Reading finds a number exactly if the text is a way to write it (`shape_iff`), so the text alone tells what `parse`
answers (`parse_outcome`): a number of 32 bits is returned however it is written, a decimal number of too many digits is
not read, and everything else is malformed.
-/

namespace MipsAssembler

/-- The digit of value `n`, with letters from `A` on. -/
def Text.upperDigit (n : Nat) : Char := if n < 10 then Char.ofNat (48 + n) else Char.ofNat (55 + n)

namespace Literal

open Text

/-! ## The language of literals -/

/-- The character is the digit of value `k`. Letters are of either case. -/
def IsDigit (base : Nat) (c : Char) (k : Nat) : Prop := k < base ∧ (c = lowerDigit k ∨ c = upperDigit k)

/-- One or more digits that stand for `n`, the most significant one first. -/
def Denotes (base : Nat) (ds : List Char) (n : Nat) : Prop :=
  ds ≠ [] ∧ ∃ ks, List.Forall₂ (IsDigit base) ds ks ∧ Nat.ofDigits base ks.reverse = n

/-- A decimal number without leading zeros, zero excepted. -/
def Plain (ds : List Char) (n : Nat) : Prop := Denotes 10 ds n ∧ (ds.head? = some '0' → ds = ['0'])

/-- The ways to write a number without a sign. -/
inductive Unsigned : List Char → Nat → Prop
  | hexadecimal {x : Char} {ds : List Char} {n : Nat} :
      x = 'x' ∨ x = 'X' → Denotes 16 ds n → Unsigned ('0' :: x :: ds) n
  | octal {ds : List Char} {n : Nat} : Denotes 8 ds n → Unsigned ('0' :: ds) n
  | decimal {ds : List Char} {n : Nat} : Plain ds n → Unsigned ds n

/-- The ways to write an integer. -/
inductive Written : List Char → Int → Prop
  | bare {s : List Char} {n : Nat} : Unsigned s n → Written s n
  | plus {s : List Char} {n : Nat} : Unsigned s n → Written ('+' :: s) n
  | minus {s : List Char} {n : Nat} : Unsigned s n → Written ('-' :: s) (-n)

/-- The token is a literal that can be read, and its number has 32 bits. -/
def Reads (token : Option String) (v : Int) : Prop :=
  ∃ t, token = some t ∧ Written t.toList v ∧ (∀ k, ¬ LongDecimal t k) ∧ -2 ^ 31 ≤ v ∧ v ≤ 2 ^ 31 - 1

/-- The signs that may stand in front of the digits of `n`. -/
inductive Sign (n : Int) : List Char → Prop
  | none : 0 ≤ n → Sign n []
  | plus : 0 ≤ n → Sign n ['+']
  | minus : n ≤ 0 → Sign n ['-']

/-- What `n` is in decimal, in octal, and in hexadecimal with any number of zeros in front. -/
inductive Renders (n : Int) : List Char → Prop
  | decimal {sign : List Char} : Sign n sign → Renders n (sign ++ digits 10 n.natAbs)
  | octal {sign : List Char} : Sign n sign → Renders n (sign ++ '0' :: digits 8 n.natAbs)
  | hexadecimal {sign ds : List Char} {x : Char} {zeros : Nat} :
      Sign n sign → x = 'x' ∨ x = 'X' → ds.map Char.toLower = digits 16 n.natAbs →
      Renders n (sign ++ '0' :: x :: (List.replicate zeros '0' ++ ds))

variable {base n k : Nat} {c : Char} {ds s : List Char} {v : Int} {token : String}

/-! ## Digits by their characters -/

theorem IsDigit.value (h : IsDigit base c k) (hbase : base ≤ 16) : digitValue c = k := by
  have hupper : ∀ k < 16, digitValue (upperDigit k) = k := by decide
  obtain ⟨hk, rfl | rfl⟩ := h
  · exact digitValue_lowerDigit k (by omega)
  · exact hupper k (by omega)

theorem char_le {d : Char} : c ≤ d ↔ c.toNat ≤ d.toNat := by
  rw [Char.le_def, UInt32.le_iff_toNat_le]
  rfl

theorem isDigit_range : c.isDigit = true ↔ '0' ≤ c ∧ c ≤ '9' := by
  simp only [Char.isDigit, Bool.and_eq_true, decide_eq_true_eq, ge_iff_le, Char.le_def]

theorem forall_char_lt {P : Char → Prop} {b : Nat} (h : ∀ i < b, P (Char.ofNat i)) (hc : c.toNat < b) : P c := by
  have hchar := h c.toNat hc
  rwa [Char.ofNat_toNat] at hchar

/-- A class of digits is known by its characters up to `f`. -/
theorem digitClass_iff {p : Char → Bool} (hp : ∀ c, p c = true → c ≤ 'f')
    (hsound : ∀ i < 103, p (Char.ofNat i) = true →
      ∃ k < base, Char.ofNat i = lowerDigit k ∨ Char.ofNat i = upperDigit k)
    (hcomplete : ∀ k < base, p (lowerDigit k) = true ∧ p (upperDigit k) = true) :
    p c = true ↔ ∃ k, IsDigit base c k := by
  constructor
  · intro hc
    have hlt : c.toNat < 103 := Nat.lt_succ_of_le (char_le.1 (hp c hc))
    exact forall_char_lt (P := fun c => p c = true → ∃ k < base, c = lowerDigit k ∨ c = upperDigit k) hsound hlt hc
  · rintro ⟨k, hk, rfl | rfl⟩
    · exact (hcomplete k hk).1
    · exact (hcomplete k hk).2

theorem isHexDigit_le (h : isHexDigit c = true) : c ≤ 'f' := by
  simp only [isHexDigit, Bool.or_eq_true, isDigit_range, Bool.and_eq_true, decide_eq_true_eq] at h
  rcases h with (⟨-, hc⟩ | ⟨-, hc⟩) | ⟨-, hc⟩ <;> exact Char.le_trans hc (by decide)

theorem isHexDigit_iff : isHexDigit c = true ↔ ∃ k, IsDigit 16 c k :=
  digitClass_iff (fun _ => isHexDigit_le) (by decide +kernel) (by decide)

theorem isOctalDigit_iff : isOctalDigit c = true ↔ ∃ k, IsDigit 8 c k := by
  refine digitClass_iff (fun c hc => ?_) (by decide +kernel) (by decide)
  simp only [isOctalDigit, Bool.and_eq_true, decide_eq_true_eq] at hc
  exact Char.le_trans hc.2 (by decide)

theorem isDigit_iff : c.isDigit = true ↔ ∃ k, IsDigit 10 c k := by
  refine digitClass_iff (fun c hc => ?_) (by decide +kernel) (by decide)
  exact Char.le_trans (isDigit_range.1 hc).2 (by decide)

/-- A character that is a digit in lower case is that digit as it stands. -/
theorem IsDigit.of_toLower (h : IsDigit 16 c.toLower k) : IsDigit 16 c k := by
  have hle : c.toNat ≤ c.toLower.toNat := by
    unfold Char.toLower
    split
    · rename_i hupper
      have hval : c.val.toNat ≤ 90 := UInt32.le_iff_toNat_le.1 hupper.2
      show c.val.toNat ≤ (c.val + 32).toNat
      rw [UInt32.toNat_add, show (32 : UInt32).toNat = 32 from rfl]
      omega
    · exact Nat.le_refl _
  have hlow : c.toLower.toNat ≤ 102 := char_le.1 (isHexDigit_le (isHexDigit_iff.2 ⟨k, h⟩))
  have hcase : ∀ k < 16, c.toLower = lowerDigit k ∨ c.toLower = upperDigit k → c = lowerDigit k ∨ c = upperDigit k :=
    forall_char_lt (P := fun c => ∀ k < 16, c.toLower = lowerDigit k ∨ c.toLower = upperDigit k →
      c = lowerDigit k ∨ c = upperDigit k) (by decide +kernel) (Nat.lt_succ_of_le (Nat.le_trans hle hlow))
  exact ⟨h.1, hcase k h.1 h.2⟩

/-! ## Digit strings -/

theorem positional_ofDigits (base : Nat) (ds : List Char) :
    positional base ds = Nat.ofDigits base (ds.map digitValue).reverse := by
  induction ds using List.reverseRecOn with
  | nil => rfl
  | append_singleton ds d ih =>
    rw [positional_snoc, ih, List.map_append, List.map_singleton, List.reverse_concat, Nat.ofDigits_cons, Nat.add_comm]

theorem digitValues {ks : List Nat} (hbase : base ≤ 16) (h : List.Forall₂ (IsDigit base) ds ks) :
    ks = ds.map digitValue := by
  induction h with
  | nil => rfl
  | cons hc _ ih => rw [List.map_cons, hc.value hbase, ih]

theorem denotes_iff (hbase : base ≤ 16) :
    Denotes base ds n ↔ ds ≠ [] ∧ (∀ c ∈ ds, ∃ k, IsDigit base c k) ∧ positional base ds = n := by
  rw [positional_ofDigits]
  refine and_congr_right fun _ => ⟨?_, ?_⟩
  · rintro ⟨ks, hks, rfl⟩
    obtain rfl := digitValues hbase hks
    rw [List.forall₂_map_right_iff, List.forall₂_same] at hks
    exact ⟨fun c hc => ⟨_, hks c hc⟩, rfl⟩
  · rintro ⟨hall, rfl⟩
    refine ⟨ds.map digitValue, ?_, rfl⟩
    rw [List.forall₂_map_right_iff, List.forall₂_same]
    intro c hc
    obtain ⟨k, hk⟩ := hall c hc
    rwa [hk.value hbase]

/-- A run of a class of digits is a number. -/
theorem run_iff {p : Char → Bool} (hbase : base ≤ 16) (hp : ∀ {c}, p c = true ↔ ∃ k, IsDigit base c k) :
    isRun p ds = true ∧ positional base ds = n ↔ Denotes base ds n := by
  rw [denotes_iff hbase, isRun, Bool.and_eq_true, List.all_eq_true, and_assoc]
  simp only [hp, Bool.not_eq_true', List.isEmpty_eq_false_iff]

theorem plain_iff : isPlainDecimal ds = true ∧ positional 10 ds = n ↔ Plain ds n := by
  rw [Plain, denotes_iff (by decide), isPlainDecimal_iff]
  simp only [isDigit_iff]
  constructor
  · rintro ⟨⟨hne, hall, hzero⟩, hn⟩
    exact ⟨⟨hne, hall, hn⟩, hzero⟩
  · rintro ⟨⟨hne, hall, hn⟩, hzero⟩
    exact ⟨⟨hne, hall, hzero⟩, hn⟩

/-! ## Decimal numbers without leading zeros -/

theorem last_ne_zero {d : Char} (hd : isLeadingDigit d = true) (ds : List Char)
    (hne : ((d :: ds).map digitValue).reverse ≠ []) : ((d :: ds).map digitValue).reverse.getLast hne ≠ 0 := by
  obtain ⟨hdigit, hzero⟩ := isLeadingDigit_iff.1 hd
  obtain ⟨k, hk⟩ := isDigit_iff.1 hdigit
  have hpos : k ≠ 0 := by
    rintro rfl
    obtain ⟨-, rfl | rfl⟩ := hk <;> exact hzero rfl
  simpa [hk.value (by decide)] using hpos

theorem pow_length_le {d : Char} (hd : isLeadingDigit d = true) (ds : List Char) :
    10 ^ (d :: ds).length ≤ 10 * positional 10 (d :: ds) := by
  have hne : ((d :: ds).map digitValue).reverse ≠ [] := by simp
  have hle := Nat.pow_length_le_mul_ofDigits (b := 8) hne (last_ne_zero hd ds hne)
  rwa [List.length_reverse, List.length_map, ← positional_ofDigits] at hle

theorem positional_leading {d : Char} (hd : isLeadingDigit d = true) (ds : List Char) :
    positional 10 (d :: ds) ≠ 0 := by
  intro hn
  have hle := pow_length_le hd ds
  rw [hn] at hle
  exact absurd hle (Nat.not_le.2 (Nat.pow_pos (by decide)))

theorem plain_leading {d : Char} (hd : isLeadingDigit d = true) (hds : ∀ c ∈ ds, c.isDigit = true) :
    Plain (d :: ds) (positional 10 (d :: ds)) := by
  obtain ⟨hdigit, hzero⟩ := isLeadingDigit_iff.1 hd
  refine plain_iff.1 ⟨isPlainDecimal_iff.2 ⟨List.cons_ne_nil d ds, ?_, fun hhead => ?_⟩, rfl⟩
  · rw [List.forall_mem_cons]
    exact ⟨hdigit, hds⟩
  · exact absurd (Option.some.inj hhead) hzero

/-- A number without leading zeros is zero, or starts with another digit. -/
theorem Plain.cases (h : Plain ds n) : ds = ['0'] ∧ n = 0 ∨
    ∃ d rest, ds = d :: rest ∧ isLeadingDigit d = true ∧ (∀ c ∈ rest, c.isDigit = true) ∧ n ≠ 0 := by
  obtain ⟨hplain, rfl⟩ := plain_iff.2 h
  obtain ⟨hne, hall, hzero⟩ := isPlainDecimal_iff.1 hplain
  obtain ⟨d, rest, rfl⟩ := List.exists_cons_of_ne_nil hne
  rw [List.forall_mem_cons] at hall
  by_cases hd : d = '0'
  · rw [hzero (by rw [hd]; rfl)]
    exact .inl ⟨rfl, rfl⟩
  · have hlead : isLeadingDigit d = true := isLeadingDigit_iff.2 ⟨hall.1, hd⟩
    exact .inr ⟨d, rest, rfl, hlead, hall.2, positional_leading hlead rest⟩

theorem lowerDigit_digitValue (h : c.isDigit = true) : lowerDigit (digitValue c) = c := by
  have hboth : ∀ k < 10, upperDigit k = lowerDigit k := by decide
  obtain ⟨k, hk⟩ := isDigit_iff.1 h
  rw [hk.value (by decide)]
  obtain ⟨hlt, rfl | rfl⟩ := hk
  · rfl
  · rw [hboth k hlt]

/-- The digits of a number without leading zeros are told by the number. -/
theorem Plain.eq_map (h : Plain ds n) (hn : n ≠ 0) : ds = (Nat.digits 10 n).reverse.map lowerDigit := by
  rcases h.cases with ⟨-, hzero⟩ | ⟨d, rest, rfl, hlead, hrest, -⟩
  · exact absurd hzero hn
  have hall : ∀ c ∈ d :: rest, c.isDigit = true := by
    rw [List.forall_mem_cons]
    exact ⟨(isLeadingDigit_iff.1 hlead).1, hrest⟩
  have hsmall : ∀ k ∈ ((d :: rest).map digitValue).reverse, k < 10 := by
    intro k hk
    obtain ⟨c, hc, rfl⟩ := List.mem_map.1 (List.mem_reverse.1 hk)
    obtain ⟨k, hk⟩ := isDigit_iff.1 (hall c hc)
    rw [hk.value (by decide)]
    exact hk.1
  have hvalues := Nat.digits_ofDigits 10 (by decide) _ hsmall (last_ne_zero hlead rest)
  rw [← positional_ofDigits, (plain_iff.2 h).2] at hvalues
  have hchars : (d :: rest).map (lowerDigit ∘ digitValue) = (d :: rest).map id :=
    List.map_congr_left fun c hc => lowerDigit_digitValue (hall c hc)
  rw [hvalues, List.reverse_reverse, List.map_map, hchars, List.map_id]

theorem Plain.unique {ds' : List Char} (h : Plain ds n) (h' : Plain ds' n) : ds = ds' := by
  by_cases hn : n = 0
  · rcases h.cases with ⟨rfl, -⟩ | ⟨_, _, _, _, _, hne⟩
    · rcases h'.cases with ⟨rfl, -⟩ | ⟨_, _, _, _, _, hne⟩
      · rfl
      · exact absurd hn hne
    · exact absurd hn hne
  · rw [h.eq_map hn, h'.eq_map hn]

/-! ## Reading and writing -/

theorem magnitude_octal (h : isRun isOctalDigit ds = true) : magnitude? ('0' :: ds) = some ⟨8, ds⟩ := by
  cases ds with
  | nil => cases h
  | cons d ds =>
    have hd : isOctalDigit d = true := List.all_eq_true.1 (Bool.and_eq_true_iff.1 h).2 d List.mem_cons_self
    unfold magnitude?
    split
    · rename_i heq
      cases heq
      exact absurd hd (by decide)
    · rename_i heq
      cases heq
      exact absurd hd (by decide)
    · rename_i heq
      cases heq
      rw [if_pos h]
    · rename_i hother
      exact absurd rfl (hother d ds)

theorem magnitude_plain (h : isPlainDecimal s = true) : magnitude? s = some ⟨10, s⟩ := by
  obtain ⟨hne, hall, hzero⟩ := isPlainDecimal_iff.1 h
  obtain ⟨d, ds, rfl⟩ := List.exists_cons_of_ne_nil hne
  rw [List.forall_mem_cons] at hall
  by_cases hd : d = '0'
  · rw [hzero (by rw [hd]; rfl)]
    rfl
  · exact magnitude_leading (isLeadingDigit_iff.2 ⟨hall.1, hd⟩) (List.all_eq_true.2 hall.2)

/-- Reading a number without a sign finds what it is a way to write. -/
theorem magnitude_iff : (∃ m, magnitude? s = some m ∧ m.value = n) ↔ Unsigned s n := by
  constructor
  · rintro ⟨m, hm, rfl⟩
    unfold magnitude? at hm
    split at hm <;> split at hm <;> cases hm
    · rename_i hrun
      exact .hexadecimal (.inl rfl) ((run_iff (by decide) isHexDigit_iff).1 ⟨hrun, rfl⟩)
    · rename_i hrun
      exact .hexadecimal (.inr rfl) ((run_iff (by decide) isHexDigit_iff).1 ⟨hrun, rfl⟩)
    · rename_i hrun
      exact .octal ((run_iff (by decide) isOctalDigit_iff).1 ⟨hrun, rfl⟩)
    · rename_i hplain
      exact .decimal (plain_iff.1 ⟨hplain, rfl⟩)
  · intro h
    cases h with
    | hexadecimal hx hds =>
      obtain ⟨hrun, rfl⟩ := (run_iff (by decide) isHexDigit_iff).2 hds
      rcases hx with rfl | rfl
      · exact ⟨_, if_pos hrun, rfl⟩
      · exact ⟨_, if_pos hrun, rfl⟩
    | octal hds =>
      obtain ⟨hrun, rfl⟩ := (run_iff (by decide) isOctalDigit_iff).2 hds
      exact ⟨_, magnitude_octal hrun, rfl⟩
    | decimal hds =>
      obtain ⟨hplain, rfl⟩ := plain_iff.2 hds
      exact ⟨_, magnitude_plain hplain, rfl⟩

theorem Unsigned.first (h : Unsigned s n) : ∃ d ds, s = d :: ds ∧ d.isDigit = true := by
  cases h with
  | hexadecimal => exact ⟨_, _, rfl, by decide⟩
  | octal => exact ⟨_, _, rfl, by decide⟩
  | decimal hds =>
    obtain ⟨hne, hall, -⟩ := isPlainDecimal_iff.1 (plain_iff.2 hds).1
    obtain ⟨d, ds, rfl⟩ := List.exists_cons_of_ne_nil hne
    exact ⟨d, ds, rfl, hall d List.mem_cons_self⟩

/-- Reading finds what the text is a way to write. -/
theorem shape_iff : (∃ x, shape? s = some x ∧ x.value = v) ↔ Written s v := by
  constructor
  · rintro ⟨x, hx, rfl⟩
    unfold shape? at hx
    split at hx <;> obtain ⟨m, hm, rfl⟩ := Option.map_eq_some_iff.1 hx
    · exact .plus (magnitude_iff.1 ⟨m, hm, rfl⟩)
    · exact .minus (magnitude_iff.1 ⟨m, hm, rfl⟩)
    · exact .bare (magnitude_iff.1 ⟨m, hm, rfl⟩)
  · intro h
    cases h with
    | bare hs =>
      obtain ⟨d, ds, rfl, hd⟩ := hs.first
      obtain ⟨m, hm, rfl⟩ := magnitude_iff.2 hs
      exact ⟨⟨false, m⟩, by rw [shape_unsigned ds hd, hm]; rfl, rfl⟩
    | plus hs =>
      obtain ⟨m, hm, rfl⟩ := magnitude_iff.2 hs
      exact ⟨⟨false, m⟩, by rw [shape?, hm]; rfl, rfl⟩
    | minus hs =>
      obtain ⟨m, hm, rfl⟩ := magnitude_iff.2 hs
      exact ⟨⟨true, m⟩, by rw [shape?, hm]; rfl, rfl⟩

/-! ## How many digits a number has -/

theorem length_digits_large {base n : Nat} (hbase : 2 ≤ base) (h : ¬ n < base) :
    (digits base n).length = (digits base (n / base)).length + 1 := by
  rw [digits_large hbase h, List.length_append, List.length_singleton]

/-- So many digits are enough for the numbers below a power of the base. -/
theorem length_digits_le {base : Nat} (hbase : 2 ≤ base) (k n : Nat) :
    (digits base n).length ≤ k + 1 ↔ n < base ^ (k + 1) := by
  induction k generalizing n with
  | zero =>
    rw [Nat.zero_add, Nat.pow_one]
    by_cases hn : n < base
    · simp [digits_small hn, hn]
    · have hpos := List.length_pos_iff.2 (digits_ne_nil base (n / base))
      rw [length_digits_large hbase hn]
      omega
  | succ k ih =>
    by_cases hn : n < base
    · have hpow : base ≤ base ^ (k + 1 + 1) := Nat.le_self_pow (by omega) base
      rw [digits_small hn, List.length_singleton]
      omega
    · rw [length_digits_large hbase hn, Nat.add_le_add_iff_right, ih, Nat.div_lt_iff_lt_mul (by omega), ← Nat.pow_succ]

/-- An integer can be written if its magnitude is below a power of ten. -/
theorem isWritable_iff {v : Int} : isWritable v = true ↔ v.natAbs < 10 ^ maxDecimalDigits := by
  obtain ⟨k, hk⟩ : ∃ k, maxDecimalDigits = k + 1 := ⟨4299, rfl⟩
  rw [isWritable, decide_eq_true_eq, hk]
  exact length_digits_le (by decide) k v.natAbs

theorem not_isWritable {v : Int} : isWritable v = false ↔ 10 ^ maxDecimalDigits ≤ v.natAbs := by
  rw [Bool.eq_false_iff, ne_eq, isWritable_iff, Nat.not_lt]

/-- The least number that has too many digits to be written. -/
def longNumber : Nat := 10 ^ maxDecimalDigits

theorem le_longNumber : 10 ^ maxDecimalDigits ≤ (longNumber : Int).natAbs :=
  Nat.le_of_eq (by rw [Int.natAbs_natCast, longNumber])

theorem lt_longNumber {n : Nat} (h : n < 10 ^ 10) : n < longNumber :=
  Nat.lt_of_lt_of_le h (Nat.pow_le_pow_right (by decide) (by decide))

/-! ## Numbers in all their forms -/

theorem denotes_digits (hlow : 2 ≤ base) (hhigh : base ≤ 16) (n : Nat) : Denotes base (digits base n) n := by
  refine (denotes_iff hhigh).2 ⟨digits_ne_nil base n, fun c hc => ?_, positional_digits hlow hhigh n⟩
  obtain ⟨k, hk, rfl⟩ := mem_digits hlow hc
  exact ⟨k, hk, .inl rfl⟩

theorem plain_digits (n : Nat) : Plain (digits 10 n) n := by
  refine ⟨denotes_digits (by decide) (by decide) n, fun hzero => ?_⟩
  by_cases h : n = 0
  · rw [h, digits_small (by decide)]
    rfl
  · obtain ⟨d, ds, hd, hlead, -⟩ := digits_leading h
    rw [hd, List.head?_cons] at hzero
    exact absurd (Option.some.inj hzero) (isLeadingDigit_iff.1 hlead).2

theorem Denotes.of_toLower (h : Denotes 16 (ds.map Char.toLower) n) : Denotes 16 ds n := by
  obtain ⟨hne, ks, hks, hn⟩ := h
  rw [List.forall₂_map_left_iff] at hks
  exact ⟨by simpa using hne, ks, hks.imp fun _ _ => IsDigit.of_toLower, hn⟩

/-- Zeros in front count for nothing. -/
theorem Denotes.zeros (hbase : 0 < base) (h : Denotes base ds n) (zeros : Nat) :
    Denotes base (List.replicate zeros '0' ++ ds) n := by
  induction zeros with
  | zero => exact h
  | succ zeros ih =>
    obtain ⟨-, ks, hks, hn⟩ := ih
    refine ⟨by simp [List.replicate_succ], 0 :: ks, ?_, by rw [Nat.ofDigits_reverse_zero_cons, hn]⟩
    exact .cons ⟨hbase, .inl rfl⟩ hks

theorem Sign.written {n : Int} {sign : List Char} (hsign : Sign n sign) (h : Unsigned s n.natAbs) :
    Written (sign ++ s) n := by
  cases hsign with
  | none hn =>
    rw [← Int.natAbs_of_nonneg hn]
    exact .bare h
  | plus hn =>
    rw [← Int.natAbs_of_nonneg hn]
    exact .plus h
  | minus hn =>
    rw [show n = -(n.natAbs : Int) by omega]
    exact .minus (by simpa using h)

theorem Renders.written {n : Int} (h : Renders n s) : Written s n := by
  cases h with
  | decimal hsign => exact hsign.written (.decimal (plain_digits _))
  | octal hsign => exact hsign.written (.octal (denotes_digits (by decide) (by decide) _))
  | hexadecimal hsign hx hds =>
    have hdigits : Denotes 16 (digits 16 n.natAbs) n.natAbs := denotes_digits (by decide) (by decide) _
    rw [← hds] at hdigits
    exact hsign.written (.hexadecimal hx (hdigits.of_toLower.zeros (by decide) _))

/-! ## Numbers that are too long -/

/-- A number that is too long to be read has more than 32 bits. -/
theorem Written.not_long (h : Written token.toList v) (hlow : -2 ^ 31 ≤ v) (hhigh : v ≤ 2 ^ 31 - 1) :
    ¬ LongDecimal token k := by
  intro hlong
  obtain ⟨x, hx, hbase, rfl, hlen⟩ := tooLong_iff.2 hlong
  obtain ⟨y, hy, rfl⟩ := shape_iff.2 h
  obtain rfl : x = y := Option.some.inj (hx.symm.trans hy)
  obtain ⟨sign, rest, -, -, hmag⟩ := shape_sign hx
  obtain ⟨rfl, hplain⟩ := magnitude_decimal hmag hbase
  rcases (plain_iff.1 ⟨hplain, rfl⟩).cases with ⟨hzero, -⟩ | ⟨d, ds, hdigits, hlead, -, -⟩
  · rw [hzero] at hlen
    exact absurd hlen (by decide)
  have hlarge : 10 ^ 11 ≤ 10 * positional 10 x.magnitude.digits := by
    have hpow : 10 ^ 11 ≤ 10 ^ x.magnitude.digits.length :=
      Nat.pow_le_pow_right (by decide) (Nat.le_of_lt (Nat.lt_of_le_of_lt (by decide) hlen))
    rw [hdigits] at hpow ⊢
    exact Nat.le_trans hpow (pow_length_le hlead ds)
  have hvalue : x.magnitude.value = positional 10 x.magnitude.digits := by rw [Magnitude.value, hbase]
  cases hneg : x.negative with
  | true =>
    rw [Shape.value, hneg, if_pos rfl] at hlow
    omega
  | false =>
    rw [Shape.value, hneg, if_neg Bool.false_ne_true] at hhigh
    omega

/-! ## What reading answers -/

variable {line : Option Int}

theorem reads_of_parse {token : Option String} (h : parse token line = .ok v) : Reads token v := by
  cases token with
  | none => cases h
  | some t =>
    have hlong : ∀ k, ¬ LongDecimal t k := by
      intro k hk
      rw [parse_tooLong.2 hk] at h
      cases h
    unfold parse at h
    split at h
    · cases h
    · rename_i x hx
      split at h
      · cases h
      · split at h
        · rename_i hfits
          cases h
          obtain ⟨hlow, hhigh⟩ : -0x80000000 ≤ x.value ∧ x.value < 0x80000000 := by simpa [fitsInt32] using hfits
          exact ⟨t, rfl, shape_iff.1 ⟨x, hx, rfl⟩, hlong, by omega, by omega⟩
        · cases h

theorem parse_of_reads {token : Option String} (h : Reads token v) : parse token line = .ok v := by
  obtain ⟨t, rfl, hwritten, hshort, hlow, hhigh⟩ := h
  obtain ⟨x, hx, rfl⟩ := shape_iff.2 hwritten
  have hlong : x.isTooLong = false := by
    rw [Bool.eq_false_iff]
    intro hlong
    obtain ⟨hbase, hlen⟩ : x.magnitude.base = 10 ∧ maxDecimalDigits < x.magnitude.digits.length := by
      simpa [Shape.isTooLong] using hlong
    exact hshort _ (tooLong_iff.1 ⟨x, hx, hbase, rfl, hlen⟩)
  have hfits : fitsInt32 x.value = true := by
    rw [fitsInt32, Bool.and_eq_true, decide_eq_true_eq, decide_eq_true_eq]
    omega
  simp [parse, hx, hlong, hfits]

/-- What becomes of a token. It is read exactly if it is a literal of 32 bits, and gives the number that it is a way to
write. A decimal number of too many digits is not read, and all other tokens are malformed. So a number of 32 bits is
read back from all its forms. -/
theorem parse_outcome (line : Option Int) :
    (∀ token v, parse token line = .ok v ↔ Reads token v) ∧
    (∀ token e, parse token line = .error e ↔
      (∃ t k, token = some t ∧ LongDecimal t k ∧ e = .literalTooLong k) ∨
      (∀ v, ¬ Reads token v) ∧ (∀ t k, token = some t → ¬ LongDecimal t k) ∧
        e = .refused (.malformedLiteral token) line) ∧
    ∀ (n : Int) (t : String), -2 ^ 31 ≤ n → n ≤ 2 ^ 31 - 1 → Renders n t.toList → parse (some t) line = .ok n := by
  refine ⟨fun token v => ⟨reads_of_parse, parse_of_reads⟩, fun token e => ⟨fun h => ?_, ?_⟩,
    fun n t hlow hhigh h => ?_⟩
  · have hnot : ∀ v, ¬ Reads token v := by
      intro v hv
      rw [parse_of_reads hv] at h
      cases h
    rcases parse_error h with rfl | ⟨t, k, rfl, hlong, rfl⟩
    · refine .inr ⟨hnot, ?_, rfl⟩
      rintro t k rfl hlong
      rw [parse_tooLong.2 hlong] at h
      cases h
    · exact .inl ⟨t, k, rfl, tooLong_iff.1 hlong, rfl⟩
  · rintro (⟨t, k, rfl, hlong, rfl⟩ | ⟨hnot, hshort, rfl⟩)
    · exact parse_tooLong.2 hlong
    · cases hp : parse token line with
      | ok v => exact absurd (reads_of_parse hp) (hnot v)
      | error e' =>
        rcases parse_error hp with rfl | ⟨t, k, rfl, hlong, -⟩
        · rfl
        · exact absurd (tooLong_iff.1 hlong) (hshort t k rfl)
  · have hwritten := h.written
    exact parse_of_reads ⟨t, rfl, hwritten, fun k => hwritten.not_long hlow hhigh, hlow, hhigh⟩

end Literal

end MipsAssembler
