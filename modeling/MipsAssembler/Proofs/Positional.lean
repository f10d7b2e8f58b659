import Mathlib.Algebra.BigOperators.Fin
import Mathlib.Data.Int.Bitwise
import MipsAssembler.Proofs.Numerals
import MipsAssembler.Proofs.Packing
/-!
# Words as sums

A word is the sum of its fields, each modulo its width and above the bits behind it. It has no bits above its first
field, and each field can be read back from its place. A field that does not fit spoils the word, and the last of those
is reported, unless its number has too many digits for the message (`pack_exact`).

The same word comes out of a loop that goes from the last field to the first, masks each value, shifts it past the bits
taken so far and puts it there with an `or` (`placeAll_reverse`): what is already there lies below, so no bits meet.
-/

namespace MipsAssembler.Field

/-! ## Fields and their numbers -/

/-- The number that the field holds. A missing one counts as zero. -/
def number (f : Field) : Int := f.value.getD 0

/-- The number is in the range that the field has bits for. -/
def InWidth (f : Field) : Prop :=
  if f.name = "immediate" then -2 ^ (f.width - 1) ≤ f.number ∧ f.number < 2 ^ (f.width - 1)
  else 0 ≤ f.number ∧ f.number < 2 ^ f.width

/-- What bits say in the place of the field. -/
def meaning (f : Field) (bits : Nat) : Int :=
  if f.name = "immediate" then (BitVec.ofNat f.width bits).toInt else bits

/-- The bits that the fields behind field `i` take up. -/
def behind (fs : List Field) (i : Nat) : Nat := ((fs.drop (i + 1)).map width).sum

/-- Puts the fields above the bits of `word` that are taken, the first field lowest. -/
def placeAll (line : Option Int) : List Field → (position word : Nat) → Except Fault Nat
  | [], _, word => .ok word
  | f :: more, position, word =>
    match f.value with
    | none => .error .valueMissing
    | some v =>
      if f.fits v then
        let masked := (v.land (capacity f.width - 1)).toNat
        placeAll line more (position + f.width) (word ||| masked <<< position)
      else .error (Fault.refused (.fieldOverflow f.name v f.width f.token) line).checked

variable {f : Field} {fs before rest : List Field} {line : Option Int} {b w low n : Nat} {v : Int} {e : Fault}

theorem value_eq (h : f.value ≠ none) : f.value = some f.number := by
  obtain ⟨v, hv⟩ := Option.ne_none_iff_exists'.1 h
  rw [number, hv, Option.getD_some]

theorem capacity_eq (width : Nat) : capacity width = 2 ^ width := Nat.one_shiftLeft width

theorem totalWidth_eq_sum (fs : List Field) : totalWidth fs = (fs.map width).sum := by
  induction fs with
  | nil => rfl
  | cons f rest ih => rw [totalWidth, ih, List.map_cons, List.sum_cons]

theorem fits_number : f.fits f.number = true ↔ f.InWidth := by
  by_cases hname : f.name = "immediate"
  · rw [fits_signed (by simpa [isSigned] using hname), InWidth, if_pos hname, capacity_eq]
    push_cast
    rfl
  · rw [fits_unsigned (by simpa [isSigned] using hname), InWidth, if_neg hname, capacity_eq]
    push_cast
    rfl

theorem meaning_bits (h : f.bits line = .ok b) : f.meaning b = f.number := by
  by_cases hname : f.name = "immediate"
  · rw [meaning, if_pos hname, number, bits_signed (by simpa [isSigned] using hname) h, Option.getD_some]
  · rw [meaning, if_neg hname, number, bits_unsigned (by simpa [isSigned] using hname) h, Option.getD_some]

/-! ## Masks, shifts and ors -/

/-- A mask of ones keeps the remainder, also of a negative number. -/
theorem land_mask (v : Int) (width : Nat) : v.land (capacity width - 1) = v % capacity width := by
  have hmask : (capacity width : Int) - 1 = (2 ^ width - 1 : Nat) := by
    rw [capacity_eq, Nat.cast_sub Nat.one_le_two_pow, Nat.cast_one]
  rw [hmask, capacity_eq]
  cases v with
  | ofNat n =>
    show ((n &&& (2 ^ width - 1) : Nat) : Int) = _
    rw [Nat.and_two_pow_sub_one_eq_mod]
    rfl
  | negSucc n =>
    -- The bits of a negative number are those that its complement lacks.
    have hbits : Nat.ldiff (2 ^ width - 1) n = 2 ^ width - (n % 2 ^ width + 1) := by
      apply Nat.eq_of_testBit_eq
      intro i
      rw [Nat.testBit_ldiff, Nat.testBit_two_pow_sub_one,
        Nat.testBit_two_pow_sub_succ (Nat.mod_lt _ (Nat.two_pow_pos width)), Nat.testBit_mod_two_pow]
      cases decide (i < width) <;> simp
    show ((Nat.ldiff (2 ^ width - 1) n : Nat) : Int) = _
    have hlt : n % 2 ^ width < 2 ^ width := Nat.mod_lt _ (Nat.two_pow_pos width)
    rw [hbits, Int.negSucc_emod n (Int.natCast_pos.2 (Nat.two_pow_pos width)), ← Int.natCast_emod]
    omega

theorem placeAll_cons (line : Option Int) (f : Field) (more : List Field) (position word : Nat) :
    placeAll line (f :: more) position word =
      match f.bits line with
      | .error e => .error e.checked
      | .ok b => placeAll line more (position + f.width) (word ||| b <<< position) := by
  rw [placeAll, bits]
  cases f.value with
  | none => rfl
  | some v =>
    dsimp only
    rw [land_mask]
    split <;> rfl

/-- Bits go above lower ones by an `or` as well as by a sum. -/
theorem or_shift (hlow : low < capacity n) : low ||| b <<< n = b * capacity n + low := by
  rw [Nat.or_comm, ← Nat.shiftLeft_add_eq_or_of_lt (by rwa [capacity_eq] at hlow), Nat.shiftLeft_eq, capacity_eq]

theorem packChecked_ok : packChecked line fs = .ok w ↔ pack line fs = .ok w := by
  rw [packChecked]
  cases pack line fs <;> simp [Except.mapError]

theorem packChecked_error (h : pack line fs = .error e) : packChecked line fs = .error e.checked := by
  rw [packChecked, h]
  rfl

theorem pack_append_failed (before : List Field) (h : pack line rest = .error e) :
    pack line (before ++ rest) = .error e := by
  induction before with
  | nil => exact h
  | cons f before ih => rw [List.cons_append, pack, ih]

/-- The loop adds to the word of the fields behind. The induction is on the fields that are still to come, from the
last one, and the word so far is that of the fields already placed. -/
theorem placeAll_behind (before : List Field) (h : pack line rest = .ok low) :
    placeAll line before.reverse (totalWidth rest) low = packChecked line (before ++ rest) := by
  induction before using List.reverseRecOn generalizing rest low with
  | nil => exact (packChecked_ok.2 h).symm
  | append_singleton before f ih =>
    rw [List.reverse_concat, placeAll_cons, List.append_assoc, List.singleton_append]
    cases hbits : f.bits line with
    | error e =>
      have hfailed : pack line (f :: rest) = .error e := by
        rw [pack, h]
        simp only [hbits]
      exact (packChecked_error (pack_append_failed before hfailed)).symm
    | ok b =>
      have hplaced : pack line (f :: rest) = .ok (low ||| b <<< totalWidth rest) := by
        rw [pack, h, or_shift (pack_lt h)]
        simp only [hbits]
      dsimp only
      rw [Nat.add_comm, ← totalWidth, ih hplaced]

theorem placeAll_reverse (line : Option Int) (fs : List Field) :
    placeAll line fs.reverse 0 0 = packChecked line fs := by
  have hloop := placeAll_behind fs (show pack line [] = .ok 0 from rfl)
  rwa [List.append_nil] at hloop

/-! ## The sum of the fields -/

theorem pack_sum (h : pack line fs = .ok w) :
    (w : Int) = ∑ i : Fin fs.length, (fs.get i).number % 2 ^ (fs.get i).width * 2 ^ behind fs i := by
  induction fs generalizing w with
  | nil =>
    cases h
    rfl
  | cons f rest ih =>
    obtain ⟨high, low, hf, hrest, rfl⟩ := pack_cons h
    obtain ⟨v, hv, -, rfl⟩ := bits_ok hf
    have hnumber : f.number = v := by rw [number, hv, Option.getD_some]
    have hpos : 0 ≤ v % capacity f.width := by
      have := capacity_pos f.width
      exact Int.emod_nonneg v (by omega)
    show _ = ∑ i : Fin (rest.length + 1), _
    rw [Fin.sum_univ_succ, Nat.cast_add, ih hrest]
    congr 1
    rw [Nat.cast_mul, Int.toNat_of_nonneg hpos, capacity_eq, capacity_eq, totalWidth_eq_sum, ← hnumber]
    push_cast
    rfl

/-! ## Fields that fit and fields that do not -/

theorem pack_fits (line : Option Int) (h : ∀ f ∈ fs, f.value ≠ none) (hfits : ∀ f ∈ fs, f.InWidth) :
    ∃ w, pack line fs = .ok w := by
  induction fs with
  | nil => exact ⟨0, rfl⟩
  | cons f rest ih =>
    rw [List.forall_mem_cons] at h hfits
    obtain ⟨low, hlow⟩ := ih h.2 hfits.2
    obtain ⟨high, hhigh⟩ := bits_fits (value_eq h.1) (fits_number.2 hfits.1) line
    exact ⟨high * capacity (totalWidth rest) + low, by rw [pack, hlow, hhigh]⟩

theorem exists_last_misfit (h : ∃ f ∈ fs, ¬ f.InWidth) :
    ∃ before f after, fs = before ++ f :: after ∧ ¬ f.InWidth ∧ ∀ g ∈ after, g.InWidth := by
  induction fs with
  | nil => simp at h
  | cons f rest ih =>
    by_cases hrest : ∃ g ∈ rest, ¬ g.InWidth
    · obtain ⟨before, g, after, rfl, hg, hafter⟩ := ih hrest
      exact ⟨f :: before, g, after, rfl, hg, hafter⟩
    · have hall : ∀ g ∈ rest, g.InWidth := by simpa using hrest
      obtain ⟨g, hg, hmisfit⟩ := h
      rcases List.mem_cons.1 hg with rfl | hg
      · exact ⟨[], g, rest, rfl, hmisfit, hall⟩
      · exact absurd (hall g hg) hmisfit

/-- Of the fields that do not fit, packing reports the last. -/
theorem pack_misfit (before : List Field) {after : List Field} (h : ∀ g ∈ f :: after, g.value ≠ none) (hf : ¬ f.InWidth)
    (hafter : ∀ g ∈ after, g.InWidth) :
    pack line (before ++ f :: after) = .error (.refused (.fieldOverflow f.name f.number f.width f.token) line) := by
  rw [List.forall_mem_cons] at h
  obtain ⟨low, hlow⟩ := pack_fits line h.2 hafter
  refine pack_append_failed before ?_
  rw [pack, hlow, bits_overflow (value_eq h.1) (mt fits_number.1 hf)]

/-- What comes of a number that does not fit: its message shows it, if it can be written. -/
theorem overflow_checked (line : Option Int) (name : String) (v : Int) (width : Nat) (token : Option String) :
    (v.natAbs < 10 ^ maxDecimalDigits → (Fault.refused (.fieldOverflow name v width token) line).checked =
      .refused (.fieldOverflow name v width token) line) ∧
    (10 ^ maxDecimalDigits ≤ v.natAbs →
      (Fault.refused (.fieldOverflow name v width token) line).checked = .integerTooLong) := by
  rw [← Literal.isWritable_iff, ← Literal.not_isWritable]
  exact ⟨fun hv => if_pos hv, fun hv => if_neg (by rw [Cause.isWritable, hv]; exact Bool.false_ne_true)⟩

/-- Packing fields of any names, in any number. It is the loop of masks, shifts and ors. If every number is in the
range of its field, the word is the sum of the numbers, each modulo its width and above the bits behind it; it has no
bits above the fields, and the bits of each field say its number. Otherwise the last field whose number is out of range
is reported with its token. A number of more digits than can be written fails there without a report. -/
theorem pack_exact {fs : List Field} (line : Option Int) (h : ∀ f ∈ fs, f.value ≠ none) :
    packChecked line fs = placeAll line fs.reverse 0 0 ∧
    ((∀ f ∈ fs, f.InWidth) → ∃ w, packChecked line fs = .ok w ∧
      (w : Int) = ∑ i : Fin fs.length, (fs.get i).number % 2 ^ (fs.get i).width * 2 ^ behind fs i ∧
      w < 2 ^ (fs.map width).sum ∧
      ∀ i : Fin fs.length, (fs.get i).meaning (w / 2 ^ behind fs i % 2 ^ (fs.get i).width) = (fs.get i).number) ∧
    ((∃ f ∈ fs, ¬ f.InWidth) → ∃ before f after, fs = before ++ f :: after ∧ ¬ f.InWidth ∧
      (∀ g ∈ after, g.InWidth) ∧
      (f.number.natAbs < 10 ^ maxDecimalDigits →
        packChecked line fs = .error (.refused (.fieldOverflow f.name f.number f.width f.token) line)) ∧
      (10 ^ maxDecimalDigits ≤ f.number.natAbs → packChecked line fs = .error .integerTooLong)) := by
  refine ⟨(placeAll_reverse line fs).symm, fun hfits => ?_, fun hmisfit => ?_⟩
  · obtain ⟨w, hw⟩ := pack_fits line h hfits
    refine ⟨w, packChecked_ok.2 hw, pack_sum hw, ?_, fun i => ?_⟩
    · have hlt := pack_lt hw
      rwa [capacity_eq, totalWidth_eq_sum] at hlt
    · have hsplit : fs = fs.take i ++ fs.get i :: fs.drop (i + 1) := by simp
      rw [hsplit] at hw
      obtain ⟨b, hb, hslice⟩ := pack_slice hw
      rw [capacity_eq, capacity_eq, totalWidth_eq_sum] at hslice
      rw [behind, hslice, meaning_bits hb]
  · obtain ⟨before, f, after, rfl, hf, hafter⟩ := exists_last_misfit hmisfit
    have hpack : packChecked line (before ++ f :: after) = _ :=
      packChecked_error (pack_misfit before (fun g hg => h g (List.mem_append_right before hg)) hf hafter)
    obtain ⟨hshort, hlong⟩ := overflow_checked line f.name f.number f.width f.token
    exact ⟨before, f, after, rfl, hf, hafter, fun hv => by rw [hpack, hshort hv], fun hv => by rw [hpack, hlong hv]⟩

/-- Three fields of 27 bits together, one of them negative and one of a name of its own. -/
theorem pack_exact_of_three_fields :
    (∀ f ∈ [(⟨"op", some 63, none⟩ : Field), ⟨"immediate", some (-2), none⟩, ⟨"flag", some 31, none⟩],
      f.value ≠ none) ∧
    ∃ w, packChecked none [⟨"op", some 63, none⟩, ⟨"immediate", some (-2), none⟩, ⟨"flag", some 31, none⟩] = .ok w ∧
      w = 0x7FFFFDF ∧ w < 2 ^ 27 ∧ (BitVec.ofNat 16 (w / 2 ^ 5 % 2 ^ 16)).toInt = -2 := by
  have hvalues : ∀ f ∈ [(⟨"op", some 63, none⟩ : Field), ⟨"immediate", some (-2), none⟩, ⟨"flag", some 31, none⟩],
      f.value ≠ none := by decide
  obtain ⟨-, hword, -⟩ := pack_exact none hvalues
  obtain ⟨w, hw, -, hlt, hread⟩ := hword (by simp [InWidth, number, width])
  refine ⟨hvalues, w, hw, ?_, hlt, hread ⟨1, by decide⟩⟩
  have hvalue : packChecked none [⟨"op", some 63, none⟩, ⟨"immediate", some (-2), none⟩, ⟨"flag", some 31, none⟩] =
    .ok 0x7FFFFDF := by decide
  rw [hw] at hvalue
  exact Except.ok.inj hvalue

/-- The number of a field can be too long for the report that it does not fit. -/
theorem pack_long_number :
    ¬ InWidth ⟨"op", some Literal.longNumber, none⟩ ∧
      ∀ cause, packChecked none [⟨"op", some Literal.longNumber, none⟩] ≠ .error (.refused cause none) := by
  have hlarge : 64 < Literal.longNumber := Literal.lt_longNumber (by decide)
  have hmisfit : ¬ InWidth ⟨"op", some Literal.longNumber, none⟩ := by
    rintro ⟨-, hlt⟩
    change (Literal.longNumber : Int) < 64 at hlt
    omega
  have hpack : pack none [⟨"op", some Literal.longNumber, none⟩] =
      .error (.refused (.fieldOverflow "op" Literal.longNumber 6 none) none) :=
    pack_misfit [] (List.forall_mem_singleton.2 (Option.some_ne_none _)) hmisfit (List.forall_mem_nil _)
  refine ⟨hmisfit, fun cause hcause => ?_⟩
  rw [packChecked_error hpack, (overflow_checked none _ _ _ _).2 Literal.le_longNumber] at hcause
  cases hcause

end MipsAssembler.Field
