import MipsAssembler.Field
/-!
# Packing fields into a word

Each field of a word can be cut out of it again: the fields behind it are divided away and the ones in front of it go
with the remainder (`pack_slice`). The bits that are cut out are the field's value, in two's complement if it is signed
(`bits_unsigned`, `bits_signed`).
-/

namespace MipsAssembler.Field

variable {f : Field} {fs before rest : List Field} {line : Option Int} {b w : Nat} {v : Int} {e : Fault}

/-! ## Widths -/

theorem capacity_pos (n : Nat) : 0 < capacity n := by
  rw [capacity, Nat.one_shiftLeft]
  exact Nat.two_pow_pos n

theorem capacity_add (m n : Nat) : capacity (m + n) = capacity m * capacity n := by
  rw [capacity, capacity, capacity, Nat.one_shiftLeft, Nat.one_shiftLeft, Nat.one_shiftLeft, Nat.pow_add]

theorem totalWidth_append (fs gs : List Field) : totalWidth (fs ++ gs) = totalWidth fs + totalWidth gs := by
  induction fs with
  | nil => simp [totalWidth]
  | cons f rest ih => rw [List.cons_append, totalWidth, ih, totalWidth, Nat.add_assoc]

/-- The width of a field goes by its name. -/
theorem width_congr {g : Field} (h : f.name = g.name) : f.width = g.width := by
  rw [width, width, h]

theorem totalWidth_congr {gs : List Field} (h : fs.map name = gs.map name) : totalWidth fs = totalWidth gs := by
  induction fs generalizing gs with
  | nil =>
    rw [List.map_nil, eq_comm, List.map_eq_nil_iff] at h
    rw [h]
  | cons f rest ih =>
    cases gs with
    | nil => cases h
    | cons g gs =>
      rw [List.map_cons, List.map_cons, List.cons.injEq] at h
      rw [totalWidth, totalWidth, width_congr h.1, ih h.2]

/-! ## One field -/

theorem fits_signed (h : f.isSigned = true) :
    f.fits v = true ↔ -capacity (f.width - 1) ≤ v ∧ v < capacity (f.width - 1) := by
  rw [fits, if_pos h, Bool.and_eq_true, decide_eq_true_eq, decide_eq_true_eq]

theorem fits_unsigned (h : f.isSigned = false) : f.fits v = true ↔ 0 ≤ v ∧ v < capacity f.width := by
  rw [fits, h, if_neg Bool.false_ne_true, Bool.and_eq_true, decide_eq_true_eq, decide_eq_true_eq]

theorem bits_ok (h : f.bits line = .ok b) :
    ∃ v, f.value = some v ∧ f.fits v = true ∧ b = (v % capacity f.width).toNat := by
  unfold bits at h
  split at h
  · cases h
  · rename_i v hv
    split at h
    · rename_i hfit
      cases h
      exact ⟨v, hv, hfit, rfl⟩
    · cases h

theorem bits_fits (hv : f.value = some v) (hfits : f.fits v = true) (line : Option Int) : ∃ b, f.bits line = .ok b := by
  rw [bits, hv]
  exact ⟨_, if_pos hfits⟩

theorem bits_overflow (hv : f.value = some v) (hfits : ¬ f.fits v = true) :
    f.bits line = .error (.refused (.fieldOverflow f.name v f.width f.token) line) := by
  rw [bits, hv]
  exact if_neg hfits

theorem bits_lt (h : f.bits line = .ok b) : b < capacity f.width := by
  obtain ⟨v, -, -, rfl⟩ := bits_ok h
  have hpos := capacity_pos f.width
  have hlt : v % capacity f.width < capacity f.width := Int.emod_lt_of_pos v (by omega)
  omega

theorem bits_error (h : f.bits line = .error e) : f.value = none ∨ ∃ cause, e = .refused cause line := by
  unfold bits at h
  split at h
  · rename_i hv
    exact .inl hv
  · split at h
    · cases h
    · cases h
      exact .inr ⟨_, rfl⟩

/-- The bits of an unsigned field are its value. -/
theorem bits_unsigned (hs : f.isSigned = false) (h : f.bits line = .ok b) : f.value = some (b : Int) := by
  obtain ⟨v, hv, hfits, rfl⟩ := bits_ok h
  obtain ⟨hlo, hhi⟩ := (fits_unsigned hs).1 hfits
  rw [hv, Int.emod_eq_of_lt hlo hhi, Int.toNat_of_nonneg hlo]

/-- The bits of a signed field are its value in two's complement. -/
theorem bits_signed (hs : f.isSigned = true) (h : f.bits line = .ok b) :
    f.value = some (BitVec.ofNat f.width b).toInt := by
  obtain ⟨v, hv, hfits, rfl⟩ := bits_ok h
  obtain ⟨hlo, hhi⟩ := (fits_signed hs).1 hfits
  have hname : f.name = "immediate" := by simpa [isSigned] using hs
  have hwidth : f.width = 16 := by simp [width, hname]
  have hcap : capacity 15 = 32768 := rfl
  have hcap' : capacity 16 = 65536 := rfl
  rw [hwidth, hcap] at hlo hhi
  rw [hv, hwidth, hcap', BitVec.toInt_ofNat', Int.bmod_def, Option.some_inj]
  split <;> omega

/-! ## All fields -/

theorem pack_error (h : pack line fs = .error e) : ∃ f ∈ fs, f.bits line = .error e := by
  induction fs with
  | nil => cases h
  | cons f rest ih =>
    unfold pack at h
    cases hrest : pack line rest with
    | error e' =>
      rw [hrest] at h
      cases h
      obtain ⟨g, hg, hb⟩ := ih hrest
      exact ⟨g, List.mem_cons_of_mem f hg, hb⟩
    | ok low =>
      rw [hrest] at h
      cases hf : f.bits line with
      | error e' =>
        simp only [hf] at h
        cases h
        exact ⟨f, List.mem_cons_self, hf⟩
      | ok high => simp only [hf] at h; cases h

/-- A word is its first field above the word of the others. -/
theorem pack_cons (h : pack line (f :: rest) = .ok w) :
    ∃ high low, f.bits line = .ok high ∧ pack line rest = .ok low ∧ w = high * capacity (totalWidth rest) + low := by
  unfold pack at h
  cases hrest : pack line rest with
  | error e => rw [hrest] at h; cases h
  | ok low =>
    rw [hrest] at h
    cases hf : f.bits line with
    | error e => simp only [hf] at h; cases h
    | ok high =>
      simp only [hf] at h
      cases h
      exact ⟨high, low, rfl, rfl, rfl⟩

theorem pack_lt (h : pack line fs = .ok w) : w < capacity (totalWidth fs) := by
  induction fs generalizing w with
  | nil =>
    cases h
    exact capacity_pos _
  | cons f rest ih =>
    obtain ⟨high, low, hf, hrest, rfl⟩ := pack_cons h
    have hlow := ih hrest
    have hhigh := bits_lt hf
    rw [totalWidth, capacity_add]
    calc high * capacity (totalWidth rest) + low
        < high * capacity (totalWidth rest) + capacity (totalWidth rest) := by omega
      _ = (high + 1) * capacity (totalWidth rest) := by rw [Nat.add_mul, Nat.one_mul]
      _ ≤ capacity f.width * capacity (totalWidth rest) := Nat.mul_le_mul_right _ hhigh

/-- A field is cut out of a word above the fields behind it. -/
theorem pack_slice (h : pack line (before ++ f :: rest) = .ok w) :
    ∃ b, f.bits line = .ok b ∧ w / capacity (totalWidth rest) % capacity f.width = b := by
  induction before generalizing w with
  | nil =>
    obtain ⟨high, low, hf, hrest, rfl⟩ := pack_cons h
    refine ⟨high, hf, ?_⟩
    rw [Nat.mul_comm, Nat.mul_add_div (capacity_pos _), Nat.div_eq_of_lt (pack_lt hrest), Nat.add_zero,
      Nat.mod_eq_of_lt (bits_lt hf)]
  | cons g before ih =>
    rw [List.cons_append] at h
    obtain ⟨high, low, -, hrest, rfl⟩ := pack_cons h
    obtain ⟨b, hb, hlow⟩ := ih hrest
    refine ⟨b, hb, ?_⟩
    -- What stands in front is a multiple of the field's own capacity once the rest is divided away.
    have hfront : high * capacity (totalWidth (before ++ f :: rest)) =
        capacity (totalWidth rest) * (capacity f.width * (high * capacity (totalWidth before))) := by
      rw [totalWidth_append, totalWidth, capacity_add, capacity_add]
      ac_rfl
    rw [hfront, Nat.mul_add_div (capacity_pos _), Nat.mul_add_mod, hlow]

/-- A word is made of fields that all have their bits. -/
theorem pack_mem (h : pack line fs = .ok w) (hf : f ∈ fs) : ∃ b, f.bits line = .ok b := by
  obtain ⟨before, rest, rfl⟩ := List.append_of_mem hf
  obtain ⟨b, hb, -⟩ := pack_slice h
  exact ⟨b, hb⟩

/-- The last field is what is left of a word modulo the field's width. -/
theorem pack_last (h : pack line (fs ++ [f]) = .ok w) : ∃ b, f.bits line = .ok b ∧ w % capacity f.width = b := by
  obtain ⟨b, hb, hw⟩ := pack_slice h
  exact ⟨b, hb, by rwa [totalWidth, show capacity 0 = 1 from rfl, Nat.div_one] at hw⟩

end MipsAssembler.Field
