import Mathlib.Data.List.Basic
import MipsAssembler.Text.Utf8
/-!
# Text as bytes

Reading takes one character after another (`next`), and a character is read from its own bytes only (`next_iff`). So
bytes are text, or they are text up to a place where no character starts (`decode_cases`).

A newline is no part of another character. What is read in front of one does not depend on what stands behind it
(`next_cut`), so bytes can be read line by line (`decode_lines`).
-/

namespace MipsAssembler.Utf8

variable {p : UInt8 → Bool} {a b : UInt8} {c : Char} {s : List Char} {bs r rest more : List UInt8} {f : Fault}

/-! ## One character -/

/-- A byte of a class from the front. -/
def take (p : UInt8 → Bool) : List UInt8 → Except Fault (UInt8 × List UInt8)
  | [] => .error .truncated
  | b :: rest => if p b then .ok (b, rest) else .error .invalidContinuation

/-- The first character, and the bytes behind it. -/
def next : List UInt8 → Except Fault (Char × List UInt8)
  | [] => .error .truncated
  | a :: rest =>
    if a.toNat < 0x80 then .ok (Char.ofNat a.toNat, rest)
    else if a.toNat < 0xC2 then .error .invalidStart
    else if a.toNat < 0xE0 then take isTail rest >>= fun b => .ok (charOfTwo a b.1, b.2)
    else if a.toNat < 0xF0 then
      take (isSecondOfThree a) rest >>= fun b => take isTail b.2 >>= fun c => .ok (charOfThree a b.1 c.1, c.2)
    else if a.toNat < 0xF5 then
      take (isSecondOfFour a) rest >>= fun b => take isTail b.2 >>= fun c => take isTail c.2 >>= fun d =>
        .ok (charOfFour a b.1 c.1 d.1, d.2)
    else .error .invalidStart

/-- The bytes are a character. -/
inductive Spells : List UInt8 → Char → Prop
  | one {a : UInt8} : a.toNat < 0x80 → Spells [a] (Char.ofNat a.toNat)
  | two {a b : UInt8} : 0xC2 ≤ a.toNat → a.toNat < 0xE0 → isTail b = true → Spells [a, b] (charOfTwo a b)
  | three {a b c : UInt8} : 0xE0 ≤ a.toNat → a.toNat < 0xF0 → isSecondOfThree a b = true → isTail c = true →
      Spells [a, b, c] (charOfThree a b c)
  | four {a b c d : UInt8} : 0xF0 ≤ a.toNat → a.toNat < 0xF5 → isSecondOfFour a b = true → isTail c = true →
      isTail d = true → Spells [a, b, c, d] (charOfFour a b c d)

section

variable {α β : Type}

theorem bind_ok (x : α) (g : α → Except Fault β) : (Except.ok x >>= g) = g x := rfl

theorem bind_error (f : Fault) (g : α → Except Fault β) : ((Except.error f : Except Fault α) >>= g) = .error f := rfl

theorem bind_eq_ok {x : Except Fault α} {g : α → Except Fault β} {v : β} :
    (x >>= g) = .ok v ↔ ∃ u, x = .ok u ∧ g u = .ok v := by
  cases x <;> simp [bind, Except.bind]

theorem take_cons (h : p b = true) : take p (b :: rest) = .ok (b, rest) := if_pos h

theorem take_cons_error (h : p b = false) : take p (b :: rest) = .error .invalidContinuation :=
  if_neg (by simp [h])

theorem take_ok {x : UInt8 × List UInt8} (h : take p bs = .ok x) : bs = x.1 :: x.2 ∧ p x.1 = true := by
  cases bs with
  | nil => cases h
  | cons b rest =>
    by_cases hb : p b = true
    · rw [take_cons hb] at h
      cases h
      exact ⟨rfl, hb⟩
    · rw [take_cons_error (by simpa using hb)] at h
      cases h

theorem take_nil_bind (g : UInt8 × List UInt8 → Except Fault α) : (take p [] >>= g) = .error .truncated := rfl

theorem take_cons_bind (g : UInt8 × List UInt8 → Except Fault α) :
    (take p (b :: rest) >>= g) = if p b then g (b, rest) else .error .invalidContinuation := by
  by_cases hb : p b = true
  · rw [take_cons hb, bind_ok, if_pos hb]
  · rw [take_cons_error (by simpa using hb), bind_error, if_neg hb]

end

/-- Reading takes a character and goes on behind it. -/
theorem decode_cons (a : UInt8) (rest : List UInt8) :
    decode (a :: rest) = next (a :: rest) >>= fun x => (decode x.2).map (x.1 :: ·) := by
  rw [decode.eq_def, next]
  dsimp only
  split_ifs
  · rfl
  · rfl
  · simp only [bind_assoc, bind_ok]
    rcases rest with _ | ⟨b, rest⟩
    · rfl
    · rw [take_cons_bind]
  · simp only [bind_assoc, bind_ok]
    rcases rest with _ | ⟨b, _ | ⟨c, rest⟩⟩
    · rfl
    · rw [take_cons_bind, take_nil_bind]
    · rw [take_cons_bind, take_cons_bind]
  · simp only [bind_assoc, bind_ok]
    rcases rest with _ | ⟨b, _ | ⟨c, _ | ⟨d, rest⟩⟩⟩
    · rfl
    · rw [take_cons_bind, take_nil_bind]
    · rw [take_cons_bind, take_cons_bind, take_nil_bind]
    · rw [take_cons_bind, take_cons_bind, take_cons_bind]
  · rfl

theorem next_spelled {bytes : List UInt8} (h : Spells bytes c) (rest : List UInt8) :
    next (bytes ++ rest) = .ok (c, rest) := by
  cases h with
  | one ha => exact if_pos ha
  | two ha ha' hb =>
    simp only [List.cons_append, List.nil_append, next]
    rw [if_neg (by omega), if_neg (by omega), if_pos ha', take_cons hb, bind_ok]
  | three ha ha' hb hc =>
    simp only [List.cons_append, List.nil_append, next]
    rw [if_neg (by omega), if_neg (by omega), if_neg (by omega), if_pos ha', take_cons hb, bind_ok, take_cons hc,
      bind_ok]
  | four ha ha' hb hc hd =>
    simp only [List.cons_append, List.nil_append, next]
    rw [if_neg (by omega), if_neg (by omega), if_neg (by omega), if_neg (by omega), if_pos ha', take_cons hb, bind_ok,
      take_cons hc, bind_ok, take_cons hd, bind_ok]

theorem spelled_of_next (h : next bs = .ok (c, rest)) : ∃ bytes, Spells bytes c ∧ bs = bytes ++ rest := by
  cases bs with
  | nil => cases h
  | cons a bs =>
    unfold next at h
    dsimp only at h
    split_ifs at h with h1 h2 h3 h4 h5
    · cases h
      exact ⟨[a], .one h1, rfl⟩
    · obtain ⟨b, hb, hchar⟩ := bind_eq_ok.1 h
      obtain ⟨rfl, hsecond⟩ := take_ok hb
      cases hchar
      exact ⟨[a, b.1], .two (by omega) h3 hsecond, rfl⟩
    · obtain ⟨b, hb, hthen⟩ := bind_eq_ok.1 h
      obtain ⟨d, hd, hchar⟩ := bind_eq_ok.1 hthen
      obtain ⟨rfl, hsecond⟩ := take_ok hb
      obtain ⟨hbd, hthird⟩ := take_ok hd
      cases hchar
      exact ⟨[a, b.1, d.1], .three (by omega) h4 hsecond hthird, by simp [hbd]⟩
    · obtain ⟨b, hb, hthen⟩ := bind_eq_ok.1 h
      obtain ⟨d, hd, hthen⟩ := bind_eq_ok.1 hthen
      obtain ⟨e, he, hchar⟩ := bind_eq_ok.1 hthen
      obtain ⟨rfl, hsecond⟩ := take_ok hb
      obtain ⟨hbd, hthird⟩ := take_ok hd
      obtain ⟨hde, hfourth⟩ := take_ok he
      cases hchar
      exact ⟨[a, b.1, d.1, e.1], .four (by omega) h5 hsecond hthird hfourth, by simp [hbd, hde]⟩

/-! ## The bytes of a character -/

theorem toNat_ofNat {n : Nat} (h : n < 256) : (UInt8.ofNat n).toNat = n := by
  rw [UInt8.toNat_ofNat']
  omega

theorem toNat_tail (n : Nat) : (tail n).toNat = 0x80 + n % 64 := toNat_ofNat (by omega)

theorem isTail_iff : isTail b = true ↔ 0x80 ≤ b.toNat ∧ b.toNat < 0xC0 := by simp [isTail]

theorem isTail_tail (n : Nat) : isTail (tail n) = true := by
  rw [isTail_iff, toNat_tail]
  omega

theorem isSecondOfThree_iff : isSecondOfThree a b = true ↔
    isTail b = true ∧ (a.toNat ≠ 0xE0 ∨ 0xA0 ≤ b.toNat) ∧ (a.toNat ≠ 0xED ∨ b.toNat < 0xA0) := by
  simp [isSecondOfThree, and_assoc]

theorem isSecondOfFour_iff : isSecondOfFour a b = true ↔
    isTail b = true ∧ (a.toNat ≠ 0xF0 ∨ 0x90 ≤ b.toNat) ∧ (a.toNat ≠ 0xF4 ∨ b.toNat < 0x90) := by
  simp [isSecondOfFour, and_assoc]

/-- The codes that characters have. -/
theorem code_range (c : Char) : c.toNat < 0xD800 ∨ 0xDFFF < c.toNat ∧ c.toNat < 0x110000 := c.valid

theorem toNat_char {n : Nat} (h : n < 0xD800 ∨ 0xDFFF < n ∧ n < 0x110000) : (Char.ofNat n).toNat = n := by
  rw [Char.ofNat, dif_pos (show n.isValidChar from h)]
  rfl

theorem spells_encodeChar (c : Char) : Spells (encodeChar c) c := by
  have hc := code_range c
  have hsame : ∀ n, n = c.toNat → Char.ofNat n = c := by
    rintro _ rfl
    exact Char.ofNat_toNat c
  unfold encodeChar
  dsimp only
  generalize c.toNat = n at *
  split_ifs with h1 h2 h3
  · have ha : (UInt8.ofNat n).toNat = n := toNat_ofNat (by omega)
    have hs := Spells.one (a := UInt8.ofNat n) (by omega)
    rwa [ha, hsame n rfl] at hs
  · have ha : (UInt8.ofNat (0xC0 + n / 64)).toNat = 0xC0 + n / 64 := toNat_ofNat (by omega)
    have hchar : charOfTwo (UInt8.ofNat (0xC0 + n / 64)) (tail n) = c := by
      unfold charOfTwo
      rw [ha, toNat_tail]
      exact hsame _ (by omega)
    rw [← hchar]
    exact .two (by omega) (by omega) (isTail_tail n)
  · have ha : (UInt8.ofNat (0xE0 + n / 4096)).toNat = 0xE0 + n / 4096 := toNat_ofNat (by omega)
    have hchar : charOfThree (UInt8.ofNat (0xE0 + n / 4096)) (tail (n / 64)) (tail n) = c := by
      unfold charOfThree
      rw [ha, toNat_tail, toNat_tail]
      exact hsame _ (by omega)
    rw [← hchar]
    refine .three (by omega) (by omega) ?_ (isTail_tail n)
    rw [isSecondOfThree_iff, ha, toNat_tail]
    exact ⟨isTail_tail _, by omega⟩
  · have ha : (UInt8.ofNat (0xF0 + n / 262144)).toNat = 0xF0 + n / 262144 := toNat_ofNat (by omega)
    have hchar : charOfFour (UInt8.ofNat (0xF0 + n / 262144)) (tail (n / 4096)) (tail (n / 64)) (tail n) = c := by
      unfold charOfFour
      rw [ha, toNat_tail, toNat_tail, toNat_tail]
      exact hsame _ (by omega)
    rw [← hchar]
    refine .four (by omega) (by omega) ?_ (isTail_tail _) (isTail_tail n)
    rw [isSecondOfFour_iff, ha, toNat_tail]
    exact ⟨isTail_tail _, by omega⟩

theorem eq_ofNat {n : Nat} (h : n = b.toNat) : UInt8.ofNat n = b := by
  rw [h, UInt8.ofNat_toNat]

theorem eq_tail {n : Nat} (hb : isTail b = true) (h : n % 64 = b.toNat % 64) : tail n = b := by
  rw [isTail_iff] at hb
  exact eq_ofNat (by omega)

theorem Spells.eq_encodeChar {bytes : List UInt8} (h : Spells bytes c) : bytes = encodeChar c := by
  -- The ranges of the bytes say which form the code has, and that it is the code of a character.
  cases h with
  | @one a ha =>
    have hn : (Char.ofNat a.toNat).toNat = a.toNat := toNat_char (by omega)
    simp [encodeChar, hn, ha]
  | @two a b ha ha' hb =>
    have hrange := isTail_iff.1 hb
    have hn : (charOfTwo a b).toNat = _ := toNat_char (by omega)
    unfold encodeChar
    rw [hn, if_neg (by omega), if_pos (by omega), eq_ofNat (b := a) (by omega), eq_tail hb (by omega)]
  | @three a b c ha ha' hb hc =>
    obtain ⟨htail, hlow, hhigh⟩ := isSecondOfThree_iff.1 hb
    have hrange := isTail_iff.1 htail
    have hrange' := isTail_iff.1 hc
    have hn : (charOfThree a b c).toNat = _ := toNat_char (by omega)
    unfold encodeChar
    rw [hn, if_neg (by omega), if_neg (by omega), if_pos (by omega), eq_ofNat (b := a) (by omega),
      eq_tail htail (by omega), eq_tail hc (by omega)]
  | @four a b c d ha ha' hb hc hd =>
    obtain ⟨htail, hlow, hhigh⟩ := isSecondOfFour_iff.1 hb
    have hrange := isTail_iff.1 htail
    have hrange' := isTail_iff.1 hc
    have hrange'' := isTail_iff.1 hd
    have hn : (charOfFour a b c d).toNat = _ := toNat_char (by omega)
    unfold encodeChar
    rw [hn, if_neg (by omega), if_neg (by omega), if_neg (by omega), eq_ofNat (b := a) (by omega),
      eq_tail htail (by omega), eq_tail hc (by omega), eq_tail hd (by omega)]

theorem next_encodeChar (c : Char) (rest : List UInt8) : next (encodeChar c ++ rest) = .ok (c, rest) :=
  next_spelled (spells_encodeChar c) rest

theorem next_iff : next bs = .ok (c, rest) ↔ bs = encodeChar c ++ rest := by
  constructor
  · intro h
    obtain ⟨bytes, hbytes, rfl⟩ := spelled_of_next h
    rw [hbytes.eq_encodeChar]
  · rintro rfl
    exact next_encodeChar c rest

theorem length_encodeChar_pos (c : Char) : 0 < (encodeChar c).length := by
  have hs := spells_encodeChar c
  generalize encodeChar c = bytes at hs
  cases hs <;> simp

/-- A character is one small byte, or its bytes are all large. -/
theorem Spells.small_or_large {bytes : List UInt8} (h : Spells bytes c) :
    (∃ a, bytes = [a] ∧ c = Char.ofNat a.toNat) ∨ ∀ b ∈ bytes, 0x80 ≤ b.toNat := by
  cases h with
  | @one a => exact .inl ⟨a, rfl, rfl⟩
  | two ha _ hb =>
    simp only [List.forall_mem_cons]
    exact .inr ⟨by omega, (isTail_iff.1 hb).1, List.forall_mem_nil _⟩
  | three ha _ hb hc =>
    have htail := (isSecondOfThree_iff.1 hb).1
    simp only [List.forall_mem_cons]
    exact .inr ⟨by omega, (isTail_iff.1 htail).1, (isTail_iff.1 hc).1, List.forall_mem_nil _⟩
  | four ha _ hb hc hd =>
    have htail := (isSecondOfFour_iff.1 hb).1
    simp only [List.forall_mem_cons]
    exact .inr ⟨by omega, (isTail_iff.1 htail).1, (isTail_iff.1 hc).1, (isTail_iff.1 hd).1, List.forall_mem_nil _⟩

/-- A newline is no part of another character. -/
theorem newline_of_mem (h : 10 ∈ encodeChar c) : c = '\n' := by
  rcases (spells_encodeChar c).small_or_large with ⟨a, ha, rfl⟩ | hlarge
  · rw [ha, List.mem_singleton] at h
    rw [← h]
    rfl
  · exact absurd (hlarge 10 h) (by decide)

/-! ## Whole texts -/

theorem encode_cons (c : Char) (s : List Char) : encode (c :: s) = encodeChar c ++ encode s := rfl

theorem encode_append (s s' : List Char) : encode (s ++ s') = encode s ++ encode s' := List.flatMap_append

theorem encode_ne_nil (h : s ≠ []) : encode s ≠ [] := by
  obtain ⟨c, cs, rfl⟩ := List.exists_cons_of_ne_nil h
  rw [encode_cons]
  exact List.append_ne_nil_of_left_ne_nil (List.ne_nil_of_length_pos (length_encodeChar_pos c)) _

theorem newline_mem_encode (h : 10 ∈ encode s) : '\n' ∈ s := by
  obtain ⟨c, hc, hmem⟩ := List.mem_flatMap.1 h
  rwa [← newline_of_mem hmem]

theorem decode_next (h : next bs = .ok (c, rest)) : decode bs = (decode rest).map (c :: ·) := by
  cases bs with
  | nil => cases h
  | cons a bs => rw [decode_cons, h, bind_ok]

theorem decode_stuck (hne : bs ≠ []) (h : next bs = .error f) : decode bs = .error f := by
  cases bs with
  | nil => exact absurd rfl hne
  | cons a bs => rw [decode_cons, h, bind_error]

/-- Reading goes on behind characters. -/
theorem decode_append (s : List Char) (rest : List UInt8) :
    decode (encode s ++ rest) = (decode rest).map (s ++ ·) := by
  induction s with
  | nil => cases h : decode rest <;> simp [encode, h, Except.map]
  | cons c s ih =>
    rw [encode_cons, List.append_assoc, decode_next (next_encodeChar c _), ih]
    cases decode rest <;> rfl

theorem decode_encode (s : List Char) : decode (encode s) = .ok s := by
  have h := decode_append s []
  rwa [List.append_nil, decode, Except.map, List.append_nil] at h

theorem bytes_inj {s t : String} : bytes s = bytes t ↔ s = t := by
  refine ⟨fun h => ?_, fun h => h ▸ rfl⟩
  have hchars : decode (bytes s) = decode (bytes t) := congrArg decode h
  rw [bytes, bytes, decode_encode, decode_encode] at hchars
  exact String.toList_inj.1 (Except.ok.inj hchars)

/-- Bytes are text, or they are text up to a place where no character starts. -/
theorem decode_cases (bs : List UInt8) :
    (∃ s, bs = encode s) ∨ ∃ s rest f, bs = encode s ++ rest ∧ rest ≠ [] ∧ next rest = .error f := by
  induction h : bs.length using Nat.strongRecOn generalizing bs with
  | _ n ih =>
    by_cases hne : bs = []
    · exact .inl ⟨[], hne⟩
    cases hx : next bs with
    | error f => exact .inr ⟨[], bs, f, rfl, hne, hx⟩
    | ok x =>
      obtain ⟨c, rest⟩ := x
      obtain rfl := next_iff.1 hx
      have hpos := length_encodeChar_pos c
      rw [List.length_append] at h
      rcases ih rest.length (by omega) rest rfl with ⟨s, rfl⟩ | ⟨s, rest, f, rfl, hrest, hf⟩
      · exact .inl ⟨c :: s, rfl⟩
      · exact .inr ⟨c :: s, rest, f, by rw [encode_cons, List.append_assoc], hrest, hf⟩

theorem decode_iff : decode bs = .ok s ↔ bs = encode s := by
  constructor
  · intro h
    rcases decode_cases bs with ⟨s', rfl⟩ | ⟨s', rest, f, rfl, hne, hf⟩
    · rw [decode_encode] at h
      rw [Except.ok.inj h]
    · rw [decode_append, decode_stuck hne hf] at h
      cases h
  · rintro rfl
    exact decode_encode s

/-! ## Up to a newline -/

/-- Two ways to read on, of which the first has a newline last and the second more behind it, come to the same. -/
inductive Cut {α : Type} (more : List UInt8) :
    Except Fault (α × List UInt8) → Except Fault (α × List UInt8) → Prop
  | error (f : Fault) : Cut more (.error f) (.error f)
  | ok (v : α) {r : List UInt8} : 10 ∉ r → Cut more (.ok (v, r ++ [10])) (.ok (v, r ++ 10 :: more))

theorem Cut.bind {α β : Type} {x y : Except Fault (α × List UInt8)}
    {g : α × List UInt8 → Except Fault (β × List UInt8)} (h : Cut more x y)
    (hg : ∀ v r, 10 ∉ r → Cut more (g (v, r ++ [10])) (g (v, r ++ 10 :: more))) : Cut more (x >>= g) (y >>= g) := by
  cases h with
  | error f => exact .error f
  | ok v hr => exact hg v _ hr

theorem take_cut (hp : p 10 = false) (hr : 10 ∉ r) : Cut more (take p (r ++ [10])) (take p (r ++ 10 :: more)) := by
  cases r with
  | nil =>
    rw [List.nil_append, List.nil_append, take_cons_error hp, take_cons_error hp]
    exact .error _
  | cons b r =>
    rw [List.mem_cons, not_or] at hr
    rw [List.cons_append, List.cons_append]
    by_cases hb : p b = true
    · rw [take_cons hb, take_cons hb]
      exact .ok b hr.2
    · rw [take_cons_error (by simpa using hb), take_cons_error (by simpa using hb)]
      exact .error _

/-- What is read in front of a newline does not depend on what stands behind it. -/
theorem next_cut (more : List UInt8) (hr : 10 ∉ a :: r) :
    Cut more (next (a :: r ++ [10])) (next (a :: r ++ 10 :: more)) := by
  rw [List.mem_cons, not_or] at hr
  have hthree : isSecondOfThree a 10 = false := rfl
  have hfour : isSecondOfFour a 10 = false := rfl
  rw [List.cons_append, List.cons_append, next, next]
  split_ifs
  · exact .ok _ hr.2
  · exact .error _
  · exact (take_cut rfl hr.2).bind fun b r hr => .ok _ hr
  · exact (take_cut hthree hr.2).bind fun b r hr => (take_cut rfl hr).bind fun c r hr => .ok _ hr
  · exact (take_cut hfour hr.2).bind fun b r hr => (take_cut rfl hr).bind fun c r hr =>
      (take_cut rfl hr).bind fun d r hr => .ok _ hr
  · exact .error _

/-- Reading a line, and then what stands behind it. -/
theorem decode_newline (hr : 10 ∉ r) (more : List UInt8) :
    decode (r ++ 10 :: more) = decode (r ++ [10]) >>= fun s => (decode more).map (s ++ ·) := by
  induction h : r.length using Nat.strongRecOn generalizing r with
  | _ n ih =>
    cases r with
    | nil =>
      have hnext : ∀ rest, next (10 :: rest) = .ok ('\n', rest) := fun _ => rfl
      rw [List.nil_append, List.nil_append, decode_next (hnext _), decode_next (hnext _)]
      cases decode more <;> rfl
    | cons a r =>
      have hcut := next_cut more hr
      generalize hx : next (a :: r ++ [10]) = x, hy : next (a :: r ++ 10 :: more) = y at hcut
      cases hcut with
      | error f => rw [decode_stuck (by simp) hx, decode_stuck (by simp) hy, bind_error]
      | @ok c r' hr' =>
        have hlen : r'.length < n := by
          have hsame := congrArg List.length (next_iff.1 hx)
          have hpos := length_encodeChar_pos c
          rw [List.length_append, List.length_append, List.length_append] at hsame
          omega
        rw [decode_next hx, decode_next hy, ih _ hlen hr' rfl]
        cases decode (r' ++ [10]) with
        | error f => rfl
        | ok s => cases decode more <;> rfl

/-! ## Lines -/

theorem toNat_newline : b.toNat = 10 ↔ b = 10 := by
  rw [← UInt8.toNat_inj]
  rfl

/-- Bytes without a newline belong to the line they stand in front of. -/
theorem lines_extend {line : List UInt8} {others : List (List UInt8)} (hr : 10 ∉ r) (h : lines bs = line :: others) :
    lines (r ++ bs) = (r ++ line) :: others := by
  induction r with
  | nil => exact h
  | cons b r ih =>
    rw [List.mem_cons, not_or] at hr
    have hb : ¬ b.toNat = 10 := fun hb => hr.1 (toNat_newline.1 hb).symm
    rw [List.cons_append, lines, if_neg hb, ih hr.2]
    rfl

theorem lines_newline (hr : 10 ∉ r) (more : List UInt8) : lines (r ++ 10 :: more) = (r ++ [10]) :: lines more :=
  lines_extend hr rfl

theorem lines_single (hne : bs ≠ []) (h : 10 ∉ bs) : lines bs = [bs] := by
  induction bs with
  | nil => exact absurd rfl hne
  | cons b bs ih =>
    rw [List.mem_cons, not_or] at h
    have hb : ¬ b.toNat = 10 := fun hb => h.1 (toNat_newline.1 hb).symm
    rw [lines, if_neg hb]
    cases bs with
    | nil => rfl
    | cons b' bs => rw [ih (List.cons_ne_nil b' bs) h.2]

/-- Bytes are lines, of which the last may lack its newline. -/
theorem lines_induction {P : List UInt8 → Prop} (hnil : P []) (hopen : ∀ r, r ≠ [] → 10 ∉ r → P r)
    (hline : ∀ r more, 10 ∉ r → P more → P (r ++ 10 :: more)) (bs : List UInt8) : P bs := by
  induction h : bs.length using Nat.strongRecOn generalizing bs with
  | _ n ih =>
    by_cases hmem : 10 ∈ bs
    · obtain ⟨r, more, rfl, hr⟩ := List.eq_append_cons_of_mem hmem
      rw [List.length_append, List.length_cons] at h
      exact hline r more hr (ih more.length (by omega) more rfl)
    · by_cases hne : bs = []
      · rw [hne]
        exact hnil
      · exact hopen bs hne hmem

/-- Reading line by line is reading as a whole: it comes to the lines in a row, or to the fault of the first line that
has one. -/
theorem decode_lines (bs : List UInt8) : decode bs = ((lines bs).mapM decode).map List.flatten := by
  induction bs using lines_induction with
  | hnil => rfl
  | hopen r hne hr =>
    rw [lines_single hne hr, List.mapM_cons]
    cases h : decode r <;> simp [bind, Except.bind, pure, Except.pure, Except.map]
  | hline r more hr ih =>
    rw [decode_newline hr, lines_newline hr, List.mapM_cons, ih]
    cases decode (r ++ [10]) with
    | error f => rfl
    | ok s => cases (lines more).mapM decode <;> rfl

/-- The first line of bytes that start with no character cannot be read, for the same reason. -/
theorem first_line_stuck (hne : rest ≠ []) (h : next rest = .error f) :
    ∃ raw after, lines rest = raw :: after ∧ raw ≠ [] ∧ decode raw = .error f := by
  by_cases hmem : 10 ∈ rest
  · obtain ⟨r, more, rfl, hr⟩ := List.eq_append_cons_of_mem hmem
    refine ⟨r ++ [10], lines more, lines_newline hr more, by simp, ?_⟩
    cases r with
    | nil => cases h
    | cons a r =>
      have hcut := next_cut more hr
      rw [h] at hcut
      generalize hx : next (a :: r ++ [10]) = x at hcut
      cases hcut
      exact decode_stuck (by simp) hx
  · exact ⟨rest, [], lines_single hne hmem, hne, decode_stuck hne h⟩

/-- The place where no character starts stands on the first line that cannot be read. -/
theorem line_of_stuck (s : List Char) (hne : rest ≠ []) (h : next rest = .error f) :
    ∃ before raw after, lines (encode s ++ rest) = before ++ raw :: after ∧
      before.flatten.length ≤ (encode s).length ∧ (encode s).length < before.flatten.length + raw.length ∧
      (∀ line ∈ before, ∃ t, decode line = .ok t) ∧ decode raw = .error f := by
  -- The induction is on the text in front. A newline is a line of its own, any other character joins the first line.
  induction s with
  | nil =>
    obtain ⟨raw, after, hlines, hraw, hf⟩ := first_line_stuck hne h
    exact ⟨[], raw, after, hlines, Nat.le_refl 0, by simpa [encode, List.length_pos_iff] using hraw, by simp, hf⟩
  | cons c s ih =>
    obtain ⟨before, raw, after, hlines, hle, hlt, hok, hf⟩ := ih
    rw [encode_cons, List.append_assoc, List.length_append]
    by_cases hc : c = '\n'
    · have hnewline : encodeChar c = [10] := by rw [hc]; rfl
      rw [hnewline, List.length_singleton]
      refine ⟨[10] :: before, raw, after, ?_, ?_, ?_, ?_, hf⟩
      · show [10] :: lines (encode s ++ rest) = [10] :: (before ++ raw :: after)
        rw [hlines]
      · rw [List.flatten_cons, List.length_append, List.length_singleton]
        omega
      · rw [List.flatten_cons, List.length_append, List.length_singleton]
        omega
      · rw [List.forall_mem_cons]
        exact ⟨⟨['\n'], rfl⟩, hok⟩
    · have hmem : 10 ∉ encodeChar c := fun h => hc (newline_of_mem h)
      cases before with
      | nil =>
        refine ⟨[], encodeChar c ++ raw, after, lines_extend hmem hlines, Nat.zero_le _, ?_, by simp, ?_⟩
        · rw [List.length_append]
          omega
        · rw [decode_next (next_encodeChar c raw), hf]
          rfl
      | cons line before =>
        rw [List.forall_mem_cons] at hok
        rw [List.flatten_cons, List.length_append] at hle hlt
        obtain ⟨⟨t, ht⟩, hok⟩ := hok
        refine ⟨(encodeChar c ++ line) :: before, raw, after, lines_extend hmem hlines, ?_, ?_, ?_, hf⟩
        · rw [List.flatten_cons, List.length_append, List.length_append]
          omega
        · rw [List.flatten_cons, List.length_append, List.length_append]
          omega
        · rw [List.forall_mem_cons]
          refine ⟨⟨c :: t, ?_⟩, hok⟩
          rw [decode_next (next_encodeChar c line), ht]
          rfl

/-! ## Well-formed bytes -/

theorem encodeChar_eq (c : Char) : encodeChar c = String.utf8EncodeChar c := by
  have hc := code_range c
  unfold encodeChar String.utf8EncodeChar tail
  rw [show c.val.toNat = c.toNat from rfl]
  generalize c.toNat = n at *
  dsimp only
  by_cases h1 : n < 0x80
  · rw [if_pos h1, if_pos (by omega)]
  by_cases h2 : n < 0x800
  · rw [if_neg h1, if_pos h2, if_neg (by omega), if_pos (by omega), Nat.mod_eq_of_lt (show n / 64 < 32 by omega),
      Nat.add_comm (n / 64), Nat.add_comm (n % 64)]
  by_cases h3 : n < 0x10000
  · rw [if_neg h1, if_neg h2, if_pos h3, if_neg (by omega), if_neg (by omega), if_pos (by omega),
      Nat.mod_eq_of_lt (show n / 4096 < 16 by omega), Nat.add_comm (n / 4096), Nat.add_comm (n / 64 % 64),
      Nat.add_comm (n % 64)]
  · rw [if_neg h1, if_neg h2, if_neg h3, if_neg (by omega), if_neg (by omega), if_neg (by omega),
      Nat.mod_eq_of_lt (show n / 262144 < 8 by omega), Nat.add_comm (n / 262144), Nat.add_comm (n / 4096 % 64),
      Nat.add_comm (n / 64 % 64), Nat.add_comm (n % 64)]

theorem encode_toByteArray (s : List Char) : (encode s).toByteArray = s.utf8Encode := by
  rw [encode, funext encodeChar_eq]
  rfl

theorem isValidUTF8_iff : bs.toByteArray.IsValidUTF8 ↔ ∃ s, bs = encode s := by
  constructor
  · rintro ⟨s, hs⟩
    exact ⟨s, List.toByteArray_inj.1 (by rw [hs, encode_toByteArray])⟩
  · rintro ⟨s, rfl⟩
    exact ⟨s, encode_toByteArray s⟩

/-- The bytes in front of place `n` are UTF-8, and no character starts there. -/
structure IllFormedAt (bs : List UInt8) (n : Nat) : Prop where
  inside : n < bs.length
  wellFormed : (bs.take n).toByteArray.IsValidUTF8
  stuck : ∀ c, ¬ String.utf8EncodeChar c <+: bs.drop n

theorem illFormedAt_iff {n : Nat} : IllFormedAt bs n ↔
    ∃ s rest f, bs = encode s ++ rest ∧ rest ≠ [] ∧ next rest = .error f ∧ n = (encode s).length := by
  constructor
  · rintro ⟨hlt, hvalid, hstuck⟩
    obtain ⟨s, hs⟩ := isValidUTF8_iff.1 hvalid
    have hlen : n = (encode s).length := by
      rw [← hs, List.length_take]
      omega
    have hne : bs.drop n ≠ [] := by
      intro h
      have := List.drop_eq_nil_iff.1 h
      omega
    cases hx : next (bs.drop n) with
    | error f => exact ⟨s, bs.drop n, f, by rw [← hs, List.take_append_drop], hne, hx, hlen⟩
    | ok x =>
      refine absurd ?_ (hstuck x.1)
      rw [next_iff.1 hx, ← encodeChar_eq]
      exact List.prefix_append _ _
  · rintro ⟨s, rest, f, rfl, hne, hf, rfl⟩
    refine ⟨?_, ?_, ?_⟩
    · have := List.length_pos_of_ne_nil hne
      rw [List.length_append]
      omega
    · rw [List.take_left]
      exact isValidUTF8_iff.2 ⟨s, rfl⟩
    · rw [List.drop_left]
      rintro c ⟨behind, rfl⟩
      rw [← encodeChar_eq, next_encodeChar] at hf
      cases hf

theorem isValidUTF8_or_illFormed (bs : List UInt8) : bs.toByteArray.IsValidUTF8 ∨ ∃ n, IllFormedAt bs n := by
  rcases decode_cases bs with h | ⟨s, rest, f, hbs, hne, hf⟩
  · exact .inl (isValidUTF8_iff.2 h)
  · exact .inr ⟨_, illFormedAt_iff.2 ⟨s, rest, f, hbs, hne, hf, rfl⟩⟩

end MipsAssembler.Utf8
