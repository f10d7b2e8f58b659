import Mathlib.Data.List.Induction
import MipsAssembler.Proofs.Output
/-!
# Codes, line by line

What the listing shows in front of each line. `coded_iff` says when all lines of a source have a code, in terms of its
statements and its instructions alone, and `coded_snoc` and `records_snoc` how codes and records grow with a line.
-/

namespace MipsAssembler.Reference

variable {t : SymbolTable} {ls : List SourceLine} {codes : List Listing.Code} {s : SourceLine} {c : Listing.Code}
  {k : Nat}

/-- Encoding refuses a line without a code. -/
def codeFault? (t : SymbolTable) (done : List SourceLine) (s : SourceLine) : Option Fault :=
  match code t done s with
  | .error e => some e
  | .ok _ => none

theorem codeFault_none (h : codeFault? t ls s = none) : ∃ c, code t ls s = .ok c := by
  unfold codeFault? at h
  cases hc : code t ls s with
  | error e => simp [hc] at h
  | ok c => exact ⟨c, rfl⟩

theorem codeFault_some {e : Fault} (h : codeFault? t ls s = some e) : code t ls s = .error e := by
  unfold codeFault? at h
  cases hc : code t ls s with
  | error e' => simpa [hc] using h
  | ok c => simp [hc] at h

theorem coded_nil (t : SymbolTable) : Coded t [] [] := by
  simp [Coded]

theorem coded_snoc (h : Coded t ls codes) (hc : code t ls s = .ok c) : Coded t (ls ++ [s]) (codes ++ [c]) := by
  obtain ⟨hlen, h⟩ := h
  refine ⟨by simp [hlen], fun k s' c' hs hc' => ?_⟩
  rcases Nat.lt_or_ge k ls.length with hlt | hge
  · rw [List.getElem?_append_left hlt] at hs
    rw [List.getElem?_append_left (by omega)] at hc'
    rw [List.take_append_of_le_length (Nat.le_of_lt hlt)]
    exact h k s' c' hs hc'
  · have hk : k = ls.length := by
      have := (List.getElem?_eq_some_iff.1 hs).1
      rw [List.length_append, List.length_singleton] at this
      omega
    subst hk
    rw [List.getElem?_append_right (Nat.le_refl _)] at hs
    rw [List.getElem?_append_right (by omega)] at hc'
    simp only [Nat.sub_self, List.getElem?_cons_zero, Option.some.injEq, hlen] at hs hc'
    rw [List.take_left, ← hs, ← hc']
    exact hc

theorem coded_of_snoc (h : Coded t (ls ++ [s]) codes) :
    ∃ codes' c, codes = codes' ++ [c] ∧ Coded t ls codes' ∧ code t ls s = .ok c := by
  obtain ⟨hlen, h⟩ := h
  rcases List.eq_nil_or_concat codes with rfl | ⟨codes', c, rfl⟩
  · simp at hlen
  · rw [List.concat_eq_append] at hlen h ⊢
    have hlen' : codes'.length = ls.length := by simpa using hlen
    refine ⟨codes', c, rfl, ⟨hlen', fun k s' c' hs hc => ?_⟩, ?_⟩
    · have hlt : k < ls.length := (List.getElem?_eq_some_iff.1 hs).1
      have := h k s' c' (by rw [List.getElem?_append_left hlt, hs])
        (by rw [List.getElem?_append_left (by omega), hc])
      rwa [List.take_append_of_le_length (Nat.le_of_lt hlt)] at this
    · have := h ls.length s c (by simp) (by simp [← hlen'])
      rwa [List.take_left] at this

/-- A line has a code if it is a statement and its instruction, if it holds one, can be assembled. -/
theorem code_ok : code t ls s = .ok c ↔ s.statement?.isSome = true ∧
    ((s.statement.mnemonic = none ∧ c = .blank) ∨
      ∃ m, ∃ w : Nat, s.statement.mnemonic = some m ∧ c = .encoded (address ls) w ∧
        Instruction.assemble t (address ls) (some (ls.length + 1)) m s.statement.operands = .ok w) := by
  unfold code
  cases hst : s.statement? with
  | none => simp
  | some st =>
    have hs : s.statement = st := by simp [SourceLine.statement, hst]
    cases hm : st.mnemonic with
    | none => simp [hs, hm, eq_comm]
    | some m =>
      cases hw : Instruction.assemble t (address ls) (some (ls.length + 1)) m st.operands with
      | error e => simp [hs, hm, hw]
      | ok w => simp [hs, hm, hw, eq_comm]

/-- A line has no code if it is no statement or its instruction cannot be assembled. -/
theorem code_failed {e : Fault} : code t ls s = .error e ↔
    (s.statement? = none ∧ e = .refused (.invalidLine s.text) (some (ls.length + 1))) ∨
      ∃ m, s.statement.mnemonic = some m ∧
        Instruction.assemble t (address ls) (some (ls.length + 1)) m s.statement.operands = .error e := by
  unfold code
  cases hst : s.statement? with
  | none => simp [SourceLine.statement, hst, eq_comm]
  | some st =>
    have hs : s.statement = st := by simp [SourceLine.statement, hst]
    cases hm : st.mnemonic with
    | none => simp [hs, hm]
    | some m =>
      cases hw : Instruction.assemble t (address ls) (some (ls.length + 1)) m st.operands with
      | error e' => simp [hs, hm, hw]
      | ok w => simp [hs, hm, hw]

theorem passes_codeFault (t : SymbolTable) (ls : List SourceLine) :
    Assembler.Passes (codeFault? t) ls ↔ ∃ codes, Coded t ls codes := by
  constructor
  · intro h
    induction ls using List.reverseRecOn with
    | nil => exact ⟨[], coded_nil t⟩
    | append_singleton ls s ih =>
      obtain ⟨hls, hs⟩ := Assembler.passes_snoc.1 h
      obtain ⟨codes, hcodes⟩ := ih hls
      obtain ⟨c, hc⟩ := codeFault_none hs
      exact ⟨codes ++ [c], coded_snoc hcodes hc⟩
  · rintro ⟨codes, hlen, h⟩ k s hk
    have hlt : k < codes.length := hlen ▸ (List.getElem?_eq_some_iff.1 hk).1
    have hcode := h k s codes[k] hk (List.getElem?_eq_getElem hlt)
    simp [codeFault?, hcode]

theorem code_take (h : ls[k]? = some s) : code t (ls.take k) s = .ok c ↔ s.statement?.isSome = true ∧
    ((s.statement.mnemonic = none ∧ c = .blank) ∨
      ∃ m, ∃ w : Nat, s.statement.mnemonic = some m ∧ c = .encoded (address (ls.take k)) w ∧
        Instruction.assemble t (address (ls.take k)) (some (k + 1)) m s.statement.operands = .ok w) := by
  have hlen : (ls.take k).length = k := List.length_take_of_le (Nat.le_of_lt (List.getElem?_eq_some_iff.1 h).1)
  rw [code_ok, hlen]

/-- All lines have a code if they are statements and all instructions can be assembled. -/
theorem coded_iff : (∃ codes, Coded t ls codes) ↔ (∀ s ∈ ls, s.statement?.isSome = true) ∧
    ∀ k s m, ls[k]? = some s → s.statement.mnemonic = some m → ∃ w : Nat,
      Instruction.assemble t (address (ls.take k)) (some (k + 1)) m s.statement.operands = .ok w := by
  rw [← passes_codeFault]
  constructor
  · intro h
    constructor
    · intro s hs
      obtain ⟨k, hk⟩ := List.mem_iff_getElem?.1 hs
      obtain ⟨c, hc⟩ := codeFault_none (h k s hk)
      exact (code_ok.1 hc).1
    · intro k s m hk hm
      obtain ⟨c, hc⟩ := codeFault_none (h k s hk)
      rcases ((code_take hk).1 hc).2 with ⟨hnone, -⟩ | ⟨m', w, hm', -, hw⟩
      · rw [hm] at hnone
        cases hnone
      · rw [hm] at hm'
        cases hm'
        exact ⟨w, hw⟩
  · rintro ⟨hvalid, hword⟩ k s hk
    have hs := hvalid s (List.mem_of_getElem? hk)
    suffices ∃ c, code t (ls.take k) s = .ok c by
      obtain ⟨c, hc⟩ := this
      simp [codeFault?, hc]
    cases hm : s.statement.mnemonic with
    | none => exact ⟨.blank, (code_take hk).2 ⟨hs, .inl ⟨hm, rfl⟩⟩⟩
    | some m =>
      obtain ⟨w, hw⟩ := hword k s m hk hm
      exact ⟨_, (code_take hk).2 ⟨hs, .inr ⟨m, w, hm, rfl, hw⟩⟩⟩

theorem records_snoc (h : Coded t ls codes) (s : SourceLine) (c : Listing.Code) :
    records (ls ++ [s]) (codes ++ [c]) = records ls codes ++ Listing.record c s.statement := by
  unfold records
  rw [List.zipWith_append h.1.symm, Text.join_append]
  rfl

theorem words_append (codes codes' : List Listing.Code) : words (codes ++ codes') = words codes ++ words codes' := by
  simp [words]

theorem machineCode_append (codes codes' : List Listing.Code) :
    machineCode (codes ++ codes') = machineCode codes ++ machineCode codes' := by
  rw [machineCode, words_append, List.map_append, Text.join_append]
  rfl

/-- There are as many words as instructions. -/
theorem length_words (h : Coded t ls codes) : (words codes).length = count ls := by
  induction ls using List.reverseRecOn generalizing codes with
  | nil =>
    obtain rfl : codes = [] := List.eq_nil_of_length_eq_zero h.1
    rfl
  | append_singleton ls s ih =>
    obtain ⟨codes, c, rfl, hcodes, hc⟩ := coded_of_snoc h
    rw [words_append, List.length_append, ih hcodes, count_snoc]
    rcases (code_ok.1 hc).2 with ⟨hm, rfl⟩ | ⟨m, w, hm, rfl, -⟩ <;> simp [words, SourceLine.isInstruction, hm]

end MipsAssembler.Reference
