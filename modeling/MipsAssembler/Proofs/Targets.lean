import Mathlib.Data.Nat.Find
import MipsAssembler.Proofs.Instruction
import MipsAssembler.Proofs.Success
/-!
# Branches and jumps lead to their labels

The word of a branch or a jump to a label is read as the processor reads it: a branch adds its low sixteen bits, with
their sign and counted in instructions, to the address of the next instruction, and a jump goes to its low twenty-six
bits, counted in instructions. `targets_reach_labels` says that both arrive at the first instruction on or below the
line of the label.
-/

namespace MipsAssembler

namespace Reference

variable {t : SymbolTable} {ls : List SourceLine} {codes : List Listing.Code} {s : SourceLine} {x : Symbol} {k i : Nat}

/-! ## The instruction that a label names -/

/-- Line `i` holds the first instruction on line `k` or below. -/
structure FirstInstruction (ls : List SourceLine) (k i : Nat) : Prop where
  le : k ≤ i
  isInstruction : ∃ s, ls[i]? = some s ∧ s.isInstruction = true
  between : ∀ j s, k ≤ j → j < i → ls[j]? = some s → s.isInstruction = false

theorem exists_firstInstruction (h : ∃ i s, k ≤ i ∧ ls[i]? = some s ∧ s.isInstruction = true) :
    ∃ i, FirstInstruction ls k i := by
  classical
  obtain ⟨s, hk, hs, hi⟩ := Nat.find_spec h
  refine ⟨Nat.find h, hk, ⟨s, hs, hi⟩, fun j s' hj hlt hs' => ?_⟩
  by_contra hne
  exact Nat.find_min h hlt ⟨s', hj, hs', by simpa using hne⟩

/-- The lines between a label and its instruction do not move the address. -/
theorem FirstInstruction.address_eq (h : FirstInstruction ls k i) : address (ls.take i) = address (ls.take k) := by
  -- Going down from line `k`, no line is counted before the instruction is reached.
  suffices ∀ n, k + n ≤ i → count (ls.take (k + n)) = count (ls.take k) by
    have hle := h.le
    have := this (i - k) (by omega)
    rw [show k + (i - k) = i by omega] at this
    rw [address, address, this]
  intro n
  induction n with
  | zero => intro _; rfl
  | succ n ih =>
    intro hn
    rw [← ih (by omega), ← Nat.add_assoc, List.take_add_one]
    cases hs : ls[k + n]? with
    | none => simp
    | some s => simp [count_snoc, h.between (k + n) s (by omega) (by omega) hs]

/-- The address of the symbol stands in the listing at the first instruction on or below its line. -/
def Lands (ls : List SourceLine) (codes : List Listing.Code) (x : Symbol) : Prop :=
  ∃ k i w, Defines ls k x ∧ FirstInstruction ls k i ∧ codes[i]? = some (.encoded x.address w)

theorem lands (hc : Coded t ls codes) (h : Defines ls k x) : Lands ls codes x := by
  obtain ⟨i, hi⟩ := exists_firstInstruction h.2.1
  obtain ⟨s, hs, hinst⟩ := hi.isInstruction
  have hlt : i < codes.length := hc.1 ▸ (List.getElem?_eq_some_iff.1 hs).1
  have hcode := hc.2 i s codes[i] hs (List.getElem?_eq_getElem hlt)
  rcases ((code_take hs).1 hcode).2 with ⟨hm, -⟩ | ⟨m, w, -, hw, -⟩
  · simp [SourceLine.isInstruction, hm] at hinst
  · refine ⟨k, i, w, h, hi, ?_⟩
    rw [List.getElem?_eq_getElem hlt, hw, hi.address_eq, h.2.2.1]

/-! ## Reading a word -/

/-- The word of a line, and the instruction it is the word of. -/
theorem encoded_line {a w : Int} (hc : Coded t ls codes) (hs : ls[k]? = some s) (h : codes[k]? = some (.encoded a w)) :
    a = address (ls.take k) ∧ ∃ m, ∃ n : Nat, s.statement.mnemonic = some m ∧ w = n ∧
      Instruction.assemble t a (some (k + 1)) m s.statement.operands = .ok n := by
  have hcode := hc.2 k s _ hs h
  rcases ((code_take hs).1 hcode).2 with ⟨-, hblank⟩ | ⟨m, n, hm, he, hn⟩
  · cases hblank
  · cases he
    exact ⟨rfl, m, n, hm, rfl, hn⟩

theorem branch_lands {a w : Int} {rs rt name : String} (hd : Distinct ls) (hc : Coded (table ls) ls codes)
    (hs : ls[k]? = some s) (h : codes[k]? = some (.encoded a w)) (hm : s.statement.mnemonic = some "beq")
    (ho : s.statement.operands = [rs, rt, name]) (href : Operand.isLabelReference name = true) :
    ∃ x, (table ls).lookup name = some x ∧ a + 4 + 4 * (BitVec.ofInt 16 w).toInt = x.address ∧ Lands ls codes x := by
  obtain ⟨ha, m, n, hm', rfl, hw⟩ := encoded_line hc hs h
  rw [hm] at hm'
  cases hm'
  rw [ho] at hw
  obtain ⟨x, hx, hdist⟩ := Instruction.assemble_branch href hw
  obtain ⟨-, j, hj⟩ := (lookup_table hd).1 hx
  refine ⟨x, hx, ?_, lands hc hj⟩
  have hax := hj.2.2.1
  rw [hdist]
  simp only [address] at ha hax
  omega

theorem jump_lands {a w : Int} {name : String} (hd : Distinct ls) (hc : Coded (table ls) ls codes)
    (hs : ls[k]? = some s) (h : codes[k]? = some (.encoded a w)) (hm : s.statement.mnemonic = some "j")
    (ho : s.statement.operands = [name]) (href : Operand.isLabelReference name = true) :
    ∃ x, (table ls).lookup name = some x ∧ 4 * (BitVec.ofInt 26 w).toNat = x.address ∧ Lands ls codes x := by
  obtain ⟨ha, m, n, hm', rfl, hw⟩ := encoded_line hc hs h
  rw [hm] at hm'
  cases hm'
  rw [ho] at hw
  obtain ⟨x, hx, hlow⟩ := Instruction.assemble_jump href hw
  obtain ⟨-, j, hj⟩ := (lookup_table hd).1 hx
  refine ⟨x, hx, ?_, lands hc hj⟩
  have hax := hj.2.2.1
  simp only [address] at hax
  omega

end Reference

namespace Assembler

open Reference

variable {a b : Assembler} {source : List UInt8}

/-- In a source that was assembled, every branch and every jump to a label leads to the address of its symbol, where the
first instruction on or below the label stands. -/
theorem targets_reach_labels (he : a.errors = []) (h : a.Ready source) (hb : a.assemble = (b, .ok true)) :
    ∃ (ls : List SourceLine) (codes : List Listing.Code), Reads (a.sourceRead source) ls ∧ Coded b.symbols ls codes ∧
      Wrote a b (records ls codes ++ Listing.symbolBlock b.symbols) (machineCode codes) ∧
      ∀ (k : Nat) (s : SourceLine) (pc w : Int), ls[k]? = some s → codes[k]? = some (.encoded pc w) →
        (∀ rs rt name, s.statement.mnemonic = some "beq" → s.statement.operands = [rs, rt, name] →
          Operand.isLabelReference name = true →
          ∃ x, b.symbols.lookup name = some x ∧ pc + 4 + 4 * (BitVec.ofInt 16 w).toInt = x.address ∧
            Lands ls codes x) ∧
        ∀ name, s.statement.mnemonic = some "j" → s.statement.operands = [name] →
          Operand.isLabelReference name = true →
          ∃ x, b.symbols.lookup name = some x ∧ 4 * (BitVec.ofInt 26 w).toNat = x.address ∧ Lands ls codes x := by
  obtain ⟨r, ha, hout, hleaves⟩ := assemble_outcome_of h he hb
  obtain ⟨ls, codes, hreads, hd, hcodes, rfl⟩ := hout.assembled_of_answer ha
  have ht : b.symbols = table ls := hleaves.symbols
  refine ⟨ls, codes, hreads, by rw [ht]; exact hcodes, by rw [ht]; exact hleaves.wrote, ?_⟩
  intro k s pc w hs hcode
  rw [ht]
  exact ⟨fun rs rt name hm ho href => branch_lands hd hcodes hs hcode hm ho href,
    fun name hm ho href => jump_lands hd hcodes hs hcode hm ho href⟩

theorem targets_reach_labels_of_loop : ∃ b ls codes, (alone loopSource).assemble = (b, .ok true) ∧
    Reads ((alone loopSource).sourceRead loopSource) ls ∧ Coded b.symbols ls codes ∧
      ∀ (k : Nat) (s : SourceLine) (pc w : Int), ls[k]? = some s → codes[k]? = some (.encoded pc w) →
        s.statement.mnemonic = some "j" → s.statement.operands = ["loop"] →
          ∃ x, b.symbols.lookup "loop" = some x ∧ 4 * (BitVec.ofInt 26 w).toNat = x.address ∧ Lands ls codes x := by
  obtain ⟨b, hb⟩ := loopSource_assembles
  obtain ⟨ls, codes, hreads, hcodes, -, hall⟩ := targets_reach_labels rfl (alone_ready loopSource) hb
  refine ⟨b, ls, codes, hb, hreads, hcodes, fun k s pc w hs hc hm ho => ?_⟩
  exact (hall k s pc w hs hc).2 "loop" hm ho (by decide +kernel)

end Assembler

end MipsAssembler
