import MipsAssembler.Proofs.Run
import MipsAssembler.Proofs.Utf8
/-!
# What a run assembles

A run over three separate files succeeds exactly if its source can be assembled at once, each instruction at four times
the number of instructions before it and each label at the address of its line (`assemble_correct`). The files then
hold what assembling at once gives.
-/

namespace MipsAssembler

namespace Reference

variable {source : List UInt8} {r : Result}

/-- The passes succeed if every line is text, no label is defined twice and every line has a code. -/
theorem Outcome.answer_iff (h : Outcome source r) :
    r.answer = true ↔ ∃ ls, Reads source ls ∧ Distinct ls ∧ ∃ codes, Coded (table ls) ls codes := by
  cases h with
  | assembled hreads hd hcodes => exact ⟨fun _ => ⟨_, hreads, hd, _, hcodes⟩, fun _ => rfl⟩
  | scanStopped hends =>
    refine ⟨nofun, ?_⟩
    rintro ⟨ls, hreads, hd, -⟩
    exact absurd ((passes_scanFault ls).2 hd) (hends.not_complete hreads)
  | encodeStopped hall _ hends _ =>
    refine ⟨nofun, ?_⟩
    rintro ⟨ls, hreads, -, hcodes⟩
    obtain rfl := reads_unique hall hreads
    exact absurd ((passes_codeFault _ _).2 hcodes) (hends.not_complete hall)

theorem Outcome.assembled_of_answer (h : Outcome source r) (ha : r.answer = true) :
    ∃ ls codes, Reads source ls ∧ Distinct ls ∧ Coded (table ls) ls codes ∧ r = Reference.assembled ls codes := by
  cases h with
  | assembled hreads hd hcodes => exact ⟨_, _, hreads, hd, hcodes, rfl⟩
  | scanStopped => cases ha
  | encodeStopped => cases ha

end Reference

namespace Assembler

open Reference

variable {a : Assembler} {listing : String} {source : List UInt8}

theorem Separate.sourceRead (h : a.Separate listing) (source : List UInt8) : a.sourceRead source = source := by
  unfold Assembler.sourceRead
  rw [if_neg]
  rw [h.listed]
  rintro (hb | hl)
  · exact h.source_binary hb
  · exact h.source_listing (Option.some.inj hl)

theorem Separate.files {b : Assembler} {l m : String} (h : a.Separate listing) (hb : Wrote a b l m) :
    b.files.read listing = .ok (Utf8.bytes l) ∧ b.files.read a.binaryName = .ok (Utf8.bytes m) := by
  obtain ⟨hl, hm⟩ := hb.files fun name hn => by
    rw [h.listed] at hn
    cases hn
    exact h.listing_binary
  exact ⟨hl listing h.listed, hm⟩

/-- A run of an assembler without errors, such as a new one, over three separate files. It succeeds if and only if every
line is text and a statement, no label is defined twice, and every instruction can be assembled at four times the number
of instructions before it, labels standing for the addresses of their lines. Then the machine code has a line for each
instruction with that word, and the listing has a record for each line, followed by the symbols in the order of their
names. -/
theorem assemble_correct (he : a.errors = []) (h : a.Ready source) (hs : a.Separate listing) :
    ∃ b answer, a.assemble = (b, .ok answer) ∧
      (answer = true ↔ ∃ ls, Reads source ls ∧ (∀ s ∈ ls, s.statement?.isSome = true) ∧ Distinct ls ∧
        ∀ k s m, ls[k]? = some s → s.statement.mnemonic = some m → ∃ w : Nat,
          Instruction.assemble (table ls) (4 * count (ls.take k)) (some (k + 1)) m s.statement.operands = .ok w) ∧
      (answer = true → ∃ ls codes, ∃ block : List Symbol, Reads source ls ∧ Coded (table ls) ls codes ∧
        block.Pairwise (fun x y => x.name < y.name) ∧ (∀ x, x ∈ block ↔ ∃ k, Defines ls k x) ∧
        b.files.read a.binaryName = .ok (Utf8.bytes (machineCode codes)) ∧
        b.files.read listing = .ok (Utf8.bytes
          (records ls codes ++ "\n\nSymbols:\n" ++ Text.join "" (block.map Listing.symbolLine))) ∧
        b.output.map (·.wordsWritten) = some (count ls) ∧ b.progress.instructionCount = count ls ∧
        b.progress.stage = .done ∧ b.errors = []) := by
  obtain ⟨b, r, hb, hout, hleaves⟩ := assemble_outcome h he
  rw [hs.sourceRead] at hout
  refine ⟨b, r.answer, hb, ?_, ?_⟩
  · rw [hout.answer_iff]
    simp only [coded_iff]
    constructor
    · rintro ⟨ls, hreads, hd, hvalid, hwords⟩
      exact ⟨ls, hreads, hvalid, hd, hwords⟩
    · rintro ⟨ls, hreads, hvalid, hd, hwords⟩
      exact ⟨ls, hreads, hd, hvalid, hwords⟩
  · intro ha
    obtain ⟨ls, codes, hreads, hd, hcodes, rfl⟩ := hout.assembled_of_answer ha
    obtain ⟨hl, hm⟩ := hs.files hleaves.wrote
    refine ⟨ls, codes, (table ls).sorted, hreads, hcodes, SymbolTable.sorted_ascending (symbols_nodup hd),
      fun x => SymbolTable.mem_sorted.trans mem_symbols, hm, ?_, ?_, ?_, ?_, hleaves.errors⟩
    · rw [hl, String.append_assoc]
      rfl
    · rw [hleaves.words, ← length_words hcodes]
      rfl
    · rw [hleaves.progress]
      rfl
    · rw [hleaves.progress]
      rfl

theorem assemble_correct_of_loop : ∃ b ls codes, (alone loopSource).assemble = (b, .ok true) ∧ Reads loopSource ls ∧
    Coded (table ls) ls codes ∧ machineCode codes = "0x11000001\n0x08000000\n0x00000000\n" ∧
    b.files.read defaultBinaryName = .ok (Utf8.bytes (machineCode codes)) ∧ count ls = 3 := by
  obtain ⟨b, answer, hb, -, hsuccess⟩ := assemble_correct rfl (alone_ready loopSource) (alone_separate loopSource)
  obtain ⟨b', hb'⟩ := loopSource_assembles
  rw [hb'] at hb
  cases hb
  obtain ⟨ls, codes, -, hreads, hcodes, -, -, hm, -, -, hcount, -⟩ := hsuccess rfl
  have hwords : (alone loopSource).assemble.1.files.read defaultBinaryName =
      .ok (Utf8.bytes "0x11000001\n0x08000000\n0x00000000\n") := by
    decide +kernel
  have hthree : (alone loopSource).assemble.1.progress.instructionCount = 3 := by decide +kernel
  rw [hb'] at hwords hthree
  exact ⟨b, ls, codes, hb', hreads, hcodes, Utf8.bytes_inj.1 (Except.ok.inj (hm.symm.trans hwords)), hm,
    hcount.symm.trans hthree⟩

end Assembler

end MipsAssembler
