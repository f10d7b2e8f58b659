import MipsAssembler.Proofs.Codes
/-!
# Encoding writes the codes of its lines

While encoding reads, its output is what it was at the start with the records and words of the lines behind it
(`Encoding`). It stops at the first line without a code (`runPass_encode`), and lists the symbols if there is none
(`complete_encode`).
-/

namespace MipsAssembler.Assembler

open Reference

variable {a b : Assembler} {o : Output} {t : SymbolTable} {ls : List SourceLine} {s : SourceLine}

/-! ## One line -/

/-- The assembler when it encodes an instruction. -/
theorem silent_advance_note (ht : a.symbols = t) (ho : a.output = some o) (trace : String) :
    (a.advance.note trace).silent = a.silent.resume t a.progress.advance (some o) := by
  rw [silent_note, silent_advance, ht, ho]

/-- A line with a code adds its record to the listing and its word, if it has one, to the machine code. -/
theorem encodeLine_ok {c : Listing.Code} (ht : a.symbols = t) (hlc : a.progress.locationCounter = address ls)
    (ho : a.output = some o) (hopen : o.Open) (h : code t ls s = .ok c) :
    ∃ b r, a.encodeLine (ls.length + 1) s = (b, .ok r) ∧
      b.silent = a.silent.resume t (if s.isInstruction then a.progress.advance else a.progress)
        (some (o.append (Listing.record c s.statement) (machineCode [c]) (words [c]).length)) := by
  unfold code at h
  unfold encodeLine
  cases hst : s.statement? with
  | none => rw [hst] at h; cases h
  | some st =>
    have hs : s.statement = st := by simp [SourceLine.statement, hst]
    rw [hst] at h
    dsimp only at h ⊢
    cases hm : st.mnemonic with
    | none =>
      rw [hm] at h
      cases h
      have hi : s.isInstruction = false := by simp [SourceLine.isInstruction, hs, hm]
      obtain ⟨b, hb, hbs⟩ := list_open ho hopen.unclosed (Listing.record .blank st)
      refine ⟨b, false, by simp only [hb], ?_⟩
      rw [hbs, ht, hi, hs]
      rfl
    | some m =>
      have hi : s.isInstruction = true := by simp [SourceLine.isInstruction, hs, hm]
      rw [hm] at h
      cases hw : Instruction.assemble t (address ls) (some (ls.length + 1)) m st.operands with
      | error e => simp only [hw] at h; cases h
      | ok w =>
        simp only [hw] at h
        cases h
        -- The counter moves on before the operands are looked at, so the record is written by the state behind it.
        have hadv := silent_advance_note ht ho
          (Instruction.assembleTrace a.symbols (address ls) (ls.length + 1) m st.operands)
        obtain ⟨hat, hap, hao⟩ := eq_of_silent hadv
        obtain ⟨b, d, hb, hd, hds⟩ := list_emit_open hao hopen (Listing.record (.encoded (address ls) w) st) w
        refine ⟨d, true, ?_, ?_⟩
        · simp only [hlc, hat, hw, hb, hd]
        · rw [hds, hadv, resume_resume, hat, hap, hi, hs]
          rfl

/-- A line without a code writes nothing. -/
theorem encodeLine_error {e : Fault} (ht : a.symbols = t) (hlc : a.progress.locationCounter = address ls)
    (ho : a.output = some o) (h : code t ls s = .error e) :
    ∃ b p, a.encodeLine (ls.length + 1) s = (b, .error e) ∧ b.silent = a.silent.resume t p (some o) := by
  unfold code at h
  unfold encodeLine
  cases hst : s.statement? with
  | none =>
    rw [hst] at h
    cases h
    exact ⟨a, a.progress, rfl, by rw [← ht, ← ho]; rfl⟩
  | some st =>
    rw [hst] at h
    dsimp only at h ⊢
    cases hm : st.mnemonic with
    | none => rw [hm] at h; cases h
    | some m =>
      rw [hm] at h
      cases hw : Instruction.assemble t (address ls) (some (ls.length + 1)) m st.operands with
      | ok w => simp only [hw] at h; cases h
      | error e' =>
        simp only [hw] at h
        cases h
        have hadv := silent_advance_note ht ho
          (Instruction.assembleTrace a.symbols (address ls) (ls.length + 1) m st.operands)
        refine ⟨_, _, ?_, hadv⟩
        simp only [hlc, (eq_of_silent hadv).1, hw]

/-! ## All lines -/

/-- What the output is when these lines were written. -/
def written (o : Output) (ls : List SourceLine) (codes : List Listing.Code) : Output :=
  o.append (records ls codes) (machineCode codes) (words codes).length

/-- Encoding from `a`, which writes to `o`, has read and written these lines. -/
def Encoding (a : Assembler) (o : Output) (ls : List SourceLine) (b : Assembler) : Prop :=
  ∃ codes, Coded a.symbols ls codes ∧
    b.silent = a.silent.resume a.symbols (progressAt .encoding ls) (some (written o ls codes))

/-- Encoding from `a`, which writes to `o`, has failed on the line behind these. -/
def EncodeStopped (a : Assembler) (o : Output) (ls : List SourceLine) (b : Assembler) : Prop :=
  ∃ codes p, Coded a.symbols ls codes ∧ b.silent = a.silent.resume a.symbols p (some (written o ls codes))

theorem written_nil (o : Output) : written o [] [] = o := Output.append_nothing o

theorem written_snoc {codes : List Listing.Code} {c : Listing.Code} (o : Output) (h : Coded t ls codes)
    (s : SourceLine) :
    (written o ls codes).append (Listing.record c s.statement) (machineCode [c]) (words [c]).length =
      written o (ls ++ [s]) (codes ++ [c]) := by
  rw [written, Output.append_append, ← records_snoc h, ← machineCode_append, ← List.length_append, ← words_append]
  rfl

theorem encoding_atLine {codes : List Listing.Code}
    (hb : b.silent = a.silent.resume a.symbols (progressAt .encoding ls) (some (written o ls codes))) (line : Int) :
    (b.atLine line).silent = a.silent.resume a.symbols { progressAt .encoding ls with line := line }
      (some (written o ls codes)) := by
  obtain ⟨ht, hp, ho⟩ := eq_of_silent hb
  rw [silent_atLine, hb, resume_resume, ht, hp, ho]

theorem encoding_keep {raw : List UInt8} (hopen : o.Open) (hb : Encoding a o ls b)
    (hr : SourceLine.ofBytes raw = .ok s) (h : codeFault? a.symbols ls s = none) :
    ∃ c, readLine .encode b (ls.length + 1) raw = (c, none) ∧ Encoding a o (ls ++ [s]) c := by
  obtain ⟨codes, hcodes, hb⟩ := hb
  obtain ⟨c, hc⟩ := codeFault_none h
  have hat := (silent_note (b.atLine (ls.length + 1)) (s.trace .encode (ls.length + 1))).trans (encoding_atLine hb _)
  obtain ⟨ht, hp, ho⟩ := eq_of_silent hat
  obtain ⟨d, r, hd, hds⟩ := encodeLine_ok ht (by rw [hp]; rfl) ho (Output.append_open hopen _ _ _) hc
  refine ⟨d, by rw [readLine_text b _ hr]; simp only [processLine, hd], codes ++ [c], coded_snoc hcodes hc, ?_⟩
  rw [hds, hat, resume_resume, hp, progressAt_snoc, written_snoc o hcodes]

theorem encoding_stop {raw : List UInt8} {f : LineFailure} (hb : Encoding a o ls b)
    (h : failure? (codeFault? a.symbols) ls raw = some f) :
    ∃ c, readLine .encode b (ls.length + 1) raw = (c, some f) ∧ EncodeStopped a o ls c := by
  obtain ⟨codes, hcodes, hb⟩ := hb
  unfold failure? at h
  cases hr : SourceLine.ofBytes raw with
  | error e =>
    rw [hr] at h
    cases h
    exact ⟨_, readLine_undecodable b _ hr, codes, _, hcodes, encoding_atLine hb _⟩
  | ok s =>
    rw [hr] at h
    obtain ⟨e, he, rfl⟩ := Option.map_eq_some_iff.1 h
    have hat := (silent_note (b.atLine (ls.length + 1)) (s.trace .encode (ls.length + 1))).trans (encoding_atLine hb _)
    obtain ⟨ht, hp, ho⟩ := eq_of_silent hat
    obtain ⟨d, p, hd, hds⟩ := encodeLine_error ht (by rw [hp]; rfl) ho (codeFault_some he)
    refine ⟨d, by rw [readLine_text b _ hr]; simp only [processLine, hd], codes, p, hcodes, ?_⟩
    rw [hds, hat, resume_resume]

/-- Where the encoding of a source ends, and with which output. -/
theorem encode_ends (hopen : o.Open) (hb : Encoding a o [] b) (raws : List (List UInt8)) :
    ∃ ls c f, readLines .encode b 1 raws = (c, f) ∧ Ends (codeFault? a.symbols) raws ls f ∧
      if f.isSome then EncodeStopped a o ls c else Encoding a o ls c :=
  readLines_ends (fun _ _ _ _ hi _ hr hs => encoding_keep hopen hi hr hs)
    (fun _ _ _ _ hi _ hf => encoding_stop hi hf) b hb raws

/-! ## The whole pass -/

/-- Encoding a readable source behind its scan ends where its check says. -/
theorem runPass_encode {source : List UInt8} (hr : a.files.read a.sourceName = .ok source)
    (hstage : a.progress.stage = .scanning) (ho : a.output = some o) (hopen : o.Open) :
    ∃ ls b f, Ends (codeFault? a.symbols) (Utf8.lines source) ls f ∧
      match f with
      | none => Encoding a o ls b ∧ a.runPass .encode = complete .encode b
      | some f => EncodeStopped a o ls b ∧ a.runPass .encode = b.fail f := by
  have hstart : Encoding a o [] { a with progress := { stage := .encoding } } := by
    refine ⟨[], coded_nil _, ?_⟩
    rw [written_nil, ← ho]
    rfl
  obtain ⟨ls, b, f, hread, hends, hfin⟩ := encode_ends hopen hstart (Utf8.lines source)
  refine ⟨ls, b, f, hends, ?_⟩
  cases f with
  | none =>
    refine ⟨hfin, ?_⟩
    unfold runPass readSource
    simp only [Progress.enter, hstage, if_true, hr, hread]
  | some f =>
    refine ⟨hfin, ?_⟩
    unfold runPass readSource
    simp only [Progress.enter, hstage, if_true, hr, hread]

/-- Encoding that reads its source to the end lists the symbols and is done. -/
theorem complete_encode (hopen : o.Open) (hb : Encoding a o ls b) :
    ∃ codes c, Coded a.symbols ls codes ∧ complete .encode b = (c, .ok !a.hasErrors) ∧
      c.silent = a.silent.resume a.symbols (progressAt .encoding ls).finish
        (some ((written o ls codes).append (Listing.symbolBlock a.symbols) "" 0)) := by
  obtain ⟨codes, hcodes, hb⟩ := hb
  obtain ⟨ht, hp, ho⟩ := eq_of_silent hb
  obtain ⟨c, hc, hcs⟩ := list_open ho (Output.append_unclosed hopen.unclosed _ _ _) (Listing.symbolBlock b.symbols)
  obtain ⟨hct, hcp, hco⟩ := eq_of_silent hcs
  refine ⟨codes, c.finish, hcodes, ?_, ?_⟩
  · have herr : c.errors = a.errors := (frame_of_silent hcs).1.trans (frame_of_silent hb).1
    simp only [complete, ho, hc, finish, hasErrors, herr]
  · rw [silent_finish, hcs, hct, hcp, hco, resume_resume, hb, resume_resume, ht, hp]

end MipsAssembler.Assembler
