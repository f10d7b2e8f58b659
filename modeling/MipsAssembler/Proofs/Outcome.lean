import MipsAssembler.Proofs.Encode
import MipsAssembler.Proofs.Scan
import MipsAssembler.Assembler.Run
/-!
# How the two passes end

`Outcome` lists the three ways in which both passes over a source can end, and what each leaves behind: the source is
assembled, the scan stops at a line, or encoding does. `runPasses_outcome` says that they always end in one of them.
-/

namespace MipsAssembler

namespace Reference

open Assembler

/-- What both passes leave behind. -/
structure Result where
  answer : Bool
  errors : ErrorLog
  symbols : SymbolTable
  progress : Progress
  listing : String
  binary : String
  words : Nat

/-- A source that is assembled: all of its lines are written, and its symbols behind them. -/
def assembled (ls : List SourceLine) (codes : List Listing.Code) : Result where
  answer := true
  errors := []
  symbols := table ls
  progress := (progressAt .encoding ls).finish
  listing := records ls codes ++ Listing.symbolBlock (table ls)
  binary := machineCode codes
  words := (words codes).length

/-- A source that is refused behind lines with these codes, which are written. -/
def refused (t : SymbolTable) (p : Progress) (ls : List SourceLine) (codes : List Listing.Code) (f : LineFailure) :
    Result where
  answer := false
  errors := [f.record]
  symbols := t
  progress := p.finish
  listing := records ls codes ++ f.listing
  binary := machineCode codes
  words := (words codes).length

/-- The ways in which both passes can end. The scan writes no line, so a failure there stands alone. -/
inductive Outcome (source : List UInt8) : Result → Prop
  | assembled {ls : List SourceLine} {codes : List Listing.Code} :
      Reads source ls → Distinct ls → Coded (table ls) ls codes → Outcome source (assembled ls codes)
  | scanStopped {ls : List SourceLine} {f : LineFailure} {p : Progress} :
      Ends scanFault? (Utf8.lines source) ls (some f) → Outcome source (refused (scanned ls) p [] [] f)
  | encodeStopped {all ls : List SourceLine} {codes : List Listing.Code} {f : LineFailure} {p : Progress} :
      Reads source all → Distinct all → Ends (codeFault? (table all)) (Utf8.lines source) ls (some f) →
      Coded (table all) ls codes → Outcome source (refused (table all) p ls codes f)

end Reference

namespace Assembler

open Reference

variable {a b : Assembler} {o : Output} {ls : List SourceLine} {source : List UInt8}

/-- The assembler with what both passes leave behind, when they write to `o`. -/
def leave (a : Assembler) (o : Output) (r : Result) : Assembler :=
  { a with
    errors := a.errors ++ r.errors
    symbols := r.symbols
    progress := r.progress
    output := some (o.append r.listing r.binary r.words) }

/-- A pass that stops at a line records and lists its failure behind the lines that were written. -/
theorem fail_written {t : SymbolTable} {p : Progress} {codes : List Listing.Code} (hopen : o.Open)
    (hb : b.silent = a.silent.resume t p (some (written o ls codes))) (f : LineFailure) :
    ∃ c, b.fail f = (c, .ok false) ∧ c.silent = a.silent.leave o (refused t p ls codes f) := by
  obtain ⟨ht, hp, ho⟩ := eq_of_silent hb
  obtain ⟨c, hc, hcs⟩ := fail_open ho (Output.append_unclosed hopen.unclosed _ _ _) f
  refine ⟨c, hc, ?_⟩
  rw [hcs, hb, ht, hp, written, Output.append_append, String.append_empty]
  rfl

/-- A scan that reads its source to the end is followed by encoding, and that ends in one of two ways. -/
theorem runPass_encode_outcome (hr : a.files.read a.sourceName = .ok source) (he : a.errors = []) (hopen : o.Open)
    (hreads : Reads source ls) (hd : Distinct ls)
    (hb : b.silent = a.silent.resume (table ls) (progressAt .scanning ls) (some o)) :
    ∃ c r, b.runPass .encode = (c, .ok r.answer) ∧ Outcome source r ∧ c.silent = a.silent.leave o r := by
  obtain ⟨ht, hp, hbo⟩ := eq_of_silent hb
  obtain ⟨hbe, hbf, hbs, -⟩ := frame_of_silent hb
  obtain ⟨ls', c, f, hends, hfin⟩ := runPass_encode (by rw [hbf, hbs]; exact hr) (by rw [hp]; rfl) hbo hopen
  rw [ht] at hends
  cases f with
  | none =>
    obtain ⟨hc, hrun⟩ := hfin
    obtain ⟨codes, d, hcodes, hans, hds⟩ := complete_encode hopen hc
    cases hends with
    | complete hreads' _ =>
      -- Both passes read the same bytes, so encoding has read the lines that the table was made from.
      have hsame : ls' = ls := reads_unique hreads' hreads
      subst hsame
      rw [ht] at hcodes hds
      refine ⟨d, assembled ls' codes, by rw [hrun, hans, hasErrors, hbe, he]; rfl, .assembled hreads hd hcodes, ?_⟩
      rw [hds, hb, resume_resume, written, Output.append_append, String.append_empty]
      simp [resume, leave, assembled]
  | some f =>
    obtain ⟨⟨codes, p, hcodes, hc⟩, hrun⟩ := hfin
    rw [ht] at hcodes hc
    rw [hb, resume_resume] at hc
    obtain ⟨d, hd', hds⟩ := fail_written hopen hc f
    exact ⟨d, _, hrun.trans hd', .encodeStopped hreads hd hends hcodes, hds⟩

/-- Both passes over a readable source, with open streams and no error before, end in one of the three ways. -/
theorem runPasses_outcome (hr : a.files.read a.sourceName = .ok source) (he : a.errors = []) (ho : a.output = some o)
    (hopen : o.Open) :
    ∃ b r, a.runPasses = (b, .ok r.answer) ∧ Outcome source r ∧ b.silent = a.silent.leave o r := by
  obtain ⟨ls, b, f, hends, hfin⟩ := runPass_scan (a := a.print "\n--- Starting Pass 1 ---\n") hr
  unfold runPasses
  cases f with
  | some f =>
    obtain ⟨hb, hrun⟩ := hfin
    rw [ScanStopped, silent_print, show (a.print _).output = some o from ho, ← written_nil o] at hb
    obtain ⟨c, hc, hcs⟩ := fail_written hopen hb f
    refine ⟨c.print "Assembly failed in Pass 1.\n", _, ?_, .scanStopped hends, hcs⟩
    rw [hrun, hc]
    rfl
  | none =>
    obtain ⟨hb, hrun⟩ := hfin
    obtain ⟨hans, hsil⟩ := complete_scan hb
    rw [silent_print, show (a.print _).output = some o from ho] at hsil
    rw [hasErrors, show (a.print _).errors = [] from he] at hans
    generalize hc : complete .scan b = scan at hans hsil hrun
    obtain ⟨c, _⟩ := scan
    cases hans
    cases hends with
    | complete hreads hp =>
      have hsil' : (((c.print "--- Pass 1 Complete ---\n").note c.symbols.dump).print
          "\n--- Starting Pass 2 ---\n").silent = a.silent.resume (table ls) (progressAt .scanning ls) (some o) := by
        rw [silent_print, silent_note, silent_print, hsil]
      obtain ⟨d, r, hd, hout, hds⟩ := runPass_encode_outcome hr he hopen hreads ((passes_scanFault ls).1 hp) hsil'
      simp only [hrun, List.isEmpty_nil, Bool.not_true, Bool.not_false, hd]
      cases hra : r.answer with
      | false => exact ⟨d.print _, r, by rw [hra], hout, hds⟩
      | true => exact ⟨d.print _, r, by rw [hra], hout, hds⟩

end Assembler

end MipsAssembler
