import MipsAssembler.Proofs.Instruction
import MipsAssembler.Proofs.Success
/-!
# What a failed run keeps

A run that fails stops at one line, in one of four ways (`Stops`), and keeps exactly what the lines before it gave. The
line's own record follows, with the message where the code would stand (`Listing.MessageRecord`), unless the line is no
text or holds a decimal literal that is too long.
-/

namespace MipsAssembler

namespace Listing

/-- A record of the statement with the message in its first column, and the other columns as in a record without a
code. A message that is wider than the column moves them to the right. -/
def MessageRecord (message : String) (st : Statement) (text : String) : Prop :=
  ∃ columns, record .blank st = Text.spaces 22 ++ columns ∧
    text = message ++ Text.spaces (22 - message.length) ++ columns

theorem record_failed (message : String) (st : Statement) :
    MessageRecord message st (record (.failed message) st) := by
  obtain ⟨columns, hrecord⟩ : ∃ columns, ∀ code, record code st = Text.padRight 22 code.text ++ columns :=
    ⟨_, fun code => by simp only [record, String.append_assoc]; rfl⟩
  refine ⟨columns, ?_, hrecord _⟩
  rw [hrecord, Code.text, Text.padRight, String.empty_append]
  rfl

end Listing

namespace Reference

variable {source : List UInt8} {t : SymbolTable} {ls : List SourceLine} {s : SourceLine}

/-- A line without a code is refused, or holds a decimal literal that is too long. -/
theorem code_error {e : Fault} (h : code t ls s = .error e) :
    (∃ cause, e = .refused cause (some (ls.length + 1))) ∨
      ∃ operands, Operand.resolve t (some (ls.length + 1)) s.statement.operands = .ok operands ∧
        LongLiteral (operands.map some) e := by
  rcases code_failed.1 h with ⟨-, rfl⟩ | ⟨m, -, hw⟩
  · exact .inl ⟨_, rfl⟩
  · exact Instruction.assemble_error hw

/-- The error of line `k`, refused for this cause. -/
def refusal (cause : Cause) (k : Nat) : ErrorRecord := (cause.diagnostic (some (k + 1))).record

/-- The error of line `k`, for a fault that no line is refused for. -/
def unexpected (fault : Fault) (k : Nat) : ErrorRecord :=
  ⟨"Unexpected error processing line " ++ Text.decimal (k + 1) ++ ": " ++ fault.message, some (k + 1), "F"⟩

/-- A run over the source stops at line `k`, the first that fails, with this error, listing and machine code. The scan
stops at lines that are no text and at labels that were defined before. Encoding, when the scan did not stop, does so
at lines that cannot be encoded. -/
inductive Stops (source : List UInt8) (k : Nat) : ErrorRecord → String → String → Prop
  | undecodable {fault : Utf8.Fault} :
      (∀ i < k, ¬ Offends source i) → line? source k = some (.error fault) →
      Stops source k (refusal (.undecodable (k + 1) fault) k) "" ""
  | duplicate {s : SourceLine} {name record : String} {j : Nat} :
      (∀ i < k, ¬ Offends source i) → line? source k = some (.ok s) → s.statement.label = some name → j < k →
      DefinesAt source j name →
      Listing.MessageRecord (refusal (.duplicateSymbol name (some (k + 1)) (j + 1)) k).message s.statement record →
      Stops source k (refusal (.duplicateSymbol name (some (k + 1)) (j + 1)) k) record ""
  | refused {ls : List SourceLine} {codes : List Listing.Code} {s : SourceLine} {cause : Cause} {record : String} :
      Reads source ls → Distinct ls → Coded (table ls) (ls.take k) codes → ls[k]? = some s →
      code (table ls) (ls.take k) s = .error (.refused cause (some (k + 1))) →
      Listing.MessageRecord (refusal cause k).message s.statement record →
      Stops source k (refusal cause k) (records (ls.take k) codes ++ record) (machineCode codes)
  | literalTooLong {ls : List SourceLine} {codes : List Listing.Code} {s : SourceLine} {fault : Fault}
      {operands : List String} :
      Reads source ls → Distinct ls → Coded (table ls) (ls.take k) codes → ls[k]? = some s →
      code (table ls) (ls.take k) s = .error fault →
      Operand.resolve (table ls) (some (k + 1)) s.statement.operands = .ok operands →
      LongLiteral (operands.map some) fault →
      Stops source k (unexpected fault k) (records (ls.take k) codes) (machineCode codes)

theorem Stops.line {k : Nat} {e : ErrorRecord} {listing binary : String} (h : Stops source k e listing binary) :
    e.line = some ((k : Int) + 1) := by
  cases h <;> rfl

/-- Passes that fail stop at a line. -/
theorem Outcome.stops {r : Result} (h : Outcome source r) (ha : r.answer = false) :
    r.progress.stage = .done ∧ ∃ k e, r.errors = [e] ∧ Stops source k e r.listing r.binary := by
  cases h with
  | assembled => cases ha
  | @scanStopped ls f p hends =>
    refine ⟨rfl, ls.length, f.record, rfl, ?_⟩
    have hlisting : (Reference.refused (scanned ls) p [] [] f).listing = f.listing := String.empty_append
    rw [hlisting]
    obtain ⟨hbefore, hstop⟩ := Assembler.scan_stopped hends
    rcases hstop with ⟨fault, hline, rfl⟩ | ⟨s, name, j, hline, hl, hj, hdj, -, rfl⟩
    · exact .undecodable hbefore hline
    · exact .duplicate hbefore hline hl hj hdj (Listing.record_failed _ _)
  | @encodeStopped all ls codes f p hreads hd hends hcodes =>
    -- The scan has read every line as text, so encoding can only stop at a line without a code.
    obtain ⟨k, s, e, rfl, hs, he, rfl⟩ := hends.stopped_at hreads
    have hlen : (all.take k).length = k := List.length_take_of_le (Nat.le_of_lt (List.getElem?_eq_some_iff.1 hs).1)
    have hcode := codeFault_some he
    refine ⟨rfl, k, _, rfl, ?_⟩
    rcases code_error hcode with ⟨cause, rfl⟩ | ⟨operands, hres, hlong⟩
    · rw [hlen] at hcode ⊢
      exact .refused hreads hd hcodes hs hcode (Listing.record_failed _ _)
    · rw [hlen] at hres
      obtain ⟨token, n, htoken, hn, rfl⟩ := hlong
      have hlisting : (Reference.refused (table all) p (all.take k) codes
          ⟨k + 1, .literalTooLong n, some s⟩).listing = records (all.take k) codes := String.append_empty
      rw [hlisting]
      exact .literalTooLong hreads hd hcodes hs hcode hres ⟨token, n, htoken, hn, rfl⟩

/-- Nothing fails in an empty source. -/
theorem Outcome.empty {r : Result} (h : Outcome [] r) : r.answer = true :=
  h.answer_iff.2 ⟨[], rfl, fun _ _ _ hi => by simp [labelAt?] at hi, [], coded_nil _⟩

end Reference

namespace Assembler

open Reference

variable {a b : Assembler} {source : List UInt8}

/-- A source that is one of the output files is empty, so a run that fails read its source as it was. -/
theorem sourceRead_of_fails {r : Result} (h : Outcome (a.sourceRead source) r) (ha : r.answer = false) :
    a.sourceRead source = source := by
  unfold sourceRead at h ⊢
  split at h
  · rw [h.empty] at ha
    cases ha
  · rename_i hne
    exact if_neg hne

/-- A run that fails records one error, that of the first line that fails in its pass, and is done. It keeps exactly
the output of the lines before. -/
theorem failed_run_keeps_output (he : a.errors = []) (h : a.Ready source) (hb : a.assemble = (b, .ok false)) :
    ∃ k : Nat, ∃ e listing binary, b.errors = [e] ∧ e.line = some ((k : Int) + 1) ∧ b.progress.stage = .done ∧
      Wrote a b listing binary ∧ Stops source k e listing binary := by
  obtain ⟨r, ha, hout, hleaves⟩ := assemble_outcome_of h he hb
  rw [sourceRead_of_fails hout ha] at hout
  obtain ⟨hdone, k, e, herr, hstops⟩ := hout.stops ha
  exact ⟨k, e, _, _, hleaves.errors.trans herr, hstops.line, by rw [hleaves.progress, hdone], hleaves.wrote, hstops⟩

/-- A source whose third line jumps to a label that no instruction follows. -/
def strayJump : List UInt8 := Utf8.bytes "main: addi $t0, $zero, 1\n      nop # wait\n      j end\nend:\n"

/-- The records of the first two lines, and the third behind its message. -/
def strayJumpListing : String :=
  "0x00000000  0x20080001       main:  addi  $t0, $zero, 1    \n" ++
  "0x00000004  0x00000000              nop                   # wait\n" ++
  "Symbol \"end\" is not defined              j    end              \n"

theorem failed_run_keeps_output_of_strayJump : ∃ b, (alone strayJump).assemble = (b, .ok false) ∧
    b.errors = [⟨"Symbol \"end\" is not defined", some 3, "U"⟩] ∧
    Wrote (alone strayJump) b strayJumpListing "0x20080001\n0x00000000\n" ∧
    Stops strayJump 2 ⟨"Symbol \"end\" is not defined", some 3, "U"⟩ strayJumpListing "0x20080001\n0x00000000\n" := by
  obtain ⟨b, hb⟩ := exists_of_answer (show (alone strayJump).assemble.2 = .ok false by decide +kernel)
  obtain ⟨k, e, listing, binary, herr, hline, -, hwrote, hstops⟩ :=
    failed_run_keeps_output rfl (alone_ready strayJump) hb
  have hfound : (alone strayJump).assemble.1.errors = [⟨"Symbol \"end\" is not defined", some 3, "U"⟩] := by
    decide +kernel
  have htexts : (alone strayJump).assemble.1.output.map (fun o => (o.listingText, o.binaryText)) =
      some (strayJumpListing, "0x20080001\n0x00000000\n") := by
    decide +kernel
  rw [hb] at hfound htexts
  obtain ⟨o, ho, hlisting, hbinary⟩ := hwrote.streams
  rw [ho] at htexts
  obtain ⟨hl, hm⟩ := Prod.mk.inj (Option.some.inj htexts)
  rw [← hlisting, ← hbinary, hl, hm] at hwrote hstops
  rw [hfound] at herr
  cases herr
  obtain rfl : k = 2 := by
    have hk := Option.some.inj hline
    omega
  exact ⟨b, hb, hfound, hwrote, hstops⟩

end Assembler

end MipsAssembler
