import MipsAssembler.Proofs.Labels
import MipsAssembler.Proofs.Reading
/-!
# The scan finds the labels

The scan fails where its check does, at a line that is no text or at a label that was defined before (`scanFault?`).
While it reads, its table is the one of the lines behind it (`Scanning`). `scan_maps_labels` sums both up for a whole
source.
-/

namespace MipsAssembler

namespace Reference

variable {ls : List SourceLine} {s : SourceLine} {k : Nat} {name : String}

/-- The first line that defines a name. -/
def firstLine? (ls : List SourceLine) (name : String) : Option Nat :=
  (List.range ls.length).find? (labelAt? ls · = some name)

theorem firstLine_some : firstLine? ls name = some k ↔
    labelAt? ls k = some name ∧ ∀ i < k, labelAt? ls i ≠ some name := by
  simp only [firstLine?, List.find?_range_eq_some, decide_eq_true_eq, List.mem_range, Bool.not_eq_true',
    decide_eq_false_iff_not]
  constructor
  · rintro ⟨hk, -, hi⟩
    exact ⟨hk, hi⟩
  · rintro ⟨hk, hi⟩
    exact ⟨hk, labelAt_lt hk, hi⟩

theorem firstLine_none : firstLine? ls name = none ↔ ∀ k, labelAt? ls k ≠ some name := by
  simp only [firstLine?, List.find?_eq_none, List.mem_range, decide_eq_true_eq]
  constructor
  · intro h k hk
    exact h k (labelAt_lt hk) hk
  · intro h k _
    exact h k

/-- The scan refuses a line whose label is defined before. -/
def scanFault? (ls : List SourceLine) (s : SourceLine) : Option Fault :=
  s.statement.label.bind fun name => (firstLine? ls name).map fun (k : Nat) =>
    .refused (.duplicateSymbol name (some (ls.length + 1)) (k + 1)) (some (ls.length + 1))

theorem scanFault_none : scanFault? ls s = none ↔
    ∀ name, s.statement.label = some name → ∀ k, labelAt? ls k ≠ some name := by
  unfold scanFault?
  cases s.statement.label with
  | none => simp
  | some name =>
    rw [Option.bind_some, Option.map_eq_none_iff, firstLine_none]
    simp

theorem passes_scanFault (ls : List SourceLine) : Assembler.Passes scanFault? ls ↔ Distinct ls := by
  induction ls using List.reverseRecOn with
  | nil => simp [Assembler.Passes, Distinct, labelAt?]
  | append_singleton ls s ih => rw [Assembler.passes_snoc, distinct_snoc, ih, scanFault_none]

end Reference

namespace Assembler

open Reference

/-! ## One line -/

variable {a b : Assembler} {ls : List SourceLine} {s : SourceLine}

/-- A label that was not seen before is staged. -/
theorem define_scanned (ht : a.symbols = scanned ls) (h : scanFault? ls s = none) :
    ∃ b, a.define s.statement.label (ls.length + 1) = .ok b ∧
      b.silent = a.silent.resume (staged ls s) a.progress a.output := by
  cases hl : s.statement.label with
  | none =>
    refine ⟨a, rfl, ?_⟩
    rw [staged_unlabelled hl, ← ht]
    rfl
  | some name =>
    have hstage := stage_scanned hl (scanFault_none.1 h name hl)
    refine ⟨_, by simp only [define, ht, hstage]; rfl, ?_⟩
    rw [silent_note]
    rfl

/-- A label that was seen before is refused. -/
theorem define_scanned_twice {e : Fault} (ht : a.symbols = scanned ls) (hd : Distinct ls)
    (h : scanFault? ls s = some e) : a.define s.statement.label (ls.length + 1) = .error e := by
  unfold scanFault? at h
  obtain ⟨name, hl, h⟩ := Option.bind_eq_some_iff.1 h
  obtain ⟨k, hk, rfl⟩ := Option.map_eq_some_iff.1 h
  have hstage := stage_scanned_twice hd (firstLine_some.1 hk).1 (some ((ls.length : Int) + 1))
  simp only [define, hl, ht, hstage]
  rfl

theorem commit_scanned (ht : a.symbols = staged ls s) (hd : Distinct (ls ++ [s])) (h : s.isInstruction = true) :
    ∃ b, a.commit (address ls) = .ok b ∧ b.silent = a.silent.resume (scanned (ls ++ [s])) a.progress a.output := by
  refine ⟨_, by simp only [commit, ht, commit_staged hd h]; rfl, ?_⟩
  rw [silent_note]
  rfl

/-- A line that the scan accepts adds its label, and commits what waits if it holds an instruction. -/
theorem scanLine_ok (ht : a.symbols = scanned ls) (hlc : a.progress.locationCounter = address ls) (hd : Distinct ls)
    (h : scanFault? ls s = none) :
    ∃ b r, a.scanLine (ls.length + 1) s = (b, .ok r) ∧
      b.silent = a.silent.resume (scanned (ls ++ [s]))
        (if s.isInstruction then a.progress.advance else a.progress) a.output := by
  have hd' : Distinct (ls ++ [s]) := distinct_snoc.2 ⟨hd, scanFault_none.1 h⟩
  unfold scanLine
  cases hst : s.statement? with
  | none =>
    have hs : s.statement = {} := by simp [SourceLine.statement, hst]
    have hi : s.isInstruction = false := by simp [SourceLine.isInstruction, hs]
    refine ⟨_, _, rfl, ?_⟩
    rw [silent_note, ← staged_other hi, staged_unlabelled (by simp [hs]), ← ht, hi]
    rfl
  | some st =>
    have hs : s.statement = st := by simp [SourceLine.statement, hst]
    obtain ⟨b, hb, hsil⟩ := define_scanned ht h
    rw [hs] at hb
    obtain ⟨hbt, hp, ho⟩ := eq_of_silent hsil
    simp only [hb]
    cases hm : st.mnemonic with
    | none =>
      have hi : s.isInstruction = false := by simp [SourceLine.isInstruction, hs, hm]
      refine ⟨b, false, rfl, ?_⟩
      rw [hsil, staged_other hi, hi]
      rfl
    | some m =>
      have hi : s.isInstruction = true := by simp [SourceLine.isInstruction, hs, hm]
      have hadv := silent_advance b
      obtain ⟨hat, hap, hao⟩ := eq_of_silent hadv
      obtain ⟨c, hc, hcs⟩ := commit_scanned (hat.trans hbt) hd' hi
      refine ⟨c, true, ?_, ?_⟩
      · simp only [hp, hlc, hc]
      · rw [hcs, hadv, hsil, resume_resume, resume_resume, hap, hao, hp, ho, hi, if_pos rfl]

/-- A line that the scan refuses changes nothing. -/
theorem scanLine_error {e : Fault} (ht : a.symbols = scanned ls) (hd : Distinct ls) (h : scanFault? ls s = some e) :
    a.scanLine (ls.length + 1) s = (a, .error e) := by
  unfold scanLine
  cases hst : s.statement? with
  | none =>
    have hs : s.statement = {} := by simp [SourceLine.statement, hst]
    simp [scanFault?, hs] at h
  | some st =>
    have hs : s.statement = st := by simp [SourceLine.statement, hst]
    have hdef := define_scanned_twice ht hd h
    rw [hs] at hdef
    simp only [hdef]

/-! ## All lines -/

/-- The scan of `a` has read these lines. -/
def Scanning (a : Assembler) (ls : List SourceLine) (b : Assembler) : Prop :=
  b.silent = a.silent.resume (scanned ls) (progressAt .scanning ls) a.output

/-- The scan of `a` has failed on the line behind these. -/
def ScanStopped (a : Assembler) (ls : List SourceLine) (b : Assembler) : Prop :=
  b.silent = a.silent.resume (scanned ls) { progressAt .scanning ls with line := ls.length + 1 } a.output

theorem scanning_atLine {a b : Assembler} (hb : Scanning a ls b) : ScanStopped a ls (b.atLine (ls.length + 1)) := by
  obtain ⟨ht, hp, ho⟩ := eq_of_silent hb
  rw [ScanStopped, silent_atLine, hb, resume_resume, ht, hp, ho]

theorem scanning_keep {a b : Assembler} {raw : List UInt8} (hb : Scanning a ls b) (hd : Distinct ls)
    (hr : SourceLine.ofBytes raw = .ok s) (h : scanFault? ls s = none) :
    ∃ c, readLine .scan b (ls.length + 1) raw = (c, none) ∧ Scanning a (ls ++ [s]) c := by
  have hat : ScanStopped a ls ((b.atLine (ls.length + 1)).note (s.trace .scan (ls.length + 1))) :=
    (silent_note _ _).trans (scanning_atLine hb)
  obtain ⟨ht, hp, ho⟩ := eq_of_silent hat
  obtain ⟨c, r, hc, hcs⟩ := scanLine_ok ht (by rw [hp]; rfl) hd h
  refine ⟨c, by rw [readLine_text b _ hr]; simp only [processLine, hc], ?_⟩
  rw [Scanning, hcs, hp, progressAt_snoc, ho, hat, resume_resume]

theorem scanning_stop {a b : Assembler} {raw : List UInt8} {f : LineFailure} (hb : Scanning a ls b) (hd : Distinct ls)
    (h : failure? scanFault? ls raw = some f) :
    ∃ c, readLine .scan b (ls.length + 1) raw = (c, some f) ∧ ScanStopped a ls c := by
  unfold failure? at h
  cases hr : SourceLine.ofBytes raw with
  | error e =>
    rw [hr] at h
    cases h
    exact ⟨_, readLine_undecodable b _ hr, scanning_atLine hb⟩
  | ok s =>
    rw [hr] at h
    obtain ⟨e, he, rfl⟩ := Option.map_eq_some_iff.1 h
    have hat : ScanStopped a ls ((b.atLine (ls.length + 1)).note (s.trace .scan (ls.length + 1))) :=
      (silent_note _ _).trans (scanning_atLine hb)
    have hline := scanLine_error (eq_of_silent hat).1 hd he
    exact ⟨_, by rw [readLine_text b _ hr]; simp only [processLine, hline], hat⟩

/-- Where the scan of a source ends, and with which table. -/
theorem scan_ends (a b : Assembler) (hb : Scanning a [] b) (raws : List (List UInt8)) :
    ∃ ls c f, readLines .scan b 1 raws = (c, f) ∧ Ends scanFault? raws ls f ∧
      if f.isSome then ScanStopped a ls c else Scanning a ls c :=
  readLines_ends (fun _ _ _ _ hi hp hr hs => scanning_keep hi ((passes_scanFault _).1 hp) hr hs)
    (fun _ _ _ _ hi hp hf => scanning_stop hi ((passes_scanFault _).1 hp) hf) b hb raws

/-! ## The whole pass -/

/-- The scan of a readable source starts with an empty table, and ends where its check says. -/
theorem runPass_scan {a : Assembler} {source : List UInt8} (hr : a.files.read a.sourceName = .ok source) :
    ∃ ls b f, Ends scanFault? (Utf8.lines source) ls f ∧
      match f with
      | none => Scanning a ls b ∧ a.runPass .scan = complete .scan b
      | some f => ScanStopped a ls b ∧ a.runPass .scan = b.fail f := by
  have hstart : Scanning a [] { a with progress := { stage := .scanning }, symbols := {} } := rfl
  obtain ⟨ls, b, f, hread, hends, hfin⟩ := scan_ends a _ hstart (Utf8.lines source)
  refine ⟨ls, b, f, hends, ?_⟩
  cases f with
  | none =>
    refine ⟨hfin, ?_⟩
    unfold runPass readSource
    simp only [Progress.enter, hr, hread]
  | some f =>
    refine ⟨hfin, ?_⟩
    unfold runPass readSource
    simp only [Progress.enter, hr, hread]

theorem silent_freeze (a : Assembler) : a.freeze.silent = a.silent.resume a.symbols.freeze a.progress a.output := by
  unfold freeze
  rw [silent_note]
  rfl

/-- A scan that reads its source to the end freezes the table of its labels. -/
theorem complete_scan {a b : Assembler} (hb : Scanning a ls b) :
    (complete .scan b).2 = .ok !a.hasErrors ∧
      (complete .scan b).1.silent = a.silent.resume (table ls) (progressAt .scanning ls) a.output := by
  obtain ⟨ht, hp, ho⟩ := eq_of_silent hb
  have hsil : (complete .scan b).1.silent = a.silent.resume (table ls) (progressAt .scanning ls) a.output := by
    unfold complete
    rw [silent_note, silent_freeze, hb, resume_resume, ht, hp, ho, freeze_scanned]
  refine ⟨?_, hsil⟩
  have herr : (complete .scan b).1.errors = a.errors := (frame_of_silent hsil).1
  show Except.ok (!(complete .scan b).1.hasErrors) = _
  unfold hasErrors
  rw [herr]

end Assembler

namespace Reference

/-! ## Labels by line of the source -/

/-- Line `k` of a source, missing behind its end; a fault if its bytes are no text. -/
def line? (source : List UInt8) (k : Nat) : Option (Except Utf8.Fault SourceLine) :=
  (Utf8.lines source)[k]?.map SourceLine.ofBytes

/-- Line `k` of a source is a statement with this label. -/
def DefinesAt (source : List UInt8) (k : Nat) (name : String) : Prop :=
  ∃ s, line? source k = some (.ok s) ∧ s.statement.label = some name

/-- Line `k` of a source is no text, or it defines a label that a line before it defines. -/
def Offends (source : List UInt8) (k : Nat) : Prop :=
  (∃ fault, line? source k = some (.error fault)) ∨
    ∃ name j, DefinesAt source k name ∧ j < k ∧ DefinesAt source j name

/-- Reading the lines in front of line `k` of a source gives these lines. -/
theorem line_before {source : List UInt8} {before rest : List (List UInt8)} {raw : List UInt8} {ls : List SourceLine}
    (hs : Utf8.lines source = before ++ raw :: rest) (hb : before.map SourceLine.ofBytes = ls.map .ok) :
    line? source ls.length = some (SourceLine.ofBytes raw) ∧ ∀ i < ls.length, line? source i = ls[i]?.map .ok := by
  have hlen : before.length = ls.length := by simpa using congrArg List.length hb
  constructor
  · rw [line?, hs, ← hlen, List.getElem?_append_right (Nat.le_refl _)]
    simp
  · intro i hi
    rw [line?, hs, List.getElem?_append_left (by omega), ← List.getElem?_map, hb, List.getElem?_map]

theorem definesAt_before {source : List UInt8} {ls : List SourceLine} {i : Nat} {name : String}
    (h : line? source i = ls[i]?.map .ok) : DefinesAt source i name ↔ labelAt? ls i = some name := by
  unfold DefinesAt labelAt?
  rw [h]
  cases ls[i]? <;> simp

theorem not_offends_before {source : List UInt8} {ls : List SourceLine}
    (h : ∀ i < ls.length, line? source i = ls[i]?.map .ok) (hd : Distinct ls) :
    ∀ i < ls.length, ¬ Offends source i := by
  rintro i hi (⟨fault, hf⟩ | ⟨name, j, hk, hj, hdj⟩)
  · rw [h i hi, List.getElem?_eq_getElem hi] at hf
    simp at hf
  · have := hd i j name ((definesAt_before (h i hi)).1 hk) ((definesAt_before (h j (by omega))).1 hdj)
    omega

end Reference

namespace Assembler

open Reference

/-- How a scan stops: at the first line that offends, with what is wrong there. -/
theorem scan_stopped {source : List UInt8} {ls : List SourceLine} {f : LineFailure}
    (h : Ends scanFault? (Utf8.lines source) ls (some f)) :
    (∀ i < ls.length, ¬ Offends source i) ∧
      ((∃ fault, line? source ls.length = some (.error fault) ∧
          f = ⟨ls.length + 1, .refused (.undecodable (ls.length + 1) fault) (some (ls.length + 1)), none⟩) ∨
        ∃ s name j, line? source ls.length = some (.ok s) ∧ s.statement.label = some name ∧ j < ls.length ∧
          DefinesAt source j name ∧ (∀ i < j, ¬ DefinesAt source i name) ∧
          f = ⟨ls.length + 1,
            .refused (.duplicateSymbol name (some (ls.length + 1)) (j + 1)) (some (ls.length + 1)), some s⟩) := by
  cases h with
  | stopped hs hb hp hf =>
    obtain ⟨hline, hbefore⟩ := line_before hs hb
    have hd := (passes_scanFault ls).1 hp
    refine ⟨not_offends_before hbefore hd, ?_⟩
    unfold failure? at hf
    split at hf
    · rename_i fault hr
      cases hf
      exact .inl ⟨fault, by rw [hline, hr], rfl⟩
    · rename_i s hr
      obtain ⟨e, he, rfl⟩ := Option.map_eq_some_iff.1 hf
      obtain ⟨name, hl, he⟩ := Option.bind_eq_some_iff.1 he
      obtain ⟨j, hj, rfl⟩ := Option.map_eq_some_iff.1 he
      obtain ⟨hjn, hfirst⟩ := firstLine_some.1 hj
      have hlt := labelAt_lt hjn
      refine .inr ⟨s, name, j, by rw [hline, hr], hl, hlt, (definesAt_before (hbefore j hlt)).2 hjn, ?_, rfl⟩
      intro i hi hdi
      exact hfirst i hi ((definesAt_before (hbefore i (by omega))).1 hdi)

/-- The scan of an assembler without errors maps every label to the address of the next instruction. It succeeds if
and only if every line is text and no label is defined twice; then the table is frozen, nothing waits in it, and it
holds a name with an address and a line exactly if that line defines the name and an instruction stands there or
below, the address being four times the number of instructions before the line. Otherwise the error of the first line
that offends is recorded, and for a label defined twice its message names that line and the first one. -/
theorem scan_maps_labels {a : Assembler} {source : List UInt8} (hr : a.files.read a.sourceName = .ok source)
    (he : a.errors = []) :
    let r := a.runPassNumbered (some 1)
    (r.2 = .ok true ↔ ∃ ls, Reads source ls ∧ Distinct ls) ∧
    (r.2 = .ok true → r.1.symbols.frozen = true ∧ r.1.symbols.staged = [] ∧
      ∃ ls, Reads source ls ∧
        ∀ name x, r.1.symbols.lookup name = some x ↔ x.name = name ∧ ∃ k, Defines ls k x) ∧
    (r.2 ≠ .ok true → ∃ k, (∀ i < k, ¬ Offends source i) ∧
      ((∃ fault, line? source k = some (.error fault) ∧
          r.1.errors = [⟨"Cannot decode line " ++ Text.decimal (k + 1) ++ " as utf-8: " ++ fault.message,
            some (k + 1), "F"⟩]) ∨
        ∃ name j, DefinesAt source k name ∧ j < k ∧ DefinesAt source j name ∧ (∀ i < j, ¬ DefinesAt source i name) ∧
          r.1.errors = [⟨"Symbol \"" ++ name ++ "\" on line " ++ Text.decimal (k + 1) ++ " is already defined on line "
            ++ Text.decimal (j + 1), some (k + 1), "L"⟩])) := by
  intro r
  have hrun : r = a.runPass .scan := rfl
  obtain ⟨ls, b, f, hends, hfin⟩ := runPass_scan hr
  cases f with
  | none =>
    obtain ⟨hb, hc⟩ := hfin
    obtain ⟨hans, hsil⟩ := complete_scan hb
    have hok : r.2 = .ok true := by rw [hrun, hc, hans, hasErrors, he]; rfl
    have ht : r.1.symbols = table ls := by rw [hrun, hc]; exact (eq_of_silent hsil).1
    cases hends with
    | complete hreads hp =>
      have hd := (passes_scanFault ls).1 hp
      refine ⟨⟨fun _ => ⟨ls, hreads, hd⟩, fun _ => hok⟩, fun _ => ⟨by rw [ht]; rfl, by rw [ht]; rfl, ls, hreads, ?_⟩,
        fun hn => absurd hok hn⟩
      intro name x
      rw [ht, lookup_table hd]
  | some f =>
    obtain ⟨hb, hf⟩ := hfin
    have hne : r.2 ≠ .ok true := by rw [hrun, hf]; exact fail_answer b f
    have herr : r.1.errors = [f.record] := by
      rw [hrun, hf, fail_errors, (frame_of_silent hb).1, he, List.nil_append]
    obtain ⟨hbefore, hstop⟩ := scan_stopped hends
    refine ⟨⟨fun h => absurd h hne, ?_⟩, fun h => absurd h hne, fun _ => ⟨ls.length, hbefore, ?_⟩⟩
    · rintro ⟨ls', hreads, hd⟩
      exact absurd ((passes_scanFault ls').2 hd) (hends.not_complete hreads)
    · rcases hstop with ⟨fault, hline, rfl⟩ | ⟨s, name, j, hline, hl, hj, hdj, hfirst, rfl⟩
      · exact .inl ⟨fault, hline, herr⟩
      · exact .inr ⟨name, j, ⟨s, hline, hl⟩, hj, hdj, hfirst, herr⟩

theorem scan_maps_labels_of_loop :
    ((alone loopSource).runPassNumbered (some 1)).2 = .ok true ∧ ∃ ls, Reads loopSource ls ∧
      ∀ name x, ((alone loopSource).runPassNumbered (some 1)).1.symbols.lookup name = some x ↔
        x.name = name ∧ ∃ k, Defines ls k x := by
  have hok : ((alone loopSource).runPassNumbered (some 1)).2 = .ok true := by decide +kernel
  exact ⟨hok, ((scan_maps_labels (alone_reads loopSource) rfl).2.1 hok).2.2⟩

end Assembler

end MipsAssembler
