import MipsAssembler.Proofs.Debug
import MipsAssembler.Proofs.Failure
/-!
# Running one assembler again

An assembler can run many times, each time on the files as they are then (`afterRuns`). A run starts over with its
table, its progress and its output, but never with its errors. So a run behind others is like the first run of a new
assembler, as long as there are no errors (`assemble_kept`); with an error, no run gets past its scan
(`runPasses_marked`).
-/

namespace MipsAssembler.Assembler

open Reference Directory

variable {a b c : Assembler} {source : List UInt8} {o : Output} {r : Result}

/-- The next run of an assembler, on the files as they are then. -/
def runOn (a : Assembler) (files : Directory) : Assembler × Except Fault Bool :=
  ({ a with files } : Assembler).assemble

/-- The assembler after a run on each of these. -/
def afterRuns (a : Assembler) (history : List Directory) : Assembler :=
  history.foldl (fun a files => (a.runOn files).1) a

theorem afterRuns_append (a : Assembler) (before later : List Directory) :
    a.afterRuns (before ++ later) = (a.afterRuns before).afterRuns later := by
  simp [afterRuns]

/-! ## Runs behind an error -/

/-- The run of `a` that ended in `b` went no further than its scan: it left what the scan of `a` leaves. -/
structure OnlyScanned (a b : Assembler) : Prop where
  answer : (a.started.runPass .scan).2 = .ok false
  errors : b.errors = (a.started.runPass .scan).1.errors
  symbols : b.symbols = (a.started.runPass .scan).1.symbols
  progress : b.progress = (a.started.runPass .scan).1.progress
  output : b.output = (a.started.runPass .scan).1.output.map Output.closeFiles

/-- A scan behind an error fails. It may list the line it stops at, but writes no machine code. -/
theorem scan_marked (hr : a.files.read a.sourceName = .ok source) (he : a.errors ≠ []) (ho : a.output = some o)
    (hopen : o.Open) :
    ∃ b r, a.runPass .scan = (b, .ok false) ∧ r.binary = "" ∧ b.silent = a.silent.leave o r := by
  obtain ⟨ls, b, f, -, hfin⟩ := runPass_scan hr
  cases f with
  | none =>
    obtain ⟨hb, hrun⟩ := hfin
    obtain ⟨hans, hsil⟩ := complete_scan hb
    have herrors : a.hasErrors = true := by simpa [hasErrors] using he
    rw [herrors] at hans
    refine ⟨(complete .scan b).1, ⟨false, [], table ls, progressAt .scanning ls, "", "", 0⟩, ?_, rfl, ?_⟩
    · exact hrun.trans (Prod.ext rfl hans)
    · rw [hsil, ho]
      simp [resume, leave, Output.append_nothing]
  | some f =>
    obtain ⟨hb, hrun⟩ := hfin
    rw [ScanStopped, ho, ← written_nil o] at hb
    obtain ⟨c, hc, hcs⟩ := fail_written hopen hb f
    exact ⟨c, _, hrun.trans hc, rfl, hcs⟩

/-- Behind an error both passes are the scan alone. -/
theorem runPasses_marked (hr : a.files.read a.sourceName = .ok source) (he : a.errors ≠ []) (ho : a.output = some o)
    (hopen : o.Open) :
    ∃ b r, a.runPasses = (b, .ok false) ∧ r.binary = "" ∧ b.silent = a.silent.leave o r ∧
      (a.runPass .scan).2 = .ok false ∧ b.silent = (a.runPass .scan).1.silent := by
  obtain ⟨b, r, hb, hbinary, hsil⟩ := scan_marked (a := a.print "\n--- Starting Pass 1 ---\n") hr he ho hopen
  obtain ⟨hans, hsame⟩ := runPass_silent (silent_print a "\n--- Starting Pass 1 ---\n") .scan
  rw [hb] at hans hsame
  refine ⟨b.print "Assembly failed in Pass 1.\n", r, ?_, hbinary, hsil, hans.symm, hsame⟩
  unfold runPasses
  rw [hb]

/-! ## The end of a run -/

/-- The assembler when it has said what it is about to do. -/
def announced (a : Assembler) : Assembler := a.print ("Starting assembly for: " ++ a.sourceName ++ "\n")

/-- A run stores and closes what its passes left. -/
theorem assemble_leave {answer : Except Fault Bool} (h : a.Ready source)
    (hrun : a.announced.started.runPasses = (b, answer))
    (hb : b.silent = a.started.silent.leave a.newOutput r) :
    ∃ o, b.output = some o ∧
      a.assemble = (({ b with files := a.stored r, output := some o.closeFiles } : Assembler).printSummary, answer) ∧
      o.closeFiles.listingText = r.listing ∧ o.closeFiles.binaryText = r.binary := by
  obtain ⟨o, ho, hclose, hl, hm, -⟩ := close_leave hb
  refine ⟨o, ho, ?_, hl, hm⟩
  have hwrite := writeOutput_started (h.print ("Starting assembly for: " ++ a.sourceName ++ "\n"))
  rw [announced] at hrun
  simp only [assemble, (h.print _).reads, hwrite, hrun]
  exact congrArg (fun c : Assembler => (c.printSummary, answer)) hclose

/-- A run behind an error fails, and is its scan alone. -/
theorem assemble_marked (h : a.Ready source) (he : a.errors ≠ []) :
    ∃ b listing, a.assemble = (b, .ok false) ∧ OnlyScanned a b ∧ Wrote a b listing "" := by
  obtain ⟨b, r, hrun, hbinary, hsil, hans, hscan⟩ :=
    runPasses_marked (a := a.announced.started) (read_opened (h.print _)) he rfl a.newOutput_open
  obtain ⟨hans', hscan'⟩ := runPass_silent (show a.announced.started.silent = a.started.silent from rfl) .scan
  rw [hans] at hans'
  obtain ⟨o, ho, hb, hl, hm⟩ := assemble_leave h hrun hsil
  obtain ⟨out, err, hsum⟩ := printSummary_eq { b with files := a.stored r, output := some o.closeFiles }
  rw [hsum] at hb
  refine ⟨_, r.listing, hb, ?_, ⟨⟨o.closeFiles, rfl, hl, hm.trans hbinary⟩, ?_⟩⟩
  · have hleft : b.silent = (a.started.runPass .scan).1.silent.resume _ _ _ := hscan.trans hscan'
    obtain ⟨ht, hp, hbo⟩ := eq_of_silent hleft
    refine ⟨hans'.symm, (frame_of_silent hleft).1, ht, hp, ?_⟩
    rw [← hbo, ho]
    rfl
  · intro hne
    have hfiles := read_stored h hne r
    rwa [hbinary] at hfiles

/-! ## What runs keep -/

/-- What a run does not start over with: its names, its errors and its complaints. -/
def kept (a : Assembler) : Assembler :=
  { a.silent with files := {}, symbols := {}, progress := {}, output := none }

/-- A run does not look at the table, the progress and the output it finds. -/
theorem assemble_resume (h : a.Ready source) (t : SymbolTable) (p : Progress) (o : Option Output) :
    (a.resume t p o).assemble = a.assemble := by
  have hresumed : (a.resume t p o).Ready source := ⟨h.reads, h.lists, h.writes⟩
  simp only [assemble, (h.print _).reads, (hresumed.print _).reads, writeOutput_started (h.print _),
    writeOutput_started (hresumed.print _)]
  rfl

/-- Runs on the same files differ in nothing but what they print, if they keep the same. -/
theorem assemble_kept (h : a.Ready source) (hk : b.kept = a.kept) (hf : b.files = a.files) :
    b.assemble.2 = a.assemble.2 ∧ b.assemble.1.silent = a.assemble.1.silent := by
  have hsil : b.silent = (a.resume b.symbols b.progress b.output).silent :=
    calc b.silent
        = { b.kept with files := b.files, symbols := b.symbols, progress := b.progress, output := b.output } := rfl
      _ = { a.kept with files := a.files, symbols := b.symbols, progress := b.progress, output := b.output } := by
          rw [hk, hf]
      _ = (a.resume b.symbols b.progress b.output).silent := rfl
  have hsame := assemble_silent hsil
  rwa [assemble_resume h] at hsame

/-- `b` is `a` some runs later. -/
structure Later (a b : Assembler) : Prop where
  sourceName : b.sourceName = a.sourceName
  listingName : b.listingName = a.listingName
  binaryName : b.binaryName = a.binaryName
  errors : a.errors <+: b.errors
  kept : b.errors = [] → b.kept = a.kept

namespace Later

theorem refl (a : Assembler) : Later a a := ⟨rfl, rfl, rfl, List.prefix_refl _, fun _ => rfl⟩

theorem trans (h : Later a b) (h' : Later b c) : Later a c where
  sourceName := h'.sourceName.trans h.sourceName
  listingName := h'.listingName.trans h.listingName
  binaryName := h'.binaryName.trans h.binaryName
  errors := h.errors.trans h'.errors
  kept hc := by
    have hb : b.errors = [] := List.prefix_nil.1 (hc ▸ h'.errors)
    rw [h'.kept hc, h.kept hb]

theorem ready {d : Directory} (h : Later a b) (hr : ({ a with files := d } : Assembler).Ready source) :
    ({ b with files := d } : Assembler).Ready source := by
  obtain ⟨hreads, hlists, hwrites⟩ := hr
  have hl : ({ b with files := d } : Assembler).listingFile? = ({ a with files := d } : Assembler).listingFile? := by
    simp only [listingFile?, h.listingName]
  refine ⟨?_, ?_, ?_⟩
  · simpa only [h.sourceName] using hreads
  · simpa only [hl] using hlists
  · simpa only [h.binaryName] using hwrites

end Later

theorem printSummary_unmarked (h : b.errors = []) : b.printSummary.silent = b.silent := by
  simp [printSummary, h, ErrorLog.details, complain, print, silent]

theorem later_of_leave {d : Directory} {o' : Option Output} (hb : b.silent = a.started.silent.leave o r) :
    Later a ({ b with files := d, output := o' } : Assembler).printSummary := by
  obtain ⟨out, err, hsum⟩ := printSummary_eq { b with files := d, output := o' }
  have herrors : b.errors = a.errors ++ r.errors := (eq_of_leave hb).1
  refine ⟨?_, ?_, ?_, ?_, ?_⟩
  · rw [hsum]; have := congrArg Assembler.sourceName hb; exact this
  · rw [hsum]; have := congrArg Assembler.listingName hb; exact this
  · rw [hsum]; have := congrArg Assembler.binaryName hb; exact this
  · rw [hsum]
    exact herrors ▸ List.prefix_append _ _
  · intro he
    have hnone : b.errors = [] := by rw [hsum] at he; exact he
    obtain ⟨ha, hr⟩ := List.append_eq_nil_iff.1 (herrors.symm.trans hnone)
    have hquiet := congrArg Assembler.kept (printSummary_unmarked (b := { b with files := d, output := o' }) hnone)
    calc (Assembler.printSummary _).kept
        = ({ b with files := d, output := o' } : Assembler).kept := hquiet
      _ = b.silent.kept := rfl
      _ = (a.started.silent.leave o r).kept := by rw [hb]
      _ = { a.kept with errors := a.errors ++ r.errors } := rfl
      _ = { a.kept with errors := a.errors } := by rw [hr, List.append_nil]
      _ = a.kept := rfl

/-- One run. -/
theorem later_assemble (h : a.Ready source) : Later a a.assemble.1 := by
  obtain ⟨b, r, answer, hrun, hsil⟩ : ∃ b r answer, a.announced.started.runPasses = (b, answer) ∧
      b.silent = a.started.silent.leave a.newOutput r := by
    have hread := read_opened (h.print ("Starting assembly for: " ++ a.sourceName ++ "\n"))
    by_cases he : a.errors = []
    · obtain ⟨b, r, hrun, -, hsil⟩ := runPasses_outcome (a := a.announced.started) hread he rfl a.newOutput_open
      exact ⟨b, r, _, hrun, hsil⟩
    · obtain ⟨b, r, hrun, -, hsil, -⟩ := runPasses_marked (a := a.announced.started) hread he rfl a.newOutput_open
      exact ⟨b, r, _, hrun, hsil⟩
  obtain ⟨o, -, hb, -⟩ := assemble_leave h hrun hsil
  rw [hb]
  exact later_of_leave hsil

/-- Any number of runs. -/
theorem later_afterRuns {history : List Directory}
    (h : ∀ d ∈ history, ∃ source, ({ a with files := d } : Assembler).Ready source) :
    Later a (a.afterRuns history) := by
  induction history using List.reverseRecOn with
  | nil => exact .refl a
  | append_singleton history d ih =>
    have hbefore := ih fun d' hd' => h d' (List.mem_append_left _ hd')
    obtain ⟨source, hready⟩ := h d (by simp)
    have hrun := later_assemble (hbefore.ready hready)
    rw [afterRuns_append]
    exact hbefore.trans ⟨hrun.sourceName, hrun.listingName, hrun.binaryName, hrun.errors, hrun.kept⟩

/-- One assembler may be used for many runs, whatever sources they read, each with a source that can be read and files
that open. As long as no run before has recorded an error, a run gives the answer of a new assembler on the files as
they are, and leaves all that a new one leaves. Behind a run that has recorded an error every run fails, goes no further
than its scan and writes no machine code. The errors of every run before come first among those of a run. -/
theorem runs_start_over_until_an_error (files : Directory) (sourceName : String) (listingName : Option String)
    (binaryName : String) (debug : Bool) (history : List Directory) (now : Directory)
    (hready : ∀ d ∈ history ++ [now], ∃ source, (new d sourceName listingName binaryName debug).Ready source) :
    let start := new files sourceName listingName binaryName debug
    let used := start.afterRuns history
    let fresh := (new now sourceName listingName binaryName debug).assemble
    ((∀ k, (start.afterRuns (history.take k)).errors = []) →
      (used.runOn now).2 = fresh.2 ∧ (used.runOn now).1.silent = fresh.1.silent) ∧
    ((∃ k, (start.afterRuns (history.take k)).errors ≠ []) → ∃ b listing, used.runOn now = (b, .ok false) ∧
      OnlyScanned { used with files := now } b ∧ Wrote { used with files := now } b listing "") ∧
    ∀ k, (start.afterRuns (history.take k)).errors <+: (used.runOn now).1.errors := by
  intro start used fresh
  have hbefore : ∀ {before}, before ⊆ history → Later start (start.afterRuns before) := fun hsub =>
    later_afterRuns fun d hd => hready d (List.mem_append_left _ (hsub hd))
  have hused : Later start used := hbefore (List.Subset.refl _)
  obtain ⟨source, hnow⟩ := hready now (by simp)
  have hlater : ∀ k, Later (start.afterRuns (history.take k)) used := by
    intro k
    have hk := hbefore (List.take_subset k history)
    have hrest := later_afterRuns (a := start.afterRuns (history.take k)) fun d (hd : d ∈ history.drop k) => by
      obtain ⟨source, hd⟩ := hready d (List.mem_append_left _ (List.mem_of_mem_drop hd))
      exact ⟨source, hk.ready hd⟩
    rwa [← afterRuns_append, List.take_append_drop] at hrest
  refine ⟨fun hnone => ?_, fun hsome => ?_, fun k => ?_⟩
  · have hu : used.errors = [] := by simpa using hnone history.length
    exact assemble_kept hnow (hused.kept hu) rfl
  · obtain ⟨k, hk⟩ := hsome
    have hu : used.errors ≠ [] := fun hu => hk (List.prefix_nil.1 (hu ▸ (hlater k).errors))
    exact assemble_marked (hused.ready hnow) hu
  · exact (hlater k).errors.trans (later_assemble (hused.ready hnow)).errors

/-- The source that was assembled first is refused behind one that fails. -/
theorem runs_start_over_until_an_error_of_strayJump :
    ((alone []).afterRuns [(alone loopSource).files, (alone strayJump).files]).errors ≠ [] ∧
      (((alone []).afterRuns [(alone loopSource).files]).runOn (alone strayJump).files).1.silent =
        (alone strayJump).assemble.1.silent ∧
      ∃ b listing, ((alone []).afterRuns [(alone loopSource).files, (alone strayJump).files]).runOn
          (alone loopSource).files = (b, .ok false) ∧
        Wrote { (alone []).afterRuns [(alone loopSource).files, (alone strayJump).files] with
          files := (alone loopSource).files } b listing "" := by
  have hloop : ((alone []).afterRuns [(alone loopSource).files]).errors = [] := by decide +kernel
  have hstray : ((alone []).afterRuns [(alone loopSource).files, (alone strayJump).files]).errors ≠ [] := by
    decide +kernel
  have hready : ∀ sources : List (List UInt8), ∀ d ∈ sources.map fun source => (alone source).files,
      ∃ source, (new d defaultSourceName (some defaultListingName) defaultBinaryName false).Ready source := by
    intro sources d hd
    obtain ⟨source, -, rfl⟩ := List.mem_map.1 hd
    exact ⟨source, alone_ready source⟩
  have hnone : ∀ k, ((alone []).afterRuns ([(alone loopSource).files].take k)).errors = [] := by
    intro k
    cases k with
    | zero => rfl
    | succ k => rw [List.take_succ_cons, List.take_nil]; exact hloop
  have hfirst := runs_start_over_until_an_error (alone []).files defaultSourceName (some defaultListingName)
    defaultBinaryName false [(alone loopSource).files] (alone strayJump).files (hready [loopSource, strayJump])
  have hthen := runs_start_over_until_an_error (alone []).files defaultSourceName (some defaultListingName)
    defaultBinaryName false [(alone loopSource).files, (alone strayJump).files] (alone loopSource).files
    (hready [loopSource, strayJump, loopSource])
  obtain ⟨b, listing, hb, -, hwrote⟩ := hthen.2.1 ⟨2, by rw [List.take_of_length_le (Nat.le_refl 2)]; exact hstray⟩
  exact ⟨hstray, (hfirst.1 hnone).2, b, listing, hb, hwrote⟩

end MipsAssembler.Assembler
