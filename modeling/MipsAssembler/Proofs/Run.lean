import MipsAssembler.Proofs.Directory
import MipsAssembler.Proofs.Outcome
/-!
# What a run leaves in its files

A run is `Ready` when its source can be read and its files open. `assemble_outcome` says what such a run leaves: what
both passes leave, with the texts of both streams in the files. The passes read the source after the files were
opened, so a source that is also an output file is empty for them (`sourceRead`).
-/

namespace MipsAssembler

namespace Output

theorem closeFiles_texts (o : Output) :
    o.closeFiles.listingText = o.listingText ∧ o.closeFiles.binaryText = o.binaryText ∧
      o.closeFiles.wordsWritten = o.wordsWritten := by
  refine ⟨?_, ?_, rfl⟩
  · cases hl : o.listing with
    | none => simp [closeFiles, listingText, hl]
    | some s => by_cases hm : s.medium = .console <;> simp [closeFiles, listingText, hl, hm, Stream.close]
  · cases hb : o.binary <;> simp [closeFiles, binaryText, hb, Stream.close]

end Output

namespace Assembler

open Reference Directory

variable {a b : Assembler} {source : List UInt8} {r : Result}

/-- The file of the listing; missing when the listing goes to the console. -/
def listingFile? (a : Assembler) : Option String := a.listingName.filter (· ≠ "")

/-- The source can be read, and both files open. -/
structure Ready (a : Assembler) (source : List UInt8) : Prop where
  reads : a.files.read a.sourceName = .ok source
  lists : ∀ name, a.listingFile? = some name → ∃ opened, a.files.create name = .ok opened
  writes : ∃ opened, a.files.create a.binaryName = .ok opened

theorem Ready.print (h : a.Ready source) (t : String) : (a.print t).Ready source := ⟨h.reads, h.lists, h.writes⟩

/-- Source, listing and machine code are three files. -/
structure Separate (a : Assembler) (listing : String) : Prop where
  listed : a.listingFile? = some listing
  source_listing : pathOf a.sourceName ≠ pathOf listing
  source_binary : pathOf a.sourceName ≠ pathOf a.binaryName
  listing_binary : pathOf listing ≠ pathOf a.binaryName

/-- The source when the files are open: empty if it is one of them. -/
def sourceRead (a : Assembler) (source : List UInt8) : List UInt8 :=
  if pathOf a.sourceName = pathOf a.binaryName ∨ some (pathOf a.sourceName) = a.listingFile?.map pathOf then []
  else source

/-- A run of `a` that ended in `b` wrote these texts. The files hold them unless both texts went to one file. -/
structure Wrote (a b : Assembler) (listing binary : String) : Prop where
  streams : ∃ o, b.output = some o ∧ o.listingText = listing ∧ o.binaryText = binary
  files : (∀ name, a.listingFile? = some name → pathOf name ≠ pathOf a.binaryName) →
    (∀ name, a.listingFile? = some name → b.files.read name = .ok (Utf8.bytes listing)) ∧
      b.files.read a.binaryName = .ok (Utf8.bytes binary)

/-- A run of `a` ended in `b` and left what its passes left. -/
structure Leaves (a : Assembler) (r : Result) (b : Assembler) : Prop where
  errors : b.errors = r.errors
  symbols : b.symbols = r.symbols
  progress : b.progress = r.progress
  words : b.output.map (·.wordsWritten) = some r.words
  wrote : Wrote a b r.listing r.binary

/-! ## Opening the files -/

/-- The files when the listing was opened. -/
def listingOpened (a : Assembler) : Directory :=
  match a.listingFile? with
  | none => a.files
  | some name => a.files.put (pathOf name) []

/-- The files when both were opened. -/
def opened (a : Assembler) : Directory := a.listingOpened.put (pathOf a.binaryName) []

theorem openListing_console (h : a.listingFile? = none) : a.openListing = .ok (a, { medium := .console }, none) := by
  unfold openListing
  cases hl : a.listingName with
  | none => rfl
  | some name =>
    have hn : name = "" := by simpa [listingFile?, hl] using h
    simp only [hn, if_true]

theorem openListing_file {name : String} (h : a.listingFile? = some name) :
    a.openListing =
      (a.files.create name).map fun (files, path) => ({ a with files }, { medium := .file }, some path) := by
  obtain ⟨hl, hn⟩ := Option.filter_eq_some_iff.1 h
  have hn' : ¬ name = "" := by simpa using hn
  simp only [openListing, hl, hn', if_false]

/-- Where the listing goes. -/
def listingMedium (a : Assembler) : Medium := if a.listingFile?.isSome then .file else .console

theorem openListing_ready (h : a.Ready source) :
    a.openListing =
      .ok ({ a with files := a.listingOpened }, { medium := a.listingMedium }, a.listingFile?.map pathOf) := by
  unfold listingOpened listingMedium
  cases hl : a.listingFile? with
  | none => exact openListing_console hl
  | some name =>
    obtain ⟨⟨d, path⟩, hc⟩ := h.lists name hl
    obtain ⟨-, -, rfl, rfl, -⟩ := create_ok hc
    rw [openListing_file hl, hc]
    rfl

theorem create_listingOpened {name : String} {d : Directory} {path : Path} (h : a.files.create name = .ok (d, path)) :
    a.listingOpened.create name = .ok (a.listingOpened.put (pathOf name) [], pathOf name) := by
  obtain ⟨-, -, hp, hd, -⟩ := create_ok h
  unfold listingOpened
  split
  · rw [h, hd, hp]
  · rw [create_put _ _ h, hp]

theorem read_opened (h : a.Ready source) : a.opened.read a.sourceName = .ok (a.sourceRead source) := by
  unfold opened listingOpened sourceRead
  cases hl : a.listingFile? with
  | none =>
    rw [read_put _ _ h.reads]
    simp
  | some name =>
    rw [read_put _ _ (read_put _ _ h.reads)]
    by_cases hb : pathOf a.sourceName = pathOf a.binaryName <;> simp [hb]

/-- The output of a run before anything is written. -/
def newOutput (a : Assembler) : Output :=
  { listing := some { medium := a.listingMedium }, binary := some { medium := .file } }

theorem newOutput_open (a : Assembler) : a.newOutput.Open := ⟨⟨_, rfl, rfl⟩, ⟨_, rfl, rfl⟩⟩

/-- The assembler when its files are open. -/
def started (a : Assembler) : Assembler := { a with files := a.opened, output := some a.newOutput }

/-- With both files open the passes run, and what they wrote is stored. -/
theorem writeOutput_started (h : a.Ready source) :
    a.writeOutput =
      ((a.started.runPasses.1.flushOutput.storeOutput (a.listingFile?.map pathOf) (pathOf a.binaryName)).closeOutput,
        a.started.runPasses.2) := by
  obtain ⟨⟨d, path⟩, hb⟩ := h.writes
  simp only [writeOutput, openListing_ready h, create_listingOpened hb]
  rfl

/-! ## Storing what was written -/

/-- The files when both texts were put into them. -/
def stored (a : Assembler) (r : Result) : Directory :=
  (((a.listingFile?.map pathOf).map fun path => a.opened.overwrite path (Utf8.bytes r.listing)).getD a.opened).overwrite
    (pathOf a.binaryName) (Utf8.bytes r.binary)

theorem stored_console (h : a.listingFile? = none) (r : Result) :
    a.stored r = a.opened.put (pathOf a.binaryName) (Utf8.bytes r.binary) := by
  rw [stored, h]
  exact overwrite_empty _ _ _ (find_put_same _ _ _)

theorem stored_file {name : String} (h : a.listingFile? = some name) (hne : pathOf name ≠ pathOf a.binaryName)
    (r : Result) :
    a.stored r =
      (a.opened.put (pathOf name) (Utf8.bytes r.listing)).put (pathOf a.binaryName) (Utf8.bytes r.binary) := by
  have hl : a.opened.find? (pathOf name) = some [] := by
    rw [opened, find_put_other _ _ hne, listingOpened, h]
    exact find_put_same _ _ _
  rw [stored, h, Option.map_some, Option.map_some, Option.getD_some, overwrite_empty _ _ _ hl]
  refine overwrite_empty _ _ _ ?_
  rw [find_put_other _ _ hne.symm]
  exact find_put_same _ _ _

/-- Each file reads as the text of its stream, unless both are one. -/
theorem read_stored (h : a.Ready source) (hne : ∀ name, a.listingFile? = some name → pathOf name ≠ pathOf a.binaryName)
    (r : Result) :
    (∀ name, a.listingFile? = some name → (a.stored r).read name = .ok (Utf8.bytes r.listing)) ∧
      (a.stored r).read a.binaryName = .ok (Utf8.bytes r.binary) := by
  -- Opening a file does not depend on what is in the others, so each opens as it did in the beginning.
  obtain ⟨⟨d, path⟩, hb⟩ := h.writes
  obtain ⟨-, -, rfl, -⟩ := create_ok hb
  have hopened := create_put (pathOf a.binaryName) [] (create_listingOpened hb)
  cases hl : a.listingFile? with
  | none =>
    refine ⟨fun name hn => by simp at hn, ?_⟩
    rw [stored_console hl]
    exact read_put_create _ hopened
  | some name =>
    rw [stored_file hl (hne name hl)]
    constructor
    · intro name' hn
      obtain ⟨rfl⟩ : name = name' := by simpa using hn
      obtain ⟨⟨d', path⟩, hc⟩ := h.lists name hl
      have hlist := create_put (pathOf a.binaryName) [] (create_listingOpened hc)
      exact read_put_other _ (read_put_create _ hlist) (hne name hl)
    · exact read_put_create _ (create_put _ _ hopened)

/-! ## The whole run -/

theorem flushOutput_open {o : Output} (ho : a.output = some o) (h : o.Open) : a.flushOutput = a := by
  obtain ⟨⟨s, hs, hso⟩, ⟨t, ht, hto⟩⟩ := h
  have hnone : (a.output.map Output.flushComplaints).getD "" = "" := by
    simp [ho, Output.flushComplaints, hs, ht, Stream.flushComplaint, hso, hto]
  rw [flushOutput, hnone, complain, String.append_empty]

theorem eq_of_leave {o : Output} (h : b.silent = a.silent.leave o r) :
    b.errors = a.errors ++ r.errors ∧ b.symbols = r.symbols ∧ b.progress = r.progress ∧
      b.output = some (o.append r.listing r.binary r.words) ∧ b.files = a.files := by
  refine ⟨?_, ?_, ?_, ?_, ?_⟩
  · have := congrArg Assembler.errors h; exact this
  · have := congrArg Assembler.symbols h; exact this
  · have := congrArg Assembler.progress h; exact this
  · have := congrArg Assembler.output h; exact this
  · have := congrArg Assembler.files h; exact this

/-- Closing the files stores what the passes wrote to streams that were new. -/
theorem close_leave (hb : b.silent = a.started.silent.leave a.newOutput r) :
    ∃ o, b.output = some o ∧
      (b.flushOutput.storeOutput (a.listingFile?.map pathOf) (pathOf a.binaryName)).closeOutput =
        { b with files := a.stored r, output := some o.closeFiles } ∧
      o.closeFiles.listingText = r.listing ∧ o.closeFiles.binaryText = r.binary ∧
      o.closeFiles.wordsWritten = r.words := by
  obtain ⟨-, -, -, hbo, hbf⟩ := eq_of_leave hb
  have hopen := a.newOutput_open
  refine ⟨_, hbo, ?_⟩
  rw [flushOutput_open hbo (Output.append_open hopen _ _ _)]
  set o : Output := Output.append _ r.listing r.binary r.words with ho
  have hl : o.listingText = r.listing := by rw [ho, (Output.append_texts hopen _ _ _).1]; exact String.empty_append
  have hm : o.binaryText = r.binary := by rw [ho, (Output.append_texts hopen _ _ _).2]; exact String.empty_append
  have hstore : b.storeOutput (a.listingFile?.map pathOf) (pathOf a.binaryName) = { b with files := a.stored r } := by
    simp only [storeOutput, hbo, hbf, stored, hl, hm]
    cases a.listingFile? <;> rfl
  obtain ⟨hcl, hcm, hcw⟩ := Output.closeFiles_texts o
  refine ⟨?_, hcl.trans hl, hcm.trans hm, hcw.trans (Nat.zero_add _)⟩
  rw [hstore, closeOutput, hbo]
  rfl

theorem leaves_of_leave (h : a.Ready source) (he : a.errors = [])
    (hb : b.silent = a.started.silent.leave a.newOutput r) :
    Leaves a r (b.flushOutput.storeOutput (a.listingFile?.map pathOf) (pathOf a.binaryName)).closeOutput := by
  obtain ⟨hbe, hbt, hbp, -, -⟩ := eq_of_leave hb
  obtain ⟨o, -, hclose, hl, hm, hw⟩ := close_leave hb
  rw [hclose]
  constructor
  · exact hbe.trans (by rw [show a.started.errors = [] from he]; rfl)
  · exact hbt
  · exact hbp
  · exact congrArg some hw
  · exact ⟨⟨o.closeFiles, rfl, hl, hm⟩, fun hne => read_stored h hne r⟩

theorem writeOutput_outcome (h : a.Ready source) (he : a.errors = []) :
    ∃ b r, a.writeOutput = (b, .ok r.answer) ∧ Outcome (a.sourceRead source) r ∧ Leaves a r b := by
  obtain ⟨b, r, hrun, hout, hsil⟩ := runPasses_outcome (a := a.started) (read_opened h) he rfl a.newOutput_open
  exact ⟨_, r, by rw [writeOutput_started h, hrun], hout, leaves_of_leave h he hsil⟩

theorem printSummary_eq (b : Assembler) : ∃ out err, b.printSummary = { b with stdout := out, stderr := err } := by
  unfold printSummary print complain
  exact ⟨_, _, rfl⟩

theorem Leaves.printSummary (h : Leaves a r b) : Leaves a r b.printSummary := by
  obtain ⟨out, err, hs⟩ := printSummary_eq b
  rw [hs]
  exact ⟨h.errors, h.symbols, h.progress, h.words, h.wrote.streams, h.wrote.files⟩

theorem writeOutput_print (h : a.Ready source) (he : a.errors = []) (t : String) :
    ∃ b r, (a.print t).writeOutput = (b, .ok r.answer) ∧ Outcome (a.sourceRead source) r ∧ Leaves a r b := by
  obtain ⟨b, r, hb, hout, hleaves⟩ := writeOutput_outcome (h.print t) he
  exact ⟨b, r, hb, hout, hleaves.errors, hleaves.symbols, hleaves.progress, hleaves.words, hleaves.wrote.streams,
    hleaves.wrote.files⟩

/-- A run that is ready ends in one of three ways, and leaves what the passes leave. -/
theorem assemble_outcome (h : a.Ready source) (he : a.errors = []) :
    ∃ b r, a.assemble = (b, .ok r.answer) ∧ Outcome (a.sourceRead source) r ∧ Leaves a r b := by
  have hr : ∀ t, (a.print t).files.read (a.print t).sourceName = .ok source := fun t => (h.print t).reads
  obtain ⟨b, r, hb, hout, hleaves⟩ := writeOutput_print h he ("Starting assembly for: " ++ a.sourceName ++ "\n")
  exact ⟨b.printSummary, r, by simp only [assemble, hr, hb], hout, hleaves.printSummary⟩

theorem assemble_outcome_of {answer : Bool} (h : a.Ready source) (he : a.errors = [])
    (hb : a.assemble = (b, .ok answer)) :
    ∃ r, r.answer = answer ∧ Outcome (a.sourceRead source) r ∧ Leaves a r b := by
  obtain ⟨b', r, hb', hout, hleaves⟩ := assemble_outcome h he
  rw [hb] at hb'
  obtain ⟨rfl, hr⟩ := Prod.mk.inj hb'
  exact ⟨r, (Except.ok.inj hr).symm, hout, hleaves⟩

/-! ## A source that stands alone -/

theorem exists_of_answer {run : Assembler × Except Fault Bool} {answer : Bool} (h : run.2 = .ok answer) :
    ∃ b, run = (b, .ok answer) := ⟨run.1, Prod.ext rfl h⟩

theorem alone_ready (source : List UInt8) : (alone source).Ready source where
  reads := alone_reads source
  lists := by
    intro name hname
    have hc : ({} : Directory).create defaultListingName =
        .ok (({} : Directory).put (pathOf defaultListingName) [], pathOf defaultListingName) := by decide +kernel
    cases (show some defaultListingName = some name from hname)
    exact ⟨_, create_put _ source hc⟩
  writes := by
    have hc : ({} : Directory).create defaultBinaryName =
        .ok (({} : Directory).put (pathOf defaultBinaryName) [], pathOf defaultBinaryName) := by decide +kernel
    exact ⟨_, create_put _ source hc⟩

theorem alone_separate (source : List UInt8) : (alone source).Separate defaultListingName where
  listed := rfl
  source_listing := by
    show pathOf defaultSourceName ≠ pathOf defaultListingName
    decide +kernel
  source_binary := by
    show pathOf defaultSourceName ≠ pathOf defaultBinaryName
    decide +kernel
  listing_binary := by
    show pathOf defaultListingName ≠ pathOf defaultBinaryName
    decide +kernel

theorem loopSource_assembles : ∃ b, (alone loopSource).assemble = (b, .ok true) :=
  exists_of_answer (show (alone loopSource).assemble.2 = .ok true by decide +kernel)

end Assembler

end MipsAssembler
