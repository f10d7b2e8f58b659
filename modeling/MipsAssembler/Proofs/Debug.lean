import MipsAssembler.Proofs.Simulation
/-!
# Debug mode only prints

A run in debug mode is compared with one without it, step by step: the first prints whatever the second prints, and
more in between, and they differ in nothing else (`Watches`). Every step of a run keeps that, those that fail included,
so whole runs do (`Watches.assemble`). From this follows that neither debug mode nor what was printed earlier counts in
a run (`same_of_silent`).
-/

namespace MipsAssembler.Assembler

variable {a b : Assembler}

/-- The run at `b` is not in debug mode. The one at `a` may be: it has printed all that the other has, and maybe more,
and is the same in everything else. -/
structure Watches (a b : Assembler) : Prop where
  silent : a.silent = b.silent
  plain : b.debug = false
  printed : b.stdout.toList.Sublist a.stdout.toList

namespace Watches

/-! ## What both read -/

theorem symbols (h : Watches a b) : a.symbols = b.symbols :=
  (congrArg Assembler.symbols h.silent :)

theorem progress (h : Watches a b) : a.progress = b.progress :=
  (congrArg Assembler.progress h.silent :)

theorem output (h : Watches a b) : a.output = b.output :=
  (congrArg Assembler.output h.silent :)

theorem errors (h : Watches a b) : a.errors = b.errors :=
  (congrArg Assembler.errors h.silent :)

theorem files (h : Watches a b) : a.files = b.files :=
  (congrArg Assembler.files h.silent :)

theorem sourceName (h : Watches a b) : a.sourceName = b.sourceName :=
  (congrArg Assembler.sourceName h.silent :)

theorem listingName (h : Watches a b) : a.listingName = b.listingName :=
  (congrArg Assembler.listingName h.silent :)

theorem binaryName (h : Watches a b) : a.binaryName = b.binaryName :=
  (congrArg Assembler.binaryName h.silent :)

/-! ## Small steps -/

/-- A change that has nothing to do with debug mode or with what is printed. -/
theorem change (h : Watches a b) (f : Assembler → Assembler) (hf : ∀ x, (f x).silent = f x.silent)
    (hd : ∀ x, (f x).debug = x.debug) (ho : ∀ x, (f x).stdout = x.stdout) : Watches (f a) (f b) where
  silent := by rw [hf, hf, h.silent]
  plain := by rw [hd, h.plain]
  printed := by rw [ho, ho]; exact h.printed

theorem print (h : Watches a b) (t : String) : Watches (a.print t) (b.print t) where
  silent := h.silent
  plain := h.plain
  printed := by
    simp only [Assembler.print, String.toList_append]
    exact h.printed.append (List.Sublist.refl _)

/-- A note is printed in debug mode only. -/
theorem note (h : Watches a b) (t : String) : Watches (a.note t) (b.note t) := by
  have hb : b.note t = b := by simp [Assembler.note, h.plain]
  rw [hb]
  refine ⟨(silent_note a t).trans h.silent, h.plain, ?_⟩
  unfold Assembler.note
  split
  · simp only [Assembler.print, String.toList_append]
    exact List.sublist_append_of_sublist_left h.printed
  · exact h.printed

theorem complain (h : Watches a b) (t : String) : Watches (a.complain t) (b.complain t) :=
  h.change (Assembler.complain · t) (fun _ => rfl) (fun _ => rfl) fun _ => rfl

theorem record (h : Watches a b) (e : ErrorRecord) : Watches (a.record e) (b.record e) :=
  h.change (Assembler.record · e) (fun _ => rfl) (fun _ => rfl) fun _ => rfl

theorem setSymbols (h : Watches a b) (t : SymbolTable) : Watches { a with symbols := t } { b with symbols := t } :=
  h.change (fun x => { x with symbols := t }) (fun _ => rfl) (fun _ => rfl) fun _ => rfl

theorem setProgress (h : Watches a b) (p : Progress) : Watches { a with progress := p } { b with progress := p } :=
  h.change (fun x => { x with progress := p }) (fun _ => rfl) (fun _ => rfl) fun _ => rfl

theorem setOutput (h : Watches a b) (o : Option Output) : Watches { a with output := o } { b with output := o } :=
  h.change (fun x => { x with output := o }) (fun _ => rfl) (fun _ => rfl) fun _ => rfl

theorem setFiles (h : Watches a b) (d : Directory) : Watches { a with files := d } { b with files := d } :=
  h.change (fun x => { x with files := d }) (fun _ => rfl) (fun _ => rfl) fun _ => rfl

/-- Both runs open the same files and put the same there. -/
theorem simulation : Simulation fun _ => Watches where
  sourceName := sourceName
  listingName := listingName
  binaryName := binaryName
  symbols := symbols
  progress := progress
  output := output
  errors := errors
  sourceLines h := by rw [h.files]
  print := print
  note := note
  complain := complain
  record := record
  setSymbols := setSymbols
  setProgress := setProgress
  setOutput := setOutput
  create {_ a b} h name := by
    rw [h.files]
    cases b.files.create name with
    | error e => exact .inl ⟨e, rfl, rfl⟩
    | ok opened => exact .inr ⟨_, _, _, rfl, rfl, h.setFiles opened.1⟩
  overwrite h path _ bytes := by
    rw [h.files]
    exact h.setFiles _

theorem runPass (h : Watches a b) (pass : Pass) : SameAnswer Watches (a.runPass pass) (b.runPass pass) :=
  @Simulation.runPass _ [] _ _ simulation h pass

theorem assemble (h : Watches a b) : SameAnswer Watches a.assemble b.assemble :=
  (@Simulation.assemble _ [] _ _ simulation h).map (f := id) fun ⟨_, h, _⟩ => h

end Watches

theorem watches_silent (a : Assembler) : Watches a a.silent where
  silent := rfl
  plain := rfl
  printed := List.nil_sublist _

/-- Whatever keeps two runs together depends neither on debug mode nor on what was printed before. -/
theorem same_of_silent {α : Type} {step : Assembler → Assembler × α}
    (hstep : ∀ {a b}, Watches a b → SameAnswer Watches (step a) (step b)) (h : a.silent = b.silent) :
    (step a).2 = (step b).2 ∧ (step a).1.silent = (step b).1.silent := by
  have ha := hstep (watches_silent a)
  have hb := hstep (watches_silent b)
  rw [← h] at hb
  exact ⟨ha.answer.trans hb.answer.symm, ha.related.silent.trans hb.related.silent.symm⟩

theorem runPass_silent (h : a.silent = b.silent) (pass : Pass) :
    (a.runPass pass).2 = (b.runPass pass).2 ∧ (a.runPass pass).1.silent = (b.runPass pass).1.silent :=
  same_of_silent (fun h => h.runPass pass) h

theorem assemble_silent (h : a.silent = b.silent) :
    a.assemble.2 = b.assemble.2 ∧ a.assemble.1.silent = b.assemble.1.silent :=
  same_of_silent Watches.assemble h

/-- Debug mode changes nothing but what is printed, and only adds to that. Whatever the files hold, a run in debug mode
gives the answer of the run without it, and both end with the same files, errors, complaints, symbols, progress and
output. -/
theorem debug_only_prints (files : Directory) (sourceName : String) (listingName : Option String)
    (binaryName : String) :
    let traced := (new files sourceName listingName binaryName true).assemble
    let plain := (new files sourceName listingName binaryName false).assemble
    traced.2 = plain.2 ∧ { traced.1 with debug := false, stdout := plain.1.stdout } = plain.1 ∧
      plain.1.stdout.toList.Sublist traced.1.stdout.toList := by
  intro traced plain
  have h : SameAnswer Watches traced plain := Watches.assemble ⟨rfl, rfl, List.Sublist.refl _⟩
  obtain ⟨hsilent, hplain, hprinted⟩ := h.related
  refine ⟨h.answer, ?_, hprinted⟩
  calc { traced.1 with debug := false, stdout := plain.1.stdout }
      = { traced.1.silent with stdout := plain.1.stdout } := rfl
    _ = { plain.1.silent with stdout := plain.1.stdout } := by rw [hsilent]
    _ = { plain.1 with debug := plain.1.debug } := by rw [hplain]; rfl
    _ = plain.1 := rfl

end MipsAssembler.Assembler
