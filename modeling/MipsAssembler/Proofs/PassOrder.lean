import MipsAssembler.Proofs.Output
import MipsAssembler.Proofs.Scan
/-!
# The order of the passes

Passes may be called in any order, and between the calls the files may change and the output may be attached or taken
away (`Event`). One call does one of three things: it is refused and changes nothing (`refused_call`), it scans
(`scan_call`), or it encodes what the scan before it has left (`encode_call`). From that follows where an assembler can
stand after any history, and what its table is then (`passes_in_order`).
-/

namespace MipsAssembler.Assembler

open Reference

variable {a b c : Assembler}

/-! ## Encoding keeps the table -/

/-- What the assembler writes to takes text. -/
def Writable (a : Assembler) : Prop := ∀ o, a.output = some o → o.Unclosed

/-- The assembler has moved on inside a pass: its table and its stage are the same, and it can still write. -/
structure Follows (a b : Assembler) : Prop where
  symbols : b.symbols = a.symbols
  stage : b.progress.stage = a.progress.stage
  writable : b.Writable

theorem Follows.refl (h : a.Writable) : Follows a a := ⟨rfl, rfl, h⟩

theorem Follows.trans (h : Follows a b) (h' : Follows b c) : Follows a c :=
  ⟨h'.symbols.trans h.symbols, h'.stage.trans h.stage, h'.writable⟩

theorem follows_of_silent {p : Progress} {o : Option Output} (hb : b.silent = a.silent.resume a.symbols p o)
    (hp : p.stage = a.progress.stage) (ho : ∀ o', o = some o' → o'.Unclosed) : Follows a b := by
  obtain ⟨hbt, hbp, hbo⟩ := eq_of_silent hb
  exact ⟨hbt, by rw [hbp, hp], by rw [Writable, hbo]; exact ho⟩

theorem follows_note (h : a.Writable) (t : String) : Follows a (a.note t) :=
  follows_of_silent (silent_note a t) rfl h

theorem follows_atLine (h : a.Writable) (line : Int) : Follows a (a.atLine line) :=
  follows_of_silent (silent_atLine a line) rfl h

theorem follows_advance (h : a.Writable) : Follows a a.advance :=
  follows_of_silent (silent_advance a) rfl h

theorem follows_list {t : String} (h : a.Writable) (hb : a.list t = .ok b) : Follows a b := by
  cases ho : a.output with
  | none => simp [list, ho] at hb
  | some o =>
    obtain ⟨b', hb', hsil⟩ := list_open ho (h o ho) t
    rw [hb'] at hb
    cases hb
    refine follows_of_silent hsil rfl ?_
    rintro o' ⟨⟩
    exact Output.append_unclosed (h o ho) _ _ _

theorem follows_emit {w : Int} (h : a.Writable) (hb : a.emit w = .ok b) : Follows a b := by
  cases ho : a.output with
  | none => simp [emit, ho] at hb
  | some o =>
    have hopen := h o ho
    cases hs : o.binary with
    | none =>
      simp only [emit, ho, Output.writeWord, hs, Except.map, Except.ok.injEq] at hb
      subst hb
      exact ⟨rfl, rfl, by rintro o' ⟨⟩; exact hopen⟩
    | some s =>
      simp only [emit, ho, Output.writeWord, hs, Stream.write, hopen s (.inr hs), Except.map, if_true,
        Except.ok.injEq] at hb
      subst hb
      refine ⟨rfl, rfl, ?_⟩
      rintro o' ⟨⟩ u (hu | hu)
      · exact hopen u (.inl hu)
      · cases hu
        rfl

theorem encodeLine_follows (h : a.Writable) (line : Int) (s : SourceLine) : Follows a (a.encodeLine line s).1 := by
  unfold encodeLine
  cases s.statement? with
  | none => exact .refl h
  | some st =>
    dsimp only
    cases st.mnemonic with
    | none =>
      dsimp only
      split
      · exact .refl h
      · rename_i b hb
        exact follows_list h hb
    | some mnemonic =>
      have hadv := follows_advance h
      have hnote := hadv.trans (follows_note hadv.writable
        (Instruction.assembleTrace a.symbols a.progress.locationCounter line mnemonic st.operands))
      dsimp only
      split
      · exact hnote
      · split
        · exact hnote
        · rename_i b hb
          have hlist := hnote.trans (follows_list hnote.writable hb)
          split
          · exact hlist
          · rename_i d hd
            exact hlist.trans (follows_emit hlist.writable hd)

theorem readLine_follows (h : a.Writable) (line : Int) (raw : List UInt8) :
    Follows a (readLine .encode a line raw).1 := by
  have hat := follows_atLine h line
  cases hr : SourceLine.ofBytes raw with
  | error f =>
    rw [readLine_undecodable a line hr]
    exact hat
  | ok s =>
    have hnote := hat.trans (follows_note hat.writable (s.trace .encode line))
    have hline := hnote.trans (encodeLine_follows hnote.writable line s)
    rw [readLine_text a line hr]
    simp only [processLine]
    split
    · rename_i heq
      rw [heq] at hline
      exact hline
    · rename_i heq
      rw [heq] at hline
      exact hline

theorem readLines_follows (h : a.Writable) (line : Int) (raws : List (List UInt8)) :
    Follows a (readLines .encode a line raws).1 := by
  induction raws generalizing a line with
  | nil => exact .refl h
  | cons raw rest ih =>
    have hline := readLine_follows h line raw
    unfold readLines
    split
    · rename_i heq
      rw [heq] at hline
      exact hline
    · rename_i heq
      rw [heq] at hline
      exact hline.trans (ih hline.writable (line + 1))

/-! ## How a pass ends -/

/-- A pass of `a` is over. -/
structure Finished (a b : Assembler) : Prop where
  symbols : b.symbols = a.symbols
  stage : b.progress.stage = .done
  writable : b.Writable

theorem Follows.finished (h : Follows a b) (h' : Finished b c) : Finished a c :=
  ⟨h'.symbols.trans h.symbols, h'.stage, h'.writable⟩

theorem fail_finished (h : a.Writable) (f : LineFailure) : ∃ b, a.fail f = (b, .ok false) ∧ Finished a b := by
  cases ho : a.output with
  | none =>
    unfold fail
    cases f.fault with
    | refused cause line =>
      simp only [record, ho]
      exact ⟨_, rfl, rfl, rfl, by rintro o ⟨⟩⟩
    | _ => exact ⟨_, rfl, rfl, rfl, h⟩
  | some o =>
    obtain ⟨b, hb, hsil⟩ := fail_open ho (h o ho) f
    obtain ⟨hbt, hbp, hbo⟩ := eq_of_silent (a := a.record f.record) hsil
    refine ⟨b, hb, hbt, by rw [hbp]; rfl, ?_⟩
    intro o' ho'
    rw [hbo] at ho'
    cases ho'
    exact Output.append_unclosed (h o ho) _ _ _

theorem complete_finished (h : a.Writable) : ∃ b r, complete .encode a = (b, .ok r) ∧ Finished a b := by
  cases ho : a.output with
  | none => exact ⟨a.finish, !a.hasErrors, by simp only [complete, ho], rfl, rfl, h⟩
  | some o =>
    obtain ⟨b, hb, hsil⟩ := list_open ho (h o ho) (Listing.symbolBlock a.symbols)
    have hfol := follows_list h hb
    exact ⟨b.finish, !b.hasErrors, by simp only [complete, ho, hb], hfol.symbols, rfl, hfol.writable⟩

theorem readSource_finished (h : a.Writable) : ∃ b r, readSource .encode a = (b, .ok r) ∧ Finished a b := by
  unfold readSource
  split
  · obtain ⟨b, hb, hfin⟩ := fail_finished h ⟨0, .nulInName, none⟩
    exact ⟨b, false, hb, hfin⟩
  · exact ⟨_, _, rfl, rfl, rfl, h⟩
  · rename_i bytes _
    have hfol := readLines_follows h 1 (Utf8.lines bytes)
    split
    · rename_i b f heq
      rw [heq] at hfol
      obtain ⟨c, hc, hfin⟩ := fail_finished hfol.writable f
      exact ⟨c, false, hc, hfol.finished hfin⟩
    · rename_i b heq
      rw [heq] at hfol
      obtain ⟨c, r, hc, hfin⟩ := complete_finished hfol.writable
      exact ⟨c, r, hc, hfol.finished hfin⟩

/-- Encoding keeps the table of the scan, and the run is over. -/
theorem encode_call (h : a.Writable) (hs : a.progress.stage = .scanning) :
    ∃ b r, a.runPass .encode = (b, .ok r) ∧ Finished a b := by
  unfold runPass
  simp only [Progress.enter, hs, if_true]
  obtain ⟨b, r, hb, hfin⟩ := readSource_finished (a := { a with progress := { stage := .encoding } }) h
  exact ⟨b, r, hb, hfin.symbols, hfin.stage, hfin.writable⟩

/-- The source can be read, every line of it is text, and no label is defined twice. -/
def Scans (a : Assembler) (ls : List SourceLine) : Prop :=
  ∃ source, a.files.read a.sourceName = .ok source ∧ Reads source ls ∧ Distinct ls

/-- A scan ends with the table of its source, or it records an error and the run is over. -/
theorem scan_call (h : a.Writable) : ∃ b r, a.runPass .scan = (b, .ok r) ∧ b.Writable ∧
    ((b.progress.stage = .scanning ∧ b.errors = a.errors ∧ ∃ ls, Scans a ls ∧ b.symbols = table ls) ∨
      (b.progress.stage = .done ∧ (∃ e, b.errors = a.errors ++ [e]) ∧ ∀ ls, ¬ Scans a ls)) := by
  cases hr : a.files.read a.sourceName with
  | error e =>
    have hnone : ∀ ls, ¬ Scans a ls := by
      rintro ls ⟨source, hsource, -⟩
      rw [hr] at hsource
      cases hsource
    have hstart : Writable { a with progress := { stage := .scanning }, symbols := {} } := h
    unfold runPass readSource
    simp only [Progress.enter, hr]
    split
    · obtain ⟨b, hb, hfin⟩ := fail_finished hstart ⟨0, .nulInName, none⟩
      have herr := fail_errors { a with progress := { stage := .scanning }, symbols := {} } ⟨0, .nulInName, none⟩
      rw [hb] at herr
      exact ⟨b, false, hb, hfin.writable, .inr ⟨hfin.stage, ⟨_, herr⟩, hnone⟩⟩
    · exact ⟨_, _, rfl, h, .inr ⟨rfl, ⟨_, rfl⟩, hnone⟩⟩
    · rename_i heq
      cases heq
  | ok source =>
    obtain ⟨ls, b, f, hends, hfin⟩ := runPass_scan hr
    cases f with
    | none =>
      obtain ⟨hb, hrun⟩ := hfin
      obtain ⟨hans, hsil⟩ := complete_scan hb
      obtain ⟨hct, hcp, hco⟩ := eq_of_silent hsil
      cases hends with
      | complete hreads hp =>
        refine ⟨(complete .scan b).1, _, by rw [hrun, ← hans], ?_, .inl ⟨by rw [hcp]; rfl, (frame_of_silent hsil).1, ls,
          ⟨source, hr, hreads, (passes_scanFault ls).1 hp⟩, hct⟩⟩
        rw [Writable, hco]
        exact h
    | some f =>
      obtain ⟨hb, hrun⟩ := hfin
      obtain ⟨-, -, hbo⟩ := eq_of_silent hb
      obtain ⟨c, hc, hfinished⟩ := fail_finished (by rw [Writable, hbo]; exact h) f
      have herr : c.errors = a.errors ++ [f.record] := by
        have := fail_errors b f
        rwa [hc, (frame_of_silent hb).1] at this
      refine ⟨c, false, by rw [hrun, hc], hfinished.writable, .inr ⟨hfinished.stage, ⟨_, herr⟩, ?_⟩⟩
      rintro ls' ⟨source', hr', hreads, hd⟩
      rw [hr] at hr'
      cases hr'
      exact hends.not_complete hreads ((passes_scanFault ls').2 hd)

/-! ## Calls that are refused -/

/-- A call is accepted if it is for the scan, or for encoding right behind a scan. -/
def Accepts (a : Assembler) (n : Option Int) : Prop := n = some 1 ∨ n = some 2 ∧ a.progress.stage = .scanning

/-- A call that is refused changes nothing. -/
theorem refused_call {n : Option Int} (h : ¬ a.Accepts n) : ∃ e, a.runPassNumbered n = (a, .error e) := by
  unfold Accepts at h
  unfold runPassNumbered
  by_cases h₁ : n = some 1
  · exact absurd (.inl h₁) h
  by_cases h₂ : n = some 2
  · have hstage : a.progress.stage ≠ .scanning := fun hs => h (.inr ⟨h₂, hs⟩)
    refine ⟨.passOutOfOrder a.progress.stage, ?_⟩
    rw [h₂]
    show a.runPass .encode = _
    simp [runPass, Progress.enter, hstage]
  · exact ⟨.invalidPass n, by simp [Pass.ofNumber?, h₁, h₂]⟩

/-! ## Histories -/

/-- What can happen to an assembler between two looks at it. -/
inductive Event where
  | pass (n : Option Int)
  /-- Files are written, changed or removed. -/
  | files (d : Directory)
  | attach (o : Output) (h : o.Unclosed)
  | detach

def Event.apply (a : Assembler) : Event → Assembler
  | .pass n => (a.runPassNumbered n).1
  | .files d => { a with files := d }
  | .attach o _ => { a with output := some o }
  | .detach => { a with output := none }

/-- The assembler after a history. -/
def after (a : Assembler) (es : List Event) : Assembler := es.foldl Event.apply a

/-- No call in the history is accepted. -/
def Quiet : Assembler → List Event → Prop
  | _, [] => True
  | a, e :: es => (∀ n, e = .pass n → ¬ a.Accepts n) ∧ Quiet (e.apply a) es

/-- The last accepted call was for a scan that found these lines, and the table is theirs. -/
def Scanned (a : Assembler) (es : List Event) (ls : List SourceLine) : Prop :=
  ∃ before later, es = before ++ .pass (some 1) :: later ∧
    Quiet (a.after (before ++ [.pass (some 1)])) later ∧
    (a.after (before ++ [.pass (some 1)])).errors = (a.after before).errors ∧
    Scans (a.after before) ls ∧ (a.after es).symbols = table ls

theorem after_snoc (a : Assembler) (es : List Event) (e : Event) : a.after (es ++ [e]) = e.apply (a.after es) := by
  simp [after]

theorem after_append (a : Assembler) (es es' : List Event) : a.after (es ++ es') = (a.after es).after es' := by
  simp [after]

theorem quiet_snoc {es : List Event} {e : Event} :
    Quiet a (es ++ [e]) ↔ Quiet a es ∧ ∀ n, e = .pass n → ¬ (a.after es).Accepts n := by
  induction es generalizing a with
  | nil => simp [Quiet, after]
  | cons e' es ih =>
    rw [List.cons_append, Quiet, Quiet, ih, and_assoc]
    rfl

/-- A step that is no accepted call leaves the last accepted call and the table as they are. -/
theorem Scanned.step {es : List Event} {e : Event} {ls : List SourceLine} (h : Scanned a es ls)
    (hq : ∀ n, e = .pass n → ¬ (a.after es).Accepts n) (ht : (e.apply (a.after es)).symbols = (a.after es).symbols) :
    Scanned a (es ++ [e]) ls := by
  obtain ⟨before, later, rfl, hquiet, herr, hscan, htable⟩ := h
  refine ⟨before, later ++ [e], by simp, ?_, herr, hscan, ?_⟩
  · rw [quiet_snoc, ← after_append]
    refine ⟨hquiet, ?_⟩
    rwa [List.append_assoc, List.singleton_append]
  · rw [after_snoc, ht, htable]

/-- The table is frozen, nothing waits in it, and it holds exactly the labels of the lines. -/
theorem Scanned.labels {es : List Event} {ls : List SourceLine} (h : Scanned a es ls) :
    (a.after es).symbols.frozen = true ∧ (a.after es).symbols.staged = [] ∧
      ∀ name x, (a.after es).symbols.lookup name = some x ↔ x.name = name ∧ ∃ k, Defines ls k x := by
  obtain ⟨before, later, -, -, -, ⟨source, -, -, hd⟩, ht⟩ := h
  rw [ht]
  refine ⟨rfl, rfl, ?_⟩
  intro name x
  exact lookup_table hd

/-- Where an assembler stands after a history. -/
structure Standing (a : Assembler) (es : List Event) : Prop where
  writable : (a.after es).Writable
  stage : (a.after es).progress.stage = .idle ∨ (a.after es).progress.stage = .done ∨
    ((a.after es).progress.stage = .scanning ∧ ∃ ls, Scanned a es ls)

/-- A step that keeps table and stage keeps the standing. -/
theorem Standing.keep {es : List Event} {e : Event} (h : Standing a es)
    (hq : ∀ n, e = .pass n → ¬ (a.after es).Accepts n) (hf : Follows (a.after es) (e.apply (a.after es))) :
    Standing a (es ++ [e]) := by
  rw [← after_snoc] at hf
  refine ⟨hf.writable, ?_⟩
  rw [hf.stage]
  rcases h.stage with hidle | hdone | ⟨hscanning, ls, hls⟩
  · exact .inl hidle
  · exact .inr (.inl hdone)
  · rw [after_snoc] at hf
    exact .inr (.inr ⟨hscanning, ls, hls.step hq hf.symbols⟩)

theorem Standing.step {es : List Event} (h : Standing a es) (e : Event) : Standing a (es ++ [e]) := by
  cases e with
  | files d => exact h.keep nofun ⟨rfl, rfl, h.writable⟩
  | attach o ho => exact h.keep nofun ⟨rfl, rfl, by rintro o' ⟨⟩; exact ho⟩
  | detach => exact h.keep nofun ⟨rfl, rfl, nofun⟩
  | pass n =>
    by_cases hn : (a.after es).Accepts n
    · rcases hn with rfl | ⟨rfl, hs⟩
      · obtain ⟨b, r, hb, hwritable, hcase⟩ := scan_call h.writable
        have hafter : a.after (es ++ [.pass (some 1)]) = b := by
          rw [after_snoc]
          exact congrArg Prod.fst hb
        refine ⟨by rwa [hafter], ?_⟩
        rw [hafter]
        rcases hcase with ⟨hscanning, herr, ls, hls, ht⟩ | ⟨hdone, -⟩
        · exact .inr (.inr ⟨hscanning, ls, es, [], rfl, trivial, by rw [hafter, herr], hls, by rw [hafter, ht]⟩)
        · exact .inr (.inl hdone)
      · obtain ⟨b, r, hb, hfin⟩ := encode_call h.writable hs
        have hafter : a.after (es ++ [.pass (some 2)]) = b := by
          rw [after_snoc]
          exact congrArg Prod.fst hb
        exact ⟨hafter ▸ hfin.writable, .inr (.inl (hafter ▸ hfin.stage))⟩
    · obtain ⟨e, he⟩ := refused_call hn
      refine h.keep ?_ ?_
      · rintro n' ⟨⟩
        exact hn
      · rw [Event.apply, he]
        exact .refl h.writable

theorem standing_new (files : Directory) (source : String) (listing : Option String) (binary : String) (debug : Bool)
    (es : List Event) : Standing (new files source listing binary debug) es := by
  induction es using List.reverseRecOn with
  | nil => exact ⟨nofun, .inl rfl⟩
  | append_singleton es e ih => exact ih.step e

/-- After any history of a new assembler no pass is running. If the stage is that of a scan, the last accepted call was
for a scan that met no error, and the table is frozen, nothing waits in it, and it holds exactly the labels of the
source that was scanned. Calls that are refused change nothing. Encoding is accepted behind a scan only, keeps the
table, and ends the run; a scan that is accepted succeeds exactly if its source can be read, is text and defines no
label twice, and ends the run otherwise. -/
theorem passes_in_order (files : Directory) (source : String) (listing : Option String) (binary : String)
    (debug : Bool) (es : List Event) :
    let start := new files source listing binary debug
    let a := start.after es
    (a.progress.stage = .idle ∨ a.progress.stage = .scanning ∨ a.progress.stage = .done) ∧
    (a.progress.stage = .scanning → ∃ ls, Scanned start es ls ∧ a.symbols.frozen = true ∧ a.symbols.staged = [] ∧
      ∀ name x, a.symbols.lookup name = some x ↔ x.name = name ∧ ∃ k, Defines ls k x) ∧
    (∀ n, ¬ a.Accepts n → ∃ e, a.runPassNumbered n = (a, .error e)) ∧
    (∀ n, a.Accepts n → ∃ b r, a.runPassNumbered n = (b, .ok r) ∧
      (n = some 2 → b.symbols = a.symbols ∧ b.progress.stage = .done) ∧
      (n = some 1 → (b.progress.stage = .scanning ∧ b.errors = a.errors ∧ ∃ ls, Scans a ls) ∨
        (b.progress.stage = .done ∧ (∃ e, b.errors = a.errors ++ [e]) ∧ ∀ ls, ¬ Scans a ls))) := by
  intro start a
  have hstanding : Standing start es := standing_new files source listing binary debug es
  refine ⟨?_, ?_, fun n => refused_call, ?_⟩
  · rcases hstanding.stage with hidle | hdone | ⟨hscanning, -⟩
    · exact .inl hidle
    · exact .inr (.inr hdone)
    · exact .inr (.inl hscanning)
  · intro hs
    rcases hstanding.stage with hidle | hdone | ⟨-, ls, hls⟩
    · exact absurd (hidle.symm.trans hs) (by decide)
    · exact absurd (hdone.symm.trans hs) (by decide)
    · exact ⟨ls, hls, hls.labels⟩
  · rintro n (rfl | ⟨rfl, hs⟩)
    · obtain ⟨b, r, hb, -, hcase⟩ := scan_call hstanding.writable
      refine ⟨b, r, hb, nofun, fun _ => ?_⟩
      rcases hcase with ⟨hstage, herr, ls, hls, -⟩ | hfailed
      · exact .inl ⟨hstage, herr, ls, hls⟩
      · exact .inr hfailed
    · obtain ⟨b, r, hb, hfin⟩ := encode_call hstanding.writable hs
      exact ⟨b, r, hb, fun _ => ⟨hfin.symbols, hfin.stage⟩, nofun⟩

end MipsAssembler.Assembler
