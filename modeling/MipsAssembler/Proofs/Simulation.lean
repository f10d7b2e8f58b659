import MipsAssembler.Proofs.Run
/-!
# Runs side by side

Two runs are compared step by step, by a relation that says in what they may differ. If they agree on all that a run
looks at, down to the lines of the source, and if printing, recording and writing keep the relation (`Simulation`), then
every step of a run does, those that fail included, and so whole runs do (`Simulation.assemble`).
-/

namespace MipsAssembler

/-- The lines of the file that a name leads to, as they are read. -/
def Directory.sourceLines (d : Directory) (name : String) :
    Except OpenError (List (Except Utf8.Fault SourceLine)) :=
  (d.read name).map fun bytes => (Utf8.lines bytes).map SourceLine.ofBytes

theorem Directory.sourceLines_cases {d d' : Directory} {name : String} (h : d.sourceLines name = d'.sourceLines name) :
    (∃ e, d.read name = .error e ∧ d'.read name = .error e) ∨
      ∃ bytes bytes', d.read name = .ok bytes ∧ d'.read name = .ok bytes' ∧
        (Utf8.lines bytes).map SourceLine.ofBytes = (Utf8.lines bytes').map SourceLine.ofBytes := by
  unfold sourceLines at h
  cases hd : d.read name with
  | error e =>
    cases hd' : d'.read name with
    | error e' =>
      rw [hd, hd'] at h
      cases h
      exact .inl ⟨e, rfl, rfl⟩
    | ok bytes' => rw [hd, hd'] at h; cases h
  | ok bytes =>
    cases hd' : d'.read name with
    | error e' => rw [hd, hd'] at h; cases h
    | ok bytes' =>
      rw [hd, hd'] at h
      exact .inr ⟨bytes, bytes', rfl, rfl, Except.ok.inj h⟩

namespace Assembler

variable {P Q : Assembler → Assembler → Prop} {R : List Path → Assembler → Assembler → Prop}
  {written : List Path} {a b : Assembler}

/-- Two steps that may fail went the same way. -/
inductive SameStep (P : Assembler → Assembler → Prop) : Except Fault Assembler → Except Fault Assembler → Prop
  | ok {a b : Assembler} : P a b → SameStep P (.ok a) (.ok b)
  | error (e : Fault) : SameStep P (.error e) (.error e)

/-- Two steps gave the same answer. -/
inductive SameAnswer (P : Assembler → Assembler → Prop) {α : Type} : Assembler × α → Assembler × α → Prop
  | mk {a b : Assembler} (r : α) : P a b → SameAnswer P (a, r) (b, r)

namespace SameAnswer

variable {α : Type} {x y : Assembler × α}

theorem answer (h : SameAnswer P x y) : x.2 = y.2 := by
  cases h with
  | mk r h => rfl

theorem related (h : SameAnswer P x y) : P x.1 y.1 := by
  cases h with
  | mk r h => exact h

theorem of_eq (hanswer : x.2 = y.2) (h : P x.1 y.1) : SameAnswer P x y := by
  obtain ⟨a, r⟩ := x
  obtain ⟨b, r'⟩ := y
  cases hanswer
  exact .mk r h

theorem map (h : SameAnswer P x y) {f : Assembler → Assembler} (hf : ∀ {a b}, P a b → Q (f a) (f b)) :
    SameAnswer Q (f x.1, x.2) (f y.1, y.2) := by
  cases h with
  | mk r h => exact .mk r (hf h)

end SameAnswer

theorem refuseOutput_output (a : Assembler) (what name : String) (e : OpenError) :
    (a.refuseOutput what name e).1.output = a.output := by
  unfold refuseOutput
  split <;> rfl

theorem storeOutput_none (h : a.output = none) (listing : Option Path) (binary : Path) :
    a.storeOutput listing binary = a := by
  simp only [storeOutput, h]

theorem storeOutput_some {o : Output} (h : a.output = some o) (listing : Option Path) (binary : Path) :
    a.storeOutput listing binary = { a with
      files := (match listing with
        | none => a.files
        | some path => a.files.overwrite path (Utf8.bytes o.listingText)).overwrite binary
          (Utf8.bytes o.binaryText) } := by
  cases listing <;> simp only [storeOutput, h]

/-- The paths of the files that a run writes. -/
def outputPaths (a : Assembler) : List Path :=
  Directory.pathOf a.binaryName :: (a.listingFile?.map Directory.pathOf).toList

/-- Runs that are still related at their end. The one from `a` has opened its files if it has an output. -/
def Reached (R : List Path → Assembler → Assembler → Prop) (a x y : Assembler) : Prop :=
  ∃ written, R written x y ∧ (x.output = a.output ∨ a.outputPaths ⊆ written)

/-- A relation between runs that have opened the same paths for writing. Related runs agree on what they look at, and
small steps keep them related. -/
structure Simulation (R : List Path → Assembler → Assembler → Prop) : Prop where
  sourceName : ∀ {written a b}, R written a b → a.sourceName = b.sourceName
  listingName : ∀ {written a b}, R written a b → a.listingName = b.listingName
  binaryName : ∀ {written a b}, R written a b → a.binaryName = b.binaryName
  symbols : ∀ {written a b}, R written a b → a.symbols = b.symbols
  progress : ∀ {written a b}, R written a b → a.progress = b.progress
  output : ∀ {written a b}, R written a b → a.output = b.output
  errors : ∀ {written a b}, R written a b → a.errors = b.errors
  sourceLines : ∀ {written a b}, R written a b →
    a.files.sourceLines b.sourceName = b.files.sourceLines b.sourceName
  print : ∀ {written a b}, R written a b → ∀ t, R written (a.print t) (b.print t)
  note : ∀ {written a b}, R written a b → ∀ t, R written (a.note t) (b.note t)
  complain : ∀ {written a b}, R written a b → ∀ t, R written (a.complain t) (b.complain t)
  record : ∀ {written a b}, R written a b → ∀ e, R written (a.record e) (b.record e)
  setSymbols : ∀ {written a b}, R written a b → ∀ t, R written { a with symbols := t } { b with symbols := t }
  setProgress : ∀ {written a b}, R written a b → ∀ p, R written { a with progress := p } { b with progress := p }
  setOutput : ∀ {written a b}, R written a b → ∀ o, R written { a with output := o } { b with output := o }
  create : ∀ {written a b}, R written a b → ∀ name,
    (∃ e, a.files.create name = .error e ∧ b.files.create name = .error e) ∨
      ∃ d d' path, a.files.create name = .ok (d, path) ∧ b.files.create name = .ok (d', path) ∧
        R (path :: written) { a with files := d } { b with files := d' }
  /-- What was opened for writing can be written over. -/
  overwrite : ∀ {written a b}, R written a b → ∀ path ∈ written, ∀ bytes,
    R written { a with files := a.files.overwrite path bytes } { b with files := b.files.overwrite path bytes }

namespace Simulation

/-! ## Small steps -/

theorem finish (S : Simulation R) (h : R written a b) : R written a.finish b.finish := by
  unfold Assembler.finish
  rw [S.progress h]
  exact S.setProgress h _

theorem advance (S : Simulation R) (h : R written a b) : R written a.advance b.advance := by
  unfold Assembler.advance
  rw [S.progress h]
  exact S.note (S.setProgress h _) _

theorem freeze (S : Simulation R) (h : R written a b) : R written a.freeze b.freeze := by
  unfold Assembler.freeze
  rw [S.symbols h]
  exact S.note (S.setSymbols h _) _

theorem hasErrors (S : Simulation R) (h : R written a b) : a.hasErrors = b.hasErrors := by
  unfold Assembler.hasErrors
  rw [S.errors h]

/-- The console shows the listing in both runs. -/
theorem list (S : Simulation R) (h : R written a b) (t : String) : SameStep (R written) (a.list t) (b.list t) := by
  unfold Assembler.list
  rw [S.output h]
  cases b.output with
  | none => exact .error _
  | some o =>
    dsimp only
    cases o.writeListing t with
    | error e => exact .error e
    | ok o' =>
      refine .ok ?_
      dsimp only
      split
      · exact S.print (S.setOutput h _) t
      · exact S.setOutput h _

theorem emit (S : Simulation R) (h : R written a b) (w : Int) : SameStep (R written) (a.emit w) (b.emit w) := by
  unfold Assembler.emit
  rw [S.output h]
  cases b.output with
  | none => exact .error _
  | some o =>
    dsimp only
    cases o.writeWord w with
    | error e => exact .error e
    | ok o' => exact .ok (S.setOutput h _)

theorem define (S : Simulation R) (h : R written a b) (label : Option String) (line : Int) :
    SameStep (R written) (a.define label line) (b.define label line) := by
  unfold Assembler.define
  cases label with
  | none => exact .ok h
  | some name =>
    dsimp only
    rw [S.symbols h]
    cases b.symbols.stage name line with
    | error e => exact .error e
    | ok t => exact .ok (S.note (S.setSymbols h t) _)

theorem commit (S : Simulation R) (h : R written a b) (address : Int) :
    SameStep (R written) (a.commit address) (b.commit address) := by
  unfold Assembler.commit
  rw [S.symbols h]
  cases b.symbols.commit address with
  | error e => exact .error e
  | ok t => exact .ok (S.note (S.setSymbols h t) _)

/-! ## Lines -/

theorem scanLine (S : Simulation R) (h : R written a b) (line : Int) (s : SourceLine) :
    SameAnswer (R written) (a.scanLine line s) (b.scanLine line s) := by
  unfold Assembler.scanLine
  cases s.statement? with
  | none => exact .mk _ (S.note h _)
  | some st =>
    have hdefine := S.define h st.label line
    dsimp only
    generalize a.define st.label line = x, b.define st.label line = y at hdefine
    cases hdefine with
    | error e => exact .mk _ h
    | @ok a b h =>
      dsimp only
      cases st.mnemonic with
      | none => exact .mk _ h
      | some m =>
        have hcommit := S.commit (S.advance h) b.progress.locationCounter
        dsimp only
        rw [S.progress h]
        generalize a.advance.commit _ = x, b.advance.commit _ = y at hcommit
        cases hcommit with
        | error e => exact .mk _ (S.advance h)
        | ok h => exact .mk _ h

theorem encodeLine (S : Simulation R) (h : R written a b) (line : Int) (s : SourceLine) :
    SameAnswer (R written) (a.encodeLine line s) (b.encodeLine line s) := by
  unfold Assembler.encodeLine
  cases s.statement? with
  | none => exact .mk _ h
  | some st =>
    dsimp only
    cases st.mnemonic with
    | none =>
      have hlist := S.list h (Listing.record .blank st)
      dsimp only
      generalize a.list _ = x, b.list _ = y at hlist
      cases hlist with
      | error e => exact .mk _ h
      | ok h => exact .mk _ h
    | some m =>
      dsimp only
      rw [S.symbols h, S.progress h]
      generalize b.progress.locationCounter = address
      have hstart := S.note (S.advance h) (Instruction.assembleTrace b.symbols address line m st.operands)
      generalize a.advance.note _ = a, b.advance.note _ = b at hstart
      rw [S.symbols hstart]
      cases Instruction.assemble b.symbols address line m st.operands with
      | error e => exact .mk _ hstart
      | ok w =>
        have hlist := S.list hstart (Listing.record (.encoded address w) st)
        dsimp only
        generalize a.list _ = x, b.list _ = y at hlist
        cases hlist with
        | error e => exact .mk _ hstart
        | @ok a b hlisted =>
          have hemit := S.emit hlisted w
          dsimp only
          generalize a.emit w = x, b.emit w = y at hemit
          cases hemit with
          | error e => exact .mk _ hlisted
          | ok h => exact .mk _ h

theorem processLine (S : Simulation R) (h : R written a b) (pass : Pass) (line : Int) (s : SourceLine) :
    SameAnswer (R written) (Assembler.processLine pass a line s) (Assembler.processLine pass b line s) := by
  cases pass with
  | scan => exact S.scanLine h line s
  | encode => exact S.encodeLine h line s

theorem readLine (S : Simulation R) (h : R written a b) (pass : Pass) (line : Int) {raw raw' : List UInt8}
    (hraw : SourceLine.ofBytes raw = SourceLine.ofBytes raw') :
    SameAnswer (R written) (Assembler.readLine pass a line raw) (Assembler.readLine pass b line raw') := by
  have hat : R written (a.atLine line) (b.atLine line) := by
    unfold atLine
    rw [S.progress h]
    exact S.setProgress h _
  cases hr : SourceLine.ofBytes raw' with
  | error f =>
    rw [readLine_undecodable a line (hraw.trans hr), readLine_undecodable b line hr]
    exact .mk _ hat
  | ok s =>
    have hline := S.processLine (S.note hat (s.trace pass line)) pass line s
    rw [readLine_text a line (hraw.trans hr), readLine_text b line hr]
    generalize Assembler.processLine pass ((a.atLine line).note _) line s = x,
      Assembler.processLine pass ((b.atLine line).note _) line s = y at hline
    cases hline with
    | mk r h =>
      cases r with
      | error e => exact .mk _ h
      | ok _ => exact .mk _ h

theorem readLines (S : Simulation R) (h : R written a b) (pass : Pass) (line : Int) {raws raws' : List (List UInt8)}
    (hraws : raws.map SourceLine.ofBytes = raws'.map SourceLine.ofBytes) :
    SameAnswer (R written) (Assembler.readLines pass a line raws) (Assembler.readLines pass b line raws') := by
  induction raws generalizing a b line raws' with
  | nil =>
    rw [List.map_nil, eq_comm, List.map_eq_nil_iff] at hraws
    rw [hraws]
    exact .mk _ h
  | cons raw rest ih =>
    rw [List.map_cons, eq_comm, List.map_eq_cons_iff] at hraws
    obtain ⟨raw', rest', rfl, hraw, hrest⟩ := hraws
    have hline := S.readLine h pass line hraw.symm
    unfold Assembler.readLines
    generalize Assembler.readLine pass a line raw = x, Assembler.readLine pass b line raw' = y at hline
    cases hline with
    | mk f h =>
      cases f with
      | some f => exact .mk _ h
      | none => exact ih h (line + 1) hrest.symm

/-! ## Passes -/

theorem fail (S : Simulation R) (h : R written a b) (f : LineFailure) :
    SameAnswer (R written) (a.fail f) (b.fail f) := by
  unfold Assembler.fail
  cases f.fault with
  | refused cause line =>
    have hrecord := S.record h (cause.diagnostic line).record
    dsimp only
    generalize a.record _ = a, b.record _ = b at hrecord
    rw [S.output hrecord]
    split
    · rename_i s _ _
      have hlist := S.list hrecord (Listing.record (.failed cause.message) s.statement)
      generalize a.list _ = x, b.list _ = y at hlist
      cases hlist with
      | error e => exact .mk _ hrecord
      | ok h => exact .mk _ (S.finish h)
    · exact .mk _ (S.finish hrecord)
  | _ => exact .mk _ (S.finish (S.record h _))

theorem complete (S : Simulation R) (h : R written a b) (pass : Pass) :
    SameAnswer (R written) (Assembler.complete pass a) (Assembler.complete pass b) := by
  unfold Assembler.complete
  cases pass with
  | scan =>
    have hfreeze := S.freeze h
    generalize a.freeze = a, b.freeze = b at hfreeze
    dsimp only
    rw [S.progress hfreeze, S.symbols hfreeze, S.hasErrors (S.note hfreeze _)]
    exact .mk _ (S.note hfreeze _)
  | encode =>
    have hlist := S.list h (Listing.symbolBlock b.symbols)
    dsimp only
    rw [S.output h, S.symbols h, S.hasErrors h]
    generalize a.list _ = x, b.list _ = y at hlist
    cases b.output with
    | none => exact .mk _ (S.finish h)
    | some o =>
      cases hlist with
      | error e => exact .mk _ h
      | ok h =>
        dsimp only
        rw [S.hasErrors h]
        exact .mk _ (S.finish h)

theorem readSource (S : Simulation R) (h : R written a b) (pass : Pass) :
    SameAnswer (R written) (Assembler.readSource pass a) (Assembler.readSource pass b) := by
  unfold Assembler.readSource
  rw [S.sourceName h]
  obtain ⟨e, ha, hb⟩ | ⟨bytes, bytes', ha, hb, hlines⟩ := Directory.sourceLines_cases (S.sourceLines h)
  · rw [ha, hb]
    cases e with
    | nulInName => exact S.fail h _
    | _ => exact .mk _ (S.finish (S.record h _))
  · have hread := S.readLines h pass 1 hlines
    rw [ha, hb]
    dsimp only
    generalize Assembler.readLines pass a 1 _ = x, Assembler.readLines pass b 1 _ = y at hread
    cases hread with
    | mk f h =>
      cases f with
      | some f => exact S.fail h f
      | none => exact S.complete h pass

theorem runPass (S : Simulation R) (h : R written a b) (pass : Pass) :
    SameAnswer (R written) (a.runPass pass) (b.runPass pass) := by
  unfold Assembler.runPass
  rw [S.progress h, S.symbols h]
  cases b.progress.enter pass with
  | error e => exact .mk _ h
  | ok p => exact S.readSource (S.setSymbols (S.setProgress h p) _) pass

theorem runPasses (S : Simulation R) (h : R written a b) : SameAnswer (R written) a.runPasses b.runPasses := by
  have hscan := S.runPass (S.print h "\n--- Starting Pass 1 ---\n") .scan
  unfold Assembler.runPasses
  generalize (a.print _).runPass .scan = x, (b.print _).runPass .scan = y at hscan
  cases hscan with
  | @mk a b r h =>
    match r with
    | .error e => exact .mk _ h
    | .ok false => exact .mk _ (S.print h _)
    | .ok true =>
      have hbetween := S.print (S.note (S.print h "--- Pass 1 Complete ---\n") b.symbols.dump)
        "\n--- Starting Pass 2 ---\n"
      have hencode := S.runPass hbetween .encode
      dsimp only
      rw [S.symbols h]
      generalize (((a.print _).note _).print _).runPass .encode = x,
        (((b.print _).note _).print _).runPass .encode = y at hencode
      cases hencode with
      | mk r h =>
        match r with
        | .error e => exact .mk _ h
        | .ok false => exact .mk _ (S.print h _)
        | .ok true =>
          dsimp only
          rw [S.output h]
          exact .mk _ (S.print h _)

/-! ## Whole runs -/

theorem flushOutput (S : Simulation R) (h : R written a b) : R written a.flushOutput b.flushOutput := by
  unfold Assembler.flushOutput
  rw [S.output h]
  exact S.complain h _

theorem storeOutput (S : Simulation R) (h : R written a b) {listing : Option Path} {binary : Path}
    (hl : ∀ path, listing = some path → path ∈ written) (hb : binary ∈ written) :
    R written (a.storeOutput listing binary) (b.storeOutput listing binary) := by
  cases hout : b.output with
  | none =>
    rw [storeOutput_none ((S.output h).trans hout), storeOutput_none hout]
    exact h
  | some o =>
    rw [storeOutput_some ((S.output h).trans hout), storeOutput_some hout]
    cases listing with
    | none => exact S.overwrite h binary hb _
    | some path => exact S.overwrite (S.overwrite h path (hl path rfl) _) binary hb _

theorem closeOutput (S : Simulation R) (h : R written a b) : R written a.closeOutput b.closeOutput := by
  unfold Assembler.closeOutput
  rw [S.output h]
  exact S.setOutput h _

theorem printSummary (S : Simulation R) (h : R written a b) : R written a.printSummary b.printSummary := by
  unfold Assembler.printSummary
  rw [S.errors h]
  exact S.print (S.print (S.complain (S.print h _) _) _) _

theorem refuseOutput (S : Simulation R) (h : R written a b) (what name : String) (e : OpenError) :
    SameAnswer (R written) (a.refuseOutput what name e) (b.refuseOutput what name e) := by
  unfold Assembler.refuseOutput
  split
  · exact .mk _ h
  · exact .mk _ (S.record h _)

theorem openListing (S : Simulation R) (h : R written a b) :
    (∃ e, a.openListing = .error e ∧ b.openListing = .error e) ∨
      ∃ a' b' s path?, a.openListing = .ok (a', s, path?) ∧ b.openListing = .ok (b', s, path?) ∧
        a'.output = a.output ∧ a.outputPaths = Directory.pathOf a'.binaryName :: path?.toList ∧
        R (path?.toList ++ written) a' b' := by
  have hname : a.listingFile? = b.listingFile? := by
    unfold listingFile?
    rw [S.listingName h]
  cases hlist : b.listingFile? with
  | none =>
    have hpaths : a.outputPaths = Directory.pathOf a.binaryName :: [] := by rw [outputPaths, hname, hlist]; rfl
    exact .inr ⟨a, b, _, none, openListing_console (hname.trans hlist), openListing_console hlist, rfl, hpaths, h⟩
  | some name =>
    rw [openListing_file (hname.trans hlist), openListing_file hlist]
    obtain ⟨e, ha, hb⟩ | ⟨d, d', path, ha, hb, hopen⟩ := S.create h name
    · exact .inl ⟨e, by rw [ha]; rfl, by rw [hb]; rfl⟩
    · have hpath : path = Directory.pathOf name := (Directory.create_ok ha).2.2.1
      have hpaths : a.outputPaths = Directory.pathOf a.binaryName :: [path] := by
        rw [outputPaths, hname, hlist, hpath]
        rfl
      exact .inr ⟨{ a with files := d }, { b with files := d' }, _, some path, by rw [ha]; rfl, by rw [hb]; rfl, rfl,
        hpaths, hopen⟩

theorem writeOutput (S : Simulation R) (h : R written a b) : SameAnswer (Reached R a) a.writeOutput b.writeOutput := by
  unfold Assembler.writeOutput
  obtain ⟨e, ha, hb⟩ | ⟨x, y, s, path?, ha, hb, hout, hpaths, hopen⟩ := S.openListing h
  · have hrefuse := S.refuseOutput h "listing" (a.listingName.getD "") e
    rw [ha, hb, ← S.listingName h]
    exact .of_eq hrefuse.answer ⟨_, S.flushOutput hrefuse.related, .inl (refuseOutput_output a _ _ e)⟩
  · rw [ha, hb]
    dsimp only
    obtain ⟨e, hx, hy⟩ | ⟨d, d', path, hx, hy, hboth⟩ := S.create hopen x.binaryName
    · have hrefuse := S.refuseOutput hopen "binary" x.binaryName e
      rw [S.binaryName hopen] at hy hrefuse
      rw [hx, hy]
      dsimp only
      rw [S.binaryName hopen]
      exact .of_eq hrefuse.answer
        ⟨_, S.flushOutput hrefuse.related, .inl ((refuseOutput_output x _ _ e).trans hout)⟩
    · have hbinary : path = Directory.pathOf x.binaryName := (Directory.create_ok hx).2.2.1
      have hpasses := S.runPasses (S.setOutput hboth (some { listing := some s, binary := some { medium := .file } }))
      rw [S.binaryName hopen] at hy
      rw [hx, hy]
      refine hpasses.map (f := fun x => (x.flushOutput.storeOutput path? path).closeOutput) fun h =>
        ⟨_, S.closeOutput (S.storeOutput (S.flushOutput h) ?_ List.mem_cons_self), .inr ?_⟩
      · intro listing hl
        rw [hl]
        exact List.mem_cons_of_mem path List.mem_cons_self
      · rw [hpaths, ← hbinary]
        exact List.subset_append_left (path :: path?.toList) written

theorem assemble (S : Simulation R) (h : R written a b) : SameAnswer (Reached R a) a.assemble b.assemble := by
  have hstart := S.print h ("Starting assembly for: " ++ b.sourceName ++ "\n")
  unfold Assembler.assemble
  dsimp only
  rw [S.sourceName h]
  generalize "Starting assembly for: " ++ b.sourceName ++ "\n" = t at hstart
  have hout : (a.print t).output = a.output := rfl
  have hpaths : (a.print t).outputPaths = a.outputPaths := rfl
  generalize a.print t = x, b.print t = y at hstart hout hpaths
  unfold Reached
  rw [← hout, ← hpaths, S.sourceName hstart]
  obtain ⟨e, hx, hy⟩ | ⟨bytes, bytes', hx, hy, -⟩ := Directory.sourceLines_cases (S.sourceLines hstart)
  · rw [hx, hy]
    cases e with
    | nulInName => exact .mk _ ⟨_, hstart, .inl rfl⟩
    | _ => exact .mk _ ⟨_, S.printSummary (S.record hstart _), .inl rfl⟩
  · rw [hx, hy]
    refine (S.writeOutput hstart).map (f := Assembler.printSummary) ?_
    rintro _ _ ⟨_, h, hreached⟩
    exact ⟨_, S.printSummary h, hreached⟩

end Simulation

end Assembler

end MipsAssembler
