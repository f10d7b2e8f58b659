import MipsAssembler.Proofs.Comparison
/-!
# What a source says

A source of statements says one thing after another: it defines a label, or it gives an instruction (`SourceEvent`).
Blanks, comments and the lines that a statement is spread over are no part of it. `image` assembles events without any
lines, and a run over a source gives the image of what the source says (`Outcome.image`). So sources that say the same
are assembled to the same machine code (`assemble_of_events`).
-/

namespace MipsAssembler

inductive SourceEvent where
  | define (label : String)
  | instruction (mnemonic : String) (operands : List String)
deriving DecidableEq

/-- What a statement says. A label comes before the instruction on its line. -/
def Statement.events (st : Statement) : List SourceEvent :=
  (st.label.map .define).toList ++ (st.mnemonic.map (.instruction · st.operands)).toList

namespace Reference

/-- What the lines say. -/
def events (ls : List SourceLine) : List SourceEvent := ls.flatMap (·.statement.events)

/-- Every line of the source is a statement, and this is what they say. -/
def Says (source : List UInt8) (es : List SourceEvent) : Prop :=
  ∃ ls, Reads source ls ∧ (∀ s ∈ ls, s.statement?.isSome = true) ∧ events ls = es

/-! ## Assembling events -/

/-- The labels of the events so far. -/
structure Layout where
  /-- The symbols, without lines. -/
  placed : List Symbol := []
  /-- The labels that no instruction follows. -/
  waiting : List String := []
  next : Int := 0
  /-- Whether a label was defined twice. Nothing changes from then on. -/
  clash : Bool := false

namespace Layout

def step (l : Layout) (e : SourceEvent) : Layout :=
  if l.clash then l
  else
    match e with
    | .define name =>
      if name ∈ l.placed.map (·.name) ++ l.waiting then { l with clash := true }
      else { l with waiting := l.waiting ++ [name] }
    | .instruction .. =>
      { l with placed := l.placed ++ l.waiting.map (⟨·, l.next, none⟩), waiting := [], next := l.next + 4 }

def table (l : Layout) : SymbolTable := { symbols := l.placed }

end Layout

def layout (es : List SourceEvent) : Layout := es.foldl Layout.step {}

/-- The words of the events so far. -/
structure Assembly where
  words : List Int := []
  next : Int := 0
  /-- The code of the first instruction that cannot be assembled. Nothing changes from then on. -/
  fault : Option String := none

def Assembly.step (t : SymbolTable) (c : Assembly) (e : SourceEvent) : Assembly :=
  match e with
  | .define _ => c
  | .instruction mnemonic operands =>
    if c.fault.isSome then c
    else
      match Instruction.assemble t c.next none mnemonic operands with
      | .error fault => { c with fault := some fault.code }
      | .ok w => { c with words := c.words ++ [(w : Int)], next := c.next + 4 }

def assembly (t : SymbolTable) (es : List SourceEvent) : Assembly := es.foldl (Assembly.step t) {}

/-- What a run makes of its source, but for lines and the listing. -/
structure Image where
  answer : Bool
  words : List Int
  symbols : SymbolTable
  fault : Option String

/-- What becomes of these events. No instruction is assembled if a label is defined twice. -/
def image (es : List SourceEvent) : Image :=
  let l := layout es
  if l.clash then ⟨false, [], l.table, some Kind.duplicateSymbol.code⟩
  else
    let c := assembly l.table es
    ⟨c.fault.isNone, c.words, l.table, c.fault⟩

/-! ## Labels, line by line -/

variable {ls : List SourceLine} {s : SourceLine} {k : Nat} {name : String}

theorem events_snoc (ls : List SourceLine) (s : SourceLine) : events (ls ++ [s]) = events ls ++ s.statement.events := by
  simp [events]

theorem events_split (h : ls[k]? = some s) :
    events ls = events (ls.take k) ++ s.statement.events ++ events (ls.drop (k + 1)) := by
  obtain ⟨hk, rfl⟩ := List.getElem?_eq_some_iff.1 h
  have hls : ls = ls.take k ++ ls[k] :: ls.drop (k + 1) := by rw [List.getElem_cons_drop, List.take_append_drop]
  calc events ls = events (ls.take k ++ ls[k] :: ls.drop (k + 1)) := by rw [← hls]
    _ = events (ls.take k) ++ ls[k].statement.events ++ events (ls.drop (k + 1)) := by
      rw [events, List.flatMap_append, List.flatMap_cons, ← List.append_assoc]
      rfl

/-- The layout of these lines. -/
def laid (ls : List SourceLine) : Layout where
  placed := (symbols ls).map fun x => { x with line := none }
  waiting := (pending ls).map (·.name)
  next := address ls

/-- The labels of a layout are the labels of its lines. -/
theorem mem_laid : name ∈ (laid ls).placed.map (·.name) ++ (laid ls).waiting ↔ ∃ k, labelAt? ls k = some name := by
  have hnames : (laid ls).placed.map (·.name) ++ (laid ls).waiting = (definitions ls).map (·.2) := by
    rw [← scanned_names]
    simp [laid]
  rw [hnames, List.mem_map]
  constructor
  · rintro ⟨d, hd, rfl⟩
    exact ⟨d.1, mem_definitions.1 hd⟩
  · rintro ⟨k, hk⟩
    exact ⟨(k, name), mem_definitions.2 hk, rfl⟩

/-- A line moves the layout on, if its label is new. -/
theorem laid_snoc (h : Distinct (ls ++ [s])) : s.statement.events.foldl Layout.step (laid ls) = laid (ls ++ [s]) := by
  -- The label comes first, and waits even if an instruction on its own line follows.
  have hdefine : (s.statement.label.map SourceEvent.define).toList.foldl Layout.step (laid ls) =
      { laid ls with waiting := (pending ls ++ ownLabel ls s).map (·.name) } := by
    cases hl : s.statement.label with
    | none => simp [ownLabel, hl, laid]
    | some name =>
      have hnew : name ∉ (laid ls).placed.map (·.name) ++ (laid ls).waiting := by
        rw [mem_laid]
        rintro ⟨k, hk⟩
        exact (distinct_snoc.1 h).2 name hl k hk
      simp only [Option.map_some, Option.toList_some, List.foldl_cons, List.foldl_nil, Layout.step, if_neg hnew]
      simp [ownLabel, hl, laid]
  rw [Statement.events, List.foldl_append, hdefine]
  cases hm : s.statement.mnemonic with
  | none =>
    have hi : s.isInstruction = false := by simp [SourceLine.isInstruction, hm]
    simp [laid, symbols_snoc_other hi, pending_snoc_other hi, address_snoc, hi]
  | some m =>
    have hi : s.isInstruction = true := by simp [SourceLine.isInstruction, hm]
    simp [laid, Layout.step, symbols_snoc_instruction hi, pending_snoc_instruction hi, address_snoc, hi, commitAt,
      Function.comp_def]

theorem layout_events (h : Distinct ls) : layout (events ls) = laid ls := by
  induction ls using List.reverseRecOn with
  | nil => rfl
  | append_singleton ls s ih =>
    rw [events_snoc, layout, List.foldl_append, ← layout, ih (distinct_snoc.1 h).1, laid_snoc h]

theorem layout_stays {l : Layout} (h : l.clash = true) (es : List SourceEvent) : es.foldl Layout.step l = l := by
  induction es with
  | nil => rfl
  | cons e es ih =>
    have hstep : l.step e = l := by simp [Layout.step, h]
    rw [List.foldl_cons, hstep, ih]

/-- Where the scan stops, the layout stops. -/
theorem layout_stopped {e : Fault} (hs : ls[k]? = some s) (hd : Distinct (ls.take k))
    (he : scanFault? (ls.take k) s = some e) : layout (events ls) = { laid (ls.take k) with clash := true } := by
  obtain ⟨name, hl, he⟩ := Option.bind_eq_some_iff.1 he
  obtain ⟨j, hj, -⟩ := Option.map_eq_some_iff.1 he
  have hold : name ∈ (laid (ls.take k)).placed.map (·.name) ++ (laid (ls.take k)).waiting :=
    mem_laid.2 ⟨j, (firstLine_some.1 hj).1⟩
  have hclash : (laid (ls.take k)).step (.define name) = { laid (ls.take k) with clash := true } := by
    simp only [Layout.step, if_pos hold]
    rfl
  have hfirst : s.statement.events = .define name ::
      (s.statement.mnemonic.map (SourceEvent.instruction · s.statement.operands)).toList := by
    simp [Statement.events, hl]
  rw [events_split hs, List.append_assoc, layout, List.foldl_append, ← layout, layout_events hd, hfirst,
    List.cons_append, List.foldl_cons, hclash, layout_stays rfl]

/-- Names stand for the same addresses in the layout of the lines. -/
theorem lookup_laid {t : SymbolTable} (h : t.symbols = symbols ls) (name : String) :
    (t.lookup name).map (·.address) = ((laid ls).table.lookup name).map (·.address) := by
  simp [SymbolTable.lookup, Layout.table, laid, h, List.find?_map, Function.comp_def]

/-! ## Words, line by line -/

variable {t t' : SymbolTable} {codes : List Listing.Code} {c : Listing.Code} {ws : List Int}

theorem assembly_label (t : SymbolTable) (a : Assembly) (label : Option String) :
    (label.map SourceEvent.define).toList.foldl (Assembly.step t) a = a := by
  cases label <;> rfl

/-- Lines are assembled alike in tables with the same addresses, whatever their numbers. -/
theorem assemble_unlined (ht : ∀ name, (t.lookup name).map (·.address) = (t'.lookup name).map (·.address))
    (address : Int) (line : Option Int) (mnemonic : String) (operands : List String) :
    Alike (Instruction.assemble t address line mnemonic operands)
      (Instruction.assemble t' address none mnemonic operands) :=
  Instruction.assemble_alike _ _ _ _ (List.forall₂_same.2 fun token _ => Operand.same_self fun _ => ht token)

theorem assembly_snoc (ht : ∀ name, (t.lookup name).map (·.address) = (t'.lookup name).map (·.address))
    (h : code t ls s = .ok c) :
    s.statement.events.foldl (Assembly.step t') ⟨ws, address ls, none⟩ =
      ⟨ws ++ words [c], address (ls ++ [s]), none⟩ := by
  rw [Statement.events, List.foldl_append, assembly_label]
  rcases (code_ok.1 h).2 with ⟨hm, rfl⟩ | ⟨m, w, hm, rfl, hw⟩
  · simp [hm, words, address_snoc, SourceLine.isInstruction]
  · have hw' := (assemble_unlined ht _ _ _ _).ok_right hw
    simp [hm, words, address_snoc, SourceLine.isInstruction, Assembly.step, hw']

theorem assembly_events (ht : ∀ name, (t.lookup name).map (·.address) = (t'.lookup name).map (·.address))
    (h : Coded t ls codes) : assembly t' (events ls) = ⟨words codes, address ls, none⟩ := by
  induction ls using List.reverseRecOn generalizing codes with
  | nil =>
    obtain rfl : codes = [] := List.eq_nil_of_length_eq_zero h.1
    rfl
  | append_singleton ls s ih =>
    obtain ⟨codes, c, rfl, hcodes, hc⟩ := coded_of_snoc h
    rw [events_snoc, assembly, List.foldl_append, ← assembly, ih hcodes, assembly_snoc ht hc, words_append]

theorem assembly_stays {a : Assembly} (h : a.fault.isSome = true) (es : List SourceEvent) :
    es.foldl (Assembly.step t) a = a := by
  induction es with
  | nil => rfl
  | cons e es ih =>
    rw [List.foldl_cons]
    cases e with
    | define => exact ih
    | instruction => rw [Assembly.step, if_pos h, ih]

/-- Where encoding stops, assembling stops. -/
theorem assembly_stopped {e : Fault} (ht : ∀ name, (t.lookup name).map (·.address) = (t'.lookup name).map (·.address))
    (hs : ls[k]? = some s) (hvalid : s.statement?.isSome = true) (h : Coded t (ls.take k) codes)
    (he : code t (ls.take k) s = .error e) :
    assembly t' (events ls) = ⟨words codes, address (ls.take k), some e.code⟩ := by
  rcases code_failed.1 he with ⟨hnone, -⟩ | ⟨m, hm, hw⟩
  · rw [hnone] at hvalid
    cases hvalid
  · obtain ⟨e', hw', hcode⟩ := (assemble_unlined ht _ _ _ _).error_right hw
    have hstop : s.statement.events.foldl (Assembly.step t') ⟨words codes, address (ls.take k), none⟩ =
        ⟨words codes, address (ls.take k), some e.code⟩ := by
      rw [Statement.events, List.foldl_append, assembly_label]
      simp [hm, Assembly.step, hw', hcode]
    rw [events_split hs, assembly, List.foldl_append, List.foldl_append, ← assembly, assembly_events ht h, hstop,
      assembly_stays rfl]

/-! ## Whole runs -/

theorem image_clash {es : List SourceEvent} (h : (layout es).clash = true) :
    image es = ⟨false, [], (layout es).table, some Kind.duplicateSymbol.code⟩ := by
  simp only [image, h, if_true]

theorem image_distinct {es : List SourceEvent} (h : (layout es).clash = false) :
    image es = ⟨(assembly (layout es).table es).fault.isNone, (assembly (layout es).table es).words,
      (layout es).table, (assembly (layout es).table es).fault⟩ := by
  simp only [image, h, Bool.false_eq_true, if_false]

/-- The passes give the image of what the source says. -/
theorem Outcome.image {source : List UInt8} {es : List SourceEvent} {r : Result} (h : Outcome source r)
    (hs : Says source es) :
    r.answer = (Reference.image es).answer ∧
      r.binary = Text.join "" ((Reference.image es).words.map Output.wordLine) ∧
      (∀ name, (r.symbols.lookup name).map (·.address) =
        ((Reference.image es).symbols.lookup name).map (·.address)) ∧
      r.errors.map (·.code) = (Reference.image es).fault.toList := by
  obtain ⟨ls, hreads, hvalid, rfl⟩ := hs
  cases h with
  | assembled hreads' hd hcodes =>
    obtain rfl := reads_unique hreads hreads'
    have hlayout := layout_events hd
    rw [image_distinct (by rw [hlayout]; rfl), hlayout, assembly_events (lookup_laid rfl) hcodes]
    exact ⟨rfl, rfl, lookup_laid rfl, rfl⟩
  | scanStopped hends =>
    obtain ⟨k, s, e, rfl, hs, he, rfl⟩ := hends.stopped_at hreads
    have hlayout := layout_stopped hs ((passes_scanFault _).1 hends.passes) he
    have hcode : e.code = Kind.duplicateSymbol.code := by
      obtain ⟨name, -, he⟩ := Option.bind_eq_some_iff.1 he
      obtain ⟨j, -, rfl⟩ := Option.map_eq_some_iff.1 he
      rfl
    rw [image_clash (by rw [hlayout]), hlayout]
    refine ⟨rfl, rfl, lookup_laid rfl, ?_⟩
    show [(Assembler.LineFailure.record _).code] = _
    rw [Assembler.LineFailure.record_code, hcode]
    rfl
  | encodeStopped hall hd hends hcodes =>
    obtain rfl := reads_unique hreads hall
    obtain ⟨k, s, e, rfl, hs, he, rfl⟩ := hends.stopped_at hreads
    -- The layout is that of all lines, the words are those of the lines before the one that fails.
    have hlayout := layout_events hd
    have hwords := assembly_stopped (lookup_laid rfl) hs (hvalid s (List.mem_of_getElem? hs)) hcodes (codeFault_some he)
    rw [image_distinct (by rw [hlayout]; rfl), hlayout, hwords]
    refine ⟨rfl, rfl, lookup_laid rfl, ?_⟩
    show [(Assembler.LineFailure.record _).code] = _
    rw [Assembler.LineFailure.record_code]
    rfl

end Reference

namespace Assembler

open Reference

variable {a a' : Assembler} {source source' : List UInt8} {es : List SourceEvent}

/-- Two runs over sources that say the same give the same answer, write the same machine code, complete or up to the
instruction that fails, and give every label the same address. If they fail, their errors have the same code. -/
theorem assemble_of_events (h : a.Fresh source) (h' : a'.Fresh source') (hs : Says source es)
    (hs' : Says source' es) :
    ∃ b b' answer listing listing' binary, a.assemble = (b, .ok answer) ∧ a'.assemble = (b', .ok answer) ∧
      Wrote a b listing binary ∧ Wrote a' b' listing' binary ∧
      (∀ name, (b.symbols.lookup name).map (·.address) = (b'.symbols.lookup name).map (·.address)) ∧
      (answer = false → ∃ e e', b.errors = [e] ∧ b'.errors = [e'] ∧ e.code = e'.code) := by
  obtain ⟨b, r, hb, hout, hleaves⟩ := h.outcome
  obtain ⟨b', r', hb', hout', hleaves'⟩ := h'.outcome
  obtain ⟨hanswer, hbinary, hsymbols, hcodes⟩ := hout.image hs
  obtain ⟨hanswer', hbinary', hsymbols', hcodes'⟩ := hout'.image hs'
  refine ⟨b, b', r.answer, r.listing, r'.listing, r.binary, hb, ?_, hleaves.wrote, ?_, ?_, ?_⟩
  · rw [hb', hanswer', hanswer]
  · rw [hbinary, ← hbinary']
    exact hleaves'.wrote
  · intro name
    rw [hleaves.symbols, hleaves'.symbols, hsymbols, hsymbols']
  · intro hfails
    obtain ⟨-, -, e, he, -⟩ := hout.stops hfails
    obtain ⟨-, -, e', he', -⟩ := hout'.stops (by rw [hanswer', ← hanswer, hfails])
    rw [← hcodes', he, he'] at hcodes
    exact ⟨e, e', hleaves.errors.trans he, hleaves'.errors.trans he', (List.cons.inj hcodes).1⟩

/-- A loop on one line. -/
def tightLoop : List UInt8 := Utf8.bytes "loop: j loop\n"

/-- The same loop, spread over lines, with comments. -/
def spreadLoop : List UInt8 := Utf8.bytes "loop:\n# again\n\tj loop # up"

theorem assemble_of_events_of_loops :
    Says tightLoop [.define "loop", .instruction "j" ["loop"]] ∧
    Says spreadLoop [.define "loop", .instruction "j" ["loop"]] ∧
    ∃ b b' answer listing listing' binary, (alone tightLoop).assemble = (b, .ok answer) ∧
      (alone spreadLoop).assemble = (b', .ok answer) ∧ Wrote (alone tightLoop) b listing binary ∧
      Wrote (alone spreadLoop) b' listing' binary := by
  have hs : Says tightLoop [.define "loop", .instruction "j" ["loop"]] :=
    ⟨[SourceLine.parse "loop: j loop\n"], by decide +kernel⟩
  have hs' : Says spreadLoop [.define "loop", .instruction "j" ["loop"]] :=
    ⟨["loop:\n", "# again\n", "\tj loop # up"].map SourceLine.parse, by decide +kernel⟩
  obtain ⟨b, b', answer, listing, listing', binary, hb, hb', hw, hw', -⟩ :=
    assemble_of_events (alone_fresh tightLoop) (alone_fresh spreadLoop) hs hs'
  exact ⟨hs, hs', b, b', answer, listing, listing', binary, hb, hb', hw, hw'⟩

end Assembler

end MipsAssembler
