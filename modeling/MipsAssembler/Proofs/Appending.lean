import MipsAssembler.Proofs.Comparison
/-!
# More source behind a source

Lines behind a source give its table more symbols and take none away (`extends_append`). A line with a code keeps it in
a larger table (`code_extends`), so encoding writes for these lines what it wrote before, whatever comes behind them.
`assemble_append` says so for runs.
-/

namespace MipsAssembler

namespace Utf8

variable {bs : List UInt8}

/-- Nothing of a line is left open: the text is empty or ends with a newline. -/
def EndsLine (bs : List UInt8) : Prop := ∀ b ∈ bs.getLast?, b.toNat = 10

instance (bs : List UInt8) : Decidable (EndsLine bs) := Option.decidableForallMem bs.getLast?

theorem lines_ne_nil (h : bs ≠ []) : lines bs ≠ [] := by
  cases bs with
  | nil => exact absurd rfl h
  | cons b rest =>
    unfold lines
    split
    · exact List.cons_ne_nil _ _
    · split <;> exact List.cons_ne_nil _ _

theorem EndsLine.of_cons {b : UInt8} (h : EndsLine (b :: bs)) : EndsLine bs := by
  intro c hc
  cases bs with
  | nil => cases hc
  | cons b' bs => exact h c (by rw [List.getLast?_cons_cons]; exact hc)

/-- Lines that are over are not changed by what comes behind them. -/
theorem lines_append (h : EndsLine bs) (more : List UInt8) : lines (bs ++ more) = lines bs ++ lines more := by
  induction bs with
  | nil => rfl
  | cons b rest ih =>
    rw [List.cons_append, lines, lines, ih h.of_cons]
    by_cases hb : b.toNat = 10
    · rw [if_pos hb, if_pos hb, List.cons_append]
    -- The byte is not the last one, so it joins a line that is there already.
    · have hrest : rest ≠ [] := by
        rintro rfl
        exact hb (h b rfl)
      obtain ⟨line, others, hlines⟩ := List.exists_cons_of_ne_nil (lines_ne_nil hrest)
      rw [if_neg hb, if_neg hb, hlines]
      rfl

end Utf8

/-! ## Larger tables -/

/-- The second table has all symbols of the first. -/
def SymbolTable.Extends (t t' : SymbolTable) : Prop := ∀ name x, t.lookup name = some x → t'.lookup name = some x

variable {t t' : SymbolTable}

theorem Operand.resolveOne_extends {line : Option Int} {token : String} {first : List String} (ht : t.Extends t')
    (h : resolveOne t line token = .ok first) : resolveOne t' line token = .ok first := by
  cases hl : isLabelReference token with
  | true =>
    obtain ⟨x, hx, rfl⟩ := resolveOne_label hl h
    exact resolveOne_lookup hl (ht token x hx)
  | false => exact (resolveOne_alike line line (.plain hl)).ok_right h

theorem Operand.resolve_extends {line : Option Int} {tokens operands : List String} (ht : t.Extends t')
    (h : resolve t line tokens = .ok operands) : resolve t' line tokens = .ok operands := by
  induction tokens generalizing operands with
  | nil => exact h
  | cons token rest ih =>
    obtain ⟨first, more, hfirst, hmore, rfl⟩ := resolve_cons.1 h
    exact resolve_cons.2 ⟨first, more, resolveOne_extends ht hfirst, ih hmore, rfl⟩

theorem Instruction.assemble_extends {address : Int} {line : Option Int} {mnemonic : String} {tokens : List String}
    {w : Nat} (ht : t.Extends t') (h : assemble t address line mnemonic tokens = .ok w) :
    assemble t' address line mnemonic tokens = .ok w := by
  obtain ⟨operands, hops, hw⟩ := assemble_ok.1 h
  exact assemble_ok.2 ⟨operands, Operand.resolve_extends ht hops, hw⟩

namespace Reference

variable {ls ms done : List SourceLine} {s : SourceLine} {c : Listing.Code} {codes codes' : List Listing.Code} {k : Nat}
  {source more : List UInt8}

theorem code_extends (ht : t.Extends t') (h : code t ls s = .ok c) : code t' ls s = .ok c := by
  obtain ⟨hvalid, h⟩ := code_ok.1 h
  refine code_ok.2 ⟨hvalid, ?_⟩
  rcases h with h | ⟨m, w, hm, hc, hw⟩
  · exact .inl h
  · exact .inr ⟨m, w, hm, hc, Instruction.assemble_extends ht hw⟩

theorem coded_extends (ht : t.Extends t') (h : Coded t ls codes) : Coded t' ls codes :=
  ⟨h.1, fun k s c hs hc => code_extends ht (h.2 k s c hs hc)⟩

/-- The codes of the first lines are the first codes. -/
theorem codes_of_append (h : Coded t ls codes) (h' : Coded t (ls ++ ms) codes') : ∃ rest, codes' = codes ++ rest := by
  have hle : ls.length ≤ codes'.length := by
    rw [h'.1, List.length_append]
    exact Nat.le_add_right _ _
  have hfirst : Coded t ls (codes'.take ls.length) := by
    refine ⟨List.length_take_of_le hle, fun k s c hs hc => ?_⟩
    have hk : k < ls.length := (List.getElem?_eq_some_iff.1 hs).1
    rw [List.getElem?_take_of_lt hk] at hc
    have hcode := h'.2 k s c (by rw [List.getElem?_append_left hk, hs]) hc
    rwa [List.take_append_of_le_length (Nat.le_of_lt hk)] at hcode
  refine ⟨codes'.drop ls.length, ?_⟩
  rw [coded_unique h hfirst, List.take_append_drop]

/-! ## More lines -/

theorem labelAt_append (h : k < ls.length) : labelAt? (ls ++ ms) k = labelAt? ls k := by
  rw [labelAt?, labelAt?, List.getElem?_append_left h]

theorem distinct_of_append (h : Distinct (ls ++ ms)) : Distinct ls := by
  intro i j name hi hj
  exact h i j name ((labelAt_append (labelAt_lt hi)).trans hi) ((labelAt_append (labelAt_lt hj)).trans hj)

/-- What a line defines it defines whatever comes behind. -/
theorem Defines.append {x : Symbol} (h : Defines ls k x) (ms : List SourceLine) : Defines (ls ++ ms) k x := by
  obtain ⟨hlabel, ⟨i, s, hki, hs, hi⟩, haddress, hline⟩ := h
  have hk := labelAt_lt hlabel
  have hlt : i < ls.length := (List.getElem?_eq_some_iff.1 hs).1
  refine ⟨(labelAt_append hk).trans hlabel, ⟨i, s, hki, by rw [List.getElem?_append_left hlt, hs], hi⟩, ?_, hline⟩
  rw [haddress, List.take_append_of_le_length (Nat.le_of_lt hk)]

/-- Labels that nothing followed get an address from the lines behind. All others have theirs. -/
theorem extends_append (h : Distinct (ls ++ ms)) : (table ls).Extends (table (ls ++ ms)) := by
  intro name x hx
  obtain ⟨hname, k, hk⟩ := (lookup_table (distinct_of_append h)).1 hx
  exact (lookup_table h).2 ⟨hname, k, hk.append ms⟩

theorem reads_append (h : Utf8.EndsLine source) (hs : Reads source ls) (hm : Reads more ms) :
    Reads (source ++ more) (ls ++ ms) := by
  rw [Reads, Utf8.lines_append h, List.map_append, hs, hm, List.map_append]

theorem reads_of_append {all : List SourceLine} (h : Utf8.EndsLine source) (hs : Reads source ls)
    (hall : Reads (source ++ more) all) : ∃ ms, all = ls ++ ms := by
  rw [Reads, Utf8.lines_append h, List.map_append, hs] at hall
  obtain ⟨ls', ms, rfl, hls, -⟩ := List.map_eq_append_iff.1 hall.symm
  obtain rfl : ls' = ls := List.map_injective_iff.2 (fun _ _ => Except.ok.inj) hls
  exact ⟨ms, rfl⟩

/-- Encoding gets past lines that have a code. -/
theorem append_of_stopped {raws : List (List UInt8)} {f : Assembler.LineFailure} (hcodes : Coded t ls codes)
    (hreads : raws.map SourceLine.ofBytes = (ls ++ ms).map .ok)
    (h : Assembler.Ends (codeFault? t) raws done (some f)) : ∃ rest, done = ls ++ rest := by
  obtain ⟨k, s, e, rfl, hs, he, -⟩ := h.stopped_at hreads
  -- A line of `ls` stands behind the same lines as before, so it has the code that it had.
  rcases Nat.lt_or_ge k ls.length with hk | hk
  · rw [List.getElem?_append_left hk] at hs
    rw [List.take_append_of_le_length (Nat.le_of_lt hk), (passes_codeFault t ls).2 ⟨codes, hcodes⟩ k s hs] at he
    cases he
  · exact ⟨ms.take (k - ls.length), by rw [List.take_append, List.take_of_length_le hk]⟩

/-- What comes behind a source that is assembled leaves its machine code and its symbols alone, if its labels are
new. If it fails, it does so behind the source. -/
theorem Outcome.append {r : Result} (hall : Reads (source ++ more) (ls ++ ms)) (hd : Distinct (ls ++ ms))
    (hcodes : Coded (table ls) ls codes) (h : Outcome (source ++ more) r) :
    (∃ rest, r.binary = machineCode codes ++ rest) ∧ (table ls).Extends r.symbols ∧
      ∀ e ∈ r.errors, ∃ k : Nat, ls.length < k ∧ e.line = some (k : Int) := by
  have hext := extends_append hd
  have hold := coded_extends hext hcodes
  cases h with
  | assembled hreads _ hcodes' =>
    obtain rfl := reads_unique hall hreads
    obtain ⟨rest, rfl⟩ := codes_of_append hold hcodes'
    exact ⟨⟨machineCode rest, machineCode_append codes rest⟩, hext, nofun⟩
  -- The scan finds each label once, so only encoding can stop.
  | scanStopped hends => exact absurd ((passes_scanFault _).2 hd) (hends.not_complete hall)
  | encodeStopped hreads _ hends hcodes' =>
    obtain rfl := reads_unique hall hreads
    obtain ⟨lines, rfl⟩ := append_of_stopped hold hall hends
    obtain ⟨rest, rfl⟩ := codes_of_append hold hcodes'
    refine ⟨⟨machineCode rest, machineCode_append codes rest⟩, hext, fun e he => ?_⟩
    obtain rfl := List.mem_singleton.1 he
    refine ⟨(ls ++ lines).length + 1, ?_, hends.record_line fun _ _ _ _ => codeFault_line⟩
    rw [List.length_append]
    omega

end Reference

namespace Assembler

open Reference

variable {a a' b : Assembler} {source more : List UInt8}

/-- A scan that succeeds has read every line and found each label once. -/
theorem distinct_of_scan (hr : a.files.read a.sourceName = .ok source)
    (h : (a.runPassNumbered (some 1)).2 = .ok true) : ∃ ls, Reads source ls ∧ Distinct ls := by
  obtain ⟨ls, b, f, hends, hfin⟩ := runPass_scan hr
  cases f with
  | none =>
    cases hends with
    | complete hreads hp => exact ⟨ls, hreads, (passes_scanFault ls).1 hp⟩
  | some f =>
    have hrun : (a.runPass .scan).2 = .ok true := h
    rw [hfin.2] at hrun
    exact absurd hrun (fail_answer b f)

/-- A source that is assembled and ends with a newline, and more source behind it on which the scan succeeds. The
machine code of both starts with that of the first, and all its symbols keep address and line. This holds also if the
second run fails, and then it fails on a line behind the first source. -/
theorem assemble_append (hend : Utf8.EndsLine source) (h : a.Fresh source) (hb : a.assemble = (b, .ok true))
    (h' : a'.Fresh (source ++ more)) (hscan : (a'.runPassNumbered (some 1)).2 = .ok true) :
    ∃ b' answer listing listing' binary rest, a'.assemble = (b', .ok answer) ∧ Wrote a b listing binary ∧
      Wrote a' b' listing' (binary ++ rest) ∧
      (∀ name x, b.symbols.lookup name = some x → b'.symbols.lookup name = some x) ∧
      ∀ e ∈ b'.errors, ∃ k : Nat, (Utf8.lines source).length < k ∧ e.line = some (k : Int) := by
  obtain ⟨r, hanswer, hout, hleaves⟩ := h.outcome_of hb
  obtain ⟨ls, codes, hreads, -, hcodes, rfl⟩ := hout.assembled_of_answer hanswer
  obtain ⟨all, hall, hd⟩ := distinct_of_scan h'.ready.reads hscan
  obtain ⟨ms, rfl⟩ := reads_of_append hend hreads hall
  obtain ⟨b', r', hb', hout', hleaves'⟩ := h'.outcome
  obtain ⟨⟨rest, hbinary⟩, hsymbols, herrors⟩ := hout'.append hall hd hcodes
  have hlength : (Utf8.lines source).length = ls.length := by simpa using congrArg List.length hreads
  refine ⟨b', r'.answer, _, r'.listing, _, rest, hb', hleaves.wrote, ?_, ?_, ?_⟩
  · have hwrote := hleaves'.wrote
    rwa [hbinary] at hwrote
  · rw [hleaves.symbols, hleaves'.symbols]
    exact hsymbols
  · rw [hleaves'.errors, hlength]
    exact herrors

/-- A source whose last label has no instruction, yet. -/
def openEnd : List UInt8 := Utf8.bytes "up: j up\nend:\n"

/-- An instruction that gives the label an address, and cannot be encoded. -/
def strayTail : List UInt8 := Utf8.bytes " j gone"

theorem assemble_append_of_strayTail : ∃ b b' listing listing' binary rest,
    (alone openEnd).assemble = (b, .ok true) ∧ (alone (openEnd ++ strayTail)).assemble = (b', .ok false) ∧
      Wrote (alone openEnd) b listing binary ∧ Wrote (alone (openEnd ++ strayTail)) b' listing' (binary ++ rest) ∧
      ∀ name x, b.symbols.lookup name = some x → b'.symbols.lookup name = some x := by
  obtain ⟨b, hb⟩ := exists_of_answer (show (alone openEnd).assemble.2 = .ok true by decide +kernel)
  obtain ⟨c, hc⟩ :=
    exists_of_answer (show (alone (openEnd ++ strayTail)).assemble.2 = .ok false by decide +kernel)
  have hscan : ((alone (openEnd ++ strayTail)).runPassNumbered (some 1)).2 = .ok true := by decide +kernel
  obtain ⟨b', answer, listing, listing', binary, rest, hb', hw, hw', hsymbols, -⟩ :=
    assemble_append (by decide +kernel) (alone_fresh openEnd) hb (alone_fresh _) hscan
  rw [hc] at hb'
  cases hb'
  exact ⟨b, c, listing, listing', binary, rest, hb, hc, hw, hw', hsymbols⟩

end Assembler

end MipsAssembler
