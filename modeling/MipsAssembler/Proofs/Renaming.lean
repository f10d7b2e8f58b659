import Mathlib.Logic.Equiv.Basic
import MipsAssembler.Proofs.Comparison
import MipsAssembler.Proofs.Grammar
/-!
# Names of labels

A renaming takes names of labels to names of labels, no two to the same. Extended to all tokens it is still injective
(`Renaming.token_injective`), so a renamed name is found where the name was, and nothing that a pass asks of its lines
changes but the names. `assemble_renamed` says what that means for a run.
-/

namespace MipsAssembler

namespace Statement

theorem isLabel_iff {name : String} :
    IsLabel name ↔ name.toList.all isLabelChar = true ∧ name.toList.head?.any (!·.isDigit) = true := by
  constructor
  · intro h
    obtain ⟨c, cs, hc⟩ := List.exists_cons_of_ne_nil h.nonempty
    have hfirst := h.first c (by rw [hc]; rfl)
    exact ⟨List.all_eq_true.2 fun c hc => isLabelChar_iff.2 (h.chars c hc), by simp [hc, hfirst]⟩
  · rintro ⟨hchars, hfirst⟩
    refine ⟨?_, fun c hc => isLabelChar_iff.1 (List.all_eq_true.1 hchars c hc), fun c hc => ?_⟩
    · intro hnil
      rw [hnil] at hfirst
      cases hfirst
    · simpa [hc] using hfirst

instance (name : String) : Decidable (IsLabel name) := decidable_of_iff _ isLabel_iff.symm

/-- An argument that is a label's name refers to a label. -/
theorem IsLabel.isLabelReference {name : String} (h : IsLabel name) : Operand.isLabelReference name = true := by
  unfold Operand.isLabelReference
  cases hc : name.toList with
  | nil => rfl
  | cons c cs =>
    have hdigit : c.isDigit = false := h.first c (by rw [hc]; rfl)
    have hchar := h.chars c (by rw [hc]; exact List.mem_cons_self)
    have hdollar : c ≠ '$' := by
      rintro rfl
      exact absurd hchar (by decide)
    have hminus : c ≠ '-' := by
      rintro rfl
      exact absurd hchar (by decide)
    simp [hdigit, hdollar, hminus]

end Statement

/-- What a label can be called. -/
abbrev LabelName := {name : String // Statement.IsLabel name}

/-- New names for labels, no two the same. -/
structure Renaming where
  rename : LabelName → LabelName
  injective : Function.Injective rename

namespace Renaming

variable (r : Renaming) {x name : String}

/-- What becomes of a token. It stays as it is if no label can be called so. -/
def token (token : String) : String := if h : Statement.IsLabel token then r.rename ⟨token, h⟩ else token

theorem token_isLabel : Statement.IsLabel (r.token name) ↔ Statement.IsLabel name := by
  unfold token
  split
  · rename_i h
    exact iff_of_true (r.rename ⟨name, h⟩).2 h
  · rfl

theorem token_injective : Function.Injective r.token := by
  intro x y h
  -- A name becomes a name and anything else stays, so both are names or none is.
  have hlabel : Statement.IsLabel x ↔ Statement.IsLabel y := by rw [← r.token_isLabel, h, r.token_isLabel]
  by_cases hx : Statement.IsLabel x
  · have hy := hlabel.1 hx
    rw [token, token, dif_pos hx, dif_pos hy] at h
    exact congrArg Subtype.val (r.injective (Subtype.ext h))
  · have hy := fun hy => hx (hlabel.2 hy)
    rwa [token, token, dif_neg hx, dif_neg hy] at h

/-- A token that does not refer to a label stays as it is. -/
theorem token_plain (h : Operand.isLabelReference x = false) : r.token x = x := by
  refine dif_neg fun hlabel => ?_
  rw [hlabel.isLabelReference] at h
  cases h

theorem isLabelReference_token : Operand.isLabelReference (r.token x) = Operand.isLabelReference x := by
  by_cases h : Statement.IsLabel x
  · rw [h.isLabelReference, (r.token_isLabel.2 h).isLabelReference]
  · rw [Renaming.token, dif_neg h]

end Renaming

/-! ## Renamed tables -/

def Symbol.rename (r : Renaming) (x : Symbol) : Symbol := { x with name := r.token x.name }

def StagedLabel.rename (r : Renaming) (l : StagedLabel) : StagedLabel := { l with name := r.token l.name }

/-- The table with all its names renamed. -/
def SymbolTable.rename (r : Renaming) (t : SymbolTable) : SymbolTable :=
  { t with symbols := t.symbols.map (·.rename r), staged := t.staged.map (·.rename r) }

theorem SymbolTable.lookup_rename (r : Renaming) (t : SymbolTable) (name : String) :
    (t.rename r).lookup (r.token name) = (t.lookup name).map (·.rename r) := by
  simp only [lookup, rename, List.find?_map, Function.comp_def, Symbol.rename, r.token_injective.eq_iff]

/-- An argument stands for the same once it is renamed, in the renamed table. -/
theorem Operand.same_rename (r : Renaming) (t : SymbolTable) (token : String) :
    Same t (t.rename r) token (r.token token) := by
  cases hl : isLabelReference token with
  | false =>
    rw [r.token_plain hl]
    exact .plain hl
  | true =>
    refine .label hl (by rw [r.isLabelReference_token, hl]) ?_
    rw [SymbolTable.lookup_rename, Option.map_map]
    rfl

/-! ## Renamed lines -/

/-- The second line is the first with its label and the labels among its arguments renamed, but for its text. -/
structure SourceLine.Renamed (r : Renaming) (s s' : SourceLine) : Prop where
  valid : s.statement?.isSome = s'.statement?.isSome
  label : s'.statement.label = s.statement.label.map r.token
  mnemonic : s.statement.mnemonic = s'.statement.mnemonic
  operands : s'.statement.operands = s.statement.operands.map r.token

namespace Reference

open SourceLine (Renamed)

variable {r : Renaming} {ls ls' : List SourceLine} {s s' : SourceLine} {t : SymbolTable}
  {codes : List Listing.Code} {k : Nat}

theorem isInstruction_renamed (h : Renamed r s s') : s'.isInstruction = s.isInstruction := by
  rw [SourceLine.isInstruction, SourceLine.isInstruction, h.mnemonic]

theorem count_renamed (h : List.Forall₂ (Renamed r) ls ls') : count ls' = count ls := by
  induction h with
  | nil => rfl
  | cons hs _ ih =>
    unfold count at ih ⊢
    rw [List.countP_cons, List.countP_cons, ih, isInstruction_renamed hs]

theorem address_renamed (h : List.Forall₂ (Renamed r) ls ls') : address ls' = address ls := by
  rw [address, address, count_renamed h]

theorem any_renamed (h : List.Forall₂ (Renamed r) ls ls') :
    ls'.any SourceLine.isInstruction = ls.any SourceLine.isInstruction := by
  induction h with
  | nil => rfl
  | cons hs _ ih => rw [List.any_cons, List.any_cons, ih, isInstruction_renamed hs]

theorem reaches_renamed (h : List.Forall₂ (Renamed r) ls ls') (k : Nat) : reaches ls' k = reaches ls k :=
  any_renamed (List.forall₂_drop k h)

theorem labelAt_renamed (h : List.Forall₂ (Renamed r) ls ls') (k : Nat) :
    labelAt? ls' k = (labelAt? ls k).map r.token := by
  induction h generalizing k with
  | nil => rfl
  | cons hs _ ih =>
    cases k with
    | zero => exact hs.label
    | succ k => exact ih k

theorem labelAt_renamed_iff (h : List.Forall₂ (Renamed r) ls ls') {name : String} :
    labelAt? ls' k = some (r.token name) ↔ labelAt? ls k = some name := by
  rw [labelAt_renamed h]
  exact (Option.map_injective r.token_injective).eq_iff (b := some name)

theorem definitions_renamed (h : List.Forall₂ (Renamed r) ls ls') :
    definitions ls' = (definitions ls).map fun d => (d.1, r.token d.2) := by
  unfold definitions
  rw [List.map_filterMap, h.length_eq]
  refine List.filterMap_congr fun k _ => ?_
  rw [labelAt_renamed h, Option.map_map, Option.map_map]
  rfl

theorem symbols_renamed (h : List.Forall₂ (Renamed r) ls ls') : symbols ls' = (symbols ls).map (·.rename r) := by
  unfold symbols
  rw [definitions_renamed h, List.filter_map, List.map_map, List.map_map]
  have hfilter : (definitions ls).filter ((reaches ls' ·.1) ∘ fun d => (d.1, r.token d.2)) =
      (definitions ls).filter (reaches ls ·.1) := List.filter_congr fun d _ => reaches_renamed h d.1
  rw [hfilter]
  refine List.map_congr_left fun d _ => ?_
  simp [symbol, Symbol.rename, address_renamed (List.forall₂_take d.1 h)]

theorem pending_renamed (h : List.Forall₂ (Renamed r) ls ls') : pending ls' = (pending ls).map (·.rename r) := by
  unfold pending
  rw [definitions_renamed h, List.filter_map, List.map_map, List.map_map]
  have hfilter : (definitions ls).filter ((!reaches ls' ·.1) ∘ fun d => (d.1, r.token d.2)) =
      (definitions ls).filter (!reaches ls ·.1) := List.filter_congr fun d _ => by simp [reaches_renamed h d.1]
  rw [hfilter]
  rfl

theorem table_renamed (h : List.Forall₂ (Renamed r) ls ls') : table ls' = (table ls).rename r := by
  simp [table, SymbolTable.rename, symbols_renamed h]

theorem scanned_renamed (h : List.Forall₂ (Renamed r) ls ls') : scanned ls' = (scanned ls).rename r := by
  simp [scanned, SymbolTable.rename, symbols_renamed h, pending_renamed h]

/-! ## What a pass asks of renamed lines -/

theorem firstLine_renamed (h : List.Forall₂ (Renamed r) ls ls') (name : String) :
    firstLine? ls' (r.token name) = firstLine? ls name := by
  simp only [firstLine?, labelAt_renamed_iff h, h.length_eq]

theorem scanFault_renamed (h : List.Forall₂ (Renamed r) ls ls') (hs : Renamed r s s') :
    (scanFault? ls' s').map Fault.code = (scanFault? ls s).map Fault.code := by
  unfold scanFault?
  rw [hs.label]
  cases s.statement.label with
  | none => rfl
  | some name =>
    simp only [Option.map_some, Option.bind_some, firstLine_renamed h, Option.map_map]
    rfl

theorem code_renamed (h : List.Forall₂ (Renamed r) ls ls') (hs : Renamed r s s') :
    Alike (code t ls s) (code (t.rename r) ls' s') := by
  refine code_alike hs.valid hs.mnemonic (address_renamed h).symm ?_
  rw [hs.operands, List.forall₂_map_right_iff]
  exact List.forall₂_same.2 fun token _ => Operand.same_rename r t token

theorem codeFault_renamed (h : List.Forall₂ (Renamed r) ls ls') (hs : Renamed r s s') :
    (codeFault? (t.rename r) ls' s').map Fault.code = (codeFault? t ls s).map Fault.code := by
  have hcode := code_renamed (t := t) h hs
  unfold codeFault?
  generalize code t ls s = x, code (t.rename r) ls' s' = y at hcode
  cases hcode with
  | ok => rfl
  | error he => exact congrArg some he.symm

theorem coded_renamed (h : List.Forall₂ (Renamed r) ls ls') (hcodes : Coded t ls codes) :
    Coded (t.rename r) ls' codes := by
  refine ⟨by rw [hcodes.1, h.length_eq], fun k s' c hs' hc => ?_⟩
  obtain ⟨hk', rfl⟩ := List.getElem?_eq_some_iff.1 hs'
  have hk : k < ls.length := h.length_eq ▸ hk'
  have hcode := hcodes.2 k ls[k] c (List.getElem?_eq_getElem hk) hc
  exact (code_renamed (List.forall₂_take k h) (h.get hk hk')).ok_right hcode

end Reference

namespace Assembler

open Reference SourceLine

variable {r : Renaming} {check check' : Check} {raws raws' : List (List UInt8)} {all all' ls ls' : List SourceLine}

/-- One check finds in any lines what the other finds in the renamed ones. -/
def Corresponds (r : Renaming) (check check' : Check) : Prop :=
  ∀ ls ls' s s', List.Forall₂ (Renamed r) ls ls' → Renamed r s s' →
    (check' ls' s').map Fault.code = (check ls s).map Fault.code

theorem Corresponds.passes (hc : Corresponds r check check') (h : List.Forall₂ (Renamed r) ls ls')
    (hp : Passes check ls) : Passes check' ls' := by
  intro k s' hs'
  obtain ⟨hk', rfl⟩ := List.getElem?_eq_some_iff.1 hs'
  have hk : k < ls.length := h.length_eq ▸ hk'
  have hcode := hc _ _ _ _ (List.forall₂_take k h) (h.get hk hk')
  rw [List.get_eq_getElem, List.get_eq_getElem, hp k _ (List.getElem?_eq_getElem hk), Option.map_none,
    Option.map_eq_none_iff] at hcode
  exact hcode

/-- Reading renamed lines stops at the same line. -/
theorem Ends.renamed {f : LineFailure} (hends : Ends check raws ls (some f)) (hc : Corresponds r check check')
    (hr : raws.map SourceLine.ofBytes = all.map .ok) (hr' : raws'.map SourceLine.ofBytes = all'.map .ok)
    (h : List.Forall₂ (Renamed r) all all') :
    ∃ ls' f', List.Forall₂ (Renamed r) ls ls' ∧ Ends check' raws' ls' (some f') ∧
      f'.record.code = f.record.code := by
  have hp := hends.passes
  obtain ⟨k, s, e, rfl, hs, he, rfl⟩ := hends.stopped_at hr
  obtain ⟨hk, rfl⟩ := List.getElem?_eq_some_iff.1 hs
  have hk' : k < all'.length := h.length_eq ▸ hk
  have htake := List.forall₂_take k h
  have hcode := hc _ _ _ _ htake (h.get hk hk')
  rw [List.get_eq_getElem, List.get_eq_getElem, he, Option.map_some, Option.map_eq_some_iff] at hcode
  obtain ⟨e', he', hcode⟩ := hcode
  refine ⟨_, _, htake, .of_fails hr' (List.getElem?_eq_getElem hk') (hc.passes htake hp) he', ?_⟩
  rw [LineFailure.record_code, LineFailure.record_code, hcode]

end Assembler

namespace Reference

open Assembler

variable {r : Renaming} {ls ls' : List SourceLine} {source source' : List UInt8} {res : Result}

/-- A renamed source has the same outcome, with renamed symbols. -/
theorem Outcome.renamed (hout : Outcome source res) (hr : Reads source ls) (hr' : Reads source' ls')
    (h : List.Forall₂ (SourceLine.Renamed r) ls ls') :
    ∃ res', Outcome source' res' ∧ res'.answer = res.answer ∧ res'.binary = res.binary ∧
      res'.symbols = res.symbols.rename r ∧
      res'.errors.map (fun e => (e.code, e.line)) = res.errors.map (fun e => (e.code, e.line)) := by
  -- The checks correspond in both passes, so both runs end in the same way and at the same line.
  have hdistinct : Distinct ls → Distinct ls' := by
    rw [← passes_scanFault, ← passes_scanFault]
    exact Corresponds.passes (fun _ _ _ _ => scanFault_renamed) h
  cases hout with
  | assembled hreads hd hcodes =>
    obtain rfl := reads_unique hr hreads
    refine ⟨_, .assembled hr' (hdistinct hd) ?_, rfl, rfl, table_renamed h, rfl⟩
    rw [table_renamed h]
    exact coded_renamed h hcodes
  | @scanStopped done f p hends =>
    obtain ⟨done', f', hdone, hends', hcode⟩ := hends.renamed (fun _ _ _ _ => scanFault_renamed) hr hr' h
    refine ⟨_, .scanStopped (p := p) hends', rfl, rfl, scanned_renamed hdone, ?_⟩
    have hline := hends.record_line fun _ _ _ _ => scanFault_line
    have hline' := hends'.record_line fun _ _ _ _ => scanFault_line
    simp [refused, hcode, hline, hline', hdone.length_eq]
  | @encodeStopped all done codes f p hreads hd hends hcodes =>
    obtain rfl := reads_unique hr hreads
    obtain ⟨done', f', hdone, hends', hcode⟩ := hends.renamed (fun _ _ _ _ => codeFault_renamed) hr hr' h
    have hcodes' := coded_renamed hdone hcodes
    -- Each source is encoded with the table of all its lines, also those that are not reached.
    rw [← table_renamed h] at hends' hcodes'
    refine ⟨_, .encodeStopped (p := p) hr' (hdistinct hd) hends' hcodes', rfl, rfl, table_renamed h, ?_⟩
    have hline := hends.record_line fun _ _ _ _ => codeFault_line
    have hline' := hends'.record_line fun _ _ _ _ => codeFault_line
    simp [refused, hcode, hline, hline', hdone.length_eq]

end Reference

namespace Assembler

open Reference

variable {a a' : Assembler} {source source' : List UInt8} {ls ls' : List SourceLine}

/-- Names of labels do not matter. Two runs over sources that differ in them, but for blanks and comments, give the
same answer and write the same machine code, complete or up to the line that fails. Their symbols differ only in their
names. If they fail, their errors have the same code and the same line. -/
theorem assemble_renamed (r : Renaming) (h : a.Fresh source) (h' : a'.Fresh source') (hr : Reads source ls)
    (hr' : Reads source' ls') (hrenamed : List.Forall₂ (SourceLine.Renamed r) ls ls') :
    ∃ b b' answer listing listing' binary, a.assemble = (b, .ok answer) ∧ a'.assemble = (b', .ok answer) ∧
      Wrote a b listing binary ∧ Wrote a' b' listing' binary ∧ b'.symbols = b.symbols.rename r ∧
      (answer = false → ∃ e e', b.errors = [e] ∧ b'.errors = [e'] ∧ e.code = e'.code ∧ e.line = e'.line) := by
  obtain ⟨b, res, hb, hout, hleaves⟩ := h.outcome
  obtain ⟨b', res', hb', hout', hleaves'⟩ := h'.outcome
  obtain ⟨res'', hout'', hanswer, hbinary, hsymbols, herrors⟩ := hout.renamed hr hr' hrenamed
  obtain ⟨hanswer', herrors', hsymbols', -, hbinary'⟩ := hout'.unique hout''
  refine ⟨b, b', res.answer, res.listing, res'.listing, res.binary, hb, ?_, hleaves.wrote, ?_, ?_, ?_⟩
  · rw [hb', hanswer', hanswer]
  · rw [← hbinary, ← hbinary']
    exact hleaves'.wrote
  · rw [hleaves.symbols, hleaves'.symbols, hsymbols', hsymbols]
  · intro hfails
    obtain ⟨-, -, e, he, -⟩ := hout.stops hfails
    obtain ⟨-, -, e', he', -⟩ := hout'.stops (by rw [hanswer', hanswer, hfails])
    rw [← herrors', he, he'] at herrors
    obtain ⟨hcode, hline⟩ := Prod.ext_iff.1 (List.cons.inj herrors).1
    exact ⟨e, e', hleaves.errors.trans he, hleaves'.errors.trans he', hcode.symm, hline.symm⟩

/-- Two names change places. -/
def swapped : Renaming where
  rename := Equiv.swap ⟨"up", by decide +kernel⟩ ⟨"v.2", by decide +kernel⟩
  injective := Equiv.injective _

theorem assemble_renamed_of_swapped : ∃ b b' answer listing listing' binary,
    (alone (Utf8.bytes "up: j up\n")).assemble = (b, .ok answer) ∧
      (alone (Utf8.bytes "v.2: j v.2 #!\n")).assemble = (b', .ok answer) ∧
      Wrote (alone (Utf8.bytes "up: j up\n")) b listing binary ∧
      Wrote (alone (Utf8.bytes "v.2: j v.2 #!\n")) b' listing' binary ∧ b'.symbols = b.symbols.rename swapped := by
  have hr : Reads (Utf8.bytes "up: j up\n") [SourceLine.parse "up: j up\n"] := by decide +kernel
  have hr' : Reads (Utf8.bytes "v.2: j v.2 #!\n") [SourceLine.parse "v.2: j v.2 #!\n"] := by decide +kernel
  have hrenamed : SourceLine.Renamed swapped (SourceLine.parse "up: j up\n") (SourceLine.parse "v.2: j v.2 #!\n") :=
    ⟨by decide +kernel, by decide +kernel, by decide +kernel, by decide +kernel⟩
  obtain ⟨b, b', answer, listing, listing', binary, hb, hb', hw, hw', hsymbols, -⟩ :=
    assemble_renamed swapped (alone_fresh _) (alone_fresh _) hr hr' (.cons hrenamed .nil)
  exact ⟨b, b', answer, listing, listing', binary, hb, hb', hw, hw', hsymbols⟩

end Assembler

end MipsAssembler
