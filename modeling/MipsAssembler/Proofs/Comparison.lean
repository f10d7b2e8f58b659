import MipsAssembler.Proofs.Alike
import MipsAssembler.Proofs.Failure
/-!
# Comparing runs

What two runs do is compared through what their passes leave behind. A source has one outcome (`Outcome.unique`), so
it is enough to find the outcome of one source from that of another. A run that is `Fresh` ends in the outcome of its
source.
-/

namespace MipsAssembler

namespace Assembler

variable {check : Check} {raws : List (List UInt8)} {ls ls' : List SourceLine} {f f' : Option LineFailure}

/-! ## Where reading ends -/

theorem Ends.passes (h : Ends check raws ls f) : Passes check ls := by
  cases h with
  | complete _ hp => exact hp
  | stopped _ _ hp _ => exact hp

/-- No line is read behind one that fails. -/
theorem length_le_of_passes {before before' rest rest' : List (List UInt8)} {raw : List UInt8} {e : LineFailure}
    (hraws : before ++ raw :: rest = before' ++ rest') (hb : before.map SourceLine.ofBytes = ls.map .ok)
    (hf : failure? check ls raw = some e) (hb' : before'.map SourceLine.ofBytes = ls'.map .ok)
    (hp : Passes check ls') : before'.length ≤ before.length := by
  by_contra hlt
  obtain ⟨more, rfl, hmore⟩ : ∃ more, before' = before ++ more ∧ raw :: rest = more ++ rest' := by
    rcases List.append_eq_append_iff.1 hraws with ⟨more, rfl, h⟩ | ⟨more, rfl, -⟩
    · exact ⟨more, rfl, h⟩
    · simp at hlt
  cases more with
  | nil => simp at hlt
  | cons raw' more =>
    obtain ⟨rfl, -⟩ := List.cons.inj hmore
    rw [List.map_append, hb] at hb'
    obtain ⟨l, l', rfl, hl, hl'⟩ := List.map_eq_append_iff.1 hb'.symm
    obtain ⟨s, l', rfl, hs, -⟩ := List.map_eq_cons_iff.1 hl'
    obtain rfl : l = ls := List.map_injective_iff.2 (fun _ _ => Except.ok.inj) hl
    have hpass := hp l.length s (by simp)
    rw [List.take_left] at hpass
    simp [failure?, ← hs, hpass] at hf

theorem Ends.unique (h : Ends check raws ls f) (h' : Ends check raws ls' f') : ls = ls' ∧ f = f' := by
  have hinj : Function.Injective (List.map (Except.ok : SourceLine → Except Utf8.Fault SourceLine)) :=
    List.map_injective_iff.2 fun _ _ => Except.ok.inj
  cases h with
  | complete hr hp =>
    cases h' with
    | complete hr' _ => exact ⟨hinj (hr.symm.trans hr'), rfl⟩
    | stopped hraws hb _ hf =>
      subst hraws
      have hle := length_le_of_passes (List.append_nil _).symm hb hf hr hp
      rw [List.length_append, List.length_cons] at hle
      omega
  | stopped hraws hb hp hf =>
    subst hraws
    cases h' with
    | complete hr' hp' =>
      have hle := length_le_of_passes (List.append_nil _).symm hb hf hr' hp'
      rw [List.length_append, List.length_cons] at hle
      omega
    | stopped hraws' hb' hp' hf' =>
      have hlen := Nat.le_antisymm (length_le_of_passes hraws'.symm hb' hf' hb hp)
        (length_le_of_passes hraws' hb hf hb' hp')
      obtain ⟨rfl, hrest⟩ := List.append_inj hraws' hlen
      cases hrest
      obtain rfl := hinj (hb.symm.trans hb')
      exact ⟨rfl, hf.symm.trans hf'⟩

/-- Reading stops at the first line that fails, in a source of which every line is text. -/
theorem Ends.of_fails {k : Nat} {s : SourceLine} {e : Fault} (hr : raws.map SourceLine.ofBytes = ls.map .ok)
    (hs : ls[k]? = some s) (hp : Passes check (ls.take k)) (he : check (ls.take k) s = some e) :
    Ends check raws (ls.take k) (some ⟨k + 1, e, some s⟩) := by
  have hk : k < ls.length := (List.getElem?_eq_some_iff.1 hs).1
  have hlen : raws.length = ls.length := by simpa using congrArg List.length hr
  have hlt : k < raws.length := hlen ▸ hk
  have hraw : SourceLine.ofBytes raws[k] = .ok s := by
    have hget : (raws.map SourceLine.ofBytes)[k]? = some (.ok s) := by
      rw [hr, List.getElem?_map, hs]
      rfl
    rw [List.getElem?_map, List.getElem?_eq_getElem hlt] at hget
    exact Option.some.inj hget
  have hraws : raws = raws.take k ++ raws[k] :: raws.drop (k + 1) := by
    rw [List.getElem_cons_drop, List.take_append_drop]
  refine .stopped hraws ?_ hp ?_
  · rw [List.map_take, hr, List.map_take]
  · simp [failure?, hraw, he, Nat.min_eq_left (Nat.le_of_lt hk)]

/-! ## What is recorded -/

theorem LineFailure.record_code (f : LineFailure) : f.record.code = f.fault.code := by
  unfold record Fault.code
  cases f.fault <;> rfl

/-- A failure is recorded for the line where reading stops, if the check names the lines it refuses. -/
theorem Ends.record_line {f : LineFailure}
    (hcheck : ∀ ls s cause at?, check ls s = some (.refused cause at?) → at? = some ((ls.length : Int) + 1))
    (h : Ends check raws ls (some f)) : f.record.line = some ((ls.length : Int) + 1) := by
  cases h with
  | stopped _ _ _ hf =>
    unfold failure? at hf
    split at hf
    · cases hf
      rfl
    · obtain ⟨e, he, rfl⟩ := Option.map_eq_some_iff.1 hf
      unfold LineFailure.record
      cases e with
      | refused cause at? => exact hcheck _ _ _ _ he
      | _ => rfl

end Assembler

namespace Reference

open Assembler

variable {source : List UInt8} {r r' : Result} {t : SymbolTable} {ls ms : List SourceLine}
  {codes codes' : List Listing.Code} {s : SourceLine} {e : Fault}

theorem scanFault_line {cause : Cause} {at? : Option Int} (h : scanFault? ls s = some (.refused cause at?)) :
    at? = some ((ls.length : Int) + 1) := by
  obtain ⟨name, -, h⟩ := Option.bind_eq_some_iff.1 h
  obtain ⟨k, -, h⟩ := Option.map_eq_some_iff.1 h
  cases h
  rfl

theorem codeFault_line {cause : Cause} {at? : Option Int} (h : codeFault? t ls s = some (.refused cause at?)) :
    at? = some ((ls.length : Int) + 1) := by
  rcases code_error (codeFault_some h) with ⟨cause', hc⟩ | ⟨operands, -, token, n, -, -, hc⟩
  · cases hc
    rfl
  · cases hc

/-! ## One source has one outcome -/

theorem coded_unique (h : Coded t ls codes) (h' : Coded t ls codes') : codes = codes' := by
  obtain ⟨hlen, h⟩ := h
  obtain ⟨hlen', h'⟩ := h'
  refine List.ext_getElem (hlen.trans hlen'.symm) fun k hk hk' => ?_
  have hs : ls[k]? = some ls[k] := List.getElem?_eq_getElem (hlen ▸ hk)
  have hc := h k _ _ hs (List.getElem?_eq_getElem hk)
  have hc' := h' k _ _ hs (List.getElem?_eq_getElem hk')
  rw [hc] at hc'
  exact Except.ok.inj hc'

/-- Two outcomes of a source differ in nothing but how far a pass that failed had moved on. -/
theorem Outcome.unique (h : Outcome source r) (h' : Outcome source r') : r.answer = r'.answer ∧ r.errors = r'.errors ∧
    r.symbols = r'.symbols ∧ r.listing = r'.listing ∧ r.binary = r'.binary := by
  have hanswer : r.answer = r'.answer := Bool.eq_iff_iff.2 (h.answer_iff.trans h'.answer_iff.symm)
  refine ⟨hanswer, ?_⟩
  cases h with
  | assembled hreads _ hcodes =>
    obtain ⟨ls', codes', hreads', -, hcodes', rfl⟩ := h'.assembled_of_answer hanswer.symm
    obtain rfl := reads_unique hreads hreads'
    obtain rfl := coded_unique hcodes hcodes'
    exact ⟨rfl, rfl, rfl, rfl⟩
  | scanStopped hends =>
    cases h' with
    | assembled => cases hanswer
    | scanStopped hends' =>
      obtain ⟨rfl, hf⟩ := hends.unique hends'
      cases hf
      exact ⟨rfl, rfl, rfl, rfl⟩
    | encodeStopped hall hd _ _ => exact absurd ((passes_scanFault _).2 hd) (hends.not_complete hall)
  | encodeStopped hall hd hends hcodes =>
    cases h' with
    | assembled => cases hanswer
    | scanStopped hends' => exact absurd ((passes_scanFault _).2 hd) (hends'.not_complete hall)
    | encodeStopped hall' _ hends' hcodes' =>
      obtain rfl := reads_unique hall hall'
      obtain ⟨rfl, hf⟩ := hends.unique hends'
      cases hf
      obtain rfl := coded_unique hcodes hcodes'
      exact ⟨rfl, rfl, rfl, rfl⟩

end Reference

namespace Assembler

open Reference

variable {a b : Assembler} {source : List UInt8} {answer : Bool}

/-! ## Runs on their own -/

/-- A run with no error before it: its source can be read, its output files can be opened, and the source is none of
them. -/
structure Fresh (a : Assembler) (source : List UInt8) : Prop where
  errors : a.errors = []
  ready : a.Ready source
  kept : a.sourceRead source = source

theorem Fresh.outcome (h : a.Fresh source) :
    ∃ b r, a.assemble = (b, .ok r.answer) ∧ Outcome source r ∧ Leaves a r b := by
  obtain ⟨b, r, hb, hout, hleaves⟩ := assemble_outcome h.ready h.errors
  rw [h.kept] at hout
  exact ⟨b, r, hb, hout, hleaves⟩

theorem Fresh.outcome_of (h : a.Fresh source) (hb : a.assemble = (b, .ok answer)) :
    ∃ r, r.answer = answer ∧ Outcome source r ∧ Leaves a r b := by
  obtain ⟨r, ha, hout, hleaves⟩ := assemble_outcome_of h.ready h.errors hb
  rw [h.kept] at hout
  exact ⟨r, ha, hout, hleaves⟩

theorem alone_fresh (source : List UInt8) : (alone source).Fresh source where
  errors := rfl
  ready := alone_ready source
  kept := (alone_separate source).sourceRead source

end Assembler

end MipsAssembler
