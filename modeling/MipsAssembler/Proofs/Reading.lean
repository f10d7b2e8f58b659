import MipsAssembler.Proofs.Directory
import MipsAssembler.Proofs.Reference
/-!
# How a pass reads its lines

A pass reads lines until one fails. Each pass has a check that says, from the lines read before, whether a line fails;
`Ends` says where reading stops for such a check, and `readLines_ends` that a pass stops there, once each single line
does what its check says. What a pass keeps true of the assembler is proved along the way.
-/

namespace MipsAssembler.Assembler

/-! ## What is printed does not count -/

/-- The assembler without debug mode and without what it printed. -/
def silent (a : Assembler) : Assembler := { a with debug := false, stdout := "" }

@[simp]
theorem silent_print (a : Assembler) (t : String) : (a.print t).silent = a.silent := rfl

@[simp]
theorem silent_note (a : Assembler) (t : String) : (a.note t).silent = a.silent := by
  unfold note
  split <;> rfl

/-- The assembler with another table, progress and output: what a pass changes while it reads. -/
def resume (a : Assembler) (t : SymbolTable) (p : Progress) (o : Option Output) : Assembler :=
  { a with symbols := t, progress := p, output := o }

@[simp]
theorem resume_resume (a : Assembler) (t t' : SymbolTable) (p p' : Progress) (o o' : Option Output) :
    (a.resume t p o).resume t' p' o' = a.resume t' p' o' := rfl

theorem silent_advance (a : Assembler) :
    a.advance.silent = a.silent.resume a.symbols a.progress.advance a.output := by
  unfold advance
  rw [silent_note]
  rfl

theorem eq_of_silent {a b : Assembler} {t : SymbolTable} {p : Progress} {o : Option Output}
    (h : b.silent = a.silent.resume t p o) : b.symbols = t ∧ b.progress = p ∧ b.output = o := by
  refine ⟨?_, ?_, ?_⟩
  · have := congrArg Assembler.symbols h; exact this
  · have := congrArg Assembler.progress h; exact this
  · have := congrArg Assembler.output h; exact this

/-- What a pass leaves alone while it reads. -/
theorem frame_of_silent {a b : Assembler} {t : SymbolTable} {p : Progress} {o : Option Output}
    (h : b.silent = a.silent.resume t p o) :
    b.errors = a.errors ∧ b.files = a.files ∧ b.sourceName = a.sourceName ∧ b.listingName = a.listingName ∧
      b.binaryName = a.binaryName ∧ b.stderr = a.stderr := by
  refine ⟨?_, ?_, ?_, ?_, ?_, ?_⟩
  · have := congrArg Assembler.errors h; exact this
  · have := congrArg Assembler.files h; exact this
  · have := congrArg Assembler.sourceName h; exact this
  · have := congrArg Assembler.listingName h; exact this
  · have := congrArg Assembler.binaryName h; exact this
  · have := congrArg Assembler.stderr h; exact this

/-! ## One line -/

/-- The assembler when it starts on a line. -/
def atLine (a : Assembler) (line : Int) : Assembler := { a with progress := { a.progress with line := line } }

theorem silent_atLine (a : Assembler) (line : Int) :
    (a.atLine line).silent = a.silent.resume a.symbols { a.progress with line := line } a.output := rfl

theorem readLine_undecodable {pass : Pass} {raw : List UInt8} {f : Utf8.Fault} (a : Assembler) (line : Int)
    (h : SourceLine.ofBytes raw = .error f) :
    readLine pass a line raw = (a.atLine line, some ⟨line, .refused (.undecodable line f) line, none⟩) := by
  unfold SourceLine.ofBytes at h
  unfold readLine
  cases ht : Utf8.text raw with
  | error f' =>
    rw [ht] at h
    cases h
    rfl
  | ok t => rw [ht] at h; cases h

theorem readLine_text {pass : Pass} {raw : List UInt8} {s : SourceLine} (a : Assembler) (line : Int)
    (h : SourceLine.ofBytes raw = .ok s) :
    readLine pass a line raw =
      match processLine pass ((a.atLine line).note (s.trace pass line)) line s with
      | (b, .error e) => (b, some ⟨line, e, some s⟩)
      | (b, .ok _) => (b, none) := by
  unfold SourceLine.ofBytes at h
  unfold readLine
  cases ht : Utf8.text raw with
  | error f => rw [ht] at h; cases h
  | ok t =>
    rw [ht] at h
    cases h
    rfl

/-! ## All lines -/

/-- Says from the lines before a line what is wrong with it. -/
abbrev Check := List SourceLine → SourceLine → Option Fault

/-- No line fails the check. -/
def Passes (check : Check) (ls : List SourceLine) : Prop := ∀ k s, ls[k]? = some s → check (ls.take k) s = none

/-- The failure of the line behind `done`, if it fails: its bytes are no text, or the check finds a fault. -/
def failure? (check : Check) (done : List SourceLine) (raw : List UInt8) : Option LineFailure :=
  let line : Int := done.length + 1
  match SourceLine.ofBytes raw with
  | .error f => some ⟨line, .refused (.undecodable line f) line, none⟩
  | .ok s => (check done s).map fun e => ⟨line, e, some s⟩

/-- Where reading ends: the lines that were read without a failure, and the failure of the next one. -/
inductive Ends (check : Check) (raws : List (List UInt8)) : List SourceLine → Option LineFailure → Prop
  | complete {ls : List SourceLine} :
      raws.map SourceLine.ofBytes = ls.map .ok → Passes check ls → Ends check raws ls none
  | stopped {ls : List SourceLine} {before rest : List (List UInt8)} {raw : List UInt8} {f : LineFailure} :
      raws = before ++ raw :: rest → before.map SourceLine.ofBytes = ls.map .ok → Passes check ls →
      failure? check ls raw = some f → Ends check raws ls (some f)

theorem passes_snoc {check : Check} {ls : List SourceLine} {s : SourceLine} :
    Passes check (ls ++ [s]) ↔ Passes check ls ∧ check ls s = none := by
  constructor
  · intro h
    constructor
    · intro k x hk
      have hlt := (List.getElem?_eq_some_iff.1 hk).1
      have := h k x (by rw [List.getElem?_append_left hlt, hk])
      rwa [List.take_append_of_le_length (Nat.le_of_lt hlt)] at this
    · have := h ls.length s (by simp)
      rwa [List.take_left] at this
  · rintro ⟨h, hs⟩ k x hk
    rcases Nat.lt_or_ge k ls.length with hlt | hge
    · rw [List.getElem?_append_left hlt] at hk
      rw [List.take_append_of_le_length (Nat.le_of_lt hlt)]
      exact h k x hk
    · rw [List.getElem?_append_right hge, List.getElem?_singleton] at hk
      split at hk
      · have hkl : k = ls.length := by omega
        cases hk
        rw [hkl, List.take_left]
        exact hs
      · cases hk

/-- A line without a failure is text and passes the check. -/
theorem failure_none {check : Check} {done : List SourceLine} {raw : List UInt8} (h : failure? check done raw = none) :
    ∃ s, SourceLine.ofBytes raw = .ok s ∧ check done s = none := by
  unfold failure? at h
  cases hr : SourceLine.ofBytes raw with
  | error f => simp [hr] at h
  | ok s => exact ⟨s, rfl, by simpa [hr] using h⟩

/-- A pass stops where its check says. `Inv` holds behind the lines that were read, `Stop` behind a line that failed. -/
theorem readLines_ends {pass : Pass} {check : Check} {Inv Stop : List SourceLine → Assembler → Prop}
    (hkeep : ∀ ls a raw s, Inv ls a → Passes check ls → SourceLine.ofBytes raw = .ok s → check ls s = none →
      ∃ b, readLine pass a (ls.length + 1) raw = (b, none) ∧ Inv (ls ++ [s]) b)
    (hstop : ∀ ls a raw f, Inv ls a → Passes check ls → failure? check ls raw = some f →
      ∃ b, readLine pass a (ls.length + 1) raw = (b, some f) ∧ Stop ls b)
    (a : Assembler) (h : Inv [] a) (raws : List (List UInt8)) :
    ∃ ls b f, readLines pass a 1 raws = (b, f) ∧ Ends check raws ls f ∧
      if f.isSome then Stop ls b else Inv ls b := by
  -- The induction is on the lines still to be read, behind any lines that were read well.
  have main : ∀ (rest before : List (List UInt8)) (done : List SourceLine) (a : Assembler),
      before.map SourceLine.ofBytes = done.map .ok → Passes check done → Inv done a →
      ∃ ls b f, readLines pass a (done.length + 1) rest = (b, f) ∧ Ends check (before ++ rest) ls f ∧
        if f.isSome then Stop ls b else Inv ls b := by
    intro rest
    induction rest with
    | nil =>
      intro before done a hb hp hi
      exact ⟨done, a, none, rfl, .complete (by simpa using hb) hp, hi⟩
    | cons raw rest ih =>
      intro before done a hb hp hi
      cases hf : failure? check done raw with
      | some f =>
        obtain ⟨b, hr, hs⟩ := hstop done a raw f hi hp hf
        exact ⟨done, b, some f, by simp [readLines, hr], .stopped rfl hb hp hf, hs⟩
      | none =>
        obtain ⟨s, hs, hc⟩ := failure_none hf
        obtain ⟨b, hr, hi'⟩ := hkeep done a raw s hi hp hs hc
        have hmap : (before ++ [raw]).map SourceLine.ofBytes = (done ++ [s]).map .ok := by simp [hb, hs]
        obtain ⟨ls, c, f, hrest, hends, hfin⟩ := ih (before ++ [raw]) (done ++ [s]) b hmap
          (passes_snoc.2 ⟨hp, hc⟩) hi'
        refine ⟨ls, c, f, ?_, by simpa using hends, hfin⟩
        rw [readLines, hr]
        simpa using hrest
  simpa using main raws [] [] a rfl (fun k s hk => by simp at hk) h

/-- Where reading stops in a source of which every line is text. -/
theorem Ends.stopped_at {check : Check} {raws : List (List UInt8)} {done ls : List SourceLine} {f : LineFailure}
    (h : Ends check raws done (some f)) (hr : raws.map SourceLine.ofBytes = ls.map .ok) :
    ∃ k s e, done = ls.take k ∧ ls[k]? = some s ∧ check (ls.take k) s = some e ∧ f = ⟨k + 1, e, some s⟩ := by
  cases h with
  | stopped hraws hb _ hf =>
    rw [hraws, List.map_append, hb, List.map_cons] at hr
    obtain ⟨l₁, l₂, rfl, h₁, h₂⟩ := List.map_eq_append_iff.1 hr.symm
    obtain ⟨s, l₃, rfl, hs, -⟩ := List.map_eq_cons_iff.1 h₂
    obtain rfl : l₁ = done := List.map_injective_iff.2 (fun _ _ => Except.ok.inj) h₁
    simp only [failure?, ← hs] at hf
    obtain ⟨e, he, rfl⟩ := Option.map_eq_some_iff.1 hf
    refine ⟨l₁.length, s, e, List.take_left.symm, by simp, ?_, rfl⟩
    rw [List.take_left]
    exact he

/-- Reading that stopped at a line did not read the source to its end. -/
theorem Ends.not_complete {check : Check} {raws : List (List UInt8)} {done ls : List SourceLine} {f : LineFailure}
    (h : Ends check raws done (some f)) (hr : raws.map SourceLine.ofBytes = ls.map .ok) : ¬ Passes check ls := by
  obtain ⟨k, s, e, -, hs, he, -⟩ := h.stopped_at hr
  intro hp
  rw [hp k s hs] at he
  cases he

/-! ## How a pass ends at a line that failed -/

/-- What is recorded for a failure. -/
def LineFailure.record (f : LineFailure) : ErrorRecord :=
  match f.fault with
  | .refused cause line => (cause.diagnostic line).record
  | fault =>
    { message := "Unexpected error processing line " ++ Text.decimal f.line ++ ": " ++ fault.message
      line := some f.line
      code := Kind.io.code }

theorem list_errors {a b : Assembler} {t : String} (h : a.list t = .ok b) : b.errors = a.errors := by
  unfold list at h
  split at h
  · cases h
  · rename_i o _
    cases hw : o.writeListing t with
    | error e => rw [hw] at h; cases h
    | ok o' =>
      rw [hw] at h
      cases h
      dsimp only
      split <;> rfl

/-- A failure is recorded behind the errors before it, whatever becomes of the listing. -/
theorem fail_errors (a : Assembler) (f : LineFailure) : (a.fail f).1.errors = a.errors ++ [f.record] := by
  unfold fail LineFailure.record
  cases f.fault with
  | refused cause line =>
    dsimp only
    split
    · split
      · rfl
      · rename_i hl
        exact list_errors hl
    · rfl
  | _ => rfl

theorem fail_answer (a : Assembler) (f : LineFailure) : (a.fail f).2 ≠ .ok true := by
  unfold fail
  cases f.fault with
  | refused cause line =>
    dsimp only
    split
    · split <;> simp
    · simp
  | _ => simp

/-! ## A source that stands alone -/

/-- A new assembler in a directory that holds nothing but its source. -/
def alone (source : List UInt8) : Assembler :=
  new (({} : Directory).put (Directory.pathOf defaultSourceName) source) defaultSourceName (some defaultListingName)
    defaultBinaryName false

theorem alone_reads (source : List UInt8) : (alone source).files.read (alone source).sourceName = .ok source := by
  have hc : ({} : Directory).create defaultSourceName =
      .ok (({} : Directory).put (Directory.pathOf defaultSourceName) [], Directory.pathOf defaultSourceName) := by
    decide +kernel
  exact Directory.read_put_create source hc

/-- A loop with a label on a line of its own, and a label that no instruction follows. -/
def loopSource : List UInt8 :=
  Utf8.bytes "start:\nloop: beq $t0, $zero, done # leave\n      j loop\ndone: nop\nend:\n"

end MipsAssembler.Assembler
