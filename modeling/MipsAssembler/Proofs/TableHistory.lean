import Mathlib.Data.List.Induction
import MipsAssembler.Proofs.Numerals
import MipsAssembler.Proofs.SymbolTable
/-!
# What a table holds after any calls

Labels may be staged and committed, and the table frozen and emptied, in any order (`Call`); a call that fails leaves
the table as it is. In every table that comes about so, names stay apart and every name has a line (`Sound`), which
leaves a call few things to do (`Step`). What waits and what was committed can then be read off the calls (`Recorded`).

Calls from outside write what they do (`Call.reply`), and lines can be too long for that. Without debug mode only a
message can; with it, lines that can be written keep the table what it is without (`filled_eq`).
-/

namespace MipsAssembler.SymbolTable

/-- What can be asked of a table that is being filled. -/
inductive Call where
  | stage (name : String) (line : Int)
  | commit (address : Int)
  | freeze
  | reset
deriving DecidableEq

namespace Call

def run (t : SymbolTable) : Call → Except Fault SymbolTable
  | stage name line => t.stage name line
  | commit address => t.commit address
  | freeze => .ok t.freeze
  | reset => .ok {}

/-- The table after a call. -/
def apply (t : SymbolTable) (c : Call) : SymbolTable :=
  match c.run t with
  | .ok t' => t'
  | .error _ => t

def isStage : Call → Bool
  | stage .. => true
  | _ => false

end Call

/-- The table after these calls, the first of which finds it empty. -/
def afterCalls (calls : List Call) : SymbolTable := calls.foldl Call.apply {}

theorem afterCalls_snoc (calls : List Call) (c : Call) : afterCalls (calls ++ [c]) = c.apply (afterCalls calls) := by
  simp [afterCalls]

theorem apply_error {t : SymbolTable} {c : Call} {e : Fault} (h : c.run t = .error e) : c.apply t = t := by
  simp [Call.apply, h]

/-! ## Sound tables -/

variable {t : SymbolTable} {name : String} {line address : Int} {calls : List Call} {c : Call}

/-- The names that have an address. -/
def committed (t : SymbolTable) : List String := t.symbols.map (·.name)

/-- The names that wait for one. -/
def waiting (t : SymbolTable) : List String := t.staged.map (·.name)

/-- No name stands twice, every name has a line, and nothing waits when the table is frozen. -/
structure Sound (t : SymbolTable) : Prop where
  names : (t.committed ++ t.waiting).Nodup
  symbolLines : ∀ s ∈ t.symbols, ∃ line, s.line = some line
  stagedLines : ∀ l ∈ t.staged, ∃ line, l.line = some line
  frozen : t.frozen = true → t.staged = []

theorem mem_committed : name ∈ t.committed ↔ ∃ s ∈ t.symbols, s.name = name := List.mem_map

theorem mem_waiting : name ∈ t.waiting ↔ ∃ l ∈ t.staged, l.name = name := List.mem_map

theorem Sound.committed_nodup (h : t.Sound) : t.committed.Nodup := (List.nodup_append.1 h.names).1

/-- A name that is there was defined on a line. -/
theorem Sound.definingLine (h : t.Sound) (hn : name ∈ t.committed ∨ name ∈ t.waiting) :
    ∃ first, t.definingLine name = some first := by
  unfold SymbolTable.definingLine
  cases hl : t.lookup name with
  | some s => exact h.symbolLines s (lookup_mem hl).1
  | none =>
    have hs : name ∉ t.committed := by
      rw [mem_committed]
      rintro ⟨s, hs, rfl⟩
      exact lookup_none.1 hl s hs rfl
    obtain ⟨l, hw, rfl⟩ := mem_waiting.1 (hn.resolve_left hs)
    cases hfind : t.staged.find? (·.name = l.name) with
    | none => exact absurd (List.find?_eq_none.1 hfind l hw) (by simp)
    | some x =>
      obtain ⟨first, hx⟩ := h.stagedLines x (List.mem_of_find?_eq_some hfind)
      exact ⟨first, by simp [hx]⟩

theorem stage_new (hf : t.frozen = false) (hn : ¬ (name ∈ t.committed ∨ name ∈ t.waiting)) (line : Int) :
    t.stage name (some line) = .ok { t with staged := t.staged ++ [⟨name, some line⟩] } := by
  rw [not_or, mem_committed, mem_waiting] at hn
  exact stage_fresh hf (fun s hs he => hn.1 ⟨s, hs, he⟩) fun l hl he => hn.2 ⟨l, hl, he⟩

theorem Sound.stage_again (h : t.Sound) (hf : t.frozen = false) (hn : name ∈ t.committed ∨ name ∈ t.waiting)
    (line : Int) : ∃ first, t.stage name (some line) =
      .error (.refused (.duplicateSymbol name (some line) first) (some line)) := by
  obtain ⟨first, hfirst⟩ := h.definingLine hn
  exact ⟨first, stage_defined hf hfirst⟩

/-! ## One call -/

/-- What a call does to a sound table. -/
inductive Step (t : SymbolTable) : Call → SymbolTable → Prop
  | refused {name : String} {line : Int} {e : Fault} :
      t.stage name (some line) = .error e → Step t (.stage name line) t
  | staged {name : String} {line : Int} : t.frozen = false → ¬ (name ∈ t.committed ∨ name ∈ t.waiting) →
      Step t (.stage name line) { t with staged := t.staged ++ [⟨name, some line⟩] }
  | locked {address : Int} : t.frozen = true → Step t (.commit address) t
  | committed {address : Int} : t.frozen = false → Step t (.commit address)
      { t with symbols := t.symbols ++ t.staged.map fun l => ⟨l.name, address, l.line⟩, staged := [] }
  | frozen : Step t .freeze t.freeze
  | reset : Step t .reset {}

theorem Sound.step (h : t.Sound) (c : Call) : Step t c (c.apply t) := by
  cases c with
  | stage name line =>
    cases hs : t.stage name (some line) with
    | error e =>
      rw [apply_error (show (Call.stage name line).run t = .error e from hs)]
      exact .refused hs
    | ok t' =>
      have hf : t.frozen = false := by
        by_contra hf
        rw [stage_frozen (eq_true_of_ne_false hf)] at hs
        cases hs
      have hn : ¬ (name ∈ t.committed ∨ name ∈ t.waiting) := by
        intro hn
        obtain ⟨first, he⟩ := h.stage_again hf hn line
        rw [hs] at he
        cases he
      have happly : (Call.stage name line).apply t = { t with staged := t.staged ++ [⟨name, some line⟩] } := by
        simp only [Call.apply, Call.run, stage_new hf hn]
      rw [happly]
      exact .staged hf hn
  | commit address =>
    cases hf : t.frozen with
    | true =>
      rw [apply_error (show (Call.commit address).run t = .error .commitFrozen from commit_frozen hf)]
      exact .locked hf
    | false =>
      simp only [Call.apply, Call.run, commit_fresh hf h.names]
      exact .committed hf
  | freeze => exact .frozen
  | reset => exact .reset

theorem sound_empty : Sound {} := ⟨List.nodup_nil, by simp, by simp, by simp⟩

theorem Step.sound {t' : SymbolTable} (h : t.Sound) (hstep : Step t c t') : t'.Sound := by
  cases hstep with
  | refused => exact h
  | @staged name line hf hn =>
    refine ⟨?_, h.symbolLines, ?_, fun hf' => absurd hf' (by simp [hf])⟩
    · have hnames : (t.committed ++ t.waiting ++ [name]).Nodup := by
        rw [← List.concat_eq_append, List.nodup_concat]
        exact ⟨by simpa using hn, h.names⟩
      simpa [SymbolTable.committed, waiting, List.append_assoc] using hnames
    · intro l hl
      rcases List.mem_append.1 hl with hl | hl
      · exact h.stagedLines l hl
      · rw [List.mem_singleton.1 hl]
        exact ⟨line, rfl⟩
  | locked => exact h
  | @committed address hf =>
    refine ⟨?_, ?_, by simp, fun _ => rfl⟩
    · simpa [SymbolTable.committed, waiting, Function.comp_def] using h.names
    · intro s hs
      rcases List.mem_append.1 hs with hs | hs
      · exact h.symbolLines s hs
      · obtain ⟨l, hl, rfl⟩ := List.mem_map.1 hs
        exact h.stagedLines l hl
  | frozen =>
    refine ⟨?_, h.symbolLines, by simp [freeze], fun _ => rfl⟩
    simpa [SymbolTable.committed, waiting, freeze] using h.committed_nodup
  | reset => exact sound_empty

/-- Every table that calls lead to is sound. -/
theorem sound_afterCalls (calls : List Call) : (afterCalls calls).Sound := by
  induction calls using List.reverseRecOn with
  | nil => exact sound_empty
  | append_singleton calls c ih =>
    rw [afterCalls_snoc]
    exact (ih.step c).sound ih

/-- A frozen table stays as it is until it is emptied. -/
theorem Step.of_frozen {t' : SymbolTable} (h : t.Sound) (hf : t.frozen = true) (hc : c ≠ .reset)
    (hstep : Step t c t') : t' = t := by
  cases hstep with
  | refused => rfl
  | staged hf' => rw [hf] at hf'; cases hf'
  | locked => rfl
  | committed hf' => rw [hf] at hf'; cases hf'
  | frozen =>
    obtain ⟨symbols, staged, frozen⟩ := t
    cases h.frozen hf
    cases hf
    rfl
  | reset => exact absurd rfl hc

theorem afterCalls_of_frozen {later : List Call} (hf : (afterCalls calls).frozen = true) (hr : .reset ∉ later) :
    afterCalls (calls ++ later) = afterCalls calls := by
  induction later using List.reverseRecOn with
  | nil => rw [List.append_nil]
  | append_singleton later c ih =>
    rw [List.mem_append, not_or] at hr
    have hsame := ih hr.1
    have hc : c ≠ .reset := fun hc => hr.2 (by simp [hc])
    rw [← List.append_assoc, afterCalls_snoc, hsame]
    exact ((sound_afterCalls calls).step c).of_frozen (sound_afterCalls calls) hf hc

/-! ## What the calls say -/

/-- The calls stage a name on a line, which succeeds, and do nothing but stage behind it. -/
def Stages (calls : List Call) (name : String) (line : Int) : Prop :=
  ∃ before behind, calls = before ++ .stage name line :: behind ∧
    (∃ t, (afterCalls before).stage name (some line) = .ok t) ∧ ∀ c ∈ behind, c.isStage

/-- The calls stage a name on a line, and the next of them that does not stage commits to this address. The table is
not emptied behind that. -/
def Assigns (calls : List Call) (name : String) (address line : Int) : Prop :=
  ∃ before behind, calls = before ++ .commit address :: behind ∧ Stages before name line ∧ .reset ∉ behind

/-- A list is split at its last element, or in front of it. -/
theorem snoc_eq_split {x y : Call} {xs before behind : List Call} (h : xs ++ [y] = before ++ x :: behind) :
    (behind = [] ∧ xs = before ∧ y = x) ∨ ∃ rest, behind = rest ++ [y] ∧ xs = before ++ x :: rest := by
  rcases List.eq_nil_or_concat behind with rfl | ⟨rest, z, rfl⟩
  · obtain ⟨rfl, hy⟩ := List.append_inj' h rfl
    cases hy
    exact .inl ⟨rfl, rfl, rfl⟩
  · rw [List.concat_eq_append, ← List.cons_append, ← List.append_assoc] at h
    obtain ⟨rfl, hy⟩ := List.append_inj' h rfl
    cases hy
    exact .inr ⟨rest, List.concat_eq_append, rfl⟩

theorem stages_snoc : Stages (calls ++ [c]) name line ↔
    (c = .stage name line ∧ ∃ t, (afterCalls calls).stage name (some line) = .ok t) ∨
      (c.isStage = true ∧ Stages calls name line) := by
  constructor
  · rintro ⟨before, behind, hsplit, hok, hbehind⟩
    obtain ⟨-, rfl, hc⟩ | ⟨rest, rfl, rfl⟩ := snoc_eq_split hsplit
    · exact .inl ⟨hc, hok⟩
    · exact .inr ⟨hbehind c (by simp), before, rest, rfl, hok, fun x hx => hbehind x (by simp [hx])⟩
  · rintro (⟨rfl, hok⟩ | ⟨hc, before, behind, rfl, hok, hbehind⟩)
    · exact ⟨calls, [], rfl, hok, by simp⟩
    · refine ⟨before, behind ++ [c], by simp, hok, ?_⟩
      intro x hx
      rcases List.mem_append.1 hx with hx | hx
      · exact hbehind x hx
      · rw [List.mem_singleton.1 hx]
        exact hc

theorem assigns_snoc : Assigns (calls ++ [c]) name address line ↔
    (c = .commit address ∧ Stages calls name line) ∨ (c ≠ .reset ∧ Assigns calls name address line) := by
  constructor
  · rintro ⟨before, behind, hsplit, hstages, hreset⟩
    obtain ⟨-, rfl, hc⟩ | ⟨rest, rfl, rfl⟩ := snoc_eq_split hsplit
    · exact .inl ⟨hc, hstages⟩
    · rw [List.mem_append, not_or] at hreset
      exact .inr ⟨fun hc => hreset.2 (by simp [hc]), before, rest, rfl, hstages, hreset.1⟩
  · rintro (⟨rfl, hstages⟩ | ⟨hc, before, behind, rfl, hstages, hreset⟩)
    · exact ⟨calls, [], rfl, hstages, by simp⟩
    · exact ⟨before, behind ++ [c], by simp, hstages, by simp [hreset, Ne.symm hc]⟩

theorem Assigns.append {later : List Call} (h : Assigns calls name address line) (hr : .reset ∉ later) :
    Assigns (calls ++ later) name address line := by
  obtain ⟨before, behind, rfl, hstages, hreset⟩ := h
  exact ⟨before, behind ++ later, by simp, hstages, by simp [hreset, hr]⟩

/-- The table holds what the calls say. -/
structure Recorded (calls : List Call) (t : SymbolTable) : Prop where
  staged : ∀ name line, ⟨name, some line⟩ ∈ t.staged ↔ Stages calls name line
  symbols : ∀ name address line, ⟨name, address, some line⟩ ∈ t.symbols ↔ Assigns calls name address line

theorem Recorded.not_stages {calls : List Call} (h : Recorded calls t) (ht : t.staged = []) :
    ¬ Stages calls name line := by
  rw [← h.staged, ht]
  simp

theorem Recorded.step {t' : SymbolTable} (h : Recorded calls (afterCalls calls))
    (hstep : Step (afterCalls calls) c t') : Recorded (calls ++ [c]) t' := by
  constructor
  · intro name line
    rw [stages_snoc]
    cases hstep with
    | @refused name' line' e he =>
      have hno : ¬ (Call.stage name' line' = .stage name line ∧
          ∃ t, (afterCalls calls).stage name (some line) = .ok t) := by
        rintro ⟨hc, t, ht⟩
        cases hc
        rw [he] at ht
        cases ht
      rw [h.staged]
      exact ⟨fun hs => .inr ⟨rfl, hs⟩, fun hs => (hs.resolve_left hno).2⟩
    | @staged name' line' hf hn =>
      have hok := stage_new hf hn line'
      simp only [List.mem_append, h.staged, List.mem_singleton, Call.isStage, true_and]
      constructor
      · rintro (hs | hs)
        · exact .inr hs
        · cases hs
          exact .inl ⟨rfl, _, hok⟩
      · rintro (⟨hc, -⟩ | hs)
        · cases hc
          exact .inr rfl
        · exact .inl hs
    | locked hf => simp [Call.isStage, (sound_afterCalls calls).frozen hf]
    | committed => simp [Call.isStage]
    | frozen => simp [Call.isStage, freeze]
    | reset => simp [Call.isStage]
  · intro name address line
    rw [assigns_snoc]
    cases hstep with
    | refused => simp [h.symbols]
    | staged => simp [h.symbols]
    | locked hf =>
      -- Nothing waits in a frozen table, so no name was staged in front of this commit.
      simp [h.symbols, h.not_stages ((sound_afterCalls calls).frozen hf)]
    | @committed address' hf =>
      have hmap : ⟨name, address, some line⟩ ∈
            (afterCalls calls).staged.map (fun l => (⟨l.name, address', l.line⟩ : Symbol)) ↔
          Call.commit address' = .commit address ∧ Stages calls name line := by
        rw [List.mem_map, ← h.staged]
        constructor
        · rintro ⟨⟨_, _⟩, hl, hs⟩
          cases hs
          exact ⟨rfl, hl⟩
        · rintro ⟨hc, hl⟩
          cases hc
          exact ⟨_, hl, rfl⟩
      rw [List.mem_append, hmap, h.symbols]
      simp [or_comm]
    | frozen => simp [h.symbols, freeze]
    | reset => simp

theorem recorded_afterCalls (calls : List Call) : Recorded calls (afterCalls calls) := by
  induction calls using List.reverseRecOn with
  | nil => constructor <;> simp [afterCalls, Stages, Assigns]
  | append_singleton calls c ih =>
    have hstep := (sound_afterCalls calls).step c
    rw [afterCalls_snoc]
    exact ih.step hstep

/-- Looking up gives what the calls assign. -/
theorem lookup_afterCalls {s : Symbol} : (afterCalls calls).lookup name = some s ↔
    s.name = name ∧ ∃ line, s.line = some line ∧ Assigns calls name s.address line := by
  have hsound := sound_afterCalls calls
  have hrecorded := recorded_afterCalls calls
  rw [lookup_iff hsound.committed_nodup]
  obtain ⟨name', address, line?⟩ := s
  constructor
  · rintro ⟨hs, rfl⟩
    obtain ⟨line, rfl⟩ := hsound.symbolLines _ hs
    exact ⟨rfl, line, rfl, (hrecorded.symbols _ _ _).1 hs⟩
  · rintro ⟨rfl, line, hl, hassigns⟩
    cases hl
    exact ⟨(hrecorded.symbols _ _ _).2 hassigns, rfl⟩

/-! ## Calls that write what they do -/

/-- The name has an address, or waits for one, and was staged on this line. -/
def DefinedOn (t : SymbolTable) (name : String) (line : Int) : Prop :=
  (∃ address, ⟨name, address, some line⟩ ∈ t.symbols) ∨ ⟨name, some line⟩ ∈ t.staged

theorem Sound.definingLine_iff (h : t.Sound) : t.definingLine name = some line ↔ t.DefinedOn name line := by
  have hkept := List.nodup_append.1 h.names
  unfold SymbolTable.definingLine DefinedOn
  constructor
  · cases hl : t.lookup name with
    | some s =>
      obtain ⟨hs, rfl⟩ := lookup_mem hl
      intro hline
      exact .inl ⟨s.address, by rw [← show s.line = some line from hline]; exact hs⟩
    | none =>
      intro hline
      obtain ⟨l, hfind, hline⟩ := Option.bind_eq_some_iff.1 hline
      have hname : l.name = name := by simpa using List.find?_some hfind
      refine .inr ?_
      rw [← hname, ← hline]
      exact List.mem_of_find?_eq_some hfind
  · rintro (⟨address, hs⟩ | hl)
    · rw [(lookup_iff h.committed_nodup).2 ⟨hs, rfl⟩]
    · have hnone : t.lookup name = none := lookup_none.2 fun s hs he =>
        hkept.2.2 s.name (List.mem_map_of_mem hs) name (mem_waiting.2 ⟨_, hl, rfl⟩) he
      cases hfind : t.staged.find? (·.name = name) with
      | none => exact absurd (List.find?_eq_none.1 hfind _ hl) (by simp)
      | some x =>
        have hname : x.name = name := by simpa using List.find?_some hfind
        have hx : x = ⟨name, some line⟩ :=
          List.inj_on_of_nodup_map hkept.2.1 (List.mem_of_find?_eq_some hfind) hl hname
        simp [hnone, hx]

/-- What a call from outside leaves behind. -/
def Call.reply (debug : Bool) (t : SymbolTable) : Call → Reply
  | stage name line => t.stageChecked debug name line
  | commit address => t.commitChecked debug address
  | freeze => { table := t.freeze, printed := report debug t.freezeTrace }
  | reset => { table := {} }

/-- Debug mode can write the line of the call. -/
def Call.Printable (debug : Bool) : Call → Prop
  | stage _ line => debug = true → line.natAbs < 10 ^ maxDecimalDigits
  | _ => True

/-- The table after these calls from outside, the first of which finds it empty. -/
def filled (debug : Bool) (calls : List Call) : SymbolTable := calls.foldl (fun t c => (c.reply debug t).table) {}

theorem isReportable_iff {debug : Bool} :
    isReportable debug (some line) = true ↔ (debug = true → line.natAbs < 10 ^ maxDecimalDigits) := by
  cases debug with
  | false => exact ⟨fun _ => nofun, fun _ => rfl⟩
  | true =>
    rw [show isReportable true (some line) = Text.isWritable line from rfl, Literal.isWritable_iff]
    exact ⟨fun h _ => h, fun h => h rfl⟩

/-- With lines that can be printed, labels are committed to the end. -/
theorem commitEach_reportable {debug : Bool} {ls : List StagedLabel} (t : SymbolTable) (address : Int)
    (printed : String) (h : ∀ l ∈ ls, isReportable debug l.line = true) :
    ∃ text, t.commitEach debug address printed ls = { printed := text, table := { t with
      symbols := (ls.map fun l => ⟨l.name, address, l.line⟩).foldl insertSymbol t.symbols
      staged := [] } } := by
  induction ls generalizing t printed with
  | nil => exact ⟨printed, rfl⟩
  | cons l rest ih =>
    rw [commitEach, if_pos (h l (by simp))]
    exact ih _ _ fun x hx => h x (by simp [hx])

/-- A call that debug mode can print does what it does unprinted, to a table of lines that can be printed. -/
theorem reply_printable {debug : Bool} (hlines : ∀ l ∈ t.staged, isReportable debug l.line = true)
    (hc : c.Printable debug) : ∃ text, c.reply debug t = match c.run t with
      | .ok t' => { table := t', printed := text }
      | .error e => { table := t, fault? := some e.checked } := by
  cases c with
  | stage name line =>
    simp only [Call.reply, Call.run, stageChecked]
    cases t.stage name (some line) with
    | error e => exact ⟨"", rfl⟩
    | ok t' =>
      have hline : isReportable debug (some line) = true := isReportable_iff.2 hc
      exact ⟨_, by simp only [hline, if_true]; rfl⟩
  | commit address =>
    cases hf : t.frozen with
    | true => exact ⟨"", by simp [Call.reply, Call.run, commitChecked, commit_frozen hf, hf, Fault.checked]⟩
    | false =>
      obtain ⟨text, htext⟩ := commitEach_reportable t address "" hlines
      exact ⟨text, by simp [Call.reply, Call.run, commitChecked, commit, hf, htext]⟩
  | freeze => exact ⟨_, rfl⟩
  | reset => exact ⟨"", rfl⟩

/-- Labels that wait were staged by one of the calls. -/
theorem reportable_staged {debug : Bool} (h : ∀ c ∈ calls, c.Printable debug) :
    ∀ l ∈ (afterCalls calls).staged, isReportable debug l.line = true := by
  rintro ⟨name, line?⟩ hl
  obtain ⟨line, rfl⟩ := (sound_afterCalls calls).stagedLines _ hl
  obtain ⟨before, behind, rfl, -⟩ := ((recorded_afterCalls calls).staged name line).1 hl
  exact isReportable_iff.2 (h (.stage name line) (by simp))

/-- With lines that can be printed, what debug mode prints leaves the table as it is. -/
theorem filled_eq {debug : Bool} (h : ∀ c ∈ calls, c.Printable debug) : filled debug calls = afterCalls calls := by
  induction calls using List.reverseRecOn with
  | nil => rfl
  | append_singleton calls c ih =>
    have hcalls : ∀ x ∈ calls, x.Printable debug := fun x hx => h x (by simp [hx])
    obtain ⟨text, hreply⟩ := reply_printable (reportable_staged hcalls) (h c (by simp))
    have hfilled : filled debug (calls ++ [c]) = (c.reply debug (filled debug calls)).table := by simp [filled]
    rw [hfilled, ih hcalls, afterCalls_snoc, hreply, Call.apply]
    cases c.run (afterCalls calls) <;> rfl

theorem duplicate_writable {first : Int} : (Cause.duplicateSymbol name (some line) first).isWritable = true ↔
    line.natAbs < 10 ^ maxDecimalDigits ∧ first.natAbs < 10 ^ maxDecimalDigits := by
  rw [Cause.isWritable, Option.all_some, Bool.and_eq_true, Literal.isWritable_iff, Literal.isWritable_iff]

/-- Staging a name again is refused as a duplicate, if both lines can be written into the message. -/
theorem Sound.stageChecked_again {debug : Bool} {first : Int} (h : t.Sound) (hf : t.frozen = false)
    (hfirst : t.DefinedOn name first) :
    t.stageChecked debug name (some line) = { table := t, fault? := some (
      if line.natAbs < 10 ^ maxDecimalDigits ∧ first.natAbs < 10 ^ maxDecimalDigits then
        .refused (.duplicateSymbol name (some line) first) (some line)
      else .integerTooLong) } := by
  rw [stageChecked, stage_defined hf (h.definingLine_iff.2 hfirst)]
  simp only [Fault.checked, duplicate_writable]

theorem DefinedOn.mem (h : t.DefinedOn name line) : name ∈ t.committed ∨ name ∈ t.waiting :=
  h.imp (fun ⟨_, hs⟩ => mem_committed.2 ⟨_, hs, rfl⟩) fun hl => mem_waiting.2 ⟨_, hl, rfl⟩

/-- Staging fails in a frozen table, and for a name with a line: by the size of both lines. -/
theorem Sound.stageChecked_fault {debug : Bool} (h : t.Sound) (hc : (Call.stage name line).Printable debug) :
    ((t.stageChecked debug name (some line)).fault? ≠ none ↔
      t.frozen = true ∨ name ∈ t.committed ∨ name ∈ t.waiting) ∧
    ((∃ cause at?, (t.stageChecked debug name (some line)).fault? = some (.refused cause at?) ∧
        cause.kind = .duplicateSymbol) ↔
      t.frozen = false ∧ ∃ first, t.DefinedOn name first ∧
        line.natAbs < 10 ^ maxDecimalDigits ∧ first.natAbs < 10 ^ maxDecimalDigits) ∧
    ((t.stageChecked debug name (some line)).fault? = some .integerTooLong ↔
      t.frozen = false ∧ ∃ first, t.DefinedOn name first ∧
        ¬ (line.natAbs < 10 ^ maxDecimalDigits ∧ first.natAbs < 10 ^ maxDecimalDigits)) := by
  cases hf : t.frozen with
  | true => simp [stageChecked, stage_frozen hf, Fault.checked]
  | false =>
    by_cases hn : name ∈ t.committed ∨ name ∈ t.waiting
    · obtain ⟨first, hfirst⟩ := h.definingLine hn
      -- The line of a name is unique, so `∃ first` speaks of the one that the message names.
      have honly : ∀ P : Int → Prop, (∃ x, t.DefinedOn name x ∧ P x) ↔ P first := by
        intro P
        constructor
        · rintro ⟨x, hx, hP⟩
          rw [← h.definingLine_iff, hfirst] at hx
          cases hx
          exact hP
        · exact fun hP => ⟨first, h.definingLine_iff.1 hfirst, hP⟩
      rw [honly, honly, h.stageChecked_again hf (h.definingLine_iff.1 hfirst)]
      by_cases hshort : line.natAbs < 10 ^ maxDecimalDigits ∧ first.natAbs < 10 ^ maxDecimalDigits
      · rw [if_pos hshort]
        exact ⟨⟨fun _ => .inr hn, fun _ => nofun⟩, ⟨fun _ => ⟨rfl, hshort⟩, fun _ => ⟨_, _, rfl, rfl⟩⟩,
          ⟨nofun, fun hlong => absurd hshort hlong.2⟩⟩
      · rw [if_neg hshort]
        exact ⟨⟨fun _ => .inr hn, fun _ => nofun⟩, ⟨nofun, fun hlong => absurd hlong.2 hshort⟩,
          ⟨fun _ => ⟨rfl, hshort⟩, fun _ => rfl⟩⟩
    · have hnone : (t.stageChecked debug name (some line)).fault? = none := by
        rw [stageChecked, stage_new hf hn]
        simp only [isReportable_iff.2 hc, if_true]
      rw [hnone]
      refine ⟨⟨fun hsome => absurd rfl hsome, fun hdefined => ?_⟩, ⟨nofun, ?_⟩, ⟨nofun, ?_⟩⟩
      · exact absurd (hdefined.resolve_left nofun) hn
      · rintro ⟨-, first, hfirst, -⟩
        exact absurd hfirst.mem hn
      · rintro ⟨-, first, hfirst, -⟩
        exact absurd hfirst.mem hn

/-- After any calls from outside whose lines debug mode can print, those that fail included: no name waits that was
committed. A name that was committed keeps its address and its line until the table is emptied. Its line is the one it
was staged on, and its address that of the first commit behind. Staging a name fails exactly if the table is frozen,
or the name waits or was committed. In a table that is not frozen the name is a duplicate then, if its line and the
line it was first staged on have at most `maxDecimalDigits` digits. Nothing waits in a frozen table, and it stays as it
is until it is emptied. A call that fails leaves the table as it is. -/
theorem table_after_any_calls {debug : Bool} {calls : List Call} (hcalls : ∀ c ∈ calls, c.Printable debug) :
    let t := filled debug calls
    (∀ name, ¬ (name ∈ t.committed ∧ name ∈ t.waiting)) ∧
    (∀ name s later, (∀ c ∈ later, c.Printable debug) → t.lookup name = some s → .reset ∉ later →
      (filled debug (calls ++ later)).lookup name = some s) ∧
    (∀ name s, t.lookup name = some s ↔
      s.name = name ∧ ∃ line, s.line = some line ∧ Assigns calls name s.address line) ∧
    (∀ name line, (Call.stage name line).Printable debug →
      ((t.stageChecked debug name (some line)).fault? ≠ none ↔
        t.frozen = true ∨ name ∈ t.committed ∨ name ∈ t.waiting) ∧
      ((∃ cause at?, (t.stageChecked debug name (some line)).fault? = some (.refused cause at?) ∧
          cause.kind = .duplicateSymbol) ↔
        t.frozen = false ∧ ∃ first, t.DefinedOn name first ∧
          line.natAbs < 10 ^ maxDecimalDigits ∧ first.natAbs < 10 ^ maxDecimalDigits) ∧
      ((t.stageChecked debug name (some line)).fault? = some .integerTooLong ↔
        t.frozen = false ∧ ∃ first, t.DefinedOn name first ∧
          ¬ (line.natAbs < 10 ^ maxDecimalDigits ∧ first.natAbs < 10 ^ maxDecimalDigits))) ∧
    (t.frozen = true → t.waiting = [] ∧
      ∀ later, (∀ c ∈ later, c.Printable debug) → .reset ∉ later → filled debug (calls ++ later) = t) ∧
    ∀ c : Call, c.Printable debug → (c.reply debug t).fault? ≠ none → (c.reply debug t).table = t := by
  intro t
  have ht : t = afterCalls calls := filled_eq hcalls
  have hsound : t.Sound := ht ▸ sound_afterCalls calls
  have hlater : ∀ later : List Call, (∀ c ∈ later, c.Printable debug) →
      filled debug (calls ++ later) = afterCalls (calls ++ later) :=
    fun later h => filled_eq fun c hc => (List.mem_append.1 hc).elim (hcalls c) (h c)
  refine ⟨?_, ?_, ?_, ?_, ?_, ?_⟩
  · rintro name ⟨hc, hw⟩
    exact (List.nodup_append.1 hsound.names).2.2 name hc name hw rfl
  · intro name s later hprint hs hr
    rw [ht] at hs
    obtain ⟨hn, line, hl, hassigns⟩ := lookup_afterCalls.1 hs
    rw [hlater later hprint]
    exact lookup_afterCalls.2 ⟨hn, line, hl, hassigns.append hr⟩
  · rw [ht]
    exact fun _ _ => lookup_afterCalls
  · intro name line hprint
    exact hsound.stageChecked_fault hprint
  · intro hf
    refine ⟨by simp [waiting, hsound.frozen hf], fun later hprint hr => ?_⟩
    rw [hlater later hprint, ht]
    exact afterCalls_of_frozen (ht ▸ hf) hr
  · intro c hprint hfault
    obtain ⟨text, hreply⟩ := reply_printable (ht ▸ reportable_staged hcalls) hprint
    rw [hreply] at hfault ⊢
    cases hrun : c.run t with
    | error e => rfl
    | ok t' => simp [hrun] at hfault

/-- "a" is staged, committed and staged again. -/
def twice : List Call := [.stage "a" 3, .commit 8, .stage "a" 5]

theorem twice_printable (debug : Bool) : ∀ c ∈ twice, c.Printable debug := by
  simp only [twice, List.forall_mem_cons, List.not_mem_nil, false_implies, implies_true, and_true]
  exact ⟨fun _ => Literal.lt_longNumber (by decide), trivial, fun _ => Literal.lt_longNumber (by decide)⟩

theorem table_after_any_calls_of_twice :
    (filled true twice).lookup "a" = some ⟨"a", 8, some 3⟩ ∧
      ∃ cause at?, ((filled true twice).stageChecked true "a" (some 9)).fault? = some (.refused cause at?) ∧
        cause.kind = .duplicateSymbol := by
  obtain ⟨-, -, hlookup, hstage, -⟩ := table_after_any_calls (twice_printable true)
  have hshort : ∀ n : Nat, n < 10 ^ 10 → (n : Int).natAbs < 10 ^ maxDecimalDigits := fun n => Literal.lt_longNumber
  have ha : (filled true twice).lookup "a" = some ⟨"a", 8, some 3⟩ :=
    (hlookup "a" ⟨"a", 8, some 3⟩).2 ⟨rfl, 3, rfl, [.stage "a" 3], [.stage "a" 5], rfl,
      ⟨[], [], rfl, ⟨_, rfl⟩, by simp⟩, by decide⟩
  refine ⟨ha, ((hstage "a" 9 fun _ => hshort 9 (by decide)).2.1).2 ⟨?_, 3, .inl ⟨8, (lookup_mem ha).1⟩, ?_, ?_⟩⟩
  · rw [filled_eq (twice_printable true)]
    rfl
  · exact hshort 9 (by decide)
  · exact hshort 3 (by decide)

/-- The message of a duplicate cannot be put together for such a line. -/
theorem stageChecked_unwritable (hlong : Text.isWritable line = false) :
    ((filled false [.stage "a" 1]).stageChecked false "a" (some line)).fault? = some .integerTooLong := by
  have hfilled : filled false [.stage "a" 1] = { staged := [⟨"a", some 1⟩] } := rfl
  have hstage : stage { staged := [⟨"a", some 1⟩] } "a" (some line) =
      .error (.refused (.duplicateSymbol "a" (some line) 1) (some line)) := stage_defined rfl rfl
  rw [hfilled, stageChecked, hstage]
  simp [Fault.checked, Cause.isWritable, hlong]

/-- Debug mode stops at such a line after the symbol was put in, and before the label is taken out. -/
theorem filled_unwritable (hlong : Text.isWritable line = false) :
    filled true [.stage "a" line, .commit 0] = { symbols := [⟨"a", 0, some line⟩], staged := [⟨"a", some line⟩] } := by
  have hreport : isReportable true (some line) = false := hlong
  have hstaged : (Call.stage "a" line).reply true {} =
      { table := { staged := [⟨"a", some line⟩] }, fault? := some .integerTooLong } := by
    rw [Call.reply, stageChecked, stage_fresh rfl (by simp) (by simp)]
    simp [hreport]
  rw [filled, List.foldl_cons, hstaged]
  simp [Call.reply, commitChecked, commitEach, hreport, insertSymbol]

/-- A line with more digits: "a" waits, and staging it again is no duplicate. In debug mode "a" is committed and waits
still. -/
theorem table_of_long_line :
    ("a" ∈ (filled false [.stage "a" 1]).waiting ∧
      ∀ cause at?, ((filled false [.stage "a" 1]).stageChecked false "a" (some Literal.longNumber)).fault? ≠
        some (.refused cause at?)) ∧
    "a" ∈ (filled true [.stage "a" Literal.longNumber, .commit 0]).committed ∧
      "a" ∈ (filled true [.stage "a" Literal.longNumber, .commit 0]).waiting := by
  have hlong : Text.isWritable Literal.longNumber = false := Literal.not_isWritable.2 Literal.le_longNumber
  rw [stageChecked_unwritable hlong, filled_unwritable hlong]
  exact ⟨⟨.head _, fun _ _ => nofun⟩, .head _, .head _⟩

end MipsAssembler.SymbolTable
