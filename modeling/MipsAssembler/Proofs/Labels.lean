import Mathlib.Data.List.Induction
import MipsAssembler.Proofs.Reference
import MipsAssembler.Proofs.SymbolTable
/-!
# Labels, line by line

How symbols and waiting labels change with one more line: a line without an instruction leaves the symbols alone and
has its label wait (`symbols_snoc_other`, `pending_snoc_other`), and an instruction makes symbols of all that wait
(`symbols_snoc_instruction`, `pending_snoc_instruction`). Staging and committing do the same to the table of a scan
(`stage_scanned`, `commit_staged`), and what the table then holds is read with `lookup_table`.
-/

namespace MipsAssembler.Reference

variable {ls : List SourceLine} {s : SourceLine} {k : Nat} {name : String}

/-! ## One more line -/

theorem labelAt_snoc_lt (h : k < ls.length) : labelAt? (ls ++ [s]) k = labelAt? ls k := by
  simp [labelAt?, List.getElem?_append_left h]

theorem labelAt_snoc_length (ls : List SourceLine) (s : SourceLine) :
    labelAt? (ls ++ [s]) ls.length = s.statement.label := by
  simp [labelAt?]

theorem labelAt_lt (h : labelAt? ls k = some name) : k < ls.length := by
  by_contra hk
  rw [labelAt?, List.getElem?_eq_none (by omega)] at h
  cases h

theorem labelAt_snoc_iff : labelAt? (ls ++ [s]) k = some name ↔
    labelAt? ls k = some name ∨ (k = ls.length ∧ s.statement.label = some name) := by
  rcases Nat.lt_trichotomy k ls.length with h | rfl | h
  · rw [labelAt_snoc_lt h]
    constructor
    · exact .inl
    · rintro (h' | ⟨rfl, -⟩)
      · exact h'
      · exact absurd h (Nat.lt_irrefl _)
  · rw [labelAt_snoc_length]
    constructor
    · exact fun h => .inr ⟨rfl, h⟩
    · rintro (h' | ⟨-, h'⟩)
      · exact absurd (labelAt_lt h') (Nat.lt_irrefl _)
      · exact h'
  · constructor
    · intro h'
      have := labelAt_lt h'
      simp at this
      omega
    · rintro (h' | ⟨rfl, -⟩)
      · exact absurd (labelAt_lt h') (by omega)
      · exact absurd h (Nat.lt_irrefl _)

/-- Labels stay apart as long as each line defines a name that no line before it defines. -/
theorem distinct_snoc : Distinct (ls ++ [s]) ↔
    Distinct ls ∧ ∀ name, s.statement.label = some name → ∀ j, labelAt? ls j ≠ some name := by
  constructor
  · intro h
    refine ⟨fun i j name hi hj => h i j name (labelAt_snoc_iff.2 (.inl hi)) (labelAt_snoc_iff.2 (.inl hj)), ?_⟩
    intro name hs j hj
    have := h j ls.length name (labelAt_snoc_iff.2 (.inl hj)) (labelAt_snoc_iff.2 (.inr ⟨rfl, hs⟩))
    have := labelAt_lt hj
    omega
  · rintro ⟨h, hs⟩ i j name hi hj
    rcases labelAt_snoc_iff.1 hi with hi' | ⟨rfl, hi'⟩ <;> rcases labelAt_snoc_iff.1 hj with hj' | ⟨rfl, hj'⟩
    · exact h i j name hi' hj'
    · exact absurd hi' (hs name hj' i)
    · exact absurd hj' (hs name hi' j)
    · rfl

theorem reaches_snoc (h : k ≤ ls.length) : reaches (ls ++ [s]) k = (reaches ls k || s.isInstruction) := by
  simp [reaches, List.drop_append_of_le_length h]

theorem mem_definitions {d : Nat × String} : d ∈ definitions ls ↔ labelAt? ls d.1 = some d.2 := by
  obtain ⟨k, name⟩ := d
  simp only [definitions, List.mem_filterMap, List.mem_range, Option.map_eq_some_iff, Prod.mk.injEq]
  constructor
  · rintro ⟨i, -, n, hn, rfl, rfl⟩
    exact hn
  · intro h
    exact ⟨k, labelAt_lt h, name, h, rfl, rfl⟩

theorem definitions_snoc (ls : List SourceLine) (s : SourceLine) :
    definitions (ls ++ [s]) = definitions ls ++ (s.statement.label.map (ls.length, ·)).toList := by
  have hbefore : (List.range ls.length).filterMap (fun k => (labelAt? (ls ++ [s]) k).map (k, ·)) = definitions ls := by
    refine List.filterMap_congr fun k hk => ?_
    rw [labelAt_snoc_lt (List.mem_range.1 hk)]
  unfold definitions at hbefore ⊢
  rw [List.length_append, List.length_singleton, List.range_succ, List.filterMap_append, hbefore]
  congr 1
  simp only [List.filterMap_cons, List.filterMap_nil, labelAt_snoc_length]
  cases s.statement.label <;> rfl

/-- The label of the line behind `ls`. -/
def ownLabel (ls : List SourceLine) (s : SourceLine) : List StagedLabel :=
  (s.statement.label.map fun name => ⟨name, some (ls.length + 1)⟩).toList

/-- The symbol of a label that was waiting for an address. -/
def commitAt (a : Int) (l : StagedLabel) : Symbol := ⟨l.name, a, l.line⟩

theorem symbol_snoc {d : Nat × String} (h : d ∈ definitions ls) : symbol (ls ++ [s]) d = symbol ls d := by
  have hlt := labelAt_lt (mem_definitions.1 h)
  simp [symbol, List.take_append_of_le_length (Nat.le_of_lt hlt)]

theorem reaches_definition {d : Nat × String} (h : d ∈ definitions ls) :
    reaches (ls ++ [s]) d.1 = (reaches ls d.1 || s.isInstruction) :=
  reaches_snoc (Nat.le_of_lt (labelAt_lt (mem_definitions.1 h)))

theorem reaches_last (ls : List SourceLine) (s : SourceLine) : reaches (ls ++ [s]) ls.length = s.isInstruction := by
  simp [reaches]

/-- A line without an instruction leaves the symbols alone. -/
theorem symbols_snoc_other (h : s.isInstruction = false) : symbols (ls ++ [s]) = symbols ls := by
  have hown : (s.statement.label.map (ls.length, ·)).toList.filter (reaches (ls ++ [s]) ·.1) = [] := by
    cases s.statement.label <;> simp [reaches_last, h]
  have hold : (definitions ls).filter (reaches (ls ++ [s]) ·.1) = (definitions ls).filter (reaches ls ·.1) :=
    List.filter_congr fun d hd => by rw [reaches_definition hd, h, Bool.or_false]
  unfold symbols
  rw [definitions_snoc, List.filter_append, hown, List.append_nil, hold]
  exact List.map_congr_left fun d hd => symbol_snoc (List.mem_filter.1 hd).1

/-- A line without an instruction has its label wait with the others. -/
theorem pending_snoc_other (h : s.isInstruction = false) : pending (ls ++ [s]) = pending ls ++ ownLabel ls s := by
  have hold : (definitions ls).filter (!reaches (ls ++ [s]) ·.1) = (definitions ls).filter (!reaches ls ·.1) :=
    List.filter_congr fun d hd => by rw [reaches_definition hd, h, Bool.or_false]
  unfold pending
  rw [definitions_snoc, List.filter_append, List.map_append, hold]
  congr 1
  unfold ownLabel
  cases s.statement.label <;> simp [reaches_last, h]

theorem reaches_instruction (h : s.isInstruction = true) {d : Nat × String} (hd : d ∈ definitions (ls ++ [s])) :
    reaches (ls ++ [s]) d.1 = true := by
  have hlt := labelAt_lt (mem_definitions.1 hd)
  rw [List.length_append, List.length_singleton] at hlt
  rw [reaches_snoc (Nat.le_of_lt_succ hlt), h, Bool.or_true]

theorem pending_snoc_instruction (h : s.isInstruction = true) : pending (ls ++ [s]) = [] := by
  unfold pending
  rw [List.filter_eq_nil_iff.2 fun d hd => by simp [reaches_instruction h hd]]
  rfl

/-- Behind an instruction every label is a symbol. -/
theorem symbols_snoc_all (h : s.isInstruction = true) :
    symbols (ls ++ [s]) = (definitions (ls ++ [s])).map (symbol (ls ++ [s])) := by
  unfold symbols
  rw [List.filter_eq_self.2 fun d hd => reaches_instruction h hd]

theorem symbol_own (ls : List SourceLine) (s : SourceLine) :
    (s.statement.label.map (ls.length, ·)).toList.map (symbol (ls ++ [s])) =
      (ownLabel ls s).map (commitAt (address ls)) := by
  unfold ownLabel
  cases s.statement.label <;> simp [symbol, commitAt]

/-- Symbols and waiting labels are all labels, where the waiting ones get the address behind the last line. -/
theorem symbols_append_pending (ls : List SourceLine) :
    symbols ls ++ (pending ls).map (commitAt (address ls)) = (definitions ls).map (symbol ls) := by
  induction ls using List.reverseRecOn with
  | nil => rfl
  | append_singleton ls s ih =>
    cases hs : s.isInstruction with
    -- Behind an instruction nothing waits. Behind any other line the address is the same, and so are the symbols.
    | true => rw [symbols_snoc_all hs, pending_snoc_instruction hs, List.map_nil, List.append_nil]
    | false =>
      have haddress : address (ls ++ [s]) = address ls := by simp [address_snoc, hs]
      rw [symbols_snoc_other hs, pending_snoc_other hs, haddress, List.map_append, ← List.append_assoc, ih,
        definitions_snoc, List.map_append, symbol_own]
      congr 1
      exact List.map_congr_left fun d hd => (symbol_snoc hd).symm

/-- An instruction gives its address to the waiting labels and to its own. -/
theorem symbols_snoc_instruction (h : s.isInstruction = true) :
    symbols (ls ++ [s]) = symbols ls ++ (pending ls ++ ownLabel ls s).map (commitAt (address ls)) := by
  rw [symbols_snoc_all h, definitions_snoc, List.map_append, symbol_own, List.map_append, ← List.append_assoc,
    symbols_append_pending]
  congr 1
  exact List.map_congr_left fun d hd => symbol_snoc hd

/-! ## The table as a map -/

/-- An instruction stands on line `k` or below. -/
theorem reaches_iff :
    reaches ls k = true ↔ ∃ i s, k ≤ i ∧ ls[i]? = some s ∧ s.isInstruction = true := by
  simp only [reaches, List.any_eq_true]
  constructor
  · rintro ⟨s, hs, hi⟩
    obtain ⟨i, hi'⟩ := List.mem_iff_getElem?.1 hs
    rw [List.getElem?_drop] at hi'
    exact ⟨k + i, s, Nat.le_add_right k i, hi', hi⟩
  · rintro ⟨i, s, hk, hs, hi⟩
    refine ⟨s, List.mem_iff_getElem?.2 ⟨i - k, ?_⟩, hi⟩
    rw [List.getElem?_drop, Nat.add_sub_cancel' hk, hs]

theorem mem_symbols {x : Symbol} : x ∈ symbols ls ↔ ∃ k, Defines ls k x := by
  simp only [symbols, List.mem_map, List.mem_filter, mem_definitions, Defines, ← reaches_iff]
  constructor
  · rintro ⟨⟨k, name⟩, ⟨hk, hr⟩, rfl⟩
    exact ⟨k, hk, hr, rfl, rfl⟩
  · rintro ⟨k, hk, hr, ha, hl⟩
    exact ⟨(k, x.name), ⟨hk, hr⟩, by rw [symbol, ← ha, ← hl]⟩

theorem mem_pending {l : StagedLabel} : l ∈ pending ls ↔
    ∃ k name, labelAt? ls k = some name ∧ reaches ls k = false ∧ l = ⟨name, some (k + 1)⟩ := by
  simp only [pending, List.mem_map, List.mem_filter, mem_definitions, Bool.not_eq_true']
  constructor
  · rintro ⟨⟨k, name⟩, ⟨hk, hr⟩, rfl⟩
    exact ⟨k, name, hk, hr, rfl⟩
  · rintro ⟨k, name, hk, hr, rfl⟩
    exact ⟨(k, name), ⟨hk, hr⟩, rfl⟩

theorem definitions_nodup (h : Distinct ls) : ((definitions ls).map (·.2)).Nodup := by
  induction ls using List.reverseRecOn with
  | nil => exact List.nodup_nil
  | append_singleton ls s ih =>
    obtain ⟨hls, hs⟩ := distinct_snoc.1 h
    rw [definitions_snoc, List.map_append]
    refine List.nodup_append.2 ⟨ih hls, ?_, ?_⟩
    · cases s.statement.label <;> simp
    · intro x hx y hy
      obtain ⟨d, hd, rfl⟩ := List.mem_map.1 hx
      obtain ⟨e, he, rfl⟩ := List.mem_map.1 hy
      obtain ⟨name, hname, rfl⟩ := Option.map_eq_some_iff.1 (Option.mem_toList.1 he)
      intro heq
      have hd' := mem_definitions.1 hd
      rw [heq] at hd'
      exact hs name hname d.1 hd'

theorem scanned_names (ls : List SourceLine) :
    (symbols ls).map (·.name) ++ (pending ls).map (·.name) = (definitions ls).map (·.2) := by
  have h := congrArg (List.map Symbol.name) (symbols_append_pending ls)
  rw [List.map_append, List.map_map, List.map_map] at h
  exact h

theorem symbols_nodup (h : Distinct ls) : ((symbols ls).map (·.name)).Nodup := by
  have hall := definitions_nodup h
  rw [← scanned_names] at hall
  exact (List.nodup_append.1 hall).1

/-- Looking a name up finds the symbol that a line defines. -/
theorem lookup_table (h : Distinct ls) {x : Symbol} :
    (table ls).lookup name = some x ↔ x.name = name ∧ ∃ k, Defines ls k x := by
  rw [SymbolTable.lookup_iff (t := table ls) (symbols_nodup h), show (table ls).symbols = symbols ls from rfl,
    mem_symbols]
  exact and_comm

/-! ## What the scan does to its table -/

/-- A name that no line defines has not been seen. -/
theorem scanned_fresh (h : ∀ j, labelAt? ls j ≠ some name) :
    (∀ x ∈ (scanned ls).symbols, x.name ≠ name) ∧ ∀ l ∈ (scanned ls).staged, l.name ≠ name := by
  constructor
  · rintro x hx rfl
    obtain ⟨k, hk, -⟩ := mem_symbols.1 hx
    exact h k hk
  · rintro l hl rfl
    obtain ⟨k, n, hk, -, rfl⟩ := mem_pending.1 hl
    exact h k hk

/-- A name that was seen is known with its line, whether it still waits for an address or not. -/
theorem definingLine_scanned (h : Distinct ls) (hk : labelAt? ls k = some name) :
    (scanned ls).definingLine name = some ((k : Int) + 1) := by
  unfold SymbolTable.definingLine
  cases hl : (scanned ls).lookup name with
  | some x =>
    obtain ⟨hx, hname⟩ := SymbolTable.lookup_mem hl
    obtain ⟨i, hi, -, -, hline⟩ := mem_symbols.1 hx
    cases h i k name (hname ▸ hi) hk
    exact hline
  | none =>
    have hwaits : reaches ls k = false := by
      by_contra hr
      have hx : (⟨name, address (ls.take k), some (k + 1)⟩ : Symbol) ∈ symbols ls :=
        mem_symbols.2 ⟨k, hk, reaches_iff.1 (by simpa using hr), rfl, rfl⟩
      exact SymbolTable.lookup_none.1 hl _ hx rfl
    cases hf : (scanned ls).staged.find? (·.name = name) with
    | none =>
      have := List.find?_eq_none.1 hf _ (mem_pending.2 ⟨k, name, hk, hwaits, rfl⟩)
      simp at this
    | some l =>
      have hname : l.name = name := by simpa using List.find?_some hf
      obtain ⟨i, n, hi, -, rfl⟩ := mem_pending.1 (List.mem_of_find?_eq_some hf)
      cases h i k name (hname ▸ hi) hk
      rfl

/-- The table between staging a line's label and committing it. -/
def staged (ls : List SourceLine) (s : SourceLine) : SymbolTable :=
  { symbols := symbols ls, staged := pending ls ++ ownLabel ls s }

theorem staged_unlabelled (h : s.statement.label = none) : staged ls s = scanned ls := by
  simp [staged, scanned, ownLabel, h]

theorem stage_scanned (h : s.statement.label = some name) (hn : ∀ j, labelAt? ls j ≠ some name) :
    (scanned ls).stage name (some ((ls.length : Int) + 1)) = .ok (staged ls s) := by
  rw [SymbolTable.stage_fresh rfl (scanned_fresh hn).1 (scanned_fresh hn).2]
  simp [staged, scanned, ownLabel, h]

theorem stage_scanned_twice (hd : Distinct ls) (hk : labelAt? ls k = some name) (line : Option Int) :
    (scanned ls).stage name line = .error (.refused (.duplicateSymbol name line (k + 1)) line) :=
  SymbolTable.stage_defined rfl (definingLine_scanned hd hk)

theorem staged_other (h : s.isInstruction = false) : staged ls s = scanned (ls ++ [s]) := by
  simp [staged, scanned, symbols_snoc_other h, pending_snoc_other h]

theorem commit_staged (hd : Distinct (ls ++ [s])) (h : s.isInstruction = true) :
    (staged ls s).commit (address ls) = .ok (scanned (ls ++ [s])) := by
  have hnames : ((staged ls s).symbols.map (·.name) ++ (staged ls s).staged.map (·.name)).Nodup := by
    have hown : (ownLabel ls s).map (·.name) = ((s.statement.label.map (ls.length, ·)).toList).map (·.2) := by
      unfold ownLabel
      cases s.statement.label <;> rfl
    have hall := definitions_nodup hd
    rw [definitions_snoc, List.map_append, ← scanned_names, ← hown, List.append_assoc, ← List.map_append] at hall
    exact hall
  rw [SymbolTable.commit_fresh rfl hnames]
  simp only [scanned, symbols_snoc_instruction h, pending_snoc_instruction h]
  rfl

end MipsAssembler.Reference
