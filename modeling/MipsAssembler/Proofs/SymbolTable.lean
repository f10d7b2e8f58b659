import Mathlib.Data.List.Nodup
import MipsAssembler.SymbolTable
/-!
# What staging and committing do to a table

As long as names stay apart, staging and committing only append: `stage_fresh` puts a label behind those that wait,
`commit_fresh` puts the waiting labels behind the symbols. `lookup_iff` reads a table with one symbol for a name as a
map.
-/

namespace MipsAssembler.SymbolTable

variable {t : SymbolTable} {name : String} {line : Option Int}

/-! ## Looking up -/

theorem lookup_mem {s : Symbol} (h : t.lookup name = some s) : s ∈ t.symbols ∧ s.name = name :=
  ⟨List.mem_of_find?_eq_some h, by simpa using List.find?_some h⟩

theorem lookup_none : t.lookup name = none ↔ ∀ s ∈ t.symbols, s.name ≠ name := by
  simp [lookup, List.find?_eq_none]

/-- With one symbol for a name, looking up finds exactly the symbols of the table. -/
theorem lookup_iff {s : Symbol} (hn : (t.symbols.map (·.name)).Nodup) :
    t.lookup name = some s ↔ s ∈ t.symbols ∧ s.name = name := by
  constructor
  · exact lookup_mem
  · rintro ⟨hs, rfl⟩
    cases h : t.lookup s.name with
    | none => exact absurd rfl (lookup_none.1 h s hs)
    | some r =>
      obtain ⟨hr, hk⟩ := lookup_mem h
      rw [List.inj_on_of_nodup_map hn hr hs hk]

/-! ## Appending -/

theorem insertStaged_fresh {l : StagedLabel} {ls : List StagedLabel} (h : ∀ x ∈ ls, x.name ≠ l.name) :
    insertStaged l ls = ls ++ [l] := by
  induction ls with
  | nil => rfl
  | cons x rest ih =>
    rw [insertStaged, if_neg (h x (by simp)), ih fun y hy => h y (by simp [hy]), List.cons_append]

theorem insertSymbol_fresh {s : Symbol} {l : List Symbol} (h : ∀ x ∈ l, x.name ≠ s.name) :
    insertSymbol l s = l ++ [s] := by
  unfold insertSymbol
  rw [List.filter_eq_self.2 fun x hx => by simpa using h x hx]

/-- Inserting symbols whose names differ from each other and from those in the list. -/
theorem insertSymbols_fresh {new l : List Symbol} (h : ((l ++ new).map (·.name)).Nodup) :
    new.foldl insertSymbol l = l ++ new := by
  induction new generalizing l with
  | nil => simp
  | cons s rest ih =>
    have happend : l ++ s :: rest = (l ++ [s]) ++ rest := by simp
    have hs : ∀ x ∈ l, x.name ≠ s.name := by
      intro x hx he
      simp only [List.map_append, List.map_cons, List.nodup_append] at h
      exact h.2.2 x.name (List.mem_map_of_mem hx) s.name (by simp) he
    rw [List.foldl_cons, insertSymbol_fresh hs, ih (by rw [← happend]; exact h), ← happend]

/-! ## Staging and committing -/

theorem definingLine_none (hs : ∀ s ∈ t.symbols, s.name ≠ name) (hl : ∀ l ∈ t.staged, l.name ≠ name) :
    t.definingLine name = none := by
  have hfind : t.staged.find? (·.name = name) = none := by simpa [List.find?_eq_none] using hl
  simp [definingLine, lookup_none.2 hs, hfind]

/-- Staging a new name puts it behind the labels that wait. -/
theorem stage_fresh (hf : t.frozen = false) (hs : ∀ s ∈ t.symbols, s.name ≠ name)
    (hl : ∀ l ∈ t.staged, l.name ≠ name) :
    t.stage name line = .ok { t with staged := t.staged ++ [⟨name, line⟩] } := by
  simp [stage, hf, definingLine_none hs hl, insertStaged_fresh (l := ⟨name, line⟩) hl]

/-- Staging a name with a line is refused. -/
theorem stage_defined {first : Int} (hf : t.frozen = false) (h : t.definingLine name = some first) :
    t.stage name line = .error (.refused (.duplicateSymbol name line first) line) := by
  simp [stage, hf, h]

theorem stage_frozen (hf : t.frozen = true) : t.stage name line = .error (.defineFrozen name) := by
  simp [stage, hf]

theorem commit_frozen {address : Int} (hf : t.frozen = true) : t.commit address = .error .commitFrozen := by
  simp [commit, hf]

/-- Committing puts the waiting labels behind the symbols. -/
theorem commit_fresh {address : Int} (hf : t.frozen = false)
    (h : (t.symbols.map (·.name) ++ t.staged.map (·.name)).Nodup) :
    t.commit address = .ok { t with
      symbols := t.symbols ++ t.staged.map fun l => ⟨l.name, address, l.line⟩
      staged := [] } := by
  have hnames : ((t.symbols ++ t.staged.map fun l => (⟨l.name, address, l.line⟩ : Symbol)).map (·.name)).Nodup := by
    rw [List.map_append, List.map_map]
    exact h
  simp [commit, hf, insertSymbols_fresh hnames]

/-! ## By name -/

theorem mem_sorted {s : Symbol} : s ∈ t.sorted ↔ s ∈ t.symbols := (List.mergeSort_perm _ _).mem_iff

/-- With one symbol for a name, names ascend strictly. -/
theorem sorted_ascending (hn : (t.symbols.map (·.name)).Nodup) : t.sorted.Pairwise fun x y => x.name < y.name := by
  have hle : t.sorted.Pairwise fun x y => x.name ≤ y.name := by
    have hsort : t.sorted.Pairwise fun x y => decide (x.name ≤ y.name) = true := by
      refine List.pairwise_mergeSort (fun x y z hxy hyz => ?_) (fun x y => ?_) t.symbols
      · exact decide_eq_true (String.le_trans (of_decide_eq_true hxy) (of_decide_eq_true hyz))
      · rw [Bool.or_eq_true, decide_eq_true_eq, decide_eq_true_eq]
        exact String.le_total x.name y.name
    exact hsort.imp of_decide_eq_true
  have hne : t.sorted.Pairwise fun x y => x.name ≠ y.name := by
    have hn' : (t.sorted.map (·.name)).Nodup := ((List.mergeSort_perm _ _).map _).nodup_iff.2 hn
    exact List.pairwise_map.1 hn'
  refine hle.imp₂ (fun x y hxy hne => ?_) hne
  exact String.not_le.1 fun hyx => hne (String.le_antisymm hxy hyx)

end MipsAssembler.SymbolTable
