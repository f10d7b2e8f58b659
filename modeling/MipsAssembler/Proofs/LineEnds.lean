import MipsAssembler.Proofs.Grammar
import MipsAssembler.Proofs.SameSource
import MipsAssembler.Proofs.Utf8
/-!
# Line ends and tabs do not count

The same lines can be stored in many ways: with a newline behind each or with a carriage return in front of it, without
one at the end of the last line, with tabs or with the spaces they stand for (`Stores`). All of them read the same
(`Stores.lines`), so runs on them do not differ.
-/

namespace MipsAssembler

namespace SourceLine

variable {s s' text shown cr ending source : List Char} {texts : List (List Char)}

/-- Any of the tabs of a text are replaced by four spaces. -/
inductive Respaced : List Char → List Char → Prop
  | nil : Respaced [] []
  | keep {s s' : List Char} (c : Char) : Respaced s s' → Respaced (c :: s) (c :: s')
  | replace {s s' : List Char} : Respaced s s' → Respaced ('\t' :: s) (' ' :: ' ' :: ' ' :: ' ' :: s')

/-- The ways to store lines of text one behind the other. The last line may be without an end, unless it is empty. -/
inductive Stores : List (List Char) → List Char → Prop
  | nil : Stores [] []
  | last {text shown : List Char} : text ≠ [] → Respaced text shown → Stores [text] shown
  | line {text shown cr source : List Char} {rest : List (List Char)} : Respaced text shown → cr = [] ∨ cr = ['\r'] →
      Stores rest source → Stores (text :: rest) (shown ++ cr ++ '\n' :: source)

/-! ## One line -/

theorem Respaced.refl (s : List Char) : Respaced s s := by
  induction s with
  | nil => exact .nil
  | cons c s ih => exact .keep c ih

theorem Respaced.newline_mem (h : Respaced s s') (hmem : '\n' ∈ s') : '\n' ∈ s := by
  induction h with
  | nil => exact hmem
  | keep c _ ih =>
    rcases List.mem_cons.1 hmem with rfl | hmem
    · exact List.mem_cons_self
    · exact List.mem_cons_of_mem c (ih hmem)
  | replace _ ih => exact List.mem_cons_of_mem _ (ih (by simpa using hmem))

theorem Respaced.ne_nil (h : Respaced s s') (hne : s ≠ []) : s' ≠ [] := by
  cases h with
  | nil => exact hne
  | keep c _ => exact List.cons_ne_nil _ _
  | replace _ => exact List.cons_ne_nil _ _

theorem Respaced.expandTabs_eq (h : Respaced s s') : expandTabs s' = expandTabs s := by
  induction h with
  | nil => rfl
  | keep c _ ih =>
    unfold expandTabs at ih ⊢
    rw [List.flatMap_cons, List.flatMap_cons, ih]
  | replace _ ih =>
    unfold expandTabs at ih ⊢
    simp [ih]

/-- A line loses its end in front of its tabs or behind them. -/
theorem dropLineEnd_expandTabs (s : List Char) : dropLineEnd (expandTabs s) = expandTabs (dropLineEnd s) := by
  -- The induction is on the end of the line: a line end is cut on both sides, and anything else stops both cuts.
  induction s using List.reverseRecOn with
  | nil => rfl
  | append_singleton s c ih =>
    rw [expandTabs_append]
    by_cases hc : c = '\r' ∨ c = '\n'
    · have hend : ∀ x ∈ [c], x = '\r' ∨ x = '\n' := by simpa using hc
      have hsame : expandTabs [c] = [c] := by rcases hc with rfl | rfl <;> rfl
      rw [hsame, dropLineEnd_append hend, dropLineEnd_append hend, ih]
    · rw [not_or] at hc
      have hlast : ∀ x, (expandTabs s ++ expandTabs [c]).getLast? = some x → x ≠ '\r' ∧ x ≠ '\n' := by
        intro x hx
        by_cases htab : c = '\t'
        · have hspace : ' ' = x := by simpa [expandTabs, htab] using hx
          rw [← hspace]
          decide
        · have hsame : c = x := by simpa [expandTabs, htab] using hx
          rwa [← hsame]
      rw [dropLineEnd_same hlast, dropLineEnd_same (by simpa using hc), expandTabs_append]

/-- However a line is shown and ends, it is parsed the same. -/
theorem Respaced.parse_eq (h : Respaced text shown) (hend : ∀ c ∈ ending, c = '\r' ∨ c = '\n') :
    parse (String.ofList (shown ++ ending)) = parse (String.ofList text) := by
  have hchars : expandTabs (dropLineEnd (shown ++ ending)) = expandTabs (dropLineEnd text) := by
    rw [dropLineEnd_append hend, ← dropLineEnd_expandTabs, h.expandTabs_eq, dropLineEnd_expandTabs]
  unfold parse
  rw [String.toList_ofList, String.toList_ofList, hchars]

theorem ofBytes_encode (s : List Char) : ofBytes (Utf8.encode s) = .ok (parse (String.ofList s)) := by
  rw [ofBytes, Utf8.text, Utf8.decode_encode]
  rfl

/-! ## All lines -/

theorem lines_encode_newline (h : '\n' ∉ s) :
    Utf8.lines (Utf8.encode (s ++ '\n' :: source)) = Utf8.encode (s ++ ['\n']) :: Utf8.lines (Utf8.encode source) := by
  have hsplit : Utf8.encode (s ++ '\n' :: source) = Utf8.encode s ++ 10 :: Utf8.encode source := by
    rw [Utf8.encode_append, Utf8.encode_cons]
    rfl
  rw [hsplit, Utf8.lines_newline fun hmem => h (Utf8.newline_mem_encode hmem), Utf8.encode_append]
  rfl

/-- Every way to store lines reads as these lines. -/
theorem Stores.lines (h : Stores texts source) (hnewline : ∀ text ∈ texts, '\n' ∉ text) :
    (Utf8.lines (Utf8.encode source)).map ofBytes = texts.map fun text => .ok (parse (String.ofList text)) := by
  induction h with
  | nil => rfl
  | @last text shown hne hshown =>
    have hshown' : '\n' ∉ shown := fun hmem => hnewline text List.mem_cons_self (hshown.newline_mem hmem)
    have hparse := hshown.parse_eq (List.forall_mem_nil _)
    rw [List.append_nil] at hparse
    have hsingle : Utf8.lines (Utf8.encode shown) = [Utf8.encode shown] :=
      Utf8.lines_single (Utf8.encode_ne_nil (hshown.ne_nil hne)) fun hmem => hshown' (Utf8.newline_mem_encode hmem)
    rw [hsingle, List.map_singleton, List.map_singleton, ofBytes_encode, hparse]
  | @line text shown cr source rest hshown hcr _ ih =>
    rw [List.forall_mem_cons] at hnewline
    have hline : '\n' ∉ shown ++ cr := by
      rw [List.mem_append, not_or]
      refine ⟨fun hmem => hnewline.1 (hshown.newline_mem hmem), ?_⟩
      rcases hcr with rfl | rfl <;> decide
    have hend : ∀ c ∈ cr ++ ['\n'], c = '\r' ∨ c = '\n' := by
      rcases hcr with rfl | rfl <;> simp
    rw [lines_encode_newline hline, List.map_cons, List.map_cons, ih hnewline.2, ofBytes_encode, List.append_assoc,
      hshown.parse_eq hend]

end SourceLine

namespace Assembler

open Directory SourceLine

/-- Lines without newlines in them are stored in two ways. Whatever else the directory holds and wherever the names
lead, runs on the two give the same answer and end with the same errors, symbols, progress, output and printed text.
Behind them every name reads the same, the listing and the machine code included. The one exception is the source
itself, as long as the run has not opened it for its output. -/
theorem line_ends_and_tabs_do_not_count {texts : List (List Char)} {source source' : List Char}
    (hnewline : ∀ text ∈ texts, '\n' ∉ text) (h : Stores texts source) (h' : Stores texts source')
    (files : Directory) (sourceName : String) (listingName : Option String) (binaryName : String) (debug : Bool) :
    let path := pathOf sourceName
    let start := new (files.put path (Utf8.encode source)) sourceName listingName binaryName debug
    let start' := new (files.put path (Utf8.encode source')) sourceName listingName binaryName debug
    let run := start.assemble
    let run' := start'.assemble
    run.2 = run'.2 ∧ run'.1 = { run.1 with files := run'.1.files } ∧
      ∀ name, run.1.files.read name = run'.1.files.read name ∨
        pathOf name = path ∧ (run.1.output = none ∨ path ∉ start.outputPaths) ∧
          run.1.files.read name = .ok (Utf8.encode source) ∧ run'.1.files.read name = .ok (Utf8.encode source') := by
  have hlines := (h.lines hnewline).trans (h'.lines hnewline).symm
  exact assemble_of_same_lines hlines files (pathOf sourceName) sourceName listingName binaryName debug

/-- A label and a jump behind a tab, with newlines and no last line end, or with spaces and carriage returns. -/
theorem line_ends_and_tabs_do_not_count_of_jump :
    let texts := [['l', ':'], ['\t', 'j', ' ', 'l']]
    let source := ['l', ':', '\n', '\t', 'j', ' ', 'l']
    let source' := ['l', ':', '\r', '\n', ' ', ' ', ' ', ' ', 'j', ' ', 'l', '\r', '\n']
    let run := (new (Directory.put {} ["l.asm"] (Utf8.encode source)) "l.asm" none "" true).assemble
    let run' := (new (Directory.put {} ["l.asm"] (Utf8.encode source')) "l.asm" none "" true).assemble
    (∀ text ∈ texts, '\n' ∉ text) ∧ Stores texts source ∧ Stores texts source' ∧
      run.2 = run'.2 ∧ run'.1 = { run.1 with files := run'.1.files } := by
  intro texts source source' run run'
  have hnewline : ∀ text ∈ texts, '\n' ∉ text := by simp [texts]
  have hs : Stores texts source := .line (.refl _) (.inl rfl) (.last (List.cons_ne_nil _ _) (.refl _))
  have hs' : Stores texts source' := .line (.refl _) (.inr rfl) (.line (.replace (.refl _)) (.inr rfl) .nil)
  have hrun := line_ends_and_tabs_do_not_count hnewline hs hs' {} "l.asm" none "" true
  exact ⟨hnewline, hs, hs', hrun.1, hrun.2.1⟩

end Assembler

end MipsAssembler
