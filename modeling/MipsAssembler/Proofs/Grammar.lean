import MipsAssembler.Statement
/-!
# The grammar of a source line

`Written` says how a statement may be written, part by part and without scanning: a label with its colon, blanks, an
instruction, blanks, a comment. Each `take` function reads back the part that stands in front of it
(`takeLabel_present`, `takeMnemonic_present`, ...), so `ofChars_iff` holds: reading finds a statement exactly if the
text is a way to write it, and no text is a way to write two.
-/

namespace MipsAssembler

namespace Statement

/-! ## How a statement is written -/

/-- The blanks of ASCII. -/
def blanks : List Char := [' ', '\t', '\n', '\x0b', '\x0c', '\r']

def Blank (s : List Char) : Prop := ∀ c ∈ s, c ∈ blanks

structure IsLabel (name : String) : Prop where
  nonempty : name.toList ≠ []
  chars : ∀ c ∈ name.toList, c.isAlphanum = true ∨ c = '_' ∨ c = '.'
  first : ∀ c, name.toList.head? = some c → c.isDigit = false

structure IsMnemonic (name : String) : Prop where
  nonempty : name.toList ≠ []
  chars : ∀ c ∈ name.toList, c.isAlphanum = true

structure IsArgument (token : String) : Prop where
  nonempty : token.toList ≠ []
  chars : ∀ c ∈ token.toList, c ∉ blanks ∧ c ≠ ',' ∧ c ≠ '#'

structure IsComment (text : String) : Prop where
  first : text.toList.head? = some '#'
  length : 2 ≤ text.toList.length
  last : ∀ c, text.toList.getLast? = some c → c ∉ blanks

/-- A label with its colon, or nothing. -/
inductive LabelPart : Option String → List Char → Prop
  | absent : LabelPart none []
  | present {name : String} {gap : List Char} :
      IsLabel name → Blank gap → LabelPart (some name) (name.toList ++ gap ++ [':'])

/-- Arguments behind the first one, each behind a comma. -/
inductive MoreArguments : List String → List Char → Prop
  | nil : MoreArguments [] []
  | cons {token : String} {more : List String} {before after text : List Char} :
      Blank before → Blank after → IsArgument token → MoreArguments more text →
      MoreArguments (token :: more) (before ++ [','] ++ after ++ token.toList ++ text)

/-- A mnemonic with at most three arguments, or nothing. -/
inductive InstructionPart : Option String → List String → List Char → Prop
  | absent : InstructionPart none [] []
  | bare {name : String} : IsMnemonic name → InstructionPart (some name) [] name.toList
  | applied {name token : String} {more : List String} {gap text : List Char} :
      IsMnemonic name → Blank gap → gap ≠ [] → IsArgument token → MoreArguments more text → (token :: more).length ≤ 3 →
      InstructionPart (some name) (token :: more) (name.toList ++ gap ++ token.toList ++ text)

/-- A comment up to the end of the line, or nothing. -/
inductive CommentPart : Option String → List Char → Prop
  | absent : CommentPart none []
  | present {text : String} {gap : List Char} :
      IsComment text → Blank gap → CommentPart (some text) (text.toList ++ gap)

/-- The text is a way to write the statement. An instruction needs a blank in front of it, and a mnemonic without
arguments ends at a blank or at the end of the line. -/
inductive Written (st : Statement) : List Char → Prop
  | mk {label gap instruction gap' comment : List Char} :
      LabelPart st.label label → Blank gap → InstructionPart st.mnemonic st.operands instruction → Blank gap' →
      CommentPart st.comment comment → (instruction ≠ [] → gap ≠ []) →
      (instruction ≠ [] → st.operands = [] → ∀ c, (gap' ++ comment).head? = some c → c ∈ blanks) →
      Written st (label ++ gap ++ instruction ++ gap' ++ comment)

/-! ## Runs of characters -/

/-- No character of the class stands in front. -/
def Halts (p : Char → Bool) (s : List Char) : Prop := ∀ c, s.head? = some c → p c = false

section

variable {p : Char → Bool} {run rest s : List Char}

theorem halts_cons {c : Char} : Halts p (c :: rest) ↔ p c = false := by
  simp [Halts]

theorem halts_dropWhile (p : Char → Bool) (s : List Char) : Halts p (s.dropWhile p) := by
  intro c hc
  have := List.head?_dropWhile_not p s
  rw [hc] at this
  simpa using this

theorem takeWhile_run (hrun : ∀ c ∈ run, p c = true) (hrest : Halts p rest) : (run ++ rest).takeWhile p = run := by
  rw [List.takeWhile_append_of_pos hrun]
  cases rest with
  | nil => simp
  | cons c rest => simp [halts_cons.1 hrest]

theorem dropWhile_run (hrun : ∀ c ∈ run, p c = true) (hrest : Halts p rest) : (run ++ rest).dropWhile p = rest := by
  rw [List.dropWhile_append_of_pos hrun]
  cases rest with
  | nil => rfl
  | cons c rest => simp [halts_cons.1 hrest]

/-- A list is the run of a class in front of it and a rest that halts the run. -/
theorem eq_run_append (p : Char → Bool) (s : List Char) :
    ∃ run rest, s = run ++ rest ∧ s.takeWhile p = run ∧ s.dropWhile p = rest ∧ (∀ c ∈ run, p c = true) ∧
      Halts p rest :=
  ⟨_, _, List.takeWhile_append_dropWhile.symm, rfl, rfl, List.all_eq_true.1 List.all_takeWhile, halts_dropWhile p s⟩

end

theorem isBlank_iff {c : Char} : isBlank c = true ↔ c ∈ blanks := by
  simp [isBlank, blanks, or_assoc]

theorem isBlank_false_iff {c : Char} : isBlank c = false ↔ c ∉ blanks := by
  rw [← isBlank_iff, Bool.not_eq_true]

theorem isLabelChar_iff {c : Char} : isLabelChar c = true ↔ c.isAlphanum = true ∨ c = '_' ∨ c = '.' := by
  simp [isLabelChar, or_assoc]

theorem isArgumentChar_iff {c : Char} : isArgumentChar c = true ↔ c ∉ blanks ∧ c ≠ ',' ∧ c ≠ '#' := by
  rw [← isBlank_false_iff]
  simp [isArgumentChar, and_assoc]

/-- A blank belongs to no word. -/
theorem blank_ends_words {c : Char} (h : c ∈ blanks) :
    isLabelChar c = false ∧ c.isAlphanum = false ∧ isArgumentChar c = false := by
  simp only [blanks, List.mem_cons, List.not_mem_nil, or_false] at h
  rcases h with rfl | rfl | rfl | rfl | rfl | rfl <;> decide

theorem skipBlanks_run {gap rest : List Char} (hgap : Blank gap) (hrest : Halts isBlank rest) :
    skipBlanks (gap ++ rest) = rest :=
  dropWhile_run (fun c hc => isBlank_iff.2 (hgap c hc)) hrest

/-- What is no blank and does not stand in front of the rest does not stand in front of blanks and the rest. -/
theorem halts_gap {p : Char → Bool} {gap rest : List Char} (hp : ∀ c ∈ blanks, p c = false) (hgap : Blank gap)
    (hrest : Halts p rest) : Halts p (gap ++ rest) := by
  cases gap with
  | nil => exact hrest
  | cons c gap => exact halts_cons.2 (hp c (hgap c List.mem_cons_self))

/-- Every text is blanks and a rest that starts with none. -/
theorem eq_gap_append (s : List Char) :
    ∃ gap rest, s = gap ++ rest ∧ skipBlanks s = rest ∧ Blank gap ∧ Halts isBlank rest := by
  obtain ⟨gap, rest, hs, -, hrest, hgap, hhalts⟩ := eq_run_append isBlank s
  exact ⟨gap, rest, hs, hrest, fun c hc => isBlank_iff.1 (hgap c hc), hhalts⟩

/-! ## Labels -/

theorem takeLabel_present {name : String} {gap rest : List Char} (h : IsLabel name) (hgap : Blank gap) :
    takeLabel (name.toList ++ gap ++ [':'] ++ rest) = (some name.toList, rest) := by
  have hname : ∀ c ∈ name.toList, isLabelChar c = true := fun c hc => isLabelChar_iff.2 (h.chars c hc)
  have hcolon : Halts isBlank (':' :: rest) := halts_cons.2 (by decide)
  have hend : Halts isLabelChar (gap ++ ':' :: rest) :=
    halts_gap (fun c hc => (blank_ends_words hc).1) hgap (halts_cons.2 (by decide))
  have htext : name.toList ++ gap ++ [':'] ++ rest = name.toList ++ (gap ++ ':' :: rest) := by simp
  rw [htext]
  obtain ⟨c, cs, hc⟩ := List.exists_cons_of_ne_nil h.nonempty
  have hstart : isLabelStart c = true := by
    simp [isLabelStart, hname c (by simp [hc]), h.first c (by simp [hc])]
  unfold takeLabel
  split
  · simp_all
  · rename_i c' cs' heq
    have hcc : c = c' := by simpa [hc] using congrArg List.head? heq
    rw [← hcc, if_pos hstart, dropWhile_run hname hend, takeWhile_run hname hend, skipBlanks_run hgap hcolon]
    rfl

/-- A line that starts with a blank or a comment has no label. -/
theorem takeLabel_absent {s : List Char} (h : ∀ c, s.head? = some c → c ∈ blanks ∨ c = '#') :
    takeLabel s = (none, s) := by
  unfold takeLabel
  split
  · rfl
  · rename_i c cs
    have hstart : isLabelStart c = false := by
      rcases h c rfl with hc | rfl
      · simp [isLabelStart, (blank_ends_words hc).1]
      · decide
    simp [hstart]

theorem takeLabel_sound {s rest : List Char} {label : Option (List Char)} (h : takeLabel s = (label, rest)) :
    ∃ text, s = text ++ rest ∧ LabelPart (label.map String.ofList) text := by
  unfold takeLabel at h
  split at h
  · cases h
    exact ⟨[], rfl, .absent⟩
  · rename_i c cs
    split at h
    · rename_i hstart
      obtain ⟨name, tail, hs, hname, htail, hchars, -⟩ := eq_run_append isLabelChar (c :: cs)
      obtain ⟨gap, behind, hgs, hskip, hgap, -⟩ := eq_gap_append tail
      rw [htail, hskip, hname] at h
      split at h
      · rename_i rest'
        cases h
        refine ⟨name ++ gap ++ [':'], by rw [hs, hgs]; simp, ?_⟩
        have hlabel : IsLabel (String.ofList name) := by
          rw [isLabelStart, Bool.and_eq_true, Bool.not_eq_true'] at hstart
          have hfirst : (c :: cs).takeWhile isLabelChar = c :: cs.takeWhile isLabelChar :=
            List.takeWhile_cons_of_pos hstart.1
          rw [hname] at hfirst
          constructor
          · simp [hfirst]
          · intro d hd
            rw [String.toList_ofList] at hd
            exact isLabelChar_iff.1 (hchars d hd)
          · intro d hd
            rw [String.toList_ofList, hfirst, List.head?_cons, Option.some.injEq] at hd
            rw [← hd, hstart.2]
        have := LabelPart.present hlabel hgap
        rwa [String.toList_ofList] at this
      · cases h
        exact ⟨[], rfl, .absent⟩
    · cases h
      exact ⟨[], rfl, .absent⟩

/-! ## Mnemonics -/

theorem atWordEnd_iff {s : List Char} : atWordEnd s = true ↔ ∀ c, s.head? = some c → c ∈ blanks := by
  cases s <;> simp [atWordEnd, isBlank_iff]

theorem takeMnemonic_present {name : String} {gap rest : List Char} (h : IsMnemonic name) (hgap : Blank gap)
    (hne : gap ≠ []) (hrest : ∀ c, rest.head? = some c → c ∈ blanks) :
    takeMnemonic (gap ++ name.toList ++ rest) = (some name.toList, rest) := by
  obtain ⟨c, cs, hc⟩ := List.exists_cons_of_ne_nil h.nonempty
  have hfirst : Halts isBlank (name.toList ++ rest) := by
    rw [hc, List.cons_append]
    refine halts_cons.2 (isBlank_false_iff.2 fun hb => ?_)
    have hword := (blank_ends_words hb).2.1
    rw [h.chars c (by simp [hc])] at hword
    cases hword
  have hend : Halts Char.isAlphanum rest := fun d hd => (blank_ends_words (hrest d hd)).2.1
  unfold takeMnemonic
  rw [List.append_assoc, skipBlanks_run hgap hfirst]
  simp only [takeWhile_run h.chars hend, dropWhile_run h.chars hend]
  simp [hne, h.nonempty, atWordEnd_iff.2 hrest]

/-- Blanks that nothing but a comment follows hold no mnemonic. -/
theorem takeMnemonic_absent {gap rest : List Char} (hgap : Blank gap) (hrest : ∀ c, rest.head? = some c → c = '#') :
    takeMnemonic (gap ++ rest) = (none, rest) := by
  have hfirst : Halts isBlank rest := by
    intro c hc
    rw [hrest c hc]
    decide
  have hname : rest.takeWhile Char.isAlphanum = [] := by
    cases rest with
    | nil => rfl
    | cons c cs =>
      rw [hrest c rfl]
      exact List.takeWhile_cons_of_neg (by decide)
  simp [takeMnemonic, skipBlanks_run hgap hfirst, hname]

theorem takeMnemonic_some {s name rest : List Char} (h : takeMnemonic s = (some name, rest)) :
    ∃ gap, s = gap ++ name ++ rest ∧ Blank gap ∧ gap ≠ [] ∧ IsMnemonic (String.ofList name) ∧
      ∀ c, rest.head? = some c → c ∈ blanks := by
  obtain ⟨gap, start, hs, hskip, hgap, -⟩ := eq_gap_append s
  obtain ⟨run, behind, hstart, hrun, hbehind, hchars, -⟩ := eq_run_append Char.isAlphanum start
  simp only [takeMnemonic, hskip, hrun, hbehind] at h
  split at h
  · rename_i hcond
    cases h
    simp only [Bool.and_eq_true, decide_eq_true_eq, Bool.not_eq_true', List.isEmpty_eq_false_iff] at hcond
    obtain ⟨⟨hlen, hne⟩, hend⟩ := hcond
    refine ⟨gap, by rw [hs, hstart, List.append_assoc], hgap, ?_, ⟨?_, ?_⟩, atWordEnd_iff.1 hend⟩
    · rintro rfl
      simp [hs] at hlen
    · simpa using hne
    · simpa using hchars
  · cases h

theorem takeMnemonic_none {s rest : List Char} (h : takeMnemonic s = (none, rest)) :
    ∃ gap, s = gap ++ rest ∧ Blank gap := by
  obtain ⟨gap, start, hs, hskip, hgap, -⟩ := eq_gap_append s
  simp only [takeMnemonic, hskip] at h
  split at h
  · cases h
  · cases h
    exact ⟨gap, hs, hgap⟩

/-! ## Arguments -/

/-- Behind the last argument stands neither more of it nor another one. -/
structure EndsArguments (rest : List Char) : Prop where
  halts : Halts isArgumentChar rest
  comma : ∀ c, (skipBlanks rest).head? = some c → c ≠ ','

theorem argument_halts {token : String} {rest : List Char} (h : IsArgument token) :
    Halts isBlank (token.toList ++ rest) := by
  obtain ⟨c, cs, hc⟩ := List.exists_cons_of_ne_nil h.nonempty
  rw [hc, List.cons_append]
  exact halts_cons.2 (isBlank_false_iff.2 (h.chars c (by simp [hc])).1)

theorem argument_run {token : String} (h : IsArgument token) : ∀ c ∈ token.toList, isArgumentChar c = true :=
  fun c hc => isArgumentChar_iff.2 (h.chars c hc)

/-- What stands behind an argument is no more of it. -/
theorem moreArguments_halts {more : List String} {text rest : List Char} (h : MoreArguments more text)
    (hrest : EndsArguments rest) : Halts isArgumentChar (text ++ rest) := by
  cases h with
  | nil => exact hrest.halts
  | cons hbefore _ _ _ =>
    simp only [List.append_assoc]
    exact halts_gap (fun c hc => (blank_ends_words hc).2.2) hbefore (halts_cons.2 (by decide))

theorem takeMoreArguments_present {more : List String} {text rest : List Char} {n : Nat} (h : MoreArguments more text)
    (hn : more.length ≤ n) (hrest : EndsArguments rest) :
    takeMoreArguments n (text ++ rest) = (more.map String.toList, rest) := by
  induction h generalizing n with
  | nil =>
    cases n with
    | zero => rfl
    | succ n =>
      rw [List.nil_append, takeMoreArguments]
      split
      · rename_i afterComma hskip
        exact absurd rfl (hrest.comma ',' (by rw [hskip]; rfl))
      · rfl
  | @cons token more before after text hbefore hafter htoken hmore ih =>
    cases n with
    | zero => simp at hn
    | succ n =>
      have htext : before ++ [','] ++ after ++ token.toList ++ text ++ rest =
          before ++ ',' :: (after ++ (token.toList ++ (text ++ rest))) := by simp
      have hcomma : Halts isBlank (',' :: (after ++ (token.toList ++ (text ++ rest)))) := halts_cons.2 (by decide)
      have hend := moreArguments_halts hmore hrest
      rw [htext, takeMoreArguments, skipBlanks_run hbefore hcomma]
      simp only [skipBlanks_run hafter (argument_halts htoken), takeWhile_run (argument_run htoken) hend,
        dropWhile_run (argument_run htoken) hend, ih (Nat.le_of_succ_le_succ hn)]
      simp [htoken.nonempty]

theorem takeArguments_present {token : String} {more : List String} {gap text rest : List Char} (hgap : Blank gap)
    (htoken : IsArgument token) (hmore : MoreArguments more text) (hlen : (token :: more).length ≤ 3)
    (hrest : EndsArguments rest) :
    takeArguments (gap ++ (token.toList ++ (text ++ rest))) = ((token :: more).map String.toList, rest) := by
  have hend := moreArguments_halts hmore hrest
  have hmany : more.length ≤ maxOperands - 1 := Nat.le_of_succ_le_succ hlen
  simp only [takeArguments, skipBlanks_run hgap (argument_halts htoken), takeWhile_run (argument_run htoken) hend,
    dropWhile_run (argument_run htoken) hend, takeMoreArguments_present hmore hmany hrest]
  simp [htoken.nonempty]

/-- Blanks that nothing but a comment follows hold no argument. -/
theorem takeArguments_absent {gap rest : List Char} (hgap : Blank gap) (hrest : ∀ c, rest.head? = some c → c = '#') :
    takeArguments (gap ++ rest) = ([], gap ++ rest) := by
  have hfirst : Halts isBlank rest := by
    intro c hc
    rw [hrest c hc]
    decide
  have hname : rest.takeWhile isArgumentChar = [] := by
    cases rest with
    | nil => rfl
    | cons c cs =>
      rw [hrest c rfl]
      exact List.takeWhile_cons_of_neg (by decide)
  simp [takeArguments, skipBlanks_run hgap hfirst, hname]

theorem isArgument_run {run : List Char} (hne : run ≠ []) (h : ∀ c ∈ run, isArgumentChar c = true) :
    IsArgument (String.ofList run) := by
  constructor
  · simpa using hne
  · intro c hc
    rw [String.toList_ofList] at hc
    exact isArgumentChar_iff.1 (h c hc)

theorem takeMoreArguments_sound {n : Nat} {s rest : List Char} {more : List (List Char)}
    (h : takeMoreArguments n s = (more, rest)) :
    ∃ text, s = text ++ rest ∧ MoreArguments (more.map String.ofList) text ∧ more.length ≤ n := by
  induction n generalizing s more with
  | zero =>
    cases h
    exact ⟨[], rfl, .nil, Nat.le_refl 0⟩
  | succ n ih =>
    obtain ⟨before, behind, hs, hskip, hbefore, -⟩ := eq_gap_append s
    rw [takeMoreArguments, hskip] at h
    split at h
    · rename_i afterComma
      obtain ⟨after, start, hafter, hskip', hgap, -⟩ := eq_gap_append afterComma
      obtain ⟨token, tail, hstart, htoken, htail, hchars, -⟩ := eq_run_append isArgumentChar start
      simp only [hskip', htoken, htail] at h
      split at h
      · cases h
        exact ⟨[], rfl, .nil, Nat.zero_le _⟩
      · rename_i hne
        cases hm : takeMoreArguments n tail with
        | mk more' rest' =>
          rw [hm] at h
          cases h
          obtain ⟨text, htext, hmore, hlen⟩ := ih hm
          have harg := isArgument_run (by simpa using hne) hchars
          have hall := MoreArguments.cons hbefore hgap harg hmore
          rw [String.toList_ofList] at hall
          refine ⟨_, ?_, hall, Nat.succ_le_succ hlen⟩
          rw [hs, hafter, hstart, htext]
          simp
    · cases h
      exact ⟨[], rfl, .nil, Nat.zero_le _⟩

theorem takeArguments_sound {s rest : List Char} {arguments : List (List Char)}
    (h : takeArguments s = (arguments, rest)) :
    (arguments = [] ∧ rest = s) ∨
      ∃ gap token more text, s = gap ++ token ++ text ++ rest ∧ Blank gap ∧ arguments = token :: more ∧
        IsArgument (String.ofList token) ∧ MoreArguments (more.map String.ofList) text ∧ arguments.length ≤ 3 := by
  obtain ⟨gap, start, hs, hskip, hgap, -⟩ := eq_gap_append s
  obtain ⟨token, tail, hstart, htoken, htail, hchars, -⟩ := eq_run_append isArgumentChar start
  simp only [takeArguments, hskip, htoken, htail] at h
  split at h
  · cases h
    exact .inl ⟨rfl, rfl⟩
  · rename_i hne
    cases hm : takeMoreArguments (maxOperands - 1) tail with
    | mk more rest' =>
      rw [hm] at h
      cases h
      obtain ⟨text, htext, hmore, hlen⟩ := takeMoreArguments_sound hm
      have harg := isArgument_run (by simpa using hne) hchars
      refine .inr ⟨gap, token, more, text, ?_, hgap, rfl, harg, hmore, Nat.succ_le_succ hlen⟩
      rw [hs, hstart, htext]
      simp

/-! ## Comments -/

theorem dropEndWhile_run {p : Char → Bool} {run rest : List Char} (hrun : ∀ c ∈ run, p c = true)
    (hrest : ∀ c, rest.getLast? = some c → p c = false) : dropEndWhile p (rest ++ run) = rest := by
  have hhalts : Halts p rest.reverse := by
    intro c hc
    rw [List.head?_reverse] at hc
    exact hrest c hc
  rw [dropEndWhile, List.reverse_append, dropWhile_run (fun c hc => hrun c (List.mem_reverse.1 hc)) hhalts,
    List.reverse_reverse]

theorem dropEndWhile_append (p : Char → Bool) (s : List Char) :
    ∃ run, s = dropEndWhile p s ++ run ∧ (∀ c ∈ run, p c = true) ∧
      ∀ c, (dropEndWhile p s).getLast? = some c → p c = false := by
  obtain ⟨run, rest, hs, -, hrest, hrun, hhalts⟩ := eq_run_append p s.reverse
  refine ⟨run.reverse, ?_, fun c hc => hrun c (List.mem_reverse.1 hc), ?_⟩
  · rw [dropEndWhile, hrest, ← List.reverse_append, ← hs, List.reverse_reverse]
  · intro c hc
    rw [dropEndWhile, hrest, List.getLast?_reverse] at hc
    exact hhalts c hc

theorem takeComment_present {text : String} {gap : List Char} (h : IsComment text) (hgap : Blank gap) :
    takeComment (text.toList ++ gap) = (some text.toList, []) := by
  have hcut : dropEndWhile isBlank (text.toList ++ gap) = text.toList :=
    dropEndWhile_run (fun c hc => isBlank_iff.2 (hgap c hc)) fun c hc => isBlank_false_iff.2 (h.last c hc)
  obtain ⟨cs, hcs⟩ : ∃ cs, text.toList = '#' :: cs := by
    cases ht : text.toList with
    | nil => have := h.first; simp [ht] at this
    | cons c cs =>
      have hc := h.first
      rw [ht, List.head?_cons, Option.some.injEq] at hc
      exact ⟨cs, by rw [hc]⟩
  have hlen := h.length
  rw [hcs] at hcut hlen ⊢
  rw [List.cons_append] at hcut ⊢
  simp only [takeComment, hcut, if_pos hlen]

theorem takeComment_sound {s : List Char} {comment : Option (List Char)} (h : takeComment s = (comment, [])) :
    CommentPart (comment.map String.ofList) s := by
  unfold takeComment at h
  split at h
  · rename_i cs
    dsimp only at h
    split at h
    · rename_i hlen
      cases h
      obtain ⟨gap, hs, hgap, hlast⟩ := dropEndWhile_append isBlank ('#' :: cs)
      generalize dropEndWhile isBlank ('#' :: cs) = text at hs hlast hlen ⊢
      have hcomment : IsComment (String.ofList text) := by
        constructor
        · rw [String.toList_ofList]
          cases text with
          | nil => simp at hlen
          | cons c text => rw [(List.cons.inj hs).1]; rfl
        · simpa using hlen
        · intro c hc
          rw [String.toList_ofList] at hc
          exact isBlank_false_iff.1 (hlast c hc)
      have := CommentPart.present hcomment fun c hc => isBlank_iff.1 (hgap c hc)
      rwa [String.toList_ofList, ← hs] at this
    · cases h
  · cases h
    exact .absent

/-- A comment, if there is one, starts with its sign. -/
theorem CommentPart.first {comment : Option String} {text : List Char} (h : CommentPart comment text) :
    ∀ c, text.head? = some c → c = '#' := by
  intro c hc
  cases h with
  | absent => cases hc
  | @present text gap htext hgap =>
    rw [List.head?_append, htext.first] at hc
    exact (Option.some.inj hc).symm

theorem CommentPart.halts {comment : Option String} {text : List Char} (h : CommentPart comment text)
    {p : Char → Bool} (hp : p '#' = false) : Halts p text := by
  intro c hc
  rw [h.first c hc, hp]

theorem takeComment_part {comment : Option String} {text : List Char} (h : CommentPart comment text) :
    takeComment text = (comment.map String.toList, []) := by
  cases h with
  | absent => rfl
  | present htext hgap => exact takeComment_present htext hgap

/-! ## Whole lines -/

theorem takeLabel_part {label : Option String} {text rest : List Char} (h : LabelPart label text)
    (hrest : text = [] → ∀ c, rest.head? = some c → c ∈ blanks ∨ c = '#') :
    takeLabel (text ++ rest) = (label.map String.toList, rest) := by
  cases h with
  | absent => exact takeLabel_absent (hrest rfl)
  | present hname hgap => exact takeLabel_present hname hgap

/-- Mnemonic and arguments are read from behind the label, and leave what stands behind them. -/
theorem takeInstruction_part {mnemonic comment : Option String} {operands : List String}
    {gap instruction gap' text : List Char} (h : InstructionPart mnemonic operands instruction) (hgap : Blank gap)
    (hgap' : Blank gap') (hcomment : CommentPart comment text) (hne : instruction ≠ [] → gap ≠ [])
    (hend : instruction ≠ [] → operands = [] → ∀ c, (gap' ++ text).head? = some c → c ∈ blanks) :
    ∃ behind rest, takeMnemonic (gap ++ instruction ++ gap' ++ text) = (mnemonic.map String.toList, behind) ∧
      (if (mnemonic.map String.toList).isSome then takeArguments behind else ([], behind)) =
        (operands.map String.toList, rest) ∧
      skipBlanks rest = text := by
  have hskip : skipBlanks (gap' ++ text) = text := skipBlanks_run hgap' (hcomment.halts (by decide))
  cases h with
  | absent =>
    have hnone : Blank [] := by simp [Blank]
    have hboth : Blank (gap ++ gap') := by
      intro c hc
      rcases List.mem_append.1 hc with hc | hc
      · exact hgap c hc
      · exact hgap' c hc
    refine ⟨text, text, ?_, rfl, ?_⟩
    · rw [List.append_nil]
      exact takeMnemonic_absent hboth hcomment.first
    · exact skipBlanks_run hnone (hcomment.halts (by decide))
  | bare hname =>
    refine ⟨gap' ++ text, gap' ++ text, ?_, takeArguments_absent hgap' hcomment.first, hskip⟩
    rw [List.append_assoc _ gap']
    exact takeMnemonic_present hname hgap (hne hname.nonempty) (hend hname.nonempty rfl)
  | @applied name token more space arguments hname hspace hspaces htoken hmore hlen =>
    have hends : EndsArguments (gap' ++ text) := by
      constructor
      · exact halts_gap (fun c hc => (blank_ends_words hc).2.2) hgap' (hcomment.halts (by decide))
      · intro c hc
        rw [hskip] at hc
        rw [hcomment.first c hc]
        decide
    refine ⟨space ++ (token.toList ++ (arguments ++ (gap' ++ text))), gap' ++ text, ?_,
      takeArguments_present hspace htoken hmore hlen hends, hskip⟩
    have htext : gap ++ (name.toList ++ space ++ token.toList ++ arguments) ++ gap' ++ text =
        gap ++ name.toList ++ (space ++ (token.toList ++ (arguments ++ (gap' ++ text)))) := by simp
    rw [htext]
    refine takeMnemonic_present hname hgap (hne (by simp [hname.nonempty])) fun c hc => ?_
    obtain ⟨d, space, rfl⟩ := List.exists_cons_of_ne_nil hspaces
    rw [List.cons_append, List.head?_cons, Option.some.injEq] at hc
    rw [← hc]
    exact hspace d List.mem_cons_self

/-- Without a label a line starts with its blanks, or with its comment if there are none. -/
theorem first_unlabelled {comment : Option String} {gap instruction gap' text : List Char} (hgap : Blank gap)
    (hgap' : Blank gap') (hcomment : CommentPart comment text) (hne : instruction ≠ [] → gap ≠ []) :
    ∀ c, (gap ++ instruction ++ gap' ++ text).head? = some c → c ∈ blanks ∨ c = '#' := by
  intro c hc
  cases gap with
  | cons d gap =>
    simp only [List.cons_append, List.head?_cons, Option.some.injEq] at hc
    exact .inl (hc ▸ hgap d List.mem_cons_self)
  | nil =>
    cases instruction with
    | cons d instruction => exact absurd rfl (hne (List.cons_ne_nil d instruction))
    | nil =>
      cases gap' with
      | cons d gap' =>
        simp only [List.nil_append, List.cons_append, List.head?_cons, Option.some.injEq] at hc
        exact .inl (hc ▸ hgap' d List.mem_cons_self)
      | nil => exact .inr (hcomment.first c hc)

/-- A way to write a statement is read as that statement. -/
theorem ofChars_of_written {s : List Char} {st : Statement} (h : st.Written s) : ofChars? s = some st := by
  cases h with
  | @mk label gap instruction gap' comment hlabel hgap hinstruction hgap' hcomment hne hend =>
    have hl := takeLabel_part hlabel fun _ => first_unlabelled hgap hgap' hcomment hne
    obtain ⟨behind, rest, hm, ho, hskip⟩ := takeInstruction_part hinstruction hgap hgap' hcomment hne hend
    have htext : label ++ gap ++ instruction ++ gap' ++ comment =
        label ++ (gap ++ instruction ++ gap' ++ comment) := by simp
    rw [htext]
    simp only [ofChars?, hl, hm, ho, hskip, takeComment_part hcomment]
    simp [Function.comp_def]

/-- What is read as a statement is a way to write it. -/
theorem written_of_ofChars {s : List Char} {st : Statement} (h : ofChars? s = some st) : st.Written s := by
  unfold ofChars? at h
  cases hl : takeLabel s with
  | mk label s₁ =>
  cases hm : takeMnemonic s₁ with
  | mk mnemonic s₂ =>
  cases ho : if mnemonic.isSome then takeArguments s₂ else ([], s₂) with
  | mk operands s₃ =>
  cases hc : takeComment (skipBlanks s₃) with
  | mk comment s₄ =>
  simp only [hl, hm, ho, hc] at h
  split at h
  · rename_i hempty
    cases h
    obtain rfl : s₄ = [] := by simpa using hempty
    obtain ⟨text, rfl, hlabel⟩ := takeLabel_sound hl
    obtain ⟨gap', behind, hs₃, hskip, hgap', -⟩ := eq_gap_append s₃
    rw [hskip] at hc
    have hcomment := takeComment_sound hc
    cases mnemonic with
    | none =>
      obtain ⟨gap, rfl, hgap⟩ := takeMnemonic_none hm
      cases ho
      have hwritten : Written ⟨label.map String.ofList, none, [], comment.map String.ofList⟩ _ :=
        .mk hlabel hgap .absent hgap' hcomment (absurd rfl) (absurd rfl)
      rw [hs₃]
      simpa using hwritten
    | some name =>
      obtain ⟨gap, rfl, hgap, hne, hname, hend⟩ := takeMnemonic_some hm
      rcases takeArguments_sound ho with
        ⟨rfl, rfl⟩ | ⟨space, token, more, arguments, rfl, hspace, rfl, htoken, hmore, hlen⟩
      · rw [hs₃] at hend
        have hwritten : Written ⟨label.map String.ofList, some (String.ofList name), [], comment.map String.ofList⟩ _ :=
          .mk hlabel hgap (.bare hname) hgap' hcomment (fun _ => hne) (fun _ _ => hend)
        rw [hs₃]
        simpa using hwritten
      · have hspaces : space ≠ [] := by
          rintro rfl
          obtain ⟨c, cs, hcs⟩ := List.exists_cons_of_ne_nil htoken.nonempty
          have hchar := htoken.chars c (by simp [hcs])
          rw [String.toList_ofList] at hcs
          exact hchar.1 (hend c (by simp [hcs]))
        have hwritten : Written ⟨label.map String.ofList, some (String.ofList name),
            (token :: more).map String.ofList, comment.map String.ofList⟩ _ :=
          .mk hlabel hgap (.applied hname hspace hspaces htoken hmore (by simpa using hlen)) hgap' hcomment
            (fun _ => hne) (fun _ hnil => by simp at hnil)
        rw [hs₃]
        simpa using hwritten
  · cases h

/-- Reading finds a statement exactly if the text is a way to write it. -/
theorem ofChars_iff {s : List Char} {st : Statement} : ofChars? s = some st ↔ st.Written s :=
  ⟨written_of_ofChars, ofChars_of_written⟩

/-- No text is a way to write two statements. -/
theorem Written.unique {s : List Char} {st st' : Statement} (h : st.Written s) (h' : st'.Written s) : st = st' := by
  have hread := ofChars_of_written h
  rw [ofChars_of_written h'] at hread
  exact (Option.some.inj hread).symm

end Statement

namespace SourceLine

open Statement

/-! ## Line ends and tabs -/

variable {s ending : List Char}

theorem expandTabs_append (s s' : List Char) : expandTabs (s ++ s') = expandTabs s ++ expandTabs s' :=
  List.flatMap_append

theorem expandTabs_same (h : '\t' ∉ s) : expandTabs s = s := by
  induction s with
  | nil => rfl
  | cons c s ih =>
    rw [List.mem_cons, not_or] at h
    rw [expandTabs, List.flatMap_cons, if_neg (Ne.symm h.1)]
    exact congrArg (c :: ·) (ih h.2)

theorem dropLineEnd_append (h : ∀ c ∈ ending, c = '\r' ∨ c = '\n') : dropLineEnd (s ++ ending) = dropLineEnd s := by
  unfold dropLineEnd dropEndWhile
  rw [List.reverse_append, List.dropWhile_append_of_pos]
  intro c hc
  simpa using h c (List.mem_reverse.1 hc)

theorem dropLineEnd_same (h : ∀ c, s.getLast? = some c → c ≠ '\r' ∧ c ≠ '\n') : dropLineEnd s = s := by
  have hdrop : dropLineEnd (s ++ []) = s :=
    dropEndWhile_run (List.forall_mem_nil _) fun c hc => by simpa using h c hc
  rwa [List.append_nil] at hdrop

/-- A line is cut at its end, its tabs become spaces, and what is left is read as a statement exactly if it is a way to
write one. There is never more than one such statement, and a line without one has no parts. -/
theorem parse_iff_written (line : String) :
    ∃ body ending, line.toList = body ++ ending ∧ (∀ c ∈ ending, c = '\r' ∨ c = '\n') ∧
      (∀ c, body.getLast? = some c → c ≠ '\r' ∧ c ≠ '\n') ∧
      (parse line).text = String.ofList (expandTabs body) ∧
      (∀ st, (parse line).statement? = some st ↔ st.Written (expandTabs body)) ∧
      (∀ st st' : Statement, st.Written (expandTabs body) → st'.Written (expandTabs body) → st = st') ∧
      ((∀ st : Statement, ¬ st.Written (expandTabs body)) →
        (parse line).statement? = none ∧ (parse line).statement = {}) := by
  obtain ⟨ending, hline, hending, hlast⟩ := dropEndWhile_append (fun c => c = '\r' || c = '\n') line.toList
  have htext : (parse line).text = String.ofList (expandTabs (dropLineEnd line.toList)) := by rw [parse]
  have hread : (parse line).statement? = ofChars? (expandTabs (dropLineEnd line.toList)) := by rw [parse]
  refine ⟨dropLineEnd line.toList, ending, hline, ?_, ?_, htext, ?_, ?_, ?_⟩
  · intro c hc
    simpa using hending c hc
  · intro c hc
    simpa using hlast c hc
  · intro st
    rw [hread]
    exact ofChars_iff
  · intro st st' h h'
    exact h.unique h'
  · intro h
    have hnone : (parse line).statement? = none := by
      rw [hread, Option.eq_none_iff_forall_ne_some]
      intro st hst
      exact h st (ofChars_iff.1 hst)
    exact ⟨hnone, by rw [statement, hnone]; rfl⟩

end SourceLine

end MipsAssembler
