import MipsAssembler.Listing
import MipsAssembler.Proofs.Grammar
import MipsAssembler.Proofs.Numerals
/-!
# Records are read back

A record shows the parts of a statement in columns that are at least so wide. Behind its first column it is one more way
to write the statement (`written_columns`), so reading it there gives the statement back, however long its parts are and
whatever characters they hold. The first column is two numbers in hexadecimal (`record_read_back`).
-/

namespace MipsAssembler

/-! ## Words in hexadecimal -/

namespace Text

/-- `0x` and eight hexadecimal digits in lower case that stand for the integer modulo `2 ^ 32`. -/
def WritesWord (s : List Char) (v : Int) : Prop :=
  ∃ ds, s = '0' :: 'x' :: ds ∧ ds.length = 8 ∧ (∀ c ∈ ds, ∃ k < 16, c = lowerDigit k) ∧
    Literal.Denotes 16 ds (v % 0x100000000).toNat

theorem wordValue_lt (v : Int) : wordValue v < 16 ^ 8 := by
  show (v % 0x100000000).toNat < 4294967296
  omega

/-- A word never needs more than eight digits, and is filled up to them. -/
theorem length_wordDigits (v : Int) : (hexDigits 8 (wordValue v)).length = 8 := by
  have hle := (Literal.length_digits_le (by decide) 7 _).2 (wordValue_lt v)
  simp only [hexDigits, List.length_append, List.length_replicate]
  omega

theorem mem_hexDigits {width n : Nat} {c : Char} (h : c ∈ hexDigits width n) : ∃ k < 16, c = lowerDigit k := by
  simp only [hexDigits, List.mem_append, List.mem_replicate] at h
  rcases h with ⟨-, rfl⟩ | h
  · exact ⟨0, by decide, rfl⟩
  · exact Literal.mem_digits (by decide) h

theorem hexDigits_denote (width n : Nat) : Literal.Denotes 16 (hexDigits width n) n :=
  (Literal.denotes_digits (by decide) (by decide) n).zeros (by decide) _

theorem word_toList (v : Int) : (word v).toList = '0' :: 'x' :: hexDigits 8 (wordValue v) := by
  show ("0x" ++ String.ofList (hexDigits 8 (wordValue v))).toList = _
  simp

theorem word_writes (v : Int) : WritesWord (word v).toList v :=
  ⟨_, word_toList v, length_wordDigits v, fun _ hc => mem_hexDigits hc, hexDigits_denote 8 (wordValue v)⟩

theorem length_word (v : Int) : (word v).length = 10 := by
  rw [← String.length_toList, word_toList, List.length_cons, List.length_cons, length_wordDigits]

/-! ## Columns -/

theorem padRight_toList (width : Nat) (s : String) :
    (padRight width s).toList = s.toList ++ List.replicate (width - s.length) ' ' := by
  simp [padRight, spaces]

theorem padLeft_toList (width : Nat) (s : String) :
    (padLeft width s).toList = List.replicate (width - s.length) ' ' ++ s.toList := by
  simp [padLeft, spaces]

theorem mem_join {sep : String} {l : List String} {c : Char} (h : c ∈ (join sep l).toList) :
    c ∈ sep.toList ∨ ∃ s ∈ l, c ∈ s.toList := by
  induction l with
  | nil => simp [join] at h
  | cons s l ih =>
    cases l with
    | nil => exact .inr ⟨s, List.mem_cons_self, h⟩
    | cons t rest =>
      rw [join, String.toList_append, String.toList_append, List.mem_append, List.mem_append] at h
      rcases h with (h | h) | h
      · exact .inr ⟨s, List.mem_cons_self, h⟩
      · exact .inl h
      · rcases ih h with h | ⟨u, hu, h⟩
        · exact .inl h
        · exact .inr ⟨u, List.mem_cons_of_mem s hu, h⟩

end Text

namespace Statement

open Listing

variable {st : Statement} {s text : List Char} {label mnemonic comment : Option String} {operands : List String}

theorem blank_replicate (n : Nat) : Blank (List.replicate n ' ') := by
  intro c hc
  rw [List.eq_of_mem_replicate hc]
  decide

theorem Blank.append {gap gap' : List Char} (h : Blank gap) (h' : Blank gap') : Blank (gap ++ gap') :=
  List.forall_mem_append.2 ⟨h, h'⟩

/-- The columns of a record behind the one of the label. -/
def columns (st : Statement) : List Char :=
  List.replicate 2 ' ' ++ (Text.padRight 3 (st.mnemonic.getD "")).toList ++ List.replicate 2 ' '
    ++ (Text.padRight 15 (Text.join ", " st.operands)).toList ++ List.replicate 2 ' ' ++ (st.comment.getD "").toList

/-! ## One more way to write a statement -/

theorem IsLabel.toList_labelText {name : String} (h : IsLabel name) :
    (labelText (some name)).toList = name.toList ++ [':'] := by
  have hne : name ≠ "" := by
    rintro rfl
    exact h.nonempty rfl
  simp [labelText, hne]

theorem IsLabel.halts_space {name : String} (h : IsLabel name) (rest : List Char) :
    Halts (· = ' ') ((labelText (some name)).toList ++ rest) := by
  obtain ⟨c, cs, hcs⟩ := List.exists_cons_of_ne_nil h.nonempty
  have hc := h.chars c (by rw [hcs]; exact List.mem_cons_self)
  rw [h.toList_labelText, hcs, List.cons_append, List.cons_append, halts_cons, decide_eq_false_iff_not]
  rintro rfl
  exact absurd hc (by decide)

theorem LabelPart.column (h : LabelPart label text) : LabelPart label (labelText label).toList := by
  cases h with
  | absent => exact .absent
  | @present name gap hname =>
    have hpart := LabelPart.present hname (List.forall_mem_nil _)
    rwa [List.append_nil, ← hname.toList_labelText] at hpart

theorem CommentPart.column (h : CommentPart comment text) : CommentPart comment (comment.getD "").toList := by
  cases h with
  | absent => exact .absent
  | @present text gap htext =>
    have hpart := CommentPart.present htext (List.forall_mem_nil _)
    rwa [List.append_nil] at hpart

theorem MoreArguments.column (h : MoreArguments operands text) (token : String) :
    ∃ more, MoreArguments operands more ∧ (Text.join ", " (token :: operands)).toList = token.toList ++ more := by
  induction h generalizing token with
  | nil => exact ⟨[], .nil, by simp [Text.join]⟩
  | @cons next operands before after text _ _ hnext _ ih =>
    obtain ⟨more, hmore, hjoin⟩ := ih next
    refine ⟨_, .cons (List.forall_mem_nil _) (blank_replicate 1) hnext hmore, ?_⟩
    simp [Text.join, hjoin]

/-- Mnemonic and arguments in their columns are the instruction, with at least one space behind it. -/
theorem InstructionPart.column (h : InstructionPart mnemonic operands text) : ∃ instruction n,
    InstructionPart mnemonic operands instruction ∧
      (Text.padRight 3 (mnemonic.getD "")).toList ++ List.replicate 2 ' '
        ++ (Text.padRight 15 (Text.join ", " operands)).toList ++ List.replicate 2 ' ' =
      instruction ++ List.replicate (n + 1) ' ' := by
  cases h with
  | absent => exact ⟨[], 21, .absent, by decide⟩
  | @bare name hname =>
    refine ⟨name.toList, 3 - name.length + 18, .bare hname, ?_⟩
    have hnone : (Text.padRight 15 (Text.join ", " [])).toList = List.replicate 15 ' ' := by decide
    simp only [hnone, Text.padRight_toList, Option.getD_some, List.append_assoc, List.replicate_append_replicate]
  | @applied name token more gap text hname _ _ htoken hmore hlen =>
    obtain ⟨text', hmore', hjoin⟩ := hmore.column token
    refine ⟨_, 15 - (Text.join ", " (token :: more)).length + 1,
      .applied hname (blank_replicate (3 - name.length + 2)) (by simp) htoken hmore' hlen, ?_⟩
    simp only [Text.padRight_toList, Option.getD_some, hjoin, List.append_assoc, List.replicate_append_replicate]

/-- The columns behind a label and spaces are one more way to write the statement. -/
theorem written_columns (h : st.Written s) (n : Nat) :
    st.Written ((labelText st.label).toList ++ List.replicate n ' ' ++ columns st) := by
  cases h with
  | mk hlabel _ hinstruction _ hcomment =>
    -- The gap in front of the instruction is never empty, so it does not matter where the label's column ends.
    obtain ⟨instruction, k, hcolumn, htext⟩ := hinstruction.column
    have hgap : Blank (List.replicate n ' ' ++ List.replicate 2 ' ') :=
      (blank_replicate n).append (blank_replicate 2)
    have hwritten := Written.mk hlabel.column hgap hcolumn (blank_replicate (k + 1)) hcomment.column
      (fun _ => by simp) (fun _ _ c hc => ?_)
    · have hsame : (labelText st.label).toList ++ List.replicate n ' ' ++ columns st =
          (labelText st.label).toList ++ (List.replicate n ' ' ++ List.replicate 2 ' ') ++
            (instruction ++ List.replicate (k + 1) ' ') ++ (st.comment.getD "").toList := by
        rw [← htext]
        simp only [columns, List.append_assoc]
      rw [hsame, ← List.append_assoc _ instruction]
      exact hwritten
    · rw [List.replicate_succ, List.cons_append, List.head?_cons, Option.some.injEq] at hc
      rw [← hc]
      decide

/-! ## The characters of a record -/

theorem LabelPart.mem_column {c : Char} (h : LabelPart label text) (hc : c ∈ (labelText label).toList) :
    c ∈ text ∨ c = ':' := by
  cases h with
  | absent => cases hc
  | present hname =>
    rw [hname.toList_labelText, List.mem_append, List.mem_singleton] at hc
    exact hc.imp_left (by simp +contextual)

theorem MoreArguments.mem {c : Char} {token : String} (h : MoreArguments operands text) (htoken : token ∈ operands)
    (hc : c ∈ token.toList) : c ∈ text := by
  induction h with
  | nil => cases htoken
  | cons _ _ _ _ ih =>
    rcases List.mem_cons.1 htoken with rfl | htoken
    · simp [hc]
    · simp [ih htoken]

theorem InstructionPart.mem_mnemonic {c : Char} (h : InstructionPart mnemonic operands text)
    (hc : c ∈ (mnemonic.getD "").toList) : c ∈ text := by
  cases h with
  | absent => cases hc
  | bare => exact hc
  | applied =>
    rw [Option.getD_some] at hc
    simp [hc]

theorem InstructionPart.mem_operand {c : Char} {token : String} (h : InstructionPart mnemonic operands text)
    (htoken : token ∈ operands) (hc : c ∈ token.toList) : c ∈ text := by
  cases h with
  | absent => cases htoken
  | bare => cases htoken
  | applied _ _ _ _ hmore =>
    rcases List.mem_cons.1 htoken with rfl | htoken
    · simp [hc]
    · simp [hmore.mem htoken hc]

theorem CommentPart.mem_column {c : Char} (h : CommentPart comment text) (hc : c ∈ (comment.getD "").toList) :
    c ∈ text := by
  cases h with
  | absent => cases hc
  | present => exact List.mem_append_left _ hc

theorem mem_columns {c : Char} (h : c ∈ columns st) :
    c = ' ' ∨ c ∈ (st.mnemonic.getD "").toList ∨ c ∈ (Text.join ", " st.operands).toList ∨
      c ∈ (st.comment.getD "").toList := by
  simp only [columns, Text.padRight_toList, List.mem_append, List.mem_replicate] at h
  grind

/-- A record adds nothing to the characters of a line but spaces, commas and colons. -/
theorem Written.mem_of_columns {c : Char} {n : Nat} (h : st.Written s)
    (hc : c ∈ (labelText st.label).toList ++ List.replicate n ' ' ++ columns st) : c ∈ s ∨ c ∈ [' ', ',', ':'] := by
  have hsep : ", ".toList = [',', ' '] := rfl
  cases h with
  | mk hlabel _ hinstruction _ hcomment =>
    simp only [List.mem_append] at hc ⊢
    rcases hc with (hc | hc) | hc
    · rcases hlabel.mem_column hc with hc | rfl
      · simp [hc]
      · simp
    · simp [List.eq_of_mem_replicate hc]
    · rcases mem_columns hc with rfl | hc | hc | hc
      · simp
      · simp [hinstruction.mem_mnemonic hc]
      · rcases Text.mem_join hc with hc | ⟨token, htoken, hc⟩
        · rw [hsep, List.mem_cons, List.mem_singleton] at hc
          rcases hc with rfl | rfl <;> simp
        · simp [hinstruction.mem_operand htoken hc]
      · simp [hcomment.mem_column hc]

/-- The columns end with a space or with the end of a comment. -/
theorem Written.last_of_columns {before : List Char} {c : Char} (h : st.Written s)
    (hc : (before ++ columns st).getLast? = some c) : c = ' ' ∨ c ∉ blanks := by
  cases h with
  | mk _ _ _ _ hcomment =>
    have hspaces : (List.replicate 2 ' ').getLast? = some ' ' := rfl
    rw [columns, ← List.append_assoc, List.getLast?_append, ← List.append_assoc, List.getLast?_append, hspaces,
      Option.some_or] at hc
    generalize st.comment = comment at hc hcomment
    cases hcomment with
    | absent => exact .inl (Option.some.inj hc).symm
    | @present text _ htext =>
      right
      apply htext.last c
      have hne : text.toList ≠ [] := List.ne_nil_of_length_pos (Nat.lt_of_lt_of_le (by decide) htext.length)
      rwa [Option.getD_some, List.getLast?_eq_some_getLast hne, Option.some_or,
        ← List.getLast?_eq_some_getLast hne] at hc

end Statement

namespace SourceLine

open Statement

variable {st : Statement} {s text : List Char}

/-! ## Reading a record -/

theorem tab_not_mem (s : List Char) : '\t' ∉ expandTabs s := by
  intro htab
  obtain ⟨c, -, hc⟩ := List.mem_flatMap.1 htab
  split at hc
  · exact absurd hc (by decide)
  · rename_i hne
    exact hne (List.mem_singleton.1 hc).symm

/-- A line is read as the statement that it is a way to write. -/
theorem parse_written (h : st.Written text) (htab : '\t' ∉ text)
    (hlast : ∀ c, text.getLast? = some c → c ≠ '\r' ∧ c ≠ '\n') :
    (parse (String.ofList (text ++ ['\n']))).statement? = some st := by
  rw [parse, String.toList_ofList, dropLineEnd_append (by simp), dropLineEnd_same hlast, expandTabs_same htab]
  exact ofChars_of_written h

theorem written_of_parse {line : String} (h : (parse line).statement? = some st) :
    ∃ s, '\t' ∉ s ∧ st.Written s := by
  simp only [parse] at h
  exact ⟨expandTabs (dropLineEnd line.toList), tab_not_mem _, written_of_ofChars h⟩

end SourceLine

namespace Listing

open Statement

variable {st : Statement}

theorem record_toList (code : Code) (st : Statement) : (record code st).toList =
    (Text.padRight 22 code.text).toList ++ List.replicate 2 ' ' ++
      ((Text.padLeft 10 (labelText st.label)).toList ++ columns st ++ ['\n']) := by
  have hgap : "  ".toList = List.replicate 2 ' ' := by decide
  have hend : "\n".toList = ['\n'] := by decide
  simp only [record, columns, String.toList_append, hgap, hend, List.append_assoc]

theorem length_code (address word : Option Int) :
    (Text.padRight 22 (Code.ofParts address word none).text).toList.length = 22 := by
  have hlen : (Code.ofParts address word none).text.length ≤ 22 := by
    cases address with
    | none => exact Nat.zero_le 22
    | some a =>
      cases word with
      | none => exact Nat.zero_le 22
      | some w =>
        have hgap : "  ".length = 2 := rfl
        simp [Code.ofParts, Code.text, Text.length_word, hgap]
  rw [Text.padRight_toList, List.length_append, List.length_replicate, String.length_toList]
  omega

/-- A record behind its first column, from the label on if there is one. -/
def sourcePart (st : Statement) (record : String) : String :=
  String.ofList (if st.label.isSome then (record.toList.drop 24).dropWhile (· = ' ') else record.toList.drop 24)

theorem drop_record (address word : Option Int) (st : Statement) :
    (record (Code.ofParts address word none) st).toList.drop 24 =
      (Text.padLeft 10 (labelText st.label)).toList ++ columns st ++ ['\n'] := by
  rw [record_toList]
  apply List.drop_left'
  rw [List.length_append, length_code, List.length_replicate]

/-- The part is the label, spaces, the columns behind it and the end of the line. -/
theorem sourcePart_record {s : List Char} (h : st.Written s) (address word : Option Int) : ∃ n,
    sourcePart st (record (Code.ofParts address word none) st) =
      String.ofList ((labelText st.label).toList ++ List.replicate n ' ' ++ columns st ++ ['\n']) := by
  rw [sourcePart, drop_record, Text.padLeft_toList]
  cases h with
  | mk hlabel =>
    generalize st.label = label at hlabel
    cases hlabel with
    -- Without a label its column is ten blanks, which are part of the gap.
    | absent => exact ⟨10, by simp [labelText]⟩
    | @present name gap hname =>
      have hstop : Halts (· = ' ') ((labelText (some name)).toList ++ (columns st ++ ['\n'])) :=
        hname.halts_space _
      refine ⟨0, ?_⟩
      rw [Option.isSome_some, if_pos rfl, List.append_assoc, List.append_assoc,
        dropWhile_run (fun c hc => by simp [List.eq_of_mem_replicate hc]) hstop]
      simp

theorem record_encoded (a w : Int) (st : Statement) : ∃ rest, (record (.encoded a w) st).toList =
    (Text.word a).toList ++ (List.replicate 2 ' ' ++ ((Text.word w).toList ++ rest)) := by
  have hgap : "  ".toList = List.replicate 2 ' ' := by decide
  have hrecord := record_toList (.encoded a w) st
  simp only [Text.padRight_toList, Code.text, String.toList_append, hgap, List.append_assoc] at hrecord
  exact ⟨_, hrecord⟩

/-- A record shows its address and its word in hexadecimal, and behind them it is read as the statement it was made
from. -/
theorem record_read_back {line : String} (h : (SourceLine.parse line).statement? = some st)
    (address word : Option Int) :
    (SourceLine.parse (sourcePart st (record (Code.ofParts address word none) st))).statement? = some st ∧
      ∀ a w, address = some a → word = some w →
        Text.WritesWord ((record (Code.ofParts address word none) st).toList.take 10) a ∧
          Text.WritesWord (((record (Code.ofParts address word none) st).toList.drop 12).take 10) w := by
  obtain ⟨s, htab, hwritten⟩ := SourceLine.written_of_parse h
  refine ⟨?_, ?_⟩
  · obtain ⟨n, hpart⟩ := sourcePart_record hwritten address word
    rw [hpart]
    apply SourceLine.parse_written (written_columns hwritten n)
    · intro hc
      rcases hwritten.mem_of_columns hc with hc | hc
      · exact htab hc
      · exact absurd hc (by decide)
    · intro c hc
      rcases hwritten.last_of_columns hc with rfl | hc
      · decide
      · exact ⟨fun hr => hc (by rw [hr]; decide), fun hn => hc (by rw [hn]; decide)⟩
  · rintro a w rfl rfl
    obtain ⟨rest, hrecord⟩ := record_encoded a w st
    have hlength (v : Int) : (Text.word v).toList.length = 10 := by rw [String.length_toList, Text.length_word]
    rw [Code.ofParts, hrecord, List.take_left' (hlength a), ← List.append_assoc,
      List.drop_left' (by rw [List.length_append, hlength, List.length_replicate]), List.take_left' (hlength w)]
    exact ⟨Text.word_writes a, Text.word_writes w⟩

/-- A label wider than its column, an argument with a colon and a no-break space, a tab in the comment and a negative
address. -/
theorem record_read_back_of_wide_label : ∃ st,
    (SourceLine.parse "interrupt_handler.0 :\tlw $t0 ,\u00a0a:b(c # x\ty\r\n").statement? = some st ∧
      st.label = some "interrupt_handler.0" ∧ st.operands = ["$t0", "\u00a0a:b(c"] ∧ st.comment = some "# x    y" ∧
      (SourceLine.parse (sourcePart st (record (.encoded (-4) 0x100000005) st))).statement? = some st ∧
      Text.WritesWord ((record (.encoded (-4) 0x100000005) st).toList.take 10) (-4) := by
  have hline : (SourceLine.parse "interrupt_handler.0 :\tlw $t0 ,\u00a0a:b(c # x\ty\r\n").statement? =
      some ⟨some "interrupt_handler.0", some "lw", ["$t0", "\u00a0a:b(c"], some "# x    y"⟩ := by decide +kernel
  have hrecord := record_read_back hline (some (-4)) (some 0x100000005)
  exact ⟨_, hline, rfl, rfl, rfl, hrecord.1, (hrecord.2 _ _ rfl rfl).1⟩

end Listing

end MipsAssembler
