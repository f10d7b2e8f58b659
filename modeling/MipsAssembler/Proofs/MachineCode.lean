import MipsAssembler.Proofs.Output
import MipsAssembler.Proofs.Records
/-!
# Machine code is read back

A word stands on a line of its own, as `0x` and eight digits, which hold it modulo `2 ^ 32`. Writing word after word on
an open stream adds these lines and counts them (`writeWords_open`), so whoever splits the text at line ends and reads
each line in hexadecimal has the words again (`words_read_back`).
-/

namespace MipsAssembler

namespace Text

/-- The lines of a text, without the newlines that end them. The last line needs none. -/
def splitLines : List Char → List (List Char)
  | [] => []
  | c :: rest =>
    if c = '\n' then [] :: splitLines rest
    else
      match splitLines rest with
      | [] => [[c]]
      | line :: more => (c :: line) :: more

/-- The number that stands behind `0x` in hexadecimal digits of either case. -/
def readHex? : List Char → Option Nat
  | '0' :: 'x' :: ds => if Literal.isRun Literal.isHexDigit ds then some (Literal.positional 16 ds) else none
  | _ => none

variable {s line rest : List Char} {n : Nat}

theorem splitLines_line (h : '\n' ∉ line) : splitLines (line ++ '\n' :: rest) = line :: splitLines rest := by
  induction line with
  | nil => rw [List.nil_append, splitLines, if_pos rfl]
  | cons c line ih =>
    have hc : c ≠ '\n' := fun hc => h (hc ▸ List.mem_cons_self)
    have hline : '\n' ∉ line := fun hmem => h (List.mem_cons_of_mem c hmem)
    rw [List.cons_append, splitLines, if_neg hc, ih hline]

/-- Nothing else is read, and every number is. -/
theorem readHex_iff : readHex? s = some n ↔ ∃ ds, s = '0' :: 'x' :: ds ∧ Literal.Denotes 16 ds n := by
  constructor
  · intro h
    unfold readHex? at h
    split at h
    · rename_i ds
      split at h
      · rename_i hrun
        exact ⟨ds, rfl, (Literal.run_iff (Nat.le_refl 16) Literal.isHexDigit_iff).1 ⟨hrun, Option.some.inj h⟩⟩
      · cases h
    · cases h
  · rintro ⟨ds, rfl, hds⟩
    obtain ⟨hrun, hn⟩ := (Literal.run_iff (Nat.le_refl 16) Literal.isHexDigit_iff).2 hds
    rw [readHex?, if_pos hrun, hn]

theorem WritesWord.newline_notMem {v : Int} (h : WritesWord s v) : '\n' ∉ s := by
  have hdigit : ∀ k < 16, lowerDigit k ≠ '\n' := by decide
  obtain ⟨ds, rfl, -, hds, -⟩ := h
  intro hmem
  rw [List.mem_cons, List.mem_cons] at hmem
  rcases hmem with hc | hc | hc
  · cases hc
  · cases hc
  · obtain ⟨k, hk, hc⟩ := hds _ hc
    exact hdigit k hk hc.symm

theorem WritesWord.readHex {v : Int} (h : WritesWord s v) : readHex? s = some (v % 0x100000000).toNat := by
  obtain ⟨ds, rfl, -, -, hds⟩ := h
  exact readHex_iff.2 ⟨ds, rfl, hds⟩

end Text

namespace Output

variable {o : Output} {s : Stream}

/-- The lines of a sequence of words. -/
def wordLines (ws : List Int) : String := Text.join "" (ws.map wordLine)

/-- Each word that is written to an open stream adds its line and is counted. -/
theorem writeWords_open (hb : o.binary = some s) (hs : s.isOpen = true) (ws : List Int) :
    ws.foldlM writeWord o = .ok { o with
      binary := some { s with text := s.text ++ wordLines ws }
      wordsWritten := o.wordsWritten + ws.length } := by
  induction ws generalizing o s with
  | nil =>
    obtain ⟨listing, binary, words⟩ := o
    cases hb
    simp [wordLines, Text.join, pure, Except.pure]
  | cons w ws ih =>
    have hcount : o.wordsWritten + 1 + ws.length = o.wordsWritten + (w :: ws).length := by
      rw [List.length_cons]
      omega
    have htext : s.text ++ wordLine w ++ wordLines ws = s.text ++ wordLines (w :: ws) := by
      rw [wordLines, wordLines, List.map_cons, Text.join_cons, String.append_assoc]
    rw [List.foldlM_cons, writeWord_stream hb hs, ← htext, ← hcount]
    exact ih (s := { s with text := s.text ++ wordLine w }) rfl hs

theorem splitLines_wordLines (ws : List Int) :
    Text.splitLines (wordLines ws).toList = ws.map fun w => (Text.word w).toList := by
  induction ws with
  | nil => rfl
  | cons w ws ih =>
    have hsplit : (wordLines (w :: ws)).toList = (Text.word w).toList ++ '\n' :: (wordLines ws).toList := by
      simp [wordLines, wordLine, Text.join_cons]
    rw [hsplit, Text.splitLines_line (Text.word_writes w).newline_notMem, ih, List.map_cons]

theorem readHex_wordLines (ws : List Int) :
    (Text.splitLines (wordLines ws).toList).mapM Text.readHex? = some (ws.map fun w => (w % 0x100000000).toNat) := by
  rw [splitLines_wordLines]
  induction ws with
  | nil => rfl
  | cons w ws ih => simp [(Text.word_writes w).readHex, ih]

/-- An integer is written as ten characters: `0x` and eight hexadecimal digits in lower case that stand for it modulo
`2 ^ 32`. Writing any sequence of words to an open stream succeeds, leaves the listing alone, and adds a text whose
lines are as many as the words it counts and, read in hexadecimal, are the words modulo `2 ^ 32` in their order. -/
theorem words_read_back :
    (∀ v : Int, (Text.word v).length = 10 ∧ Text.WritesWord (Text.word v).toList v) ∧
    ∀ (o : Output) (s : Stream) (ws : List Int), o.binary = some s → s.isOpen = true →
      ∃ o' text, ws.foldlM writeWord o = .ok o' ∧
        o'.listing = o.listing ∧ o'.binary = some { s with text := s.text ++ text } ∧
        (Text.splitLines text.toList).mapM Text.readHex? = some (ws.map fun w => (w % 0x100000000).toNat) ∧
        o'.wordsWritten = o.wordsWritten + (Text.splitLines text.toList).length := by
  refine ⟨fun v => ⟨Text.length_word v, Text.word_writes v⟩, fun o s ws hb hs => ?_⟩
  refine ⟨_, wordLines ws, writeWords_open hb hs ws, rfl, rfl, readHex_wordLines ws, ?_⟩
  rw [splitLines_wordLines, List.length_map]

/-- Two words, one below zero and one above `2 ^ 32`, behind one that was there. -/
theorem words_read_back_behind :
    let s : Stream := { medium := .file, text := "0x012a4020\n" }
    s.isOpen = true ∧
    ∃ o' text, [-1, 0x108000040].foldlM writeWord { binary := some s, wordsWritten := 1 } = .ok o' ∧
      o'.listing = some {} ∧ o'.binary = some { s with text := s.text ++ text } ∧
      (Text.splitLines text.toList).mapM Text.readHex? = some [0xffffffff, 0x8000040] ∧
      o'.wordsWritten = 1 + (Text.splitLines text.toList).length :=
  ⟨rfl, words_read_back.2 { binary := some { medium := .file, text := "0x012a4020\n" }, wordsWritten := 1 } _
    [-1, 0x108000040] rfl rfl⟩

end Output

end MipsAssembler
