import MipsAssembler.Proofs.Comparison
import MipsAssembler.Proofs.Utf8
/-!
# Lines that are no text

A source is split into lines before any of its bytes are read as text. `decoding_by_lines` says that nothing is lost by
that: the lines are text exactly if the source is UTF-8, and otherwise the scan stops at the line of the first place
that is not.
-/

namespace MipsAssembler

theorem mapM_of_map {α β ε : Type} {f : α → Except ε β} {l : List α} {ys : List β} (h : l.map f = ys.map .ok) :
    l.mapM f = .ok ys := by
  induction l generalizing ys with
  | nil =>
    rw [List.map_nil, eq_comm, List.map_eq_nil_iff] at h
    rw [h]
    rfl
  | cons x l ih =>
    obtain ⟨y, rest, rfl, hy, hrest⟩ := List.map_eq_cons_iff.1 h.symm
    rw [List.mapM_cons, ← hy, ih hrest.symm]
    rfl

namespace Text

theorem join_toList (l : List String) : (join "" l).toList = (l.map String.toList).flatten := by
  induction l with
  | nil => rfl
  | cons s l ih => rw [join_cons, String.toList_append, ih, List.map_cons, List.flatten_cons]

end Text

namespace Utf8

variable {bs : List UInt8} {t : String} {f : Fault}

theorem text_iff : text bs = .ok t ↔ decode bs = .ok t.toList := by
  unfold text
  cases decode bs with
  | error f => simp [Except.map]
  | ok s =>
    simp only [Except.map, Except.ok.injEq]
    exact ⟨fun h => by rw [← h, String.toList_ofList], fun h => by rw [h, String.ofList_toList]⟩

theorem text_error_iff : text bs = .error f ↔ decode bs = .error f := by
  unfold text
  cases decode bs <;> simp [Except.map]

/-- Only the bytes of a text are read as that text. -/
theorem text_eq_toUTF8 : text bs = .ok t ↔ bs.toByteArray = t.toUTF8 := by
  have ht : t.toUTF8 = (encode t.toList).toByteArray := by
    rw [encode_toByteArray, String.utf8Encode_toList, String.toUTF8_eq_toByteArray]
  rw [text_iff, decode_iff, ht, List.toByteArray_inj]

theorem exists_text_iff : (∃ t, text bs = .ok t) ↔ bs.toByteArray.IsValidUTF8 := by
  rw [isValidUTF8_iff]
  constructor
  · rintro ⟨t, ht⟩
    exact ⟨t.toList, decode_iff.1 (text_iff.1 ht)⟩
  · rintro ⟨s, rfl⟩
    exact ⟨String.ofList s, by rw [text_iff, decode_encode, String.toList_ofList]⟩

theorem text_of_lines {ts : List String} (h : (lines bs).map text = ts.map .ok) : text bs = .ok (Text.join "" ts) := by
  have hdecode : (lines bs).map decode = (ts.map String.toList).map .ok := by
    refine List.ext_getElem? fun i => ?_
    have hi := congrArg (·[i]?) h
    simp only [List.getElem?_map] at hi ⊢
    cases hl : (lines bs)[i]? <;> cases ht : ts[i]? <;> simp [hl, ht] at hi ⊢
    exact text_iff.1 hi
  rw [text_iff, decode_lines, mapM_of_map hdecode, Text.join_toList]
  rfl

theorem lines_text_iff : (∀ raw ∈ lines bs, ∃ t, text raw = .ok t) ↔ ∃ t, text bs = .ok t := by
  constructor
  · intro h
    choose! t ht using h
    have hts : (lines bs).map text = ((lines bs).map t).map .ok := by
      rw [List.map_map]
      exact List.map_congr_left ht
    exact ⟨_, text_of_lines hts⟩
  · rintro ⟨t, ht⟩ raw hraw
    rw [text_iff, decode_lines] at ht
    cases hm : (lines bs).mapM decode with
    | error f => rw [hm] at ht; cases ht
    | ok ys =>
      have hys : ys.map .ok = (lines bs).map decode := mapM_map (fun _ _ h => h.symm) hm
      have hmem : decode raw ∈ ys.map .ok := hys ▸ List.mem_map_of_mem hraw
      obtain ⟨s, -, hs⟩ := List.mem_map.1 hmem
      exact ⟨String.ofList s, by rw [text_iff, ← hs, String.toList_ofList]⟩

end Utf8

namespace Reference

open Assembler

variable {source raw : List UInt8} {before after : List (List UInt8)} {fault : Utf8.Fault}

/-- Behind lines that are text and define no label twice, reading stops at a line that is no text. -/
theorem ends_undecodable (hlines : Utf8.lines source = before ++ raw :: after)
    (hbefore : ∀ line ∈ before, ∃ t, Utf8.text line = .ok t) (hraw : Utf8.text raw = .error fault)
    (hd : ∀ i j name, i < before.length → j < before.length → DefinesAt source i name → DefinesAt source j name →
      i = j) :
    ∃ ls, ls.length = before.length ∧ Ends scanFault? (Utf8.lines source) ls (some ⟨before.length + 1,
      .refused (.undecodable (before.length + 1) fault) (some (before.length + 1)), none⟩) := by
  choose! t ht using hbefore
  have hmap : before.map SourceLine.ofBytes = (before.map fun line => SourceLine.parse (t line)).map .ok := by
    rw [List.map_map]
    exact List.map_congr_left fun line hline => by simp [SourceLine.ofBytes, ht line hline, Except.map]
  have hlen : (before.map fun line => SourceLine.parse (t line)).length = before.length := List.length_map _
  generalize before.map (fun line => SourceLine.parse (t line)) = ls at hmap hlen
  obtain ⟨-, hline⟩ := line_before hlines hmap
  have hdistinct : Distinct ls := by
    intro i j name hi hj
    have hi' := labelAt_lt hi
    have hj' := labelAt_lt hj
    exact hd i j name (hlen ▸ hi') (hlen ▸ hj') ((definesAt_before (hline i hi')).2 hi)
      ((definesAt_before (hline j hj')).2 hj)
  refine ⟨ls, hlen, .stopped hlines hmap ((passes_scanFault ls).2 hdistinct) ?_⟩
  have hbytes : SourceLine.ofBytes raw = .error fault := by simp [SourceLine.ofBytes, hraw, Except.map]
  simp only [failure?, hbytes, hlen]

end Reference

namespace Assembler

open Reference

variable {a : Assembler} {source : List UInt8}

/-- A refused line that could not be read is recorded, and nothing is listed for it. -/
theorem fail_unread (a : Assembler) (k : Int) (cause : Cause) (line : Option Int) :
    a.fail ⟨k, .refused cause line, none⟩ = ((a.record (cause.diagnostic line).record).finish, .ok false) := by
  unfold fail
  cases ho : a.output <;> simp [record, ho]

/-- A scan that stops at a line that is no text records it and leaves its output alone. -/
theorem scan_undecodable {ls : List SourceLine} {k : Int} {fault : Utf8.Fault}
    (hr : a.files.read a.sourceName = .ok source)
    (hends : Ends scanFault? (Utf8.lines source) ls (some ⟨k, .refused (.undecodable k fault) (some k), none⟩)) :
    ∃ b, a.runPass .scan = (b, .ok false) ∧ b.output = a.output ∧ b.errors = a.errors ++
      [⟨"Cannot decode line " ++ Text.decimal k ++ " as utf-8: " ++ fault.message, some k, Kind.io.code⟩] := by
  obtain ⟨ls', b, f, hends', hfin⟩ := runPass_scan hr
  obtain ⟨rfl, rfl⟩ := hends'.unique hends
  obtain ⟨hstopped, hrun⟩ := hfin
  obtain ⟨-, -, houtput⟩ := eq_of_silent hstopped
  have herrors : b.errors = a.errors := (frame_of_silent hstopped).1
  refine ⟨_, hrun.trans (fail_unread b k _ _), houtput, ?_⟩
  rw [← herrors]
  rfl

/-- Reading a source line by line agrees with reading it as a whole. Every line is text exactly if the source is UTF-8,
and then the source is the text of its lines in a row. Otherwise the line of the first place that is not UTF-8 is the
first line that is no text, with the fault of the whole. A scan that meets no label twice before that line fails there:
its error is an IO error of that line, and nothing is listed. So the bytes of a text are never refused. -/
theorem decoding_by_lines (source : List UInt8) :
    ((∀ raw ∈ Utf8.lines source, ∃ t, Utf8.text raw = .ok t) ↔ source.toByteArray.IsValidUTF8) ∧
    (∀ ts, (Utf8.lines source).map Utf8.text = ts.map .ok → Utf8.text source = .ok (Text.join "" ts)) ∧
    (¬ source.toByteArray.IsValidUTF8 → ∃ n, Utf8.IllFormedAt source n) ∧
    (∀ n, Utf8.IllFormedAt source n → ∃ before raw after fault,
      Utf8.lines source = before ++ raw :: after ∧
      before.flatten.length ≤ n ∧ n < before.flatten.length + raw.length ∧
      (∀ line ∈ before, ∃ t, Utf8.text line = .ok t) ∧ Utf8.text raw = .error fault ∧
      Utf8.text source = .error fault ∧
      ∀ a : Assembler, a.files.read a.sourceName = .ok source →
        (∀ i j name, i < before.length → j < before.length → DefinesAt source i name → DefinesAt source j name →
          i = j) →
        ∃ b, a.runPassNumbered (some 1) = (b, .ok false) ∧ b.output = a.output ∧ b.errors = a.errors ++
          [⟨"Cannot decode line " ++ Text.decimal (before.length + 1) ++ " as utf-8: " ++ fault.message,
            some (before.length + 1), Kind.io.code⟩]) ∧
    ∀ t : String, source.toByteArray = t.toUTF8 →
      Utf8.text source = .ok t ∧ ∀ raw ∈ Utf8.lines source, ∃ u, Utf8.text raw = .ok u := by
  refine ⟨Utf8.lines_text_iff.trans Utf8.exists_text_iff, fun _ => Utf8.text_of_lines,
    (Utf8.isValidUTF8_or_illFormed source).resolve_left, ?_, ?_⟩
  · intro n hn
    obtain ⟨s, rest, fault, rfl, hne, hf, rfl⟩ := Utf8.illFormedAt_iff.1 hn
    obtain ⟨before, raw, after, hlines, hle, hlt, hok, hraw⟩ := Utf8.line_of_stuck s hne hf
    have hbefore : ∀ line ∈ before, ∃ t, Utf8.text line = .ok t := by
      intro line hline
      obtain ⟨t, ht⟩ := hok line hline
      exact ⟨String.ofList t, by rw [Utf8.text_iff, ht, String.toList_ofList]⟩
    have hwhole : Utf8.text (Utf8.encode s ++ rest) = .error fault := by
      rw [Utf8.text_error_iff, Utf8.decode_append, Utf8.decode_stuck hne hf]
      rfl
    refine ⟨before, raw, after, fault, hlines, hle, hlt, hbefore, Utf8.text_error_iff.2 hraw, hwhole, ?_⟩
    intro a hr hd
    obtain ⟨ls, -, hends⟩ := ends_undecodable hlines hbefore (Utf8.text_error_iff.2 hraw) hd
    exact scan_undecodable hr hends
  · intro t ht
    have htext := Utf8.text_eq_toUTF8.2 ht
    exact ⟨htext, Utf8.lines_text_iff.2 ⟨t, htext⟩⟩

/-- The second line ends inside a character. The label of the first stands once more below. -/
def brokenLine : List UInt8 := Utf8.bytes "up: nop # é\n " ++ [0xE2, 0x82] ++ Utf8.bytes "\nup: nop\n"

theorem brokenLine_illFormed : Utf8.IllFormedAt brokenLine 14 :=
  Utf8.illFormedAt_iff.2 ⟨"up: nop # é\n ".toList, [0xE2, 0x82] ++ Utf8.bytes "\nup: nop\n", .invalidContinuation,
    by decide +kernel, by simp, by rfl, by decide +kernel⟩

theorem decoding_by_lines_of_brokenLine :
    Utf8.IllFormedAt brokenLine 14 ∧ ∃ b, (alone brokenLine).runPassNumbered (some 1) = (b, .ok false) ∧
      b.output = none ∧ b.errors = [⟨"Cannot decode line 2 as utf-8: invalid continuation byte", some 2, "F"⟩] := by
  refine ⟨brokenLine_illFormed, ?_⟩
  obtain ⟨before, raw, after, fault, hlines, hle, hlt, -, hraw, -, hscan⟩ :=
    (decoding_by_lines brokenLine).2.2.2.1 14 brokenLine_illFormed
  have hthree : Utf8.lines brokenLine =
      [Utf8.bytes "up: nop # é\n", [0x20, 0xE2, 0x82, 10], Utf8.bytes "up: nop\n"] := by decide +kernel
  have hlength : (Utf8.bytes "up: nop # é\n").length = 13 := by decide +kernel
  have hsecond : Utf8.text [0x20, 0xE2, 0x82, 10] = .error .invalidContinuation := rfl
  rw [hthree] at hlines
  -- Place 14 lies behind the 13 bytes of the first line and before the end of the second.
  rcases before with _ | ⟨line, _ | ⟨line', before⟩⟩
  · obtain ⟨rfl, -⟩ := List.cons.inj hlines
    rw [hlength] at hlt
    exact absurd hlt (by decide)
  · obtain ⟨rfl, hrest⟩ := List.cons.inj hlines
    obtain ⟨rfl, -⟩ := List.cons.inj hrest
    rw [hsecond] at hraw
    cases hraw
    obtain ⟨b, hb, houtput, herrors⟩ := hscan (alone brokenLine) (alone_reads brokenLine) fun i j _ hi hj _ _ => by
      rw [List.length_singleton] at hi hj
      omega
    exact ⟨b, hb, houtput, herrors.trans (by decide +kernel)⟩
  · obtain ⟨rfl, hrest⟩ := List.cons.inj hlines
    obtain ⟨rfl, -⟩ := List.cons.inj hrest
    simp only [List.flatten_cons, List.length_append, hlength, List.length_cons] at hle
    omega

end Assembler

end MipsAssembler
