import MipsAssembler.Proofs.Reading
/-!
# Writing to open streams only appends

While both streams are open, every write succeeds and adds its text behind what is there (`append`). So what a run
writes is a text for each stream, and `list_open` and `emit_open` say which.
-/

namespace MipsAssembler

namespace Text

theorem join_cons (s : String) (l : List String) : join "" (s :: l) = s ++ join "" l := by
  cases l <;> simp [join]

theorem join_append (l l' : List String) : join "" (l ++ l') = join "" l ++ join "" l' := by
  induction l with
  | nil => simp [join]
  | cons s l ih => rw [List.cons_append, join_cons, join_cons, ih, String.append_assoc]

end Text

namespace Output

/-- Both streams are there and take text. -/
structure Open (o : Output) : Prop where
  listing : ∃ s, o.listing = some s ∧ s.isOpen = true
  binary : ∃ s, o.binary = some s ∧ s.isOpen = true

/-- No stream that is there is closed. -/
def Unclosed (o : Output) : Prop := ∀ s, o.listing = some s ∨ o.binary = some s → s.isOpen = true

/-- The output with more text on both streams and more words counted. -/
def append (o : Output) (listing binary : String) (words : Nat) : Output :=
  { listing := o.listing.map fun s => { s with text := s.text ++ listing }
    binary := o.binary.map fun s => { s with text := s.text ++ binary }
    wordsWritten := o.wordsWritten + words }

variable {o : Output}

theorem append_nothing (o : Output) : o.append "" "" 0 = o := by
  simp [append]

theorem append_append (o : Output) (l l' b b' : String) (n n' : Nat) :
    (o.append l b n).append l' b' n' = o.append (l ++ l') (b ++ b') (n + n') := by
  simp [append, Function.comp_def, String.append_assoc, Nat.add_assoc]

theorem append_open (h : o.Open) (l b : String) (n : Nat) : (o.append l b n).Open := by
  obtain ⟨⟨s, hs, hso⟩, ⟨t, ht, hto⟩⟩ := h
  constructor
  · exact ⟨{ s with text := s.text ++ l }, by simp [append, hs], hso⟩
  · exact ⟨{ t with text := t.text ++ b }, by simp [append, ht], hto⟩

theorem Open.unclosed (h : o.Open) : o.Unclosed := by
  obtain ⟨⟨s, hs, hso⟩, ⟨t, ht, hto⟩⟩ := h
  rintro u (hu | hu)
  · rw [hs] at hu
    cases hu
    exact hso
  · rw [ht] at hu
    cases hu
    exact hto

theorem append_unclosed (h : o.Unclosed) (l b : String) (n : Nat) : (o.append l b n).Unclosed := by
  rintro s (hs | hs)
  · obtain ⟨t, ht, rfl⟩ := Option.map_eq_some_iff.1 hs
    exact h t (.inl ht)
  · obtain ⟨t, ht, rfl⟩ := Option.map_eq_some_iff.1 hs
    exact h t (.inr ht)

theorem append_texts (h : o.Open) (l b : String) (n : Nat) :
    (o.append l b n).listingText = o.listingText ++ l ∧ (o.append l b n).binaryText = o.binaryText ++ b := by
  obtain ⟨⟨s, hs, -⟩, ⟨t, ht, -⟩⟩ := h
  simp [append, listingText, binaryText, hs, ht]

theorem writeListing_open (h : o.Unclosed) (t : String) : o.writeListing t = .ok (o.append t "" 0) := by
  obtain ⟨listing, binary, words⟩ := o
  cases listing with
  | none => simp [writeListing, append]
  | some s => simp [writeListing, Stream.write, append, h s (.inl rfl), Except.map]

theorem writeWord_stream {s : Stream} (hb : o.binary = some s) (hs : s.isOpen = true) (w : Int) :
    o.writeWord w = .ok { o with
      binary := some { s with text := s.text ++ wordLine w }
      wordsWritten := o.wordsWritten + 1 } := by
  simp [writeWord, Stream.write, hb, hs, Except.map]

theorem writeWord_open (h : o.Open) (w : Int) : o.writeWord w = .ok (o.append "" (wordLine w) 1) := by
  obtain ⟨⟨s, hs, -⟩, ⟨b, hb, hbo⟩⟩ := h
  rw [writeWord_stream hb hbo]
  simp [append, hs, hb]

end Output

namespace Assembler

variable {a : Assembler} {o : Output}

theorem list_open (ho : a.output = some o) (h : o.Unclosed) (t : String) :
    ∃ b, a.list t = .ok b ∧ b.silent = a.silent.resume a.symbols a.progress (some (o.append t "" 0)) := by
  have hlist : a.list t = .ok
      (if o.listsOnConsole then { a with output := some (o.append t "" 0) }.print t
        else { a with output := some (o.append t "" 0) }) := by
    simp [list, ho, Output.writeListing_open h, Except.map]
  refine ⟨_, hlist, ?_⟩
  split <;> rfl

theorem emit_open (ho : a.output = some o) (h : o.Open) (w : Int) :
    ∃ b, a.emit w = .ok b ∧
      b.silent = a.silent.resume a.symbols a.progress (some (o.append "" (Output.wordLine w) 1)) := by
  refine ⟨{ a with output := some (o.append "" (Output.wordLine w) 1) }, ?_, rfl⟩
  simp [emit, ho, Output.writeWord_open h, Except.map]

/-- An instruction writes its record and its word. -/
theorem list_emit_open (ho : a.output = some o) (h : o.Open) (t : String) (w : Int) :
    ∃ b c, a.list t = .ok b ∧ b.emit w = .ok c ∧
      c.silent = a.silent.resume a.symbols a.progress (some (o.append t (Output.wordLine w) 1)) := by
  obtain ⟨b, hb, hbs⟩ := list_open ho h.unclosed t
  obtain ⟨hbt, hbp, hbo⟩ := eq_of_silent hbs
  obtain ⟨c, hc, hcs⟩ := emit_open hbo (Output.append_open h _ _ _) w
  refine ⟨b, c, hb, hc, ?_⟩
  rw [hcs, hbs, resume_resume, hbt, hbp, Output.append_append, String.append_empty, String.empty_append, Nat.zero_add]

/-- What a failure adds to the listing: a record with its message, if the line could be read and was refused. -/
def LineFailure.listing (f : LineFailure) : String :=
  match f.fault, f.source? with
  | .refused cause _, some s => Listing.record (.failed cause.message) s.statement
  | _, _ => ""

theorem silent_finish (a : Assembler) :
    a.finish.silent = a.silent.resume a.symbols a.progress.finish a.output := rfl

/-- With streams that are not closed a failure is recorded and listed, and the run is over. -/
theorem fail_open (ho : a.output = some o) (h : o.Unclosed) (f : LineFailure) :
    ∃ b, a.fail f = (b, .ok false) ∧
      b.silent = (a.silent.record f.record).resume a.symbols a.progress.finish (some (o.append f.listing "" 0)) := by
  have hsame : (a.record f.record).finish.silent =
      (a.silent.record f.record).resume a.symbols a.progress.finish (some (o.append "" "" 0)) := by
    rw [Output.append_nothing, ← ho]
    rfl
  unfold fail LineFailure.record LineFailure.listing at *
  cases hf : f.fault with
  | refused cause line =>
    simp only [hf] at hsame
    cases hs : f.source? with
    | none => exact ⟨_, by simp only [record, ho], hsame⟩
    | some s =>
      obtain ⟨b, hb, hbs⟩ := list_open (a := a.record (cause.diagnostic line).record) ho h
        (Listing.record (.failed cause.message) s.statement)
      obtain ⟨hbt, hbp, hbo⟩ := eq_of_silent hbs
      refine ⟨b.finish, ?_, ?_⟩
      · simp only [record, ho] at hb ⊢
        rw [hb]
      · rw [silent_finish, hbs, hbt, hbp, hbo, resume_resume]
        rfl
  | _ =>
    simp only [hf] at hsame
    exact ⟨_, rfl, hsame⟩

end Assembler

end MipsAssembler
