import MipsAssembler.Output
import MipsAssembler.Proofs.Records
import MipsAssembler.Proofs.TableHistory
/-!
# One text for the symbols

The block of symbols at the end of a listing has a line for each symbol, in the order of the names. Names stay apart in
every table that calls lead to, so this order is strict and leaves no choice: the block is known from the names and
their addresses (`symbolBlock_canonical`), whatever calls put them there.
-/

namespace MipsAssembler

namespace Text

/-- The code points of a text. -/
def codePoints (s : String) : List Nat := s.toList.map Char.toNat

theorem codePoints_lt {s t : String} (h : s < t) : codePoints s < codePoints t :=
  List.map_lt (fun _ _ hlt => UInt32.lt_iff_toNat_lt.1 hlt) h

end Text

namespace SymbolTable

variable {t t' : SymbolTable}

/-- The names that have an address, with it. -/
def entries (t : SymbolTable) : List (String × Int) := t.symbols.map fun s => (s.name, s.address)

/-- The same by name. -/
def sortedEntries (t : SymbolTable) : List (String × Int) := t.sorted.map fun s => (s.name, s.address)

theorem mem_entries {name : String} {address : Int} :
    (name, address) ∈ t.entries ↔ ∃ line, ⟨name, address, line⟩ ∈ t.symbols := by
  rw [entries, List.mem_map]
  constructor
  · rintro ⟨⟨name, address, line⟩, hs, he⟩
    cases he
    exact ⟨line, hs⟩
  · rintro ⟨line, hs⟩
    exact ⟨_, hs, rfl⟩

theorem sortedEntries_perm (t : SymbolTable) : t.sortedEntries.Perm t.entries := (List.mergeSort_perm _ _).map _

theorem Sound.sortedEntries_ascending (h : t.Sound) : t.sortedEntries.Pairwise fun x y => x.1 < y.1 :=
  List.pairwise_map.2 (sorted_ascending h.committed_nodup)

theorem Sound.entries_nodup (h : t.Sound) : t.entries.Nodup := by
  apply List.Nodup.of_map Prod.fst
  rw [entries, List.map_map]
  exact h.committed_nodup

/-- Names with addresses can be put in order in one way only. -/
theorem Sound.sortedEntries_eq (h : t.Sound) (h' : t'.Sound) (hsame : ∀ e, e ∈ t.entries ↔ e ∈ t'.entries) :
    t.sortedEntries = t'.sortedEntries := by
  have hperm : t.sortedEntries.Perm t'.sortedEntries := by
    have hentries := (List.perm_ext_iff_of_nodup h.entries_nodup h'.entries_nodup).2 hsame
    exact (t.sortedEntries_perm.trans hentries).trans t'.sortedEntries_perm.symm
  apply hperm.eq_of_pairwise _ h.sortedEntries_ascending h'.sortedEntries_ascending
  intro x y _ _ hxy hyx
  exact absurd hyx (String.lt_asymm hxy)

end SymbolTable

namespace Listing

open SymbolTable

/-- A line of the block: the name, filled up with spaces to ten characters, a tab, `0X` and eight hexadecimal digits in
upper case that stand for the address modulo `2 ^ 32`. -/
def ShowsSymbol (entry : String × Int) (line : String) : Prop :=
  ∃ ds, line.toList = entry.1.toList ++ List.replicate (10 - entry.1.length) ' ' ++ '\t' :: '0' :: 'X' :: ds ++ ['\n'] ∧
    ds.length = 8 ∧ (∀ c ∈ ds, ∃ k < 16, c = Text.upperDigit k) ∧
    Literal.Denotes 16 ds (entry.2 % 0x100000000).toNat

/-- The line of a symbol does not depend on where it was defined. -/
def entryLine (entry : String × Int) : String := symbolLine ⟨entry.1, entry.2, none⟩

theorem lowerDigit_toUpper : ∀ k < 16, (Text.lowerDigit k).toUpper = Text.upperDigit k ∧
    (Text.lowerDigit k).toUpper.toLower = Text.lowerDigit k := by
  decide

theorem entryLine_shows (entry : String × Int) : ShowsSymbol entry (entryLine entry) := by
  refine ⟨(Text.hexDigits 8 (Text.wordValue entry.2)).map Char.toUpper, ?_, ?_, fun c hc => ?_, ?_⟩
  · simp [entryLine, symbolLine, Text.upperWord, Text.padRight_toList]
  · rw [List.length_map, Text.length_wordDigits]
  · obtain ⟨d, hd, rfl⟩ := List.mem_map.1 hc
    obtain ⟨k, hk, rfl⟩ := Text.mem_hexDigits hd
    exact ⟨k, hk, (lowerDigit_toUpper k hk).1⟩
  · -- The case of the letters does not change the number.
    apply Literal.Denotes.of_toLower
    rw [List.map_map, List.map_congr_left (g := id), List.map_id]
    · exact Text.hexDigits_denote 8 (Text.wordValue entry.2)
    · intro c hc
      obtain ⟨k, hk, rfl⟩ := Text.mem_hexDigits hc
      exact (lowerDigit_toUpper k hk).2

theorem symbolBlock_entries (t : SymbolTable) :
    symbolBlock t = "\n\nSymbols:\n" ++ Text.join "" (t.sortedEntries.map entryLine) := by
  rw [symbolBlock, sortedEntries, List.map_map]
  rfl

/-- After any calls, those that fail included, the block of symbols is its heading and one line for each name that has
an address, with names that ascend strictly by code point. On an open stream exactly this is added. Tables with the
same names and addresses have the same block, in whatever order and on whatever lines the names were defined. -/
theorem symbolBlock_canonical (calls : List Call) :
    let t := afterCalls calls
    (∃ entries lines, symbolBlock t = "\n\nSymbols:\n" ++ Text.join "" lines ∧
      List.Forall₂ ShowsSymbol entries lines ∧
      entries.Perm (t.symbols.map fun s => (s.name, s.address)) ∧
      entries.Pairwise fun x y => Text.codePoints x.1 < Text.codePoints y.1) ∧
    (∀ (o : Output) (s : Stream), o.listing = some s → s.isOpen = true →
      o.writeListing (symbolBlock t) = .ok { o with listing := some { s with text := s.text ++ symbolBlock t } }) ∧
    ∀ calls', (∀ name address, (∃ line, ⟨name, address, line⟩ ∈ t.symbols) ↔
        ∃ line, ⟨name, address, line⟩ ∈ (afterCalls calls').symbols) →
      symbolBlock (afterCalls calls') = symbolBlock t := by
  intro t
  have hsound : t.Sound := sound_afterCalls calls
  refine ⟨⟨t.sortedEntries, t.sortedEntries.map entryLine, symbolBlock_entries t, ?_, t.sortedEntries_perm, ?_⟩,
    fun o s hl hs => ?_, fun calls' hsame => ?_⟩
  · rw [List.forall₂_map_right_iff, List.forall₂_same]
    exact fun entry _ => entryLine_shows entry
  · exact hsound.sortedEntries_ascending.imp Text.codePoints_lt
  · simp [Output.writeListing, Stream.write, hl, hs, Except.map]
  · have hentries : ∀ e, e ∈ (afterCalls calls').entries ↔ e ∈ t.entries := by
      rintro ⟨name, address⟩
      rw [mem_entries, mem_entries, hsame]
    rw [symbolBlock_entries, symbolBlock_entries, (sound_afterCalls calls').sortedEntries_eq hsound hentries]

/-- Two names, defined in either order and on other lines, with a second definition that is refused. -/
theorem symbolBlock_canonical_reordered :
    let t := afterCalls [.stage "b" 1, .commit 4, .stage "a" 2, .commit (-1)]
    let t' := afterCalls [.stage "a" 7, .commit (-1), .stage "b" 9, .stage "a" 9, .commit 4]
    (∀ name address, (∃ line, ⟨name, address, line⟩ ∈ t.symbols) ↔ ∃ line, ⟨name, address, line⟩ ∈ t'.symbols) ∧
    t.symbols ≠ t'.symbols ∧ symbolBlock t' = symbolBlock t ∧
    Output.writeListing {} (symbolBlock t) = .ok { listing := some { text := "" ++ symbolBlock t } } := by
  intro t t'
  have ht : t.symbols = [⟨"b", 4, some 1⟩, ⟨"a", -1, some 2⟩] := by decide
  have ht' : t'.symbols = [⟨"a", -1, some 7⟩, ⟨"b", 4, some 9⟩] := by decide
  have hsame : ∀ name address, (∃ line, ⟨name, address, line⟩ ∈ t.symbols) ↔
      ∃ line, ⟨name, address, line⟩ ∈ t'.symbols := by
    intro name address
    simp [ht, ht', exists_or, or_comm]
  refine ⟨hsame, by rw [ht, ht']; decide, (symbolBlock_canonical _).2.2 _ hsame, ?_⟩
  exact (symbolBlock_canonical _).2.1 {} {} rfl rfl

end Listing

end MipsAssembler
