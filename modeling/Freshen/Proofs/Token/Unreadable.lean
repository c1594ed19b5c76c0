import Mathlib
import Freshen.Grammar.Error
import Freshen.Proofs.Token.Segments

/-!
# Text that cannot be read

A lexical error is about the first text of a source that is no token and is not skipped.

- `LongestIn`: the longest text of a language at a place.
- `Stray`: how far a text reaches that no pattern matches.
- `LexicalError.Explains`, `LexicalError.PointsAt`: what an error says about a text, and about the place of
  this text in a source.

**Key results.** `Lexeme.longestIn_of_scan_overflow`, `Lexeme.stray_of_scan_invalid`: what stands where
reading stops; `Segment.ReadingStops.explained`: the error that reading ends with explains it;
`tokenize_error_pointsAt`: the statement for whole sources.
-/

namespace Freshen

open scoped Computability

/-- The text `w` in front of `rest` is the longest one of a language that begins at its place. -/
def LongestIn (texts : Language Char) (w rest : List Char) : Prop :=
  w ∈ texts ∧ ∀ w' ∈ texts, w' <+: w ++ rest → w'.length ≤ w.length

/-- A text at a place where nothing matches: one character, or a string literal without its end, up to where
no item follows. -/
inductive Stray : (w rest : List Char) → Prop where
  | char {c : Char} {rest : List Char} (hquote : c ≠ '"') : Stray [c] rest
  | literal {inside rest : List Char} (hlongest : LongestIn Quoted.item∗ inside rest) :
      Stray ('"' :: inside) rest

/-- The offending text of an error. -/
def LexicalError.text : LexicalError → String
  | invalid text _ => text
  | overflow text _ => text

/-- The kind of the error is that of the text `w`, which cannot be read in front of `after`. -/
structure LexicalError.Explains (e : LexicalError) (w after : List Char) : Prop where
  overflow_iff : (∃ text span, e = .overflow text span) ↔
    LongestIn LexicalRule.int.texts w after ∧ 2 ^ 63 - 1 < Decimal.value (w.filter (· ≠ '_'))
  invalid_iff : (∃ text span, e = .invalid text span) ↔
    ∀ r : LexicalRule, ∀ u ∈ r.texts, ¬u <+: w ++ after
  stray : (∃ text span, e = .invalid text span) → Stray w after

/-- The error is about the text `w` of the source, the first one that cannot be read. -/
structure LexicalError.PointsAt (e : LexicalError) (source : String) (before w after : List Char) :
    Prop where
  source_eq : source.toList = before ++ w ++ after
  text_eq : e.text = String.ofList w
  span_eq : e.span = ⟨byteLength before, byteLength before + byteLength w⟩
  bounds : e.span.start < e.span.stop ∧ e.span.stop ≤ source.utf8ByteSize
  /-- All that stands before it can be read. -/
  before_ok : ∃ tokens, tokenize (String.ofList before) = .ok tokens
  explains : e.Explains w after

/-! ### Inside an unfinished literal -/

namespace Quoted

/-- No items at the start of a text reach farther than the run of items there. -/
theorem Items.length_le_runLength {inside value cs : List Char} (h : Items inside value)
    (hstart : inside <+: cs) : inside.length ≤ runLength cs := by
  induction h generalizing cs with
  | nil => exact Nat.zero_le _
  | plain hquote hbackslash _ ih =>
      obtain ⟨rest, rfl⟩ := hstart
      rw [List.cons_append, runLength_cons hquote hbackslash]
      exact Nat.succ_le_succ (ih (List.prefix_append _ rest))
  | @escape c inside value hline _ ih =>
      obtain ⟨rest, rfl⟩ := hstart
      have hle := ih (List.prefix_append inside rest)
      simp only [List.cons_append, List.length_cons, runLength, if_neg hline, Char.reduceEq, if_true,
        if_false]
      omega

/-- The run of items at the start of a text is the longest one. -/
theorem longestIn_take_runLength (cs : List Char) :
    LongestIn item∗ (cs.take (runLength cs)) (cs.drop (runLength cs)) := by
  refine ⟨mem_kstar_item.2 ⟨_, items_take_runLength cs⟩, ?_⟩
  intro inside hinside hstart
  obtain ⟨value, h⟩ := mem_kstar_item.1 hinside
  rw [List.take_append_drop] at hstart
  rw [List.length_take]
  exact le_min (h.length_le_runLength hstart) hstart.length_le

end Quoted

/-! ### Where reading stops -/

namespace Lexeme

variable {c : Char} {cs : List Char} {more : Nat}

/-- A number that is too large is read to its end. -/
theorem longestIn_of_scan_overflow (h : scan c cs = (overflow, more)) :
    LongestIn LexicalRule.int.texts (c :: cs.take more) (cs.drop more) ∧
      maxInt < Decimal.value ((c :: cs.take more).filter (· ≠ '_')) := by
  have hlongest : ∀ w ∈ LexicalRule.int.texts, w <+: c :: cs.take more ++ cs.drop more →
      w.length ≤ more + 1 := by
    intro w hw hstart
    rw [List.cons_append, List.take_append_drop] at hstart
    have hle := (scan_of_mem_texts hw hstart).2
    rwa [h] at hle
  cases scans_of_scan h with
  | overflow hdigit hmax =>
      have hmem : c :: cs.takeWhile isDigitPart ∈ LexicalRule.int.texts := cons_takeWhile_mem hdigit cs
      rw [filter_isDigit (isDigitPart_of_mem hmem)] at hmax
      rw [take_length_takeWhile] at hlongest ⊢
      exact ⟨⟨hmem, hlongest⟩, hmax⟩

/-- Where nothing matches, one character is read, or an unfinished literal. -/
theorem stray_of_scan_invalid (h : scan c cs = (invalid, more)) :
    Stray (c :: cs.take more) (cs.drop more) := by
  cases scans_of_scan h with
  | unfinished hquote =>
      rw [hquote]
      exact .literal (Quoted.longestIn_take_runLength cs)
  | stray hquote => exact .char hquote

end Lexeme

/-- A text in front of the place where reading stops can be read. -/
theorem Segment.MunchedBefore.exists_tokenize {segs : List Segment} {rest : List Char}
    (h : MunchedBefore segs rest) : ∃ tokens, tokenize (String.ofList (textOf segs)) = .ok tokens := by
  have hcomplete : Complete segs [] := by
    refine h.complete.before fun s hs => ?_
    exact (h.complete.reads s (List.mem_of_getLast? hs)).ends_nil
  have hread := tokensFrom_complete hcomplete 0
  rw [List.append_nil, Nat.zero_add, tokensFrom] at hread
  rw [tokenize, String.toList_ofList, hread]
  exact ⟨_, rfl⟩

/-- Where reading stops before the end of a text, the error that it ends with explains why. -/
theorem Segment.ReadingStops.explained {c : Char} {cs : List Char} (h : ReadingStops (c :: cs))
    (offset : Nat) : ∃ w after e, w ++ after = c :: cs ∧ w ≠ [] ∧
      Freshen.tokensFrom 0 offset (c :: cs) = .error e ∧ e.text = String.ofList w ∧
      e.span = Span.ofRange offset (offset + byteLength w) ∧ e.Explains w after := by
  obtain ⟨more, w, span, hw, rfl, herror⟩ := h.error offset
  have hrest : w ++ cs.drop more = c :: cs := by
    rw [hw, List.cons_append, List.take_append_drop]
  have hne : w ≠ [] := hw ▸ List.cons_ne_nil _ _
  rcases herror with ⟨hscan, herror⟩ | ⟨hscan, herror⟩
  · have hnone : ∀ r : LexicalRule, ∀ u ∈ r.texts, ¬u <+: w ++ cs.drop more := by
      intro r u hu hstart
      rw [hrest] at hstart
      exact (Lexeme.scan_of_mem_texts hu hstart).1 (congrArg Prod.fst hscan)
    refine ⟨w, cs.drop more, _, hrest, hne, herror, rfl, rfl, ?_, iff_of_true ⟨_, _, rfl⟩ hnone, ?_⟩
    · exact iff_of_false nofun fun hlongest => hnone .int w hlongest.1.1 (List.prefix_append _ _)
    · intro
      rw [hw]
      exact Lexeme.stray_of_scan_invalid hscan
  · obtain ⟨hlongest, hvalue⟩ := Lexeme.longestIn_of_scan_overflow hscan
    rw [← hw] at hlongest hvalue
    refine ⟨w, cs.drop more, _, hrest, hne, herror, rfl, rfl, iff_of_true ⟨_, _, rfl⟩ ⟨hlongest, hvalue⟩,
      ?_, nofun⟩
    exact iff_of_false nofun fun hnone => hnone .int w hlongest.1 (List.prefix_append _ _)

/-- **Lexical errors point at the first text that cannot be read.**  If spans can hold the size of a source
that has no tokens, the error names a part of it, not empty and between two characters on either side, and
what stands in front of this part can be read.  It is an overflow exactly if this part is the longest match
of an integer literal and its digits denote a number above `2 ^ 63 - 1`; it is invalid text exactly if no
pattern matches at its place, and then it is one character or an unfinished string literal. -/
theorem tokenize_error_pointsAt {source : String} {e : LexicalError}
    (hsize : source.utf8ByteSize < UInt32.size) (h : tokenize source = .error e) :
    ∃ before w after, e.PointsAt source before w after := by
  obtain ⟨segs, rest, htext, hmunched, hstops⟩ := exists_munchedBefore source.toList
  have hread := Segment.tokensFrom_complete hmunched.complete 0
  rw [← htext, ← tokenize, h, Nat.zero_add] at hread
  cases rest with
  | nil => cases hread
  | cons c ds =>
      obtain ⟨w, after, e', hrest, hw, herror, hword, hspan, hexplains⟩ :=
        hstops.explained (byteLength (Segment.textOf segs))
      rw [herror] at hread
      obtain rfl : e = e' := Except.error.inj hread
      have hsource : source.toList = Segment.textOf segs ++ w ++ after := by
        rw [htext, List.append_assoc, hrest]
      have hbytes : byteLength (Segment.textOf segs) + byteLength w ≤ source.utf8ByteSize := by
        rw [← byteLength_toList, hsource, byteLength_append, byteLength_append]
        exact Nat.le_add_right ..
      have hmax : source.utf8ByteSize ≤ Span.maxOffset := Nat.le_pred_of_lt hsize
      rw [Span.ofRange_eq (by omega) (by omega)] at hspan
      refine ⟨Segment.textOf segs, w, after, hsource, hword, hspan, ?_, hmunched.exists_tokenize, hexplains⟩
      rw [hspan]
      exact ⟨Nat.lt_add_of_pos_right (byteLength_pos hw), hbytes⟩

/-- A literal that ends in a backslash behind an integer that just fits, and an integer with separators that
does not fit between a literal and a character that is invalid. -/
theorem tokenize_error_pointsAt_unfinished :
    (∃ before w after, (LexicalError.invalid "\"\\\"é" ⟨20, 25⟩).PointsAt
      "9223372036854775807 \"\\\"é\\" before w after) ∧
    ∃ before w after, (LexicalError.overflow "9_223372036854775808_" ⟨4, 25⟩).PointsAt
      "\"é\"9_223372036854775808_$" before w after := by
  constructor
  · exact tokenize_error_pointsAt (by decide) (by decide +kernel)
  · exact tokenize_error_pointsAt (by decide) (by decide +kernel)

end Freshen
