import Mathlib
import Freshen.Proofs.Token.Segments

/-!
# Reading by longest matches

The tokens of a text are those of its partition into longest matches of the lexical patterns.

- `Skipped`: a text of blanks and comments, each of them as long as possible.
- `Token.Stands`: a token stands in a text where its span says.
- `MaximalMunch`: the tokens partition a text.

**Key result.** `maximalMunch_of_tokenize`: the tokens of every text whose size fits into spans
partition it.
-/

namespace Freshen

/-- Blanks and comments in front of `after`, each of them the longest match at its place. -/
inductive Skipped : List Char → (after : List Char) → Prop where
  | nil {after : List Char} : Skipped [] after
  | cons {w gap after : List Char}
      (hw : w ∈ LexicalRule.blanks.texts ∨ w ∈ LexicalRule.comment.texts)
      (hlongest : LongestMatch w (gap ++ after)) (h : Skipped gap after) : Skipped (w ++ gap) after

/-- The text from the end of one span to the start of the next one is skipped. -/
def SkippedBetween (source : List Char) (a b : Span) : Prop :=
  ∃ before gap after, source = before ++ gap ++ after ∧ a.stop = byteLength before ∧
    b.start = byteLength before + byteLength gap ∧ Skipped gap after

/-- The text at the token's span is the longest match at its place, and it denotes the token. -/
def Token.Stands (source : List Char) (t : Token) : Prop :=
  ∃ before w after, source = before ++ w ++ after ∧
    t.span = ⟨byteLength before, byteLength before + byteLength w⟩ ∧ w ≠ [] ∧
    LongestMatch w after ∧ Denotes w t.kind

/-- The tokens partition the source into longest matches. -/
structure MaximalMunch (source : String) (tokens : List Token) : Prop where
  /-- The end of the text is the last token and no other one, and it stands behind the last byte. -/
  ends : ∃ body, tokens = body ++ [⟨.eof, .point source.utf8ByteSize⟩] ∧ ∀ t ∈ body, t.kind ≠ .eof
  /-- Spans do not go back or overlap. -/
  ordered : tokens.Pairwise fun t u => t.span.stop ≤ u.span.start
  /-- The span of any other token covers at least one byte of the source. -/
  bounds : ∀ t ∈ tokens, t.kind ≠ .eof →
    t.span.start < t.span.stop ∧ t.span.stop ≤ source.utf8ByteSize
  stands : ∀ t ∈ tokens, t.kind ≠ .eof → t.Stands source.toList
  /-- Before the first token, between two tokens and after the last one, the text is skipped. -/
  gaps : (Span.point 0 :: tokens.map Token.span).IsChain (SkippedBetween source.toList)

/-! ### Skipped text -/

/-- Skipped text goes on with blanks or a comment that is the longest match at its place. -/
theorem Skipped.snoc {gap w after : List Char} (h : Skipped gap (w ++ after))
    (hw : w ∈ LexicalRule.blanks.texts ∨ w ∈ LexicalRule.comment.texts)
    (hlongest : LongestMatch w after) : Skipped (gap ++ w) after := by
  generalize hrest : w ++ after = rest at h
  induction h with
  | nil =>
      rw [List.nil_append, ← List.append_nil w]
      exact .cons hw (by rwa [List.nil_append]) .nil
  | @cons u gap rest hu hlongestu _ ih =>
      subst hrest
      rw [List.append_assoc]
      exact .cons hu (by rwa [List.append_assoc]) (ih rfl)

/-! ### The tokens of longest matches -/

namespace Segment

variable {offset : Nat} {segs : List Segment}

/-- A token of the segments is that of one of them, at its place. -/
theorem exists_of_mem_tokensAt {t : Token} (h : t ∈ tokensAt offset segs) : ∃ xs w k ys,
    segs = xs ++ ⟨w, some k⟩ :: ys ∧ t = ⟨k, Span.ofRange (offset + byteLength (textOf xs))
      (offset + byteLength (textOf xs) + byteLength w)⟩ := by
  induction segs generalizing offset with
  | nil => exact absurd h List.not_mem_nil
  | cons s segs ih =>
      obtain ⟨w, kind?⟩ := s
      rcases List.mem_append.1 h with h | h
      · cases kind? with
        | none => exact absurd h List.not_mem_nil
        | some k => exact ⟨[], w, k, segs, rfl, List.mem_singleton.1 h⟩
      · obtain ⟨xs, w', k, ys, rfl, rfl⟩ := ih h
        refine ⟨⟨w, kind?⟩ :: xs, w', k, ys, rfl, ?_⟩
        rw [textOf_cons, byteLength_append, Nat.add_assoc offset]

/-- The last of some longest matches are longest matches. -/
theorem munched_append {xs ys : List Segment} (h : Munched (xs ++ ys)) : Munched ys := by
  induction xs with
  | nil => exact h
  | cons s xs ih => exact ih h.2.2

/-- The tokens of longest matches are no ends of text and stand where their spans say. -/
theorem Munched.stands {before : List Char} (h : Munched segs) (hoffset : offset = byteLength before)
    (hsize : offset + byteLength (textOf segs) ≤ Span.maxOffset) {t : Token}
    (ht : t ∈ tokensAt offset segs) : t.kind ≠ .eof ∧ t.Stands (before ++ textOf segs) := by
  obtain ⟨xs, w, k, ys, rfl, rfl⟩ := exists_of_mem_tokensAt ht
  obtain ⟨hreads, hlongest, -⟩ := munched_append h
  cases hreads with
  | token hk =>
      have hreadable := hk.readable
      refine ⟨by rintro rfl; exact hreadable, before ++ textOf xs, w, textOf ys, ?_, ?_,
        Reads.text_ne_nil (.token hk), hlongest, hk⟩
      · simp
      · simp only [textOf_append, textOf_cons, byteLength_append] at hsize ⊢
        rw [hoffset] at hsize ⊢
        rw [Span.ofRange_eq (by omega) (by omega)]

/-- The tokens of segments stand between the ends of the segments. -/
theorem bounds_of_mem_tokensAt {t : Token} (ht : t ∈ tokensAt offset segs)
    (hsize : offset + byteLength (textOf segs) ≤ Span.maxOffset) :
    offset ≤ t.span.start ∧ t.span.stop ≤ offset + byteLength (textOf segs) := by
  obtain ⟨xs, w, k, ys, rfl, rfl⟩ := exists_of_mem_tokensAt ht
  simp only [textOf_append, textOf_cons, byteLength_append] at hsize ⊢
  rw [Span.ofRange_eq (by omega) (by omega)]
  exact ⟨by dsimp only; omega, by dsimp only; omega⟩

/-- The tokens of segments stand one after the other. -/
theorem pairwise_tokensAt (hsize : offset + byteLength (textOf segs) ≤ Span.maxOffset) :
    (tokensAt offset segs).Pairwise fun t u => t.span.stop ≤ u.span.start := by
  induction segs generalizing offset with
  | nil => exact .nil
  | cons s segs ih =>
      obtain ⟨w, kind?⟩ := s
      rw [textOf_cons, byteLength_append, ← Nat.add_assoc] at hsize
      refine List.pairwise_append.2 ⟨?_, ih hsize, fun t ht u hu => ?_⟩
      · cases kind? <;> simp
      · cases kind? with
        | none => exact absurd ht List.not_mem_nil
        | some k =>
            obtain rfl := List.mem_singleton.1 ht
            rw [Span.ofRange_eq (by omega) (by omega)]
            exact (bounds_of_mem_tokensAt hu hsize).1

/-- Between the tokens of longest matches the text is skipped. -/
theorem Munched.gaps {source before gap : List Char} {a : Span} (h : Munched segs)
    (hsource : source = before ++ gap ++ textOf segs) (ha : a.stop = byteLength before)
    (hgap : Skipped gap (textOf segs)) (hoffset : offset = byteLength before + byteLength gap)
    (hsize : offset + byteLength (textOf segs) ≤ Span.maxOffset) :
    (a :: ((tokensAt offset segs).map Token.span ++
      [.point (offset + byteLength (textOf segs))])).IsChain (SkippedBetween source) := by
  induction segs generalizing offset before gap a with
  | nil => exact List.isChain_pair.2 ⟨before, gap, [], hsource, ha, hoffset, hgap⟩
  | cons s segs ih =>
      obtain ⟨w, kind?⟩ := s
      obtain ⟨hreads, hlongest, h⟩ := h
      rw [textOf_cons] at hsource hgap hsize ⊢
      rw [byteLength_append, ← Nat.add_assoc] at hsize ⊢
      dsimp only at hsource hgap hsize hlongest ⊢
      cases kind? with
      | none =>
          have hsource : source = before ++ (gap ++ w) ++ textOf segs := by
            simp only [hsource, List.append_assoc]
          refine ih h hsource ha (hgap.snoc hreads.skipped hlongest) ?_ hsize
          rw [hoffset, byteLength_append, Nat.add_assoc]
      | some k =>
          have hspan : Span.ofRange offset (offset + byteLength w) = ⟨offset, offset + byteLength w⟩ :=
            Span.ofRange_eq (by omega) (by omega)
          rw [tokensAt, hspan]
          refine List.isChain_cons_cons.2 ⟨⟨before, gap, w ++ textOf segs, hsource, ha, hoffset, hgap⟩, ?_⟩
          have hsource : source = before ++ gap ++ w ++ [] ++ textOf segs := by
            simp only [hsource, List.append_assoc, List.append_nil]
          refine ih h hsource ?_ .nil ?_ hsize
          · simp only [byteLength_append, hoffset]
          · simp only [byteLength_append, byteLength_nil, hoffset, Nat.add_zero]

end Segment

/-- The tokens of a text whose size fits into spans partition it into longest matches. -/
theorem maximalMunch_of_tokenize {source : String} {tokens : List Token}
    (hsize : source.utf8ByteSize < UInt32.size) (h : tokenize source = .ok tokens) :
    MaximalMunch source tokens := by
  obtain ⟨segs, htext, hlength, hmunched, rfl⟩ := exists_munched_of_tokenize h
  rw [← Nat.zero_add (byteLength _)] at hlength
  have hmax : source.utf8ByteSize ≤ Span.maxOffset := Nat.le_pred_of_lt hsize
  have heof : Span.ofRange source.utf8ByteSize source.utf8ByteSize = .point source.utf8ByteSize :=
    Span.ofRange_eq hmax hmax
  rw [← hlength] at hmax
  have hstands : ∀ t ∈ Segment.tokensAt 0 segs, t.kind ≠ .eof ∧ t.Stands source.toList := by
    intro t ht
    have h := hmunched.stands (show 0 = byteLength [] from rfl) hmax ht
    rwa [List.nil_append, ← htext] at h
  have hbounds : ∀ t ∈ Segment.tokensAt 0 segs, t.span.stop ≤ source.utf8ByteSize := by
    intro t ht
    rw [← hlength]
    exact (Segment.bounds_of_mem_tokensAt ht hmax).2
  -- all tokens but the last come from segments
  have hbody : ∀ t ∈ Segment.tokensAt 0 segs ++ [⟨.eof, .point source.utf8ByteSize⟩],
      t.kind ≠ .eof → t ∈ Segment.tokensAt 0 segs := by
    intro t ht hkind
    refine (List.mem_append.1 ht).resolve_right fun heof => hkind ?_
    rw [List.mem_singleton.1 heof]
  rw [heof]
  refine ⟨⟨_, rfl, fun t ht => (hstands t ht).1⟩, ?ordered, ?bounds, ?stands, ?gaps⟩
  case ordered =>
    refine List.pairwise_append.2 ⟨Segment.pairwise_tokensAt hmax, by simp, fun t ht u hu => ?_⟩
    rw [List.mem_singleton.1 hu]
    exact hbounds t ht
  case bounds =>
    intro t ht hkind
    have ht := hbody t ht hkind
    obtain ⟨-, before, w, after, -, hspan, hw, -⟩ := hstands t ht
    refine ⟨?_, hbounds t ht⟩
    rw [hspan]
    exact Nat.lt_add_of_pos_right (byteLength_pos hw)
  case stands => exact fun t ht hkind => (hstands t (hbody t ht hkind)).2
  case gaps =>
    have hsource : source.toList = [] ++ [] ++ Segment.textOf segs := htext
    have h := hmunched.gaps hsource (show (Span.point 0).stop = byteLength [] from rfl) .nil
      (show 0 = byteLength [] + byteLength [] from rfl) hmax
    rw [hlength] at h
    rwa [List.map_append]

/-- A word that starts like a reserved one, marks of one and two characters, a comment, a number with a
separator and a string with an escaped quote. -/
theorem maximalMunch_of_tokenize_mixed :
    MaximalMunch "fn_1 a::b // é\n1_0\"\\\"é\"<=" [
      ⟨.ident "fn_1", ⟨0, 4⟩⟩, ⟨.ident "a", ⟨5, 6⟩⟩, ⟨.mark .doubleColon, ⟨6, 8⟩⟩, ⟨.ident "b", ⟨8, 9⟩⟩,
      ⟨.int 10, ⟨16, 19⟩⟩, ⟨.str "\"é", ⟨19, 25⟩⟩, ⟨.mark .ltEq, ⟨25, 27⟩⟩, ⟨.eof, ⟨27, 27⟩⟩] :=
  maximalMunch_of_tokenize (by decide) rfl

end Freshen
