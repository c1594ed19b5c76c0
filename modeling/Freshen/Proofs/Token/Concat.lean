import Mathlib
import Freshen.Proofs.Grammar.Respan
import Freshen.Proofs.Token.Segments

/-!
# Texts one after the other

The tokens of two texts with a line feed between them are those of the first text without its end, and those
of the second one at places farther back.

**Key results.** `Segment.tokensAt_shift`, `tokensFrom_shift`: where a text starts only shifts its tokens;
`tokenize_line_feed`: the tokens of two texts with a line feed between them.
-/

namespace Freshen

open Segment

/-- Segments that start farther back have the same tokens, farther back. -/
theorem Segment.tokensAt_shift {n offset : Nat} {segs : List Segment}
    (hsize : offset + n + byteLength (textOf segs) ≤ Span.maxOffset) :
    tokensAt (offset + n) segs = (tokensAt offset segs).map (Token.mapSpan (Span.shift n)) := by
  induction segs generalizing offset with
  | nil => rfl
  | cons s segs ih =>
      obtain ⟨w, kind?⟩ := s
      simp only [textOf_cons, byteLength_append] at hsize
      have hnext : offset + n + byteLength w = offset + byteLength w + n := by omega
      have htail := ih (show offset + byteLength w + n + byteLength (textOf segs) ≤ _ by omega)
      cases kind? with
      | none =>
          simp only [tokensAt, hnext, htail]
          rfl
      | some k =>
          have hspan : Span.ofRange (offset + n) (offset + byteLength w + n) =
              (Span.ofRange offset (offset + byteLength w)).shift n := by
            rw [Span.ofRange_eq (by omega) (by omega), Span.ofRange_eq (by omega) (by omega)]
            rfl
          simp only [tokensAt, hnext, htail, hspan]
          rfl

/-- The same for all tokens of a text, its end among them. -/
theorem Segment.tokensAt_eof_shift {n : Nat} {segs : List Segment}
    (hsize : n + byteLength (textOf segs) ≤ Span.maxOffset) :
    tokensAt n segs ++
        [⟨.eof, Span.ofRange (n + byteLength (textOf segs)) (n + byteLength (textOf segs))⟩] =
      (tokensAt 0 segs ++
        [Token.mk .eof (Span.ofRange (byteLength (textOf segs)) (byteLength (textOf segs)))]).map
          (Token.mapSpan (Span.shift n)) := by
  have htokens : tokensAt (0 + n) segs = _ := tokensAt_shift (by omega)
  have hend : Span.ofRange (n + byteLength (textOf segs)) (n + byteLength (textOf segs)) =
      (Span.ofRange (byteLength (textOf segs)) (byteLength (textOf segs))).shift n := by
    rw [Span.ofRange_eq hsize hsize, Span.ofRange_eq (by omega) (by omega), Nat.add_comm]
    rfl
  rw [Nat.zero_add] at htokens
  rw [List.map_append, htokens, hend]
  rfl

/-- A text that starts farther back has the same tokens, farther back. -/
theorem tokensFrom_shift {n : Nat} {source : String} {tokens : List Token}
    (h : tokenize source = .ok tokens) (hsize : n + source.utf8ByteSize ≤ Span.maxOffset) :
    tokensFrom 0 n source.toList = .ok (tokens.map (Token.mapSpan (Span.shift n))) := by
  obtain ⟨segs, htext, hlength, hmunched, rfl⟩ := exists_munched_of_tokenize h
  rw [htext, hmunched.tokensFrom, tokensAt_eof_shift (by rwa [hlength]), hlength]

/-- The tokens of a text: those before its end, and its end. -/
theorem exists_body_of_tokenize {source : String} {tokens : List Token}
    (h : tokenize source = .ok tokens) :
    ∃ body t, tokens = body ++ [t] ∧ t.kind = .eof ∧ .eof ∉ body.map Token.kind := by
  obtain ⟨ks, hkinds, hreadable⟩ := readable_of_tokensFrom h
  obtain ⟨body, more, rfl, rfl, hmore⟩ := List.map_eq_append_iff.1 hkinds
  obtain ⟨t, rfl, ht⟩ := List.map_eq_singleton_iff.1 hmore
  exact ⟨body, t, rfl, ht, fun heof => hreadable _ heof⟩

/-- Longest matches with a line feed between them contribute their tokens, also if an open comment is the
last one of those in front. -/
theorem Segment.Munched.tokensFrom_line_feed {xs ys : List Segment} (hxs : Munched xs)
    (hys : Munched ys) : ∃ e, Freshen.tokensFrom 0 0 (textOf xs ++ '\n' :: textOf ys) =
      .ok (tokensAt 0 xs ++ (tokensAt (byteLength (textOf xs) + 1) ys ++ [⟨.eof, Span.ofRange e e⟩])) ∧
      e = byteLength (textOf xs) + 1 + byteLength (textOf ys) := by
  refine ⟨_, ?_, rfl⟩
  have hcomplete : Complete xs ('\n' :: textOf ys) := by
    refine hxs.complete.before fun s hs => ?_
    exact (hxs.complete.reads s (List.mem_of_getLast? hs)).ends_line_feed _
  rw [tokensFrom_complete hcomplete, tokensFrom_blank rfl, Nat.zero_add]
  change (Freshen.tokensFrom 0 (byteLength (textOf xs) + 1) (textOf ys)).map _ = _
  rw [hys.tokensFrom]
  rfl

/-- The tokens of two texts with a line feed between them. -/
theorem tokenize_line_feed {source source' : String} {tokens tokens' : List Token}
    (h : tokenize source = .ok tokens) (h' : tokenize source' = .ok tokens') :
    ∃ body t more, tokens = body ++ [t] ∧ t.kind = .eof ∧ .eof ∉ body.map Token.kind ∧
      tokenize (source ++ "\n" ++ source') = .ok (body ++ more) ∧
      more.map Token.kind = tokens'.map Token.kind ∧
      ((source ++ "\n" ++ source').utf8ByteSize < UInt32.size →
        more = tokens'.map (Token.mapSpan (Span.shift (source.utf8ByteSize + 1)))) := by
  obtain ⟨body, t, htokens, ht, hbody⟩ := exists_body_of_tokenize h
  obtain ⟨xs, htext, hlength, hxs, rfl⟩ := exists_munched_of_tokenize h
  obtain ⟨ys, htext', hlength', hys, rfl⟩ := exists_munched_of_tokenize h'
  obtain ⟨rfl, -⟩ := List.append_singleton_inj.1 htokens
  have hjoined : (source ++ "\n" ++ source').toList = textOf xs ++ '\n' :: textOf ys := by
    simp [htext, htext']
  obtain ⟨e, htokens', he⟩ := hxs.tokensFrom_line_feed hys
  refine ⟨tokensAt 0 xs, _, _, rfl, rfl, hbody, by rw [tokenize, hjoined, htokens'], ?kinds, ?places⟩
  case kinds => simp only [List.map_append, map_kind_tokensAt, List.map_cons, List.map_nil]
  case places =>
    intro hsize
    have hmax : source.utf8ByteSize + 1 + source'.utf8ByteSize ≤ Span.maxOffset := by
      have hone : "\n".utf8ByteSize = 1 := rfl
      rw [String.utf8ByteSize_append, String.utf8ByteSize_append, hone] at hsize
      exact Nat.le_pred_of_lt hsize
    rw [he, hlength, ← hlength', tokensAt_eof_shift (by rwa [hlength'])]

end Freshen
