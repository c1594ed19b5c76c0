import Mathlib
import Freshen.Proofs.Token.MaximalMunch

/-!
# Blanks and comments beside a token

Text that is passed over, put into a source text next to a token, changes no token but for its place.

- `Filler`, `Padding`: blanks and comments that end with their line; those that begin with a blank.
- `BesideToken`: the places of a text right behind a token, right before one, and at its end.
- `Pads`: one text is another one with padding put in at such a place.

**Key results.** `tokenize_of_pads`: a padded text has tokens of the same kinds; `besideToken_of_span`:
the places where the spans of tokens begin and end are places beside a token.
-/

namespace Freshen

open Segment

/-- Blanks and comments, each comment with the line feed that ends it. -/
inductive Filler : List Char → Prop where
  | nil : Filler []
  | blank {c : Char} {w : List Char} (hc : isBlank c = true) (h : Filler w) : Filler (c :: w)
  | comment {u w : List Char} (hu : u ∈ LexicalRule.comment.texts) (h : Filler w) :
      Filler (u ++ '\n' :: w)

/-- Filler that begins with a blank. -/
structure Padding (pad : List Char) : Prop where
  filler : Filler pad
  blank : ∃ c ∈ pad.head?, isBlank c = true

/-- The place between two texts is right behind a token, right before one, or at the end. -/
inductive BesideToken : (before after : List Char) → Prop where
  | behind {xs ys : List Segment} {w : List Char} {k : TokenKind}
      (h : Munched (xs ++ ⟨w, some k⟩ :: ys)) : BesideToken (textOf xs ++ w) (textOf ys)
  | inFront {xs ys : List Segment} {w : List Char} {k : TokenKind}
      (h : Munched (xs ++ ⟨w, some k⟩ :: ys)) : BesideToken (textOf xs) (w ++ textOf ys)
  | atEnd {xs : List Segment} (h : Munched xs) : BesideToken (textOf xs) []

/-- The second text is the first one with padding put in beside a token. -/
def Pads (source source' : String) : Prop :=
  ∃ before pad after, BesideToken before after ∧ Padding pad ∧
    source.toList = before ++ after ∧ source'.toList = before ++ pad ++ after

/-! ### Filler -/

/-- Filler is passed over, and what comes after it is read as many bytes farther back. -/
theorem Filler.tokensFrom {w : List Char} (h : Filler w) (offset : Nat) (rest : List Char) :
    tokensFrom 0 offset (w ++ rest) = tokensFrom 0 (offset + byteLength w) rest := by
  induction h generalizing offset with
  | nil => rfl
  | @blank c w hc _ ih =>
      rw [List.cons_append, tokensFrom_blank hc, ih, Nat.add_assoc]
      rfl
  | @comment u w hu _ ih =>
      rw [List.append_assoc, List.cons_append, tokensFrom_comment hu (by simp),
        tokensFrom_blank rfl, ih, byteLength_append, Nat.add_assoc, Nat.add_assoc]
      rfl

/-- What is left of filler from its first line feed on is filler. -/
theorem Filler.dropWhile {w : List Char} (h : Filler w) : Filler (w.dropWhile (· ≠ '\n')) := by
  induction h with
  | nil => exact .nil
  | @blank c w hc h ih =>
      by_cases hline : c = '\n'
      · rw [List.dropWhile_cons_of_neg (by simp [hline])]
        exact h.blank hc
      · rwa [List.dropWhile_cons_of_pos (by simp [hline])]
  | @comment u w hu h _ =>
      obtain ⟨cs, rfl, hcs⟩ := LexicalRule.mem_texts_comment.1 hu
      have hall : ∀ d ∈ '/' :: '/' :: cs, decide (d ≠ '\n') = true := by
        simpa using hcs
      rw [List.dropWhile_append_of_pos hall, List.dropWhile_cons_of_neg (by simp)]
      exact h.blank rfl

/-! ### Segments around padding -/

/-- The kinds of the tokens of complete segments with filler between them. -/
theorem exists_tokensFrom_filler {xs ys : List Segment} {pad : List Char}
    (hxs : Complete xs (pad ++ textOf ys)) (hys : Complete ys []) (hpad : Filler pad) (offset : Nat) :
    ∃ ts, tokensFrom 0 offset (textOf xs ++ pad ++ textOf ys) = .ok ts ∧
      ts.map Token.kind = kinds xs ++ kinds ys ++ [.eof] := by
  have hrest := tokensFrom_complete hys (offset + byteLength (textOf xs) + byteLength pad)
  rw [List.append_nil] at hrest
  rw [List.append_assoc, tokensFrom_complete hxs, hpad.tokensFrom, hrest, Freshen.tokensFrom]
  refine ⟨_, rfl, ?_⟩
  simp only [List.map_append, map_kind_tokensAt, List.append_assoc]
  rfl

/-- A segment that is no comment ends before a blank. -/
theorem Segment.Reads.ends_of_blank {s : Segment} {rest : List Char} (h : s.Reads)
    (hcomment : s.kind? = none → s.text ∉ LexicalRule.comment.texts)
    (hblank : ∃ c ∈ rest.head?, isBlank c = true) : s.Ends rest := by
  obtain ⟨c, hc, hblank⟩ := hblank
  cases h with
  | @token w k hk =>
      refine .token hk fun d hd => ?_
      obtain rfl : c = d := Option.some.inj (hc.symm.trans hd)
      exact k.fuses_of_isBlank hblank
  | blanks hw => exact .blanks hw
  | comment hw => exact absurd hw (hcomment rfl)

/-- No token begins with a blank. -/
theorem Denotes.isBlank_head {w : List Char} {k : TokenKind} (h : Denotes w k) :
    ∀ c ∈ w.head?, isBlank c = false := by
  obtain ⟨c, cs, rfl, hscan⟩ := Lexeme.scan_of_denotes h
    (show ∀ d ∈ ([] : List Char).head?, _ from nofun)
  intro d hd
  obtain rfl : c = d := Option.some.inj hd
  by_contra hblank
  rw [Lexeme.scan_of_isBlank (Bool.not_eq_false _ ▸ hblank)] at hscan
  exact Lexeme.noConfusion (congrArg Prod.fst hscan)

/-- Segments without a comment at their end are complete before padding. -/
theorem Segment.Complete.padding {xs : List Segment} {rest pad after : List Char}
    (h : Complete xs rest) (hpad : Padding pad)
    (hcomment : ∀ s ∈ xs.getLast?, s.kind? = none → s.text ∉ LexicalRule.comment.texts) :
    Complete xs (pad ++ after) := by
  refine h.before fun s hs => (h.reads s (List.mem_of_mem_getLast? hs)).ends_of_blank (hcomment s hs) ?_
  obtain ⟨c, hc, hblank⟩ := hpad.blank
  exact ⟨c, by rw [List.head?_append, hc]; rfl, hblank⟩

/-- A comment that is still open before padding takes up the rest of its line. -/
theorem Segment.Complete.openComment {xs : List Segment} {u : List Char}
    (h : Complete (xs ++ [⟨u, none⟩]) []) (hu : u ∈ LexicalRule.comment.texts) (pad : List Char) :
    Complete (xs ++ [⟨u ++ pad.takeWhile (· ≠ '\n'), none⟩]) (pad.dropWhile (· ≠ '\n')) := by
  have hline : ∀ d ∈ (pad.dropWhile (· ≠ '\n')).head?, d = '\n' := by
    intro d hd
    have hnot := List.head?_dropWhile_not (· ≠ '\n') pad
    rw [hd] at hnot
    simpa using hnot
  obtain ⟨cs, rfl, hcs⟩ := LexicalRule.mem_texts_comment.1 hu
  rw [complete_append] at h ⊢
  refine ⟨h.1.congr rfl, .comment (LexicalRule.mem_texts_comment.2 ⟨_, rfl, ?_⟩) hline, trivial⟩
  refine List.forall_mem_append.2 ⟨hcs, fun d hd => ?_⟩
  simpa using List.mem_takeWhile_imp hd

/-- What stands right before a token is no comment. -/
theorem Segment.Munched.not_comment {xs ys : List Segment} {w : List Char} {k : TokenKind}
    (h : Munched (xs ++ ⟨w, some k⟩ :: ys)) :
    ∀ s ∈ xs.getLast?, s.text ∉ LexicalRule.comment.texts := by
  intro s hs hcomment
  obtain ⟨zs, rfl⟩ := List.getLast?_eq_some_iff.1 hs
  rw [List.append_assoc] at h
  obtain ⟨-, hlongest, hw, -⟩ := munched_append h
  obtain ⟨c, cs, rfl⟩ := List.exists_cons_of_ne_nil hw.text_ne_nil
  obtain rfl := hlongest.eq_line_feed hcomment c rfl
  exact absurd (hw.denotes.isBlank_head _ rfl) (by decide)

/-! ### Padded texts -/

/-- Padding at the end of a text adds no token, also after a comment that is still open. -/
theorem Segment.Munched.exists_tokensFrom_padding {xs : List Segment} {pad : List Char}
    (h : Munched xs) (hpad : Padding pad) : ∃ ts,
      Freshen.tokensFrom 0 0 (textOf xs ++ pad) = .ok ts ∧ ts.map Token.kind = kinds xs ++ [.eof] := by
  have hcomplete := h.complete
  by_cases hopen : ∃ zs u, xs = zs ++ [⟨u, none⟩] ∧ u ∈ LexicalRule.comment.texts
  · obtain ⟨zs, u, rfl, hu⟩ := hopen
    have hxs := hcomplete.openComment hu pad
    obtain ⟨ts, hts, hkinds⟩ := exists_tokensFrom_filler (by simpa using hxs)
      (show Complete [] [] from trivial) hpad.filler.dropWhile 0
    exact ⟨ts, by simpa using hts, by simpa [kinds] using hkinds⟩
  · have hxs : Complete xs (pad ++ []) := by
      refine hcomplete.padding hpad fun s hs hkind hcomment => hopen ?_
      obtain ⟨zs, rfl⟩ := List.getLast?_eq_some_iff.1 hs
      obtain ⟨u, _⟩ := s
      subst hkind
      exact ⟨zs, u, rfl, hcomment⟩
    obtain ⟨ts, hts, hkinds⟩ := exists_tokensFrom_filler hxs
      (show Complete [] [] from trivial) hpad.filler 0
    exact ⟨ts, by simpa using hts, by simpa [kinds] using hkinds⟩

/-- Padding beside a token changes no token kind. -/
theorem BesideToken.exists_tokensFrom {before after pad : List Char} (h : BesideToken before after)
    (hpad : Padding pad) : ∃ ts ts', tokensFrom 0 0 (before ++ after) = .ok ts ∧
      tokensFrom 0 0 (before ++ pad ++ after) = .ok ts' ∧
      ts'.map Token.kind = ts.map Token.kind := by
  have hplain : ∀ {segs : List Segment}, Munched segs →
      ∃ ts, tokensFrom 0 0 (textOf segs) = .ok ts ∧ ts.map Token.kind = kinds segs ++ [.eof] := by
    intro segs hsegs
    refine ⟨_, hsegs.tokensFrom 0, ?_⟩
    rw [List.map_append, map_kind_tokensAt]
    rfl
  cases h with
  | @behind xs ys w k h =>
      obtain ⟨ts, hts, hkinds⟩ := hplain h
      have hsegs : Complete (xs ++ [⟨w, some k⟩] ++ ys) [] := by simpa using h.complete
      obtain ⟨hxs, hys⟩ := complete_append.1 hsegs
      obtain ⟨ts', hts', hkinds'⟩ := exists_tokensFrom_filler
        (hxs.padding hpad (by simp)) hys hpad.filler 0
      refine ⟨ts, ts', by simpa using hts, by simpa using hts', ?_⟩
      rw [hkinds, hkinds']
      simp [kinds]
  | @inFront xs ys w k h =>
      obtain ⟨ts, hts, hkinds⟩ := hplain h
      obtain ⟨hxs, hys⟩ := complete_append.1 h.complete
      obtain ⟨ts', hts', hkinds'⟩ := exists_tokensFrom_filler
        (hxs.padding hpad fun s hs _ => h.not_comment s hs) hys hpad.filler 0
      refine ⟨ts, ts', by simpa using hts, by simpa using hts', ?_⟩
      rw [hkinds, hkinds']
      simp [kinds]
  | atEnd h =>
      obtain ⟨ts, hts, hkinds⟩ := hplain h
      obtain ⟨ts', hts', hkinds'⟩ := h.exists_tokensFrom_padding hpad
      refine ⟨ts, ts', by simpa using hts, by simpa using hts', ?_⟩
      rw [hkinds, hkinds']

/-- A text that is padded any number of times has tokens of the same kinds. -/
theorem tokenize_of_pads {source source' : String} (h : Relation.ReflTransGen Pads source source')
    {tokens : List Token} (htokens : tokenize source = .ok tokens) : ∃ tokens',
      tokenize source' = .ok tokens' ∧ tokens'.map Token.kind = tokens.map Token.kind := by
  induction h with
  | refl => exact ⟨tokens, htokens, rfl⟩
  | tail _ hpads ih =>
      obtain ⟨ts, hts, hkinds⟩ := ih
      obtain ⟨before, pad, after, hbeside, hpad, hsource, hsource'⟩ := hpads
      obtain ⟨us, us', hus, hus', hkinds'⟩ := hbeside.exists_tokensFrom hpad
      rw [tokenize, hsource, hus, Except.ok.injEq] at hts
      refine ⟨us', by rw [tokenize, hsource', hus'], ?_⟩
      rw [hkinds', hts, hkinds]

/-! ### Places given by spans -/

/-- Two texts of as many bytes at the start of one text are equal. -/
theorem eq_of_byteLength_eq {before before' after after' : List Char}
    (h : before ++ after = before' ++ after') (hbytes : byteLength before = byteLength before') :
    before = before' ∧ after = after' := by
  rcases List.append_eq_append_iff.1 h with ⟨cs, rfl, rfl⟩ | ⟨cs, rfl, rfl⟩
  all_goals
    rw [byteLength_append] at hbytes
    obtain rfl : cs = [] := by
      by_contra hcs
      have := byteLength_pos hcs
      omega
    simp

/-- Where the span of a token begins or ends is a place beside a token. -/
theorem besideToken_of_span {source : String} {tokens : List Token} {before after : List Char}
    (hsize : source.utf8ByteSize < UInt32.size) (htokens : tokenize source = .ok tokens)
    (hsource : source.toList = before ++ after) {t : Token} (ht : t ∈ tokens)
    (hplace : byteLength before = t.span.start ∨ byteLength before = t.span.stop) :
    BesideToken before after := by
  obtain ⟨segs, htext, hlength, hmunched, rfl⟩ := exists_munched_of_tokenize htokens
  have hmax : source.utf8ByteSize ≤ Span.maxOffset := Nat.le_pred_of_lt hsize
  rcases List.mem_append.1 ht with ht | ht
  · obtain ⟨xs, w, k, ys, rfl, rfl⟩ := exists_of_mem_tokensAt ht
    simp only [textOf_append, textOf_cons, byteLength_append] at hlength
    rw [Span.ofRange_eq (by omega) (by omega)] at hplace
    rw [textOf_append, textOf_cons, hsource] at htext
    rcases hplace with hplace | hplace
    · obtain ⟨rfl, rfl⟩ := eq_of_byteLength_eq htext (by simpa using hplace)
      exact .inFront hmunched
    · rw [← List.append_assoc] at htext
      obtain ⟨rfl, rfl⟩ := eq_of_byteLength_eq htext (by simpa [byteLength_append] using hplace)
      exact .behind hmunched
  · obtain rfl := List.mem_singleton.1 ht
    rw [Span.ofRange_eq hmax hmax] at hplace
    have hend : byteLength before = byteLength (textOf segs) := by
      rw [hlength]
      exact hplace.elim id id
    rw [htext, ← List.append_nil (textOf segs)] at hsource
    obtain ⟨rfl, rfl⟩ := eq_of_byteLength_eq hsource hend.symm
    exact .atEnd hmunched

end Freshen
