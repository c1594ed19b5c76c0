import Mathlib
import Freshen.Proofs.Token.Segments

/-!
# Spelled tokens are read back

Readable tokens are spelled one after the other, with one blank between them.  No spelling reaches into the
blank behind it, so each is read as the token that it spells.

- `TokenKind.spaced`: the text of the tokens.
- `TokenKind.leading`: the part of such a text that stands before a token.
- `TokenKind.spacedTokens`: the tokens at their places.

**Key result.** `tokenize_spaced`: the text is read as exactly these tokens, each at its own spelling.
-/

namespace Freshen

/-- A word that is neither reserved nor the underscore is an identifier. -/
theorem isIdentifier_of_isWord {name : Name} (hword : IsWord name) (hunderscore : name ≠ "_")
    (hkeyword : ∀ w : Keyword, name ≠ w.text) : IsIdentifier name := by
  refine ⟨hword, ?_⟩
  have hident := TokenKind.ofWord_eq_ident (w := name.toList)
    (fun w h => hkeyword w (String.toList_inj.1 h)) (fun h => hunderscore (String.toList_inj.1 h))
  rwa [String.ofList_toList] at hident

namespace TokenKind

/-- The spellings of tokens with one blank between them. -/
def spaced (ks : List TokenKind) : String := " ".intercalate (ks.map spelling)

/-- The spellings of tokens with one blank after each of them. -/
def leading (ks : List TokenKind) : String := String.join (ks.map (·.spelling ++ " "))

/-- Spelled tokens with one blank between them, the first of which starts at byte `offset`. -/
def spacedTokens : (offset : Nat) → List TokenKind → List Token
  | _, [] => []
  | offset, k :: ks =>
      ⟨k, Span.ofRange offset (offset + k.spelling.utf8ByteSize)⟩ ::
        spacedTokens (offset + k.spelling.utf8ByteSize + 1) ks

/-- The first of several tokens is written before the others, with a blank after it. -/
theorem leading_cons (k : TokenKind) (ks : List TokenKind) :
    leading (k :: ks) = k.spelling ++ " " ++ leading ks := by
  simp [leading]

/-- A single token is written without a blank. -/
theorem spaced_singleton (k : TokenKind) : spaced [k] = k.spelling := String.intercalate_singleton

/-- A token in front of others is written with a blank after it. -/
theorem spaced_cons_cons (k k' : TokenKind) (ks : List TokenKind) :
    spaced (k :: k' :: ks) = k.spelling ++ " " ++ spaced (k' :: ks) := by
  simp [spaced]

/-- The text of tokens begins with the spelling of the first one. -/
theorem exists_spaced_cons (k : TokenKind) (ks : List TokenKind) :
    ∃ rest, spaced (k :: ks) = k.spelling ++ rest := by
  cases ks with
  | nil => exact ⟨"", by simp [spaced_singleton]⟩
  | cons k' ks => exact ⟨" " ++ spaced (k' :: ks), by rw [spaced_cons_cons, String.append_assoc]⟩

/-- The tokens that are read from spaced ones are of their kinds. -/
theorem map_kind_spacedTokens (offset : Nat) (ks : List TokenKind) :
    (spacedTokens offset ks).map Token.kind = ks := by
  induction ks generalizing offset with
  | nil => rfl
  | cons k ks ih => rw [spacedTokens, List.map_cons, ih]

/-- The text of readable tokens is read as these tokens. -/
theorem tokensFrom_spaced {ks : List TokenKind} (hks : ∀ k ∈ ks, k.Readable) (offset : Nat) :
    tokensFrom 0 offset (spaced ks).toList = .ok (spacedTokens offset ks ++
      [⟨.eof, Span.ofRange (offset + (spaced ks).utf8ByteSize)
        (offset + (spaced ks).utf8ByteSize)⟩]) := by
  induction ks generalizing offset with
  | nil => rfl
  | cons k ks ih =>
      obtain ⟨hk, hks⟩ := List.forall_mem_cons.1 hks
      cases ks with
      | nil =>
          have hread := tokensFrom_spelling hk
            (show ∀ d ∈ ([] : List Char).head?, k.fuses d = false from nofun) offset
          rw [List.append_nil, byteLength_toList] at hread
          rw [spaced_singleton, hread]
          rfl
      | cons k' ks =>
          have hblank : ∀ d ∈ (' ' :: (spaced (k' :: ks)).toList).head?, k.fuses d = false := by
            intro d hd
            obtain rfl : ' ' = d := Option.some.inj hd
            exact k.fuses_of_isBlank rfl
          have hread := tokensFrom_spelling hk hblank offset
          rw [byteLength_toList, tokensFrom_blank rfl, show ' '.utf8Size = 1 from rfl, ih hks] at hread
          have htext : (spaced (k :: k' :: ks)).toList =
              k.spelling.toList ++ ' ' :: (spaced (k' :: ks)).toList := by
            simp [spaced_cons_cons]
          have hsize : offset + (spaced (k :: k' :: ks)).utf8ByteSize =
              offset + k.spelling.utf8ByteSize + 1 + (spaced (k' :: ks)).utf8ByteSize := by
            rw [spaced_cons_cons, String.utf8ByteSize_append, String.utf8ByteSize_append,
              show " ".utf8ByteSize = 1 from rfl]
            omega
          rw [htext, hread, hsize]
          rfl

/-- Where a token of the text stands: its own spelling is at its span. -/
theorem spaced_of_spacedTokens {offset : Nat} {ks : List TokenKind} {before after : List Token}
    {t : Token} (h : spacedTokens offset ks = before ++ t :: after)
    (hsize : offset + (spaced ks).utf8ByteSize ≤ Span.maxOffset) :
    ∃ rest, spaced ks = leading (before.map Token.kind) ++ t.kind.spelling ++ rest ∧
      t.span = ⟨offset + (leading (before.map Token.kind)).utf8ByteSize,
        offset + (leading (before.map Token.kind) ++ t.kind.spelling).utf8ByteSize⟩ := by
  induction ks generalizing offset before with
  | nil => exact absurd h (by simp [spacedTokens])
  | cons k ks ih =>
      rw [spacedTokens] at h
      cases before with
      | nil =>
          obtain ⟨rfl, -⟩ := List.cons.inj h
          obtain ⟨rest, hrest⟩ := exists_spaced_cons k ks
          refine ⟨rest, by simpa [leading] using hrest, ?_⟩
          rw [hrest, String.utf8ByteSize_append] at hsize
          simpa [leading] using Span.ofRange_eq (by omega) (by omega)
      | cons b before =>
          obtain ⟨rfl, htail⟩ := List.cons.inj h
          cases ks with
          | nil => exact absurd htail (by simp [spacedTokens])
          | cons k' ks =>
              have hblank : " ".utf8ByteSize = 1 := rfl
              rw [spaced_cons_cons, String.utf8ByteSize_append, String.utf8ByteSize_append] at hsize
              obtain ⟨rest, hrest, hspan⟩ := ih htail (by omega)
              refine ⟨rest, by simp [spaced_cons_cons, leading_cons, hrest, String.append_assoc], ?_⟩
              rw [hspan, Span.mk.injEq]
              simp only [List.map_cons, leading_cons, String.utf8ByteSize_append, hblank]
              omega

end TokenKind

open TokenKind

/-- **Spelled tokens are read back.**  Tokens are spelled with one blank between them: integers that are not
negative, names that are words but no reserved ones and not the underscore, strings, and tokens of fixed
spelling.  If spans can hold the size of the text, it is read as these tokens and its end, and the span of
each token covers exactly its own spelling. -/
theorem tokenize_spaced {ks : List TokenKind} (heof : .eof ∉ ks)
    (hint : ∀ value, .int value ∈ ks → 0 ≤ value)
    (hident : ∀ name, .ident name ∈ ks →
      IsWord name ∧ name ≠ "_" ∧ ∀ w : Keyword, name ≠ w.text)
    (hsize : (spaced ks).utf8ByteSize < UInt32.size) :
    ∃ tokens, tokenize (spaced ks) = .ok (tokens ++ [⟨.eof, .point (spaced ks).utf8ByteSize⟩]) ∧
      tokens.map Token.kind = ks ∧
      ∀ before t after, tokens = before ++ t :: after →
        ∃ rest, spaced ks = leading (before.map Token.kind) ++ t.kind.spelling ++ rest ∧
          t.span = ⟨(leading (before.map Token.kind)).utf8ByteSize,
            (leading (before.map Token.kind) ++ t.kind.spelling).utf8ByteSize⟩ := by
  have hreadable : ∀ k ∈ ks, k.Readable := by
    intro k hk
    cases k with
    | int value => exact hint value hk
    | ident name =>
        obtain ⟨hword, hunderscore, hkeyword⟩ := hident name hk
        exact isIdentifier_of_isWord hword hunderscore hkeyword
    | eof => exact absurd hk heof
    | str value | keyword w | mark m => trivial
  have hmax : (spaced ks).utf8ByteSize ≤ Span.maxOffset := Nat.le_pred_of_lt hsize
  refine ⟨spacedTokens 0 ks, ?_, map_kind_spacedTokens 0 ks, ?_⟩
  · have h := tokensFrom_spaced hreadable 0
    rwa [Nat.zero_add, Span.ofRange_eq hmax hmax] at h
  · intro before t after h
    have hplace := spaced_of_spacedTokens h (by rwa [Nat.zero_add])
    rwa [Nat.zero_add, Nat.zero_add] at hplace

/-- Two slashes that are no comment, a name that begins like a reserved word, the largest integer, and a
string of two bytes for one character with a quote, a backslash and a line feed in it. -/
theorem tokenize_spaced_slashes :
    ∃ ks tokens, ks = [.mark .slash, .mark .slash, .ident "in_1", .keyword .in_,
        .int 9223372036854775807, .str "é\"\\\n", .mark .colon, .mark .colon] ∧
      tokenize "/ / in_1 in 9223372036854775807 \"é\\\"\\\\\\n\" : :" =
        .ok (tokens ++ [⟨.eof, .point 46⟩]) ∧
      tokens.map Token.kind = ks ∧
      ∀ before t after, tokens = before ++ t :: after →
        ∃ rest, spaced ks = leading (before.map Token.kind) ++ t.kind.spelling ++ rest ∧
          t.span = ⟨(leading (before.map Token.kind)).utf8ByteSize,
            (leading (before.map Token.kind) ++ t.kind.spelling).utf8ByteSize⟩ := by
  have hname : IsWord "in_1" ∧ "in_1" ≠ "_" ∧ ∀ w : Keyword, "in_1" ≠ w.text :=
    ⟨⟨'i', ['n', '_', '1'], rfl, rfl, fun d hd => by fin_cases hd <;> rfl⟩, by decide,
      fun w => by cases w <;> decide⟩
  obtain ⟨ks, hks⟩ : ∃ ks : List TokenKind, ks = [.mark .slash, .mark .slash, .ident "in_1",
    .keyword .in_, .int 9223372036854775807, .str "é\"\\\n", .mark .colon, .mark .colon] := ⟨_, rfl⟩
  have htext : spaced ks = "/ / in_1 in 9223372036854775807 \"é\\\"\\\\\\n\" : :" := by
    subst hks
    decide +kernel
  have hsize : (spaced ks).utf8ByteSize = 46 := by
    rw [htext]
    decide +kernel
  obtain ⟨tokens, htokens, hrest⟩ := @tokenize_spaced ks (by simp [hks]) (by simp [hks])
    (by simpa [hks] using hname) (by rw [hsize]; decide)
  rw [hsize, htext] at htokens
  exact ⟨ks, tokens, hks, htokens, hrest⟩

end Freshen
