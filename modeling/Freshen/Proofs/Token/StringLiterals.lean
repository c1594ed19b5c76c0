import Mathlib
import Freshen.Proofs.Token.Concat

/-!
# String literals in front of a text

The literal of a string is read as this string, and nothing of what follows is.

**Key results.** `Quoted.mem_encode`: characters that a literal does not hold; `tokenize_encode`: a literal in
front of a text; `tokenize_encode_append`: the statement for texts that can be read, and for strings that
were read.
-/

namespace Freshen

/-- No character is written with a line feed, a carriage return, a tab or a null. -/
theorem Quoted.mem_escape {c d : Char} (h : d ∈ escape c) :
    d ≠ '\n' ∧ d ≠ '\r' ∧ d ≠ '\t' ∧ d ≠ '\x00' := by
  unfold escape at h
  split at h
  case h_7 _ _ hline hreturn htab hnull =>
    obtain rfl := List.mem_singleton.1 h
    exact ⟨hline, hreturn, htab, hnull⟩
  all_goals
    simp only [List.mem_cons, List.not_mem_nil, or_false] at h
    rcases h with rfl | rfl <;> decide

/-- A literal holds none of them either. -/
theorem Quoted.mem_encode {value : String} {d : Char} (h : d ∈ (encode value).toList) :
    d ≠ '\n' ∧ d ≠ '\r' ∧ d ≠ '\t' ∧ d ≠ '\x00' := by
  rw [encode, String.toList_ofList] at h
  rcases List.mem_cons.1 h with rfl | h
  · decide
  · rcases List.mem_append.1 h with h | h
    · obtain ⟨c, -, hc⟩ := List.mem_flatMap.1 h
      exact mem_escape hc
    · rw [List.mem_singleton.1 h]
      decide

/-- The literal of a string in front of a text is read as the string; the text is read on its own. -/
theorem tokenize_encode (value text : String) :
    tokenize (Quoted.encode value ++ text) =
      (tokensFrom 0 (Quoted.encode value).utf8ByteSize text.toList).map
        (⟨.str value, Span.ofRange 0 (Quoted.encode value).utf8ByteSize⟩ :: ·) := by
  have hread := @tokensFrom_spelling (.str value) text.toList trivial (fun _ _ => rfl) 0
  rwa [TokenKind.spelling, byteLength_toList, Nat.zero_add, ← String.toList_append] at hread

/-- **String literals delimit themselves and denote their strings.**  In front of a text that can be read, if
spans can hold the size of both, the literal of a string is read as this string, over exactly the bytes of
the literal, and the tokens of the text follow, as many bytes farther back.  The literal holds no line
feed, carriage return, tab or null.  Whatever a string was read from, also from escapes without a meaning,
it is read again from its spelling. -/
theorem tokenize_encode_append (value : String) :
    (∀ text tokens, tokenize text = .ok tokens →
      (Quoted.encode value ++ text).utf8ByteSize < UInt32.size →
      tokenize (Quoted.encode value ++ text) = .ok
        (⟨.str value, ⟨0, (Quoted.encode value).utf8ByteSize⟩⟩ ::
          tokens.map (Token.mapSpan (Span.shift (Quoted.encode value).utf8ByteSize)))) ∧
    (∀ c ∈ (Quoted.encode value).toList, c ≠ '\n' ∧ c ≠ '\r' ∧ c ≠ '\t' ∧ c ≠ '\x00') ∧
    ∃ tokens, tokenize (TokenKind.str value).spelling = .ok tokens ∧
      tokens.map Token.kind = [.str value, .eof] := by
  refine ⟨?append, fun c => Quoted.mem_encode, ?again⟩
  case append =>
    intro text tokens htokens hsize
    rw [String.utf8ByteSize_append] at hsize
    have hmax : (Quoted.encode value).utf8ByteSize + text.utf8ByteSize ≤ Span.maxOffset :=
      Nat.le_pred_of_lt hsize
    rw [tokenize_encode, tokensFrom_shift htokens hmax, Span.ofRange_eq (Nat.zero_le _) (by omega)]
    rfl
  case again =>
    have hread := tokenize_encode value ""
    rw [String.append_empty] at hread
    rw [TokenKind.spelling, hread]
    exact ⟨_, rfl, rfl⟩

/-- A string that ends in a backslash, in front of a literal with an escape that has no meaning; and what
this escape was read as. -/
theorem tokenize_encode_append_backslash :
    tokenize "\"é\\\\\"\"\\q\" // a" = .ok
      [⟨.str "é\\", ⟨0, 6⟩⟩, ⟨.str "\\q", ⟨6, 10⟩⟩, ⟨.eof, ⟨15, 15⟩⟩] ∧
    ∃ tokens, tokenize "\"\\\\q\"" = .ok tokens ∧ tokens.map Token.kind = [.str "\\q", .eof] := by
  have hafter : tokenize "\"\\q\" // a" = .ok [⟨.str "\\q", ⟨0, 4⟩⟩, ⟨.eof, ⟨9, 9⟩⟩] := by
    decide +kernel
  have htext : Quoted.encode "é\\" = "\"é\\\\\"" := by decide +kernel
  have hspelling : (TokenKind.str "\\q").spelling = "\"\\\\q\"" := by decide +kernel
  constructor
  · have happend := (tokenize_encode_append "é\\").1 _ _ hafter (by decide +kernel)
    rw [htext] at happend
    exact happend
  · have hagain := (tokenize_encode_append "\\q").2.2
    rwa [hspelling] at hagain

end Freshen
