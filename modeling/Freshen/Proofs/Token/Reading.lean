import Mathlib
import Freshen.Layout.Piece
import Freshen.Proofs.Token.Patterns

/-!
# Spelling and reading tokens

Which tokens can be read from a text, and when a token that is spelled out is read back.

- `IsIdentifier`: the names that are read as one identifier.
- `TokenKind.Readable`: the tokens that some text is read as.

**Key results.** `Denotes.readable`, `TokenKind.Readable.denotes_spelling`: the readable tokens are those
that some text denotes, their spelling among them; `tokensFrom_denotes`, `tokensFrom_spelling`,
`tokensFrom_blank`: a text that denotes a token is read as this token, whatever follows that does not
fuse with it, and blanks are passed over.
-/

namespace Freshen

/-- The text is read as one identifier: it is a word, no reserved one and not the underscore. -/
def IsIdentifier (name : Name) : Prop := IsWord name ∧ TokenKind.ofWord name = .ident name

namespace TokenKind

/-- The token is that of some text, and not the end of the text. -/
def Readable : TokenKind → Prop
  | int value => 0 ≤ value
  | ident name => IsIdentifier name
  | eof => False
  | str _ | keyword _ | mark _ => True

end TokenKind

/-! ### Readable tokens -/

/-- What a text denotes is readable. -/
theorem Denotes.readable {w : List Char} {k : TokenKind} (h : Denotes w k) : k.Readable := by
  cases h with
  | int _ hvalue =>
      refine Int64.le_iff_toInt_le.2 ?_
      rw [hvalue]
      exact Int.natCast_nonneg _
  | ident hw hkeyword hunderscore =>
      exact ⟨LexicalRule.mem_texts_ident.1 hw, TokenKind.ofWord_eq_ident hkeyword hunderscore⟩
  | _ => trivial

/-- A token that is read is readable. -/
theorem Lexeme.readable_of_scan {c : Char} {cs : List Char} {k : TokenKind} {more : Nat}
    (h : scan c cs = (token k, more)) : k.Readable := (denotes_of_scan h).2.readable

/-- The spelling of a readable token denotes it. -/
theorem TokenKind.Readable.denotes_spelling {k : TokenKind} (hk : k.Readable) :
    Denotes k.spelling.toList k := by
  cases k with
  | int value =>
      obtain ⟨n, hn⟩ := Int.eq_ofNat_of_zero_le (Int64.le_iff_toInt_le.1 hk)
      have hspelling : (TokenKind.int value).spelling.toList = Nat.toDigits 10 n := by
        simp only [TokenKind.spelling, hn]
        exact Nat.toList_repr
      have hdigits : ∀ d ∈ Nat.toDigits 10 n, d.isDigit = true :=
        fun d hd => Nat.isDigit_of_mem_toDigits (by decide) (by decide) hd
      have hparts : ∀ d ∈ Nat.toDigits 10 n, isDigitPart d = true :=
        fun d hd => isDigitPart_of_isDigit (hdigits d hd)
      obtain ⟨c, cs, hcs⟩ := List.exists_cons_of_ne_nil (l := Nat.toDigits 10 n) (by simp)
      rw [hspelling]
      refine .int (mem_oneOf_mul_kstar.2 ⟨c, cs, hcs, ?_, ?_⟩) ?_
      · exact hdigits c (hcs ▸ List.mem_cons_self)
      · exact fun d hd => hparts d (hcs ▸ List.mem_cons_of_mem _ hd)
      · rw [hn, ← filter_isDigit hparts, List.filter_eq_self.2 hdigits, Decimal.value_toDigits]
  | str value =>
      have h := Denotes.str (Quoted.items_flatMap value.toList)
      rw [String.ofList_toList] at h
      rwa [spelling, Quoted.encode, String.toList_ofList]
  | ident name =>
      obtain ⟨hword, hident⟩ := hk
      have h := denotes_ofWord (LexicalRule.mem_texts_ident.2
        (show IsWord (String.ofList name.toList) by rwa [String.ofList_toList]))
      rw [String.ofList_toList, hident] at h
      exact h
  | keyword word => exact .keyword word
  | mark m => exact .mark m
  | eof => exact hk.elim

/-! ### The tokens of a text -/

/-- What is made of a result comes from a result. -/
theorem Except.exists_map_eq_ok {ε α β : Type} {x : Except ε α} {g : α → β} {b : β}
    (h : x.map g = .ok b) : ∃ a, x = .ok a ∧ g a = b := by
  cases x with
  | ok a => exact ⟨a, rfl, Except.ok.inj h⟩
  | error e => exact absurd h nofun

/-- The characters of a lexeme that was read before are passed over. -/
theorem tokensFrom_pending (pending offset : Nat) (cs : List Char) :
    tokensFrom pending offset cs =
      tokensFrom 0 (offset + byteLength (cs.take pending)) (cs.drop pending) := by
  induction cs generalizing pending offset with
  | nil => cases pending <;> simp [tokensFrom, byteLength]
  | cons c cs ih =>
      cases pending with
      | zero => simp [byteLength]
      | succ pending =>
          rw [tokensFrom, ih, List.take_succ_cons, List.drop_succ_cons]
          simp [byteLength, Nat.add_assoc]

/-- A text has the tokens that stand after a blank at its start. -/
theorem tokensFrom_blank {c : Char} (hc : isBlank c = true) (offset : Nat) (cs : List Char) :
    tokensFrom 0 offset (c :: cs) = tokensFrom 0 (offset + c.utf8Size) cs := by
  have hskip : ∀ c offset cs, isBlank c = true → tokensFrom 0 offset (c :: cs) =
      tokensFrom (cs.takeWhile isBlank).length (offset + c.utf8Size) cs := fun c offset cs hc => by
    rw [tokensFrom, Lexeme.scan, if_pos hc]
  rw [hskip c offset cs hc]
  cases cs with
  | nil => rfl
  | cons d ds =>
      by_cases hd : isBlank d = true
      · rw [hskip d _ ds hd, List.takeWhile_cons_of_pos hd, List.length_cons, tokensFrom]
      · rw [List.takeWhile_cons_of_neg hd, List.length_nil]

/-- A text that starts with what denotes a token, and goes on with nothing that fuses with the token,
has this token and the tokens of what follows. -/
theorem tokensFrom_denotes {k : TokenKind} {w rest : List Char} (hk : Denotes w k)
    (hrest : ∀ d ∈ rest.head?, k.fuses d = false) (offset : Nat) :
    tokensFrom 0 offset (w ++ rest) = (tokensFrom 0 (offset + byteLength w) rest).map
      (⟨k, Span.ofRange offset (offset + byteLength w)⟩ :: ·) := by
  obtain ⟨c, cs, rfl, hscan⟩ := Lexeme.scan_of_denotes hk hrest
  rw [List.cons_append, tokensFrom, hscan]
  simp only [List.take_left, tokensFrom_pending cs.length, List.drop_left]
  simp [byteLength, Nat.add_assoc]

/-- The same for the spelling of a readable token. -/
theorem tokensFrom_spelling {k : TokenKind} {rest : List Char} (hk : k.Readable)
    (hrest : ∀ d ∈ rest.head?, k.fuses d = false) (offset : Nat) :
    tokensFrom 0 offset (k.spelling.toList ++ rest) =
      (tokensFrom 0 (offset + byteLength k.spelling.toList) rest).map
        (⟨k, Span.ofRange offset (offset + byteLength k.spelling.toList)⟩ :: ·) :=
  tokensFrom_denotes hk.denotes_spelling hrest offset

/-- The tokens of a text are readable, but for the last one, which is the end of the text. -/
theorem readable_of_tokensFrom {pending offset : Nat} {cs : List Char} {ts : List Token}
    (h : tokensFrom pending offset cs = .ok ts) :
    ∃ ks, ts.map Token.kind = ks ++ [.eof] ∧ ∀ k ∈ ks, k.Readable := by
  induction cs generalizing pending offset ts with
  | nil =>
      obtain rfl : _ = ts := Except.ok.inj (by cases pending <;> exact h)
      exact ⟨[], rfl, nofun⟩
  | cons c cs ih =>
      cases pending with
      | succ pending => exact ih h
      | zero =>
          rw [tokensFrom] at h
          obtain ⟨⟨lexeme, more⟩, hscan⟩ : ∃ result, Lexeme.scan c cs = result := ⟨_, rfl⟩
          rw [hscan] at h
          cases lexeme with
          | skip => exact ih h
          | token k =>
              simp only [Except.map] at h
              split at h
              · exact absurd h nofun
              case h_2 ts' hts' =>
                obtain ⟨ks, hks, hreadable⟩ := ih hts'
                obtain rfl := Except.ok.inj h
                exact ⟨k :: ks, by simp [hks],
                  List.forall_mem_cons.2 ⟨Lexeme.readable_of_scan hscan, hreadable⟩⟩
          | invalid => exact absurd h nofun
          | overflow => exact absurd h nofun

end Freshen
