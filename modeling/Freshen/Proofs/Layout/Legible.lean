import Mathlib
import Freshen.Layout.Piece
import Freshen.Proofs.Token.Segments

/-!
# Legible layouts

When the text of a list of pieces is read back as the tokens in it.

- `Piece.segments`: the pieces as segments of their text.
- `Piece.Legible`: each token is readable and does not fuse with what stands after it.
- `Piece.Soft`: pieces that begin with a character that fuses with no token.
- `Piece.Settled`: pieces that are legible, whatever soft and legible pieces come after them.

**Key results.** `Legible.tokenize_segments`: legible pieces are read back as their tokens, each at its place;
`Settled.append`, `Settled.commaSeparated`: what is made of settled pieces is settled.
-/

namespace Freshen

/-- The character fuses with no token. -/
def isSoft (c : Char) : Bool := !isWordPart c && c != '=' && c != ':' && c != '/'

/-- A soft character fuses with no token, whatever the token is. -/
theorem TokenKind.fuses_of_isSoft {c : Char} (h : isSoft c = true) (k : TokenKind) :
    k.fuses c = false := by
  rw [isSoft, Bool.and_eq_true, Bool.and_eq_true, Bool.and_eq_true] at h
  obtain ⟨⟨⟨hword, heq⟩, hcolon⟩, hslash⟩ := h
  have hword : isWordPart c = false := by simpa using hword
  have heq : decide (c = '=') = false := decide_eq_false (bne_iff_ne.1 heq)
  have hcolon : decide (c = ':') = false := decide_eq_false (bne_iff_ne.1 hcolon)
  have hslash : decide (c = '/') = false := decide_eq_false (bne_iff_ne.1 hslash)
  cases k with
  | int =>
      obtain ⟨halphanum, hunderscore⟩ := Bool.or_eq_false_iff.1 hword
      exact Bool.or_eq_false_iff.2 ⟨(Bool.or_eq_false_iff.1 halphanum).2, hunderscore⟩
  | mark m => cases m <;> first | assumption | rfl
  | ident | keyword => exact hword
  | _ => rfl

namespace Piece

/-- The characters of a piece. -/
def chars : Piece → List Char
  | token kind => kind.spelling.toList
  | space => [' ']
  | newline => ['\n']
  | indent level => List.replicate (level * indentWidth) ' '

/-- To push a character several times is to append it as often. -/
theorem toList_pushn (s : String) (c : Char) (n : Nat) :
    (s.pushn c n).toList = s.toList ++ List.replicate n c := by
  induction n with
  | zero => simp [String.pushn, Nat.repeat]
  | succ n ih =>
      rw [List.replicate_succ', ← List.append_assoc, ← ih]
      simp [String.pushn, Nat.repeat]

/-- To write a piece is to append its characters. -/
theorem toList_writeTo (b : TextBuffer) (p : Piece) :
    (p.writeTo b).text.toList = b.text.toList ++ p.chars := by
  cases p with
  | token kind => simp [writeTo, TextBuffer.write, chars]
  | space => simp [writeTo, TextBuffer.space, chars]
  | newline => simp [writeTo, TextBuffer.newline, chars]
  | indent level => simp [writeTo, TextBuffer.indent, chars, toList_pushn]

/-- The text of pieces is made of their characters. -/
theorem toList_render (ps : List Piece) : (render ps).toList = ps.flatMap chars := by
  have hfold : ∀ b : TextBuffer,
      (ps.foldl writeTo b).text.toList = b.text.toList ++ ps.flatMap chars := by
    induction ps with
    | nil => simp
    | cons p ps ih => exact fun b => by simp [ih, toList_writeTo]
  exact hfold TextBuffer.empty

/-- Where there are no pieces, there are no tokens. -/
@[simp] theorem tokens_nil : tokens [] = [] := rfl

/-- A token is one of the tokens of its pieces. -/
@[simp] theorem tokens_token (k : TokenKind) (ps : List Piece) :
    tokens (token k :: ps) = k :: tokens ps := rfl

/-- A blank is no token. -/
@[simp] theorem tokens_space (ps : List Piece) : tokens (space :: ps) = tokens ps := rfl

/-- A line end is no token. -/
@[simp] theorem tokens_newline (ps : List Piece) : tokens (newline :: ps) = tokens ps := rfl

/-- An indentation is no token. -/
@[simp] theorem tokens_indent (level : Nat) (ps : List Piece) :
    tokens (indent level :: ps) = tokens ps := rfl

/-- The tokens of two rows of pieces are those of the first and then those of the second. -/
@[simp] theorem tokens_append (ps qs : List Piece) : tokens (ps ++ qs) = tokens ps ++ tokens qs :=
  List.filterMap_append

/-! ### The segments of pieces -/

/-- What a piece is in the text.  An indentation of no blanks is nothing. -/
def segment? : Piece → Option Segment
  | token k => some ⟨k.spelling.toList, some k⟩
  | space => some ⟨[' '], none⟩
  | newline => some ⟨['\n'], none⟩
  | indent level =>
      if level = 0 then none else some ⟨List.replicate (level * indentWidth) ' ', none⟩

/-- The pieces as segments of their text. -/
def segments (ps : List Piece) : List Segment := ps.filterMap segment?

/-- Where there are no pieces, there are no segments. -/
@[simp] theorem segments_nil : segments [] = [] := rfl

/-- A token is a segment that holds it. -/
@[simp] theorem segments_token (k : TokenKind) (ps : List Piece) :
    segments (token k :: ps) = ⟨k.spelling.toList, some k⟩ :: segments ps := rfl

/-- A blank is a segment without a token. -/
@[simp] theorem segments_space (ps : List Piece) :
    segments (space :: ps) = ⟨[' '], none⟩ :: segments ps := rfl

/-- A line end is a segment without a token. -/
@[simp] theorem segments_newline (ps : List Piece) :
    segments (newline :: ps) = ⟨['\n'], none⟩ :: segments ps := rfl

/-- The segments of two rows of pieces are those of the first and then those of the second. -/
@[simp] theorem segments_append (ps qs : List Piece) :
    segments (ps ++ qs) = segments ps ++ segments qs := List.filterMap_append

/-- An indentation is a segment without a token, unless it is of no blanks. -/
theorem segments_indent (level : Nat) (ps : List Piece) : segments (indent level :: ps) =
    (if level = 0 then [] else [⟨List.replicate (level * indentWidth) ' ', none⟩]) ++ segments ps := by
  by_cases h : level = 0 <;> simp [segments, segment?, h]

/-- The segments make up the text of the pieces. -/
theorem textOf_segments (ps : List Piece) : Segment.textOf (segments ps) = ps.flatMap chars := by
  induction ps with
  | nil => rfl
  | cons p ps ih =>
      cases p with
      | token | space | newline => exact congrArg (_ ++ ·) ih
      | indent level =>
          rw [segments_indent, Segment.textOf_append, ih, List.flatMap_cons, chars]
          by_cases h : level = 0
          · rw [if_pos h, h, Nat.zero_mul]
            rfl
          · rw [if_neg h, Segment.textOf_cons, Segment.textOf_nil, List.append_nil]

/-- The tokens of the segments are those of the pieces. -/
theorem kinds_segments (ps : List Piece) : Segment.kinds (segments ps) = tokens ps := by
  induction ps with
  | nil => rfl
  | cons p ps ih =>
      cases p with
      | token k => exact congrArg (k :: ·) ih
      | space | newline => exact ih
      | indent level =>
          rw [segments_indent, tokens_indent, ← ih]
          by_cases h : level = 0
          · rw [if_pos h]
            rfl
          · rw [if_neg h]
            rfl

/-! ### Legible pieces are read back -/

/-- Each token is readable and does not fuse with what stands after it. -/
def Legible : List Piece → Prop
  | [] => True
  | token k :: ps =>
      k.Readable ∧ (∀ c ∈ (ps.flatMap chars).head?, k.fuses c = false) ∧ Legible ps
  | space :: ps | newline :: ps | indent _ :: ps => Legible ps

/-- The tokens of legible pieces can be read. -/
theorem Legible.readable {ps : List Piece} (h : Legible ps) : ∀ k ∈ tokens ps, k.Readable := by
  induction ps with
  | nil => exact nofun
  | cons p ps ih =>
      cases p with
      | token k => exact List.forall_mem_cons.2 ⟨h.1, ih h.2.2⟩
      | space | newline | indent => exact ih h

/-- The end of the text is no token of legible pieces. -/
theorem Legible.eof_notMem {ps : List Piece} (h : Legible ps) : .eof ∉ tokens ps := fun heof =>
  h.readable .eof heof

/-- Any number of blanks but none is read as blanks. -/
theorem mem_texts_blanks_replicate {n : Nat} (h : n ≠ 0) :
    List.replicate n ' ' ∈ LexicalRule.blanks.texts := by
  obtain ⟨n, rfl⟩ := Nat.exists_eq_succ_of_ne_zero h
  exact mem_oneOf_mul_kstar.2 ⟨' ', List.replicate n ' ', rfl, rfl, fun d hd =>
    (List.mem_replicate.1 hd).2 ▸ rfl⟩

/-- The segments of legible pieces are complete. -/
theorem Legible.complete {ps : List Piece} (h : Legible ps) : Segment.Complete (segments ps) [] := by
  induction ps with
  | nil => trivial
  | cons p ps ih =>
      cases p with
      | token k =>
          obtain ⟨hk, hfuses, hps⟩ := h
          refine ⟨.token hk.denotes_spelling ?_, ih hps⟩
          rw [List.append_nil]
          exact (textOf_segments ps).symm ▸ hfuses
      | space => exact ⟨.blanks (mem_texts_blanks_replicate Nat.one_ne_zero), ih h⟩
      | newline =>
          exact ⟨.blanks (mem_oneOf_mul_kstar.2 ⟨'\n', [], rfl, rfl, nofun⟩), ih h⟩
      | indent level =>
          rw [segments_indent]
          by_cases hlevel : level = 0
          · rw [if_pos hlevel]
            exact ih h
          · rw [if_neg hlevel]
            have hwidth : level * indentWidth ≠ 0 := Nat.mul_ne_zero hlevel (by decide)
            exact ⟨.blanks (mem_texts_blanks_replicate hwidth), ih h⟩

/-- Legible pieces are read back as their tokens, each at the place of its segment. -/
theorem Legible.tokenize_segments {ps : List Piece} (h : Legible ps) : tokenize (render ps) =
    .ok (Segment.tokensAt 0 (segments ps) ++
      [⟨.eof, Span.ofRange (render ps).utf8ByteSize (render ps).utf8ByteSize⟩]) := by
  have htext : Segment.textOf (segments ps) = (render ps).toList := by
    rw [textOf_segments, toList_render]
  have hread := Segment.tokensFrom_complete h.complete 0
  rw [List.append_nil, Nat.zero_add, htext, byteLength_toList] at hread
  exact hread

/-- The kinds of what legible pieces are read back as. -/
theorem Legible.tokenize_render {ps : List Piece} (h : Legible ps) :
    ∃ ts, tokenize (render ps) = .ok ts ∧ ts.map Token.kind = tokens ps ++ [.eof] := by
  refine ⟨_, h.tokenize_segments, ?_⟩
  rw [List.map_append, Segment.map_kind_tokensAt, kinds_segments]
  rfl

/-! ### Settled pieces -/

/-- The pieces begin with a character that fuses with no token. -/
def Soft (ps : List Piece) : Prop := ∀ c ∈ (ps.flatMap chars).head?, isSoft c = true

/-- The pieces are legible, whatever soft and legible pieces come after them. -/
def Settled (ps : List Piece) : Prop := ∀ rest, Legible rest → Soft rest → Legible (ps ++ rest)

/-- Where there are no pieces, none fuses with what stands before. -/
theorem Soft.nil : Soft [] := nofun

/-- A blank fuses with no token. -/
theorem Soft.space (ps : List Piece) : Soft (space :: ps) := fun _ hc => Option.some.inj hc ▸ rfl

/-- A line end fuses with no token. -/
theorem Soft.newline (ps : List Piece) : Soft (newline :: ps) := fun _ hc => Option.some.inj hc ▸ rfl

/-- The text of pieces begins like the spelling of their first token. -/
theorem head?_token {k : TokenKind} {c : Char} {cs : List Char}
    (h : k.spelling = String.ofList (c :: cs)) (ps : List Piece) :
    ((token k :: ps).flatMap chars).head? = some c := by
  simp [chars, h]

/-- A token whose first character is soft fuses with none before it. -/
theorem Soft.token {k : TokenKind} {c : Char} {cs : List Char}
    (h : k.spelling = String.ofList (c :: cs)) (hc : isSoft c = true) (ps : List Piece) :
    Soft (token k :: ps) := by
  intro d hd
  rw [head?_token h] at hd
  exact Option.some.inj hd ▸ hc

/-- Soft pieces in front of soft pieces are soft, also if there are none of them. -/
theorem Soft.append {ps qs : List Piece} (hps : Soft ps) (hqs : Soft qs) : Soft (ps ++ qs) := by
  intro c hc
  rw [List.flatMap_append, List.head?_append] at hc
  rcases Option.or_eq_some_iff.1 hc with hc | hc
  · exact hps c hc
  · exact hqs c hc.2

namespace Settled

variable {ps qs : List Piece} {k : TokenKind}

/-- Settled pieces are legible by themselves. -/
theorem legible (h : Settled ps) : Legible ps := by
  simpa using h [] trivial Soft.nil

/-- Where there are no pieces, nothing comes in between. -/
theorem nil : Settled [] := fun _ hrest _ => hrest

/-- Settled pieces may be followed by settled pieces that are soft. -/
theorem append (hps : Settled ps) (hqs : Settled qs) (hsoft : Soft qs) : Settled (ps ++ qs) :=
  fun rest hrest hsoft' => by
    rw [List.append_assoc]
    exact hps _ (hqs rest hrest hsoft') (hsoft.append hsoft')

/-- A blank in front of settled pieces. -/
theorem space (h : Settled ps) : Settled (space :: ps) := h

/-- A line end in front of settled pieces. -/
theorem newline (h : Settled ps) : Settled (newline :: ps) := h

/-- An indentation in front of settled pieces. -/
theorem indent (level : Nat) (h : Settled ps) : Settled (indent level :: ps) := h

/-- A token before settled pieces that do not fuse with it. -/
theorem token (hk : k.Readable) (hfuses : ∀ c ∈ (ps.flatMap chars).head?, k.fuses c = false)
    (h : Settled ps) : Settled (token k :: ps) := fun rest hrest hsoft => by
  refine ⟨hk, fun c hc => ?_, h rest hrest hsoft⟩
  rw [List.append_eq, List.flatMap_append, List.head?_append] at hc
  rcases Option.or_eq_some_iff.1 hc with hc | hc
  · exact hfuses c hc
  · exact TokenKind.fuses_of_isSoft (hsoft c hc.2) k

/-- A readable token before soft and settled pieces. -/
theorem before (hk : k.Readable) (hsoft : Soft ps) (h : Settled ps) : Settled (Piece.token k :: ps) :=
  h.token hk fun c hc => TokenKind.fuses_of_isSoft (hsoft c hc) k

/-- A mark that fuses with nothing before settled pieces. -/
theorem sign {m : Mark} (hm : (TokenKind.mark m).fuses = fun _ => false) (h : Settled ps) :
    Settled (Piece.sign m :: ps) :=
  h.token trivial fun c _ => congrFun hm c

/-- A word and a blank before settled pieces. -/
theorem word (w : Keyword) (h : Settled ps) : Settled (Piece.word w :: Piece.space :: ps) :=
  h.space.before trivial (.space ps)

end Settled

end Piece

end Freshen
