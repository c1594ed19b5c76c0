import Mathlib
import Freshen.Proofs.Token.Reading

/-!
# The segments of a text

A text cut into its lexemes, as far as it can be read.

- `Segment`: a piece of text with the token that it is read as, or without one if it is skipped.
- `Segment.Munched`, `Segment.MunchedBefore`: each segment is the longest match at its place.
- `Segment.ReadingStops`: the end of a text, or a place where nothing can be read.
- `Segment.Complete`: nothing that follows is read as a part of a segment.
- `Segment.tokensAt`: the tokens of segments that start at a byte offset.

**Key results.** `exists_munchedBefore`: a text is cut into longest matches as far as it can be read;
`exists_munched`: if it can be read to its end, its tokens are theirs; `Segment.tokensFrom_complete`:
complete segments in front of a text contribute their tokens, whatever the text is;
`Segment.Complete.before`: which text this is matters to the last of them only.
-/

namespace Freshen

/-- A piece of text and the token that it is read as; none for what is skipped. -/
structure Segment where
  text : List Char
  kind? : Option TokenKind

namespace Segment

/-- The text that the segments make up. -/
def textOf (segs : List Segment) : List Char := segs.flatMap text

/-- The token kinds of the segments. -/
def kinds (segs : List Segment) : List TokenKind := segs.filterMap kind?

/-- The tokens of the segments, the first of which starts at byte `offset`. -/
def tokensAt : (offset : Nat) → List Segment → List Token
  | _, [] => []
  | offset, s :: segs =>
      (s.kind?.map fun k => ⟨k, Span.ofRange offset (offset + byteLength s.text)⟩).toList ++
        tokensAt (offset + byteLength s.text) segs

/-- The text of the segment denotes its token; without one it is blank or a comment. -/
inductive Reads : Segment → Prop where
  | token {w : List Char} {k : TokenKind} (hk : Denotes w k) : Reads ⟨w, some k⟩
  | blanks {w : List Char} (hw : w ∈ LexicalRule.blanks.texts) : Reads ⟨w, none⟩
  | comment {w : List Char} (hw : w ∈ LexicalRule.comment.texts) : Reads ⟨w, none⟩

/-- Each segment is the longest match at its place. -/
def Munched : List Segment → Prop
  | [] => True
  | s :: segs => s.Reads ∧ LongestMatch s.text (textOf segs) ∧ Munched segs

/-- Each segment is the longest match at its place, when `rest` follows the last one. -/
def MunchedBefore : List Segment → (rest : List Char) → Prop
  | [], _ => True
  | s :: segs, rest => s.Reads ∧ LongestMatch s.text (textOf segs ++ rest) ∧ MunchedBefore segs rest

/-- Reading stops at the start of the text: at its end, or where neither a token nor skipped text stands. -/
def ReadingStops : List Char → Prop
  | [] => True
  | c :: cs => (Lexeme.scan c cs).1 = .invalid ∨ (Lexeme.scan c cs).1 = .overflow

/-- Nothing at the start of `rest` is read as a part of the segment, but for more blanks. -/
inductive Ends : Segment → (rest : List Char) → Prop where
  | token {w rest : List Char} {k : TokenKind} (hk : Denotes w k)
      (hrest : ∀ d ∈ rest.head?, k.fuses d = false) : Ends ⟨w, some k⟩ rest
  | blanks {w rest : List Char} (hw : w ∈ LexicalRule.blanks.texts) : Ends ⟨w, none⟩ rest
  | comment {w rest : List Char} (hw : w ∈ LexicalRule.comment.texts)
      (hrest : ∀ d ∈ rest.head?, d = '\n') : Ends ⟨w, none⟩ rest

/-- Each segment ends before the next one, and the last one before `rest`. -/
def Complete : List Segment → (rest : List Char) → Prop
  | [], _ => True
  | s :: segs, rest => s.Ends (textOf segs ++ rest) ∧ Complete segs rest

end Segment

/-! ### Bytes -/

/-- No characters take up no bytes. -/
@[simp] theorem byteLength_nil : byteLength [] = 0 := rfl

/-- Two texts take up the bytes of both. -/
theorem byteLength_append (cs ds : List Char) :
    byteLength (cs ++ ds) = byteLength cs + byteLength ds := by
  induction cs with
  | nil => simp
  | cons c cs ih =>
      simp only [byteLength, List.cons_append, List.foldr_cons] at ih ⊢
      rw [ih, Nat.add_assoc]

/-- The characters of a string take up its bytes. -/
theorem byteLength_toList (s : String) : byteLength s.toList = s.utf8ByteSize := by
  have hfold : ∀ cs : List Char, byteLength cs = String.utf8Len cs := fun cs => by
    induction cs with
    | nil => rfl
    | cons c cs ih =>
        rw [String.utf8Len_cons, ← ih, Nat.add_comm]
        rfl
  rw [hfold, ← String.utf8ByteSize_ofList, String.ofList_toList]

/-- A text that is not empty takes up bytes. -/
theorem byteLength_pos {cs : List Char} (h : cs ≠ []) : 0 < byteLength cs := by
  obtain ⟨c, cs, rfl⟩ := List.exists_cons_of_ne_nil h
  exact Nat.add_pos_left (Char.utf8Size_pos c) _

/-! ### Blanks and comments are passed over -/

/-- No token is read together with a blank after it. -/
theorem TokenKind.fuses_of_isBlank (k : TokenKind) {c : Char} (h : isBlank c = true) :
    k.fuses c = false := by
  simp only [isBlank, Bool.or_eq_true, beq_iff_eq] at h
  rcases h with ((rfl | rfl) | rfl) | rfl
  all_goals
    cases k with
    | mark m => cases m <;> rfl
    | _ => rfl

/-- Blanks are passed over, and what comes after them is read as many bytes farther back. -/
theorem tokensFrom_blanks {w : List Char} (hw : ∀ c ∈ w, isBlank c = true) (offset : Nat)
    (rest : List Char) : tokensFrom 0 offset (w ++ rest) = tokensFrom 0 (offset + byteLength w) rest := by
  induction w generalizing offset with
  | nil => rfl
  | cons c w ih =>
      obtain ⟨hc, hw⟩ := List.forall_mem_cons.1 hw
      rw [List.cons_append, tokensFrom_blank hc, ih hw, Nat.add_assoc]
      rfl

/-- A comment up to the end of its line is passed over. -/
theorem tokensFrom_comment {w rest : List Char} (hw : w ∈ LexicalRule.comment.texts)
    (hrest : ∀ d ∈ rest.head?, d = '\n') (offset : Nat) :
    tokensFrom 0 offset (w ++ rest) = tokensFrom 0 (offset + byteLength w) rest := by
  obtain ⟨cs, rfl, hcs⟩ := LexicalRule.mem_texts_comment.1 hw
  have htake : (cs ++ rest).takeWhile (· ≠ '\n') = cs :=
    takeWhile_append_of_head (fun d hd => decide_eq_true (hcs d hd)) (fun d hd => by simp [hrest d hd])
  rw [List.cons_append, List.cons_append, tokensFrom, Lexeme.scan_slashes, htake]
  simp only
  rw [tokensFrom_pending, List.take_succ_cons, List.take_left, List.drop_succ_cons, List.drop_left,
    Nat.add_assoc]
  rfl

namespace Segment

/-- No segments make up the empty text. -/
@[simp] theorem textOf_nil : textOf [] = [] := rfl

/-- The text of segments begins with that of the first. -/
@[simp] theorem textOf_cons (s : Segment) (segs : List Segment) :
    textOf (s :: segs) = s.text ++ textOf segs := rfl

/-- The texts of two rows of segments make up the text of both. -/
@[simp] theorem textOf_append (xs ys : List Segment) : textOf (xs ++ ys) = textOf xs ++ textOf ys :=
  List.flatMap_append

/-- The tokens of segments are of the kinds of the segments. -/
theorem map_kind_tokensAt (offset : Nat) (segs : List Segment) :
    (tokensAt offset segs).map Token.kind = kinds segs := by
  induction segs generalizing offset with
  | nil => rfl
  | cons s segs ih =>
      obtain ⟨w, kind?⟩ := s
      cases kind? <;> simp [tokensAt, kinds, ih]

/-! ### Complete segments contribute their tokens -/

/-- A segment that ends where it does is read, and what comes after it is read as many bytes farther back. -/
theorem Ends.tokensFrom_append {s : Segment} {rest : List Char} (h : s.Ends rest) (offset : Nat) :
    tokensFrom 0 offset (s.text ++ rest) = (tokensFrom 0 (offset + byteLength s.text) rest).map
      (tokensAt offset [s] ++ ·) := by
  have hid : ∀ r : Except LexicalError (List Token), r = r.map ([] ++ ·) := fun r => by cases r <;> rfl
  cases h with
  | token hk hrest => exact tokensFrom_denotes hk hrest offset
  | blanks hw =>
      obtain ⟨c, cs, rfl, hc, hcs⟩ := mem_oneOf_mul_kstar.1 hw
      exact (tokensFrom_blanks (List.forall_mem_cons.2 ⟨hc, hcs⟩) offset rest).trans (hid _)
  | comment hw hrest => exact (tokensFrom_comment hw hrest offset).trans (hid _)

/-- Complete segments in front of a text contribute their tokens, whatever the text is. -/
theorem tokensFrom_complete {segs : List Segment} {rest : List Char} (h : Complete segs rest)
    (offset : Nat) : tokensFrom 0 offset (textOf segs ++ rest) =
      (tokensFrom 0 (offset + byteLength (textOf segs)) rest).map (tokensAt offset segs ++ ·) := by
  induction segs generalizing offset with
  | nil =>
      rw [textOf_nil, List.nil_append, byteLength_nil, Nat.add_zero]
      cases tokensFrom 0 offset rest <;> rfl
  | cons s segs ih =>
      obtain ⟨hs, hsegs⟩ := h
      rw [textOf_cons, List.append_assoc, hs.tokensFrom_append, ih hsegs, byteLength_append,
        Nat.add_assoc]
      cases tokensFrom 0 (offset + (byteLength s.text + byteLength (textOf segs))) rest <;>
        simp [Except.map, tokensAt]

/-- Two rows of segments are complete iff the first is in front of the second, and the second is. -/
theorem complete_append {xs ys : List Segment} {rest : List Char} :
    Complete (xs ++ ys) rest ↔ Complete xs (textOf ys ++ rest) ∧ Complete ys rest := by
  induction xs with
  | nil => simp [Complete]
  | cons s xs ih => simp [Complete, ih, and_assoc]

/-- A segment that ends somewhere can be read. -/
theorem Ends.reads {s : Segment} {rest : List Char} (h : s.Ends rest) : s.Reads := by
  cases h with
  | token hk => exact .token hk
  | blanks hw => exact .blanks hw
  | comment hw => exact .comment hw

/-- Whether a segment ends depends on the first character after it. -/
theorem Ends.congr {s : Segment} {rest rest' : List Char} (h : s.Ends rest)
    (hhead : rest.head? = rest'.head?) : s.Ends rest' := by
  cases h with
  | token hk hrest => exact .token hk (hhead ▸ hrest)
  | blanks hw => exact .blanks hw
  | comment hw hrest => exact .comment hw (hhead ▸ hrest)

/-- A segment that can be read is not empty. -/
theorem Reads.text_ne_nil {s : Segment} (h : s.Reads) : s.text ≠ [] := by
  cases h with
  | token hk =>
      obtain ⟨c, cs, rfl, -⟩ := Lexeme.scan_of_denotes hk
        (show ∀ d ∈ ([] : List Char).head?, _ from nofun)
      exact List.cons_ne_nil c cs
  | blanks hw =>
      obtain ⟨c, cs, rfl, -⟩ := mem_oneOf_mul_kstar.1 hw
      exact List.cons_ne_nil c cs
  | comment hw =>
      obtain ⟨cs, rfl, -⟩ := LexicalRule.mem_texts_comment.1 hw
      exact List.cons_ne_nil _ _

/-- Whether segments are complete depends on the first character after them. -/
theorem Complete.congr {segs : List Segment} {rest rest' : List Char} (h : Complete segs rest)
    (hhead : rest.head? = rest'.head?) : Complete segs rest' := by
  induction segs with
  | nil => trivial
  | cons s segs ih =>
      obtain ⟨hs, hsegs⟩ := h
      exact ⟨hs.congr (by rw [List.head?_append, List.head?_append, hhead]), ih hsegs⟩

/-- Whether segments are complete depends on what follows only by whether the last one ends before it. -/
theorem Complete.before {segs : List Segment} {rest rest' : List Char} (h : Complete segs rest)
    (hlast : ∀ s ∈ segs.getLast?, s.Ends rest') : Complete segs rest' := by
  induction segs with
  | nil => trivial
  | cons s segs ih =>
      obtain ⟨hs, hsegs⟩ := h
      cases segs with
      | nil => exact ⟨hlast s rfl, trivial⟩
      | cons t segs =>
          refine ⟨hs.congr ?_, ih hsegs fun u hu => hlast u ?_⟩
          · rw [textOf_cons, List.append_assoc, List.append_assoc,
              List.head?_append_of_ne_nil _ hsegs.1.reads.text_ne_nil,
              List.head?_append_of_ne_nil _ hsegs.1.reads.text_ne_nil]
          · rwa [List.getLast?_cons_cons]

/-- Complete segments can be read. -/
theorem Complete.reads {segs : List Segment} {rest : List Char} (h : Complete segs rest) :
    ∀ s ∈ segs, s.Reads := by
  induction segs with
  | nil => exact nofun
  | cons s segs ih => exact List.forall_mem_cons.2 ⟨h.1.reads, ih h.2⟩

/-- A line feed ends whatever stands before it. -/
theorem Reads.ends_line_feed {s : Segment} (h : s.Reads) (rest : List Char) : s.Ends ('\n' :: rest) := by
  cases h with
  | @token w k hk =>
      refine .token hk fun d hd => ?_
      obtain rfl : '\n' = d := Option.some.inj hd
      exact k.fuses_of_isBlank rfl
  | blanks hw => exact .blanks hw
  | comment hw => exact .comment hw fun d hd => (Option.some.inj hd).symm

/-- Nothing is left to read behind the last segment of a text. -/
theorem Reads.ends_nil {s : Segment} (h : s.Reads) : s.Ends [] := by
  cases h with
  | token hk => exact .token hk nofun
  | blanks hw => exact .blanks hw
  | comment hw => exact .comment hw nofun

/-! ### Longest matches -/

/-- A segment that can be read matches one of the rules. -/
theorem Reads.exists_mem_texts {s : Segment} (h : s.Reads) : ∃ r : LexicalRule, s.text ∈ r.texts := by
  cases h with
  | token hk => exact hk.exists_mem_texts
  | blanks hw => exact ⟨.blanks, hw⟩
  | comment hw => exact ⟨.comment, hw⟩

/-- A segment with a token denotes this token. -/
theorem Reads.denotes {w : List Char} {k : TokenKind} (h : Reads ⟨w, some k⟩) : Denotes w k := by
  cases h with
  | token hk => exact hk

/-- A segment without a token is blank or a comment. -/
theorem Reads.skipped {w : List Char} (h : Reads ⟨w, none⟩) :
    w ∈ LexicalRule.blanks.texts ∨ w ∈ LexicalRule.comment.texts := by
  cases h with
  | blanks hw => exact .inl hw
  | comment hw => exact .inr hw

/-- A longest match ends where it ends. -/
theorem Reads.ends_of_longestMatch {s : Segment} {rest : List Char} (h : s.Reads)
    (hlongest : LongestMatch s.text rest) : s.Ends rest := by
  cases h with
  | token hk => exact .token hk (hlongest.fuses_eq_false hk)
  | blanks hw => exact .blanks hw
  | comment hw => exact .comment hw (hlongest.eq_line_feed hw)

/-- Longest matches are complete in front of what follows them. -/
theorem MunchedBefore.complete {segs : List Segment} {rest : List Char} (h : MunchedBefore segs rest) :
    Complete segs rest := by
  induction segs with
  | nil => trivial
  | cons s segs ih =>
      obtain ⟨hs, hlongest, hsegs⟩ := h
      exact ⟨hs.ends_of_longestMatch hlongest, ih hsegs⟩

/-- In front of the end of the text, longest matches are those of the whole text. -/
theorem munchedBefore_nil {segs : List Segment} : MunchedBefore segs [] ↔ Munched segs := by
  induction segs with
  | nil => rfl
  | cons s segs ih => rw [MunchedBefore, Munched, List.append_nil, ih]

/-- Longest matches are complete at the end of the text. -/
theorem Munched.complete {segs : List Segment} (h : Munched segs) : Complete segs [] :=
  (munchedBefore_nil.2 h).complete

/-- The text that longest matches make up has their tokens. -/
theorem Munched.tokensFrom {segs : List Segment} (h : Munched segs) (offset : Nat) :
    Freshen.tokensFrom 0 offset (textOf segs) = .ok (tokensAt offset segs ++
      [⟨.eof, Span.ofRange (offset + byteLength (textOf segs))
        (offset + byteLength (textOf segs))⟩]) := by
  have hcomplete := tokensFrom_complete h.complete offset
  rw [List.append_nil] at hcomplete
  rw [hcomplete, Freshen.tokensFrom]
  rfl

end Segment

/-- A text is cut into longest matches as far as it can be read. -/
theorem exists_munchedBefore (cs : List Char) : ∃ (segs : List Segment) (rest : List Char),
    cs = Segment.textOf segs ++ rest ∧ Segment.MunchedBefore segs rest ∧ Segment.ReadingStops rest := by
  induction hlength : cs.length using Nat.strongRecOn generalizing cs with
  | ind n ih =>
    cases cs with
    | nil => exact ⟨[], [], rfl, trivial, trivial⟩
    | cons c cs =>
        obtain ⟨⟨lexeme, more⟩, hscan⟩ : ∃ result, Lexeme.scan c cs = result := ⟨_, rfl⟩
        have hcut : c :: cs = (c :: cs.take more) ++ cs.drop more := by
          rw [List.cons_append, List.take_append_drop]
        have hshorter : (cs.drop more).length < n := by
          rw [← hlength, List.length_cons, List.length_drop]
          omega
        -- both kinds of segment go on with the segments of what is left
        have hcons : ∀ {kind?}, Segment.Reads ⟨c :: cs.take more, kind?⟩ → more ≤ cs.length →
            ∃ segs rest, c :: cs = Segment.textOf segs ++ rest ∧
              Segment.MunchedBefore segs rest ∧ Segment.ReadingStops rest := by
          intro kind? hreads hmore
          obtain ⟨segs, rest, htext, hmunched, hstops⟩ := ih _ hshorter _ rfl
          obtain ⟨r, hr⟩ := hreads.exists_mem_texts
          refine ⟨⟨c :: cs.take more, kind?⟩ :: segs, rest, ?_, ⟨hreads, ?_, hmunched⟩, hstops⟩
          · rw [Segment.textOf_cons, List.append_assoc, ← htext, ← hcut]
          · rw [← htext]
            exact Lexeme.longestMatch_of_mem_texts hscan hmore hr
        cases lexeme with
        | skip =>
            obtain ⟨hmore, hw⟩ := Lexeme.matches_of_scan_skip hscan
            exact hcons (hw.elim .blanks .comment) hmore
        | token k =>
            obtain ⟨hmore, hk⟩ := Lexeme.denotes_of_scan hscan
            exact hcons (.token hk) hmore
        | invalid => exact ⟨[], c :: cs, rfl, trivial, .inl (congrArg Prod.fst hscan)⟩
        | overflow => exact ⟨[], c :: cs, rfl, trivial, .inr (congrArg Prod.fst hscan)⟩

/-- Where reading stops before the end of a text, there is an error about what is found there. -/
theorem Segment.ReadingStops.error {c : Char} {cs : List Char} (h : ReadingStops (c :: cs))
    (offset : Nat) : ∃ more w span, w = c :: cs.take more ∧
      span = Span.ofRange offset (offset + byteLength w) ∧
      (Lexeme.scan c cs = (.invalid, more) ∧
          tokensFrom 0 offset (c :: cs) = .error (.invalid (String.ofList w) span) ∨
        Lexeme.scan c cs = (.overflow, more) ∧
          tokensFrom 0 offset (c :: cs) = .error (.overflow (String.ofList w) span)) := by
  obtain ⟨⟨lexeme, more⟩, hscan⟩ : ∃ result, Lexeme.scan c cs = result := ⟨_, rfl⟩
  refine ⟨more, _, _, rfl, rfl, ?_⟩
  rw [ReadingStops, hscan] at h
  rw [tokensFrom, hscan]
  obtain rfl | rfl : lexeme = .invalid ∨ lexeme = .overflow := h
  · exact .inl ⟨rfl, rfl⟩
  · exact .inr ⟨rfl, rfl⟩

/-- A text that can be read is cut into longest matches, and its tokens are theirs. -/
theorem exists_munched {offset : Nat} {cs : List Char} {ts : List Token}
    (h : tokensFrom 0 offset cs = .ok ts) : ∃ segs : List Segment, cs = Segment.textOf segs ∧
      Segment.Munched segs ∧ ts = Segment.tokensAt offset segs ++
        [⟨.eof, Span.ofRange (offset + byteLength cs) (offset + byteLength cs)⟩] := by
  obtain ⟨segs, rest, rfl, hmunched, hstops⟩ := exists_munchedBefore cs
  rw [Segment.tokensFrom_complete hmunched.complete] at h
  obtain ⟨us, hus, rfl⟩ := Except.exists_map_eq_ok h
  cases rest with
  | nil =>
      obtain rfl := Except.ok.inj hus
      rw [List.append_nil]
      exact ⟨segs, rfl, Segment.munchedBefore_nil.1 hmunched, rfl⟩
  | cons c ds =>
      obtain ⟨more, w, span, -, -, herror⟩ := hstops.error (offset + byteLength (Segment.textOf segs))
      rcases herror with ⟨-, herror⟩ | ⟨-, herror⟩ <;> cases herror.symm.trans hus

/-- The same for a whole text, with its size. -/
theorem exists_munched_of_tokenize {source : String} {tokens : List Token}
    (h : tokenize source = .ok tokens) : ∃ segs : List Segment, source.toList = Segment.textOf segs ∧
      byteLength (Segment.textOf segs) = source.utf8ByteSize ∧ Segment.Munched segs ∧
      tokens = Segment.tokensAt 0 segs ++
        [⟨.eof, Span.ofRange source.utf8ByteSize source.utf8ByteSize⟩] := by
  obtain ⟨segs, htext, hmunched, rfl⟩ := exists_munched h
  rw [byteLength_toList, Nat.zero_add]
  exact ⟨segs, htext, by rw [← htext, byteLength_toList], hmunched, rfl⟩

end Freshen
