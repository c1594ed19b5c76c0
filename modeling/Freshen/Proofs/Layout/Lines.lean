import Mathlib
import Freshen.Proofs.Layout.Columns
import Freshen.Proofs.Layout.RoundTrip
import Freshen.Proofs.Token.Padding

/-!
# The lines of printed programs

A printed program is cut into lines, and these into segments, so that no token spans two lines.  A line is
indented by four blanks for each brace that is open before it.

- `Segment.ofLines`: the segments of lines, with a line feed behind each.
- `Segment.Indented`: a line begins with the blanks that the braces before it ask for, and then a token.
- `Segment.CanonicalLines`: what holds of every line.

**Key results.** `Piece.Position.exists_first_token`, `Piece.Position.exists_last_token`: how a line begins and
ends; `Program.canonicalLines`: what holds of the text of a program, and of its lines.
-/

namespace Freshen

open Piece

/-! ### Characters of tokens -/

/-- Inside a literal, tabs and the characters that end a line are escaped. -/
theorem Quoted.not_mem_escape {c : Char} (hc : c ∈ ['\t', '\r', '\n']) (d : Char) :
    c ∉ escape d := by
  unfold escape
  split
  case h_7 _ _ hline hreturn htab _ =>
    rw [List.mem_singleton]
    rintro rfl
    simp only [List.mem_cons, List.not_mem_nil, or_false] at hc
    rcases hc with rfl | rfl | rfl
    · exact htab rfl
    · exact hreturn rfl
    · exact hline rfl
  all_goals
    fin_cases hc <;> decide

/-- No token is spelled with a tab or a character that ends a line. -/
theorem TokenKind.Readable.not_mem_spelling {k : TokenKind} (hk : k.Readable) {c : Char}
    (hc : c ∈ ['\t', '\r', '\n']) : c ∉ k.spelling.toList := by
  have hpart : isWordPart c = false ∧ isDigitPart c = false := by fin_cases hc <;> decide
  intro hmem
  cases k with
  | int value =>
      have hdenotes := hk.denotes_spelling
      generalize (int value).spelling.toList = w at hdenotes hmem
      cases hdenotes with
      | int hw => exact absurd (isDigitPart_of_mem hw c hmem) (by simp [hpart.2])
  | ident name => exact absurd (hk.1.isWordPart hmem) (by simp [hpart.1])
  | keyword w => exact absurd (w.isWord_text.isWordPart hmem) (by simp [hpart.1])
  | mark m =>
      have hmark : m.text.toList.all (· ∉ ['\t', '\r', '\n']) = true := by cases m <;> rfl
      exact absurd hc (of_decide_eq_true (List.all_eq_true.1 hmark c hmem))
  | str value =>
      rw [spelling, Quoted.encode, String.toList_ofList] at hmem
      simp only [List.cons_append, List.mem_cons, List.mem_append, List.not_mem_nil, or_false] at hmem
      rcases hmem with rfl | hmem | rfl
      · exact absurd hc (by decide)
      · obtain ⟨d, -, hd⟩ := List.mem_flatMap.1 hmem
        exact Quoted.not_mem_escape hc d hd
      · exact absurd hc (by decide)
  | eof => exact hk

namespace Piece

/-- Tabs and the characters that end a line stand in line ends only. -/
theorem not_mem_chars {p : Piece} (hp : p ≠ newline) (hreadable : ∀ k, p = token k → k.Readable)
    {c : Char} (hc : c ∈ ['\t', '\r', '\n']) : c ∉ p.chars := by
  have hblank : c ≠ ' ' := by fin_cases hc <;> decide
  cases p with
  | token k => exact (hreadable k rfl).not_mem_spelling hc
  | space => exact fun hmem => hblank (List.mem_singleton.1 hmem)
  | newline => exact absurd rfl hp
  | indent level => exact fun hmem => hblank (List.mem_replicate.1 hmem).2

/-! ### Lines of pieces -/

/-- Lines, with a line end behind each. -/
def ofLines (lines : List (List Piece)) : List Piece := lines.flatMap (· ++ [newline])

/-- No lines are no pieces. -/
@[simp] theorem ofLines_nil : ofLines [] = [] := rfl

/-- A line in front of others has a line end behind it. -/
@[simp] theorem ofLines_cons (l : List Piece) (lines : List (List Piece)) :
    ofLines (l :: lines) = l ++ newline :: ofLines lines := by
  simp [ofLines]

/-- The pieces of two rows of lines are those of the first and then those of the second. -/
@[simp] theorem ofLines_append (lines lines' : List (List Piece)) :
    ofLines (lines ++ lines') = ofLines lines ++ ofLines lines' := List.flatMap_append

/-- Pieces with a line end at their end are cut into lines. -/
theorem exists_lines (ps : List Piece) :
    ∃ lines, ps ++ [newline] = ofLines lines ∧ lines ≠ [] ∧ ∀ l ∈ lines, newline ∉ l := by
  induction ps with
  | nil => exact ⟨[[]], rfl, List.cons_ne_nil _ _, by simp⟩
  | cons p ps ih =>
      obtain ⟨lines, hlines, hne, hline⟩ := ih
      obtain ⟨l, lines, rfl⟩ := List.exists_cons_of_ne_nil hne
      by_cases hp : p = newline
      · refine ⟨[] :: l :: lines, ?_, List.cons_ne_nil _ _, List.forall_mem_cons.2 ⟨nofun, hline⟩⟩
        rw [List.cons_append, hlines, hp]
        simp
      · obtain ⟨hl, hlines'⟩ := List.forall_mem_cons.1 hline
        refine ⟨(p :: l) :: lines, ?_, List.cons_ne_nil _ _, List.forall_mem_cons.2 ⟨?_, hlines'⟩⟩
        · rw [List.cons_append, hlines]
          simp
        · exact List.not_mem_cons_of_ne_of_not_mem (Ne.symm hp) hl

namespace Position

variable {blank : Bool} {s s' t : Position} {d : Nat} {k : TokenKind} {l ps qs : List Piece}
variable {before after : List (List Piece)}

/-- Two rows of pieces may stand somewhere iff the first may, and the second where the first ends. -/
theorem run_append_eq_some : run blank s (ps ++ qs) = some s' ↔
    ∃ t, run blank s ps = some t ∧ run blank t qs = some s' := by
  rw [run_append, Option.bind_eq_some_iff]

/-- A piece and others after it may stand somewhere iff the piece may, and the others behind it. -/
theorem run_cons_eq_some {p : Piece} : run blank s (p :: ps) = some s' ↔
    ∃ t, step blank s p = some t ∧ run blank t ps = some s' := by
  rw [run, Option.bind_eq_some_iff]

/-- A token may stand where it is admitted, and where a brace that it closes is open. -/
theorem step_token_eq_some : step blank s (token k) = some t ↔
    s.Admits k ∧ depthBehind s.depth k = some t.depth ∧ t.column = .behind k := by
  obtain ⟨d, c⟩ := t
  rw [step]
  by_cases hadmits : s.Admits k
  · simp [hadmits, eq_comm]
  · simp [hadmits]

/-- A line end is followed by a line start. -/
theorem eq_of_step_newline (h : step blank s newline = some t) : t = ⟨s.depth, .start⟩ := by
  obtain ⟨d, c⟩ := s
  cases c with
  | start =>
      cases blank with
      | false => exact absurd h nofun
      | true => exact (Option.some.inj h).symm
  | behind k =>
      by_cases hk : EndsLine k
      · exact (Option.some.inj ((if_pos hk).symm.trans h)).symm
      · exact absurd ((if_neg hk).symm.trans h) nofun
  | margin | gap => exact absurd h nofun

/-- A line may end behind some tokens only. -/
theorem endsLine_of_step_newline (h : step blank s newline = some t) (hs : s.column = .behind k) :
    EndsLine k := by
  obtain ⟨d, c⟩ := s
  obtain rfl : c = .behind k := hs
  by_contra hk
  exact absurd ((if_neg hk).symm.trans h) nofun

/-- Behind a token, the depth and the closing braces make up what the depth and the opening braces were. -/
theorem depth_add_of_depthBehind {d d' : Nat} (h : depthBehind d k = some d') :
    d + [k].count (.mark .lbrace) = d' + [k].count (.mark .rbrace) := by
  unfold depthBehind at h
  split at h
  case isTrue hk =>
    obtain rfl := Option.some.inj h
    subst hk
    rfl
  case isFalse hl =>
    split at h
    case isTrue hk =>
      split at h
      · exact absurd h nofun
      · obtain rfl := Option.some.inj h
        subst hk
        show d + 0 = d - 1 + 1
        omega
    case isFalse hr =>
      obtain rfl := Option.some.inj h
      rw [List.count_singleton, List.count_singleton, if_neg (by simpa using hl),
        if_neg (by simpa using hr)]

/-- Tokens alone open and close braces. -/
theorem depth_of_step {p : Piece} (h : step blank s p = some t) (hp : ∀ k, p ≠ token k) :
    t.depth = s.depth := by
  obtain ⟨d, c⟩ := s
  cases p with
  | token k => exact absurd rfl (hp k)
  | newline => rw [eq_of_step_newline h]
  | space =>
      cases c with
      | behind | gap => rw [← Option.some.inj h]
      | start | margin => exact absurd h nofun
  | indent level =>
      cases c with
      | start => rw [← Option.some.inj h]
      | behind | gap | margin => exact absurd h nofun

/-- The open braces are counted. -/
theorem depth_add_of_run (h : run blank s ps = some s') :
    s.depth + (tokens ps).count (.mark .lbrace) = s'.depth + (tokens ps).count (.mark .rbrace) := by
  induction ps generalizing s with
  | nil =>
      obtain rfl := Option.some.inj h
      rfl
  | cons p ps ih =>
      obtain ⟨t, ht, hrun⟩ := run_cons_eq_some.1 h
      have hps := ih hrun
      cases p with
      | token k =>
          have hk := depth_add_of_depthBehind (step_token_eq_some.1 ht).2.1
          rw [tokens_token, ← List.singleton_append, List.count_append, List.count_append]
          omega
      | space | newline | indent =>
          rw [depth_of_step ht nofun] at hps
          exact hps

/-- Lines are followed from line start to line start. -/
theorem column_of_run_ofLines {lines : List (List Piece)}
    (h : run blank ⟨d, .start⟩ (ofLines lines) = some s) : s = ⟨s.depth, .start⟩ := by
  induction lines generalizing d with
  | nil => exact (Option.some.inj h) ▸ rfl
  | cons l lines ih =>
      rw [ofLines_cons] at h
      obtain ⟨t, -, h⟩ := run_append_eq_some.1 h
      obtain ⟨t', ht', h⟩ := run_cons_eq_some.1 h
      obtain rfl := eq_of_step_newline ht'
      exact ih h

/-- Where one of several lines is followed from, and that it may end where it does. -/
theorem exists_run_line (h : run blank ⟨d, .start⟩ (ofLines (before ++ l :: after)) = some s) :
    ∃ d' t t', d + (tokens (ofLines before)).count (.mark .lbrace) =
        d' + (tokens (ofLines before)).count (.mark .rbrace) ∧
      run blank ⟨d', .start⟩ l = some t ∧ step blank t newline = some t' := by
  rw [ofLines_append, ofLines_cons] at h
  obtain ⟨r, hbefore, h⟩ := run_append_eq_some.1 h
  obtain ⟨t, hl, h⟩ := run_append_eq_some.1 h
  obtain ⟨t', ht', -⟩ := run_cons_eq_some.1 h
  have hdepth := depth_add_of_run hbefore
  rw [column_of_run_ofLines hbefore] at hl
  exact ⟨r.depth, t, t', hdepth, hl, ht'⟩

/-- A line that is not empty begins with its indentation and a token at this depth. -/
theorem exists_first_token (h : run blank ⟨d, .start⟩ l = some s)
    (hend : step blank s newline = some s') (hne : l ≠ []) (hline : newline ∉ l) :
    ∃ level margin k rest, l = margin ++ token k :: rest ∧ tokens margin = [] ∧
      margin.flatMap chars = List.replicate (level * indentWidth) ' ' ∧ d = level + outdent k := by
  obtain ⟨p, ps, rfl⟩ := List.exists_cons_of_ne_nil hne
  obtain ⟨t, ht, hrun⟩ := run_cons_eq_some.1 h
  cases p with
  | token k =>
      have hadmits : d = outdent k := (step_token_eq_some.1 ht).1
      exact ⟨0, [], k, ps, rfl, rfl, rfl, by rw [Nat.zero_add, hadmits]⟩
  | space => exact absurd ht nofun
  | newline => exact absurd List.mem_cons_self hline
  | indent level =>
      obtain rfl := Option.some.inj ht
      cases ps with
      | nil =>
          obtain rfl := Option.some.inj hrun
          exact absurd hend nofun
      | cons p ps =>
          obtain ⟨t, ht, -⟩ := run_cons_eq_some.1 hrun
          cases p with
          | token k =>
              have hadmits : d = level + outdent k := (step_token_eq_some.1 ht).1
              exact ⟨level, [indent level], k, ps, rfl, rfl, List.append_nil _, hadmits⟩
          | space | newline | indent => exact absurd ht nofun

/-- A line that is not empty ends with a token that may end it. -/
theorem exists_last_token (h : run blank ⟨d, .start⟩ l = some s)
    (hend : step blank s newline = some s') (hne : l ≠ []) (hline : newline ∉ l) :
    ∃ init k, l = init ++ [token k] ∧ EndsLine k := by
  obtain ⟨init, p, rfl⟩ := (List.eq_nil_or_concat l).resolve_left hne
  rw [List.concat_eq_append] at h hline
  obtain ⟨⟨d', c⟩, -, hlast⟩ := run_append_eq_some.1 h
  obtain ⟨t, hstep, hs⟩ := run_cons_eq_some.1 hlast
  obtain rfl := Option.some.inj hs
  cases p with
  | token k =>
      exact ⟨init, k, List.concat_eq_append, endsLine_of_step_newline hend (step_token_eq_some.1 hstep).2.2⟩
  | space =>
      cases c with
      | behind | gap =>
          obtain rfl := Option.some.inj hstep
          exact absurd hend nofun
      | start | margin => exact absurd hstep nofun
  | newline => exact absurd (List.mem_append_right _ List.mem_cons_self) hline
  | indent level =>
      cases c with
      | start =>
          obtain rfl := Option.some.inj hstep
          exact absurd hend nofun
      | behind | gap | margin => exact absurd hstep nofun

/-- There is no empty line where none may be. -/
theorem ne_nil_of_run (h : run false ⟨d, .start⟩ (ofLines (before ++ l :: after)) = some s) :
    l ≠ [] := by
  obtain ⟨d', t, t', -, hl, ht'⟩ := exists_run_line h
  rintro rfl
  obtain rfl := Option.some.inj hl
  exact absurd ht' nofun

end Position

end Piece

/-! ### Lines of segments -/

namespace Segment

/-- The segments of lines, with a line feed behind each. -/
def ofLines (lines : List (List Segment)) : List Segment := lines.flatMap (· ++ [⟨['\n'], none⟩])

/-- After the tokens `before`, the line begins with four blanks for each brace that is open and then a
token.  For a closing brace, the brace that it closes does not count. -/
def Indented (before : List TokenKind) (line : List Segment) : Prop :=
  ∃ depth margin w k rest, line = margin ++ ⟨w, some k⟩ :: rest ∧ kinds margin = [] ∧
    textOf margin = List.replicate (4 * depth) ' ' ∧ (∃ c cs, w = c :: cs ∧ isBlank c = false) ∧
    before.count (.mark .lbrace) =
      before.count (.mark .rbrace) + depth + if k = .mark .rbrace then 1 else 0

/-- What holds of the lines of a printed program. -/
structure CanonicalLines (lines : List (List Segment)) : Prop where
  /-- What is a line here is a line of the text: no segment reaches over its end. -/
  single : ∀ l ∈ lines, '\n' ∉ textOf l
  /-- There are no other blank characters than blanks and line feeds. -/
  plain : ∀ l ∈ lines, '\t' ∉ textOf l ∧ '\r' ∉ textOf l
  /-- A line that is not empty is indented by the braces that are open before it. -/
  indented : ∀ before l after, lines = before ++ l :: after → l ≠ [] →
    Indented (kinds (ofLines before)) l
  /-- A line that is not empty ends with a statement, or with a brace. -/
  ended : ∀ l ∈ lines, l ≠ [] → ∃ init c, textOf l = init ++ [c] ∧ c ∈ [';', '\x7b', '\x7d']

end Segment

namespace Piece

variable {lines : List (List Piece)} {blank : Bool} {s : Position}

/-- The segments of lines are the lines of their segments. -/
theorem segments_ofLines (lines : List (List Piece)) :
    segments (ofLines lines) = Segment.ofLines (lines.map segments) := by
  induction lines with
  | nil => rfl
  | cons l lines ih =>
      rw [ofLines_cons, segments_append, segments_newline, ih]
      simp [Segment.ofLines]

/-- The tokens among pieces are the pieces that are tokens. -/
theorem mem_tokens {k : TokenKind} {ps : List Piece} : k ∈ tokens ps ↔ token k ∈ ps := by
  induction ps with
  | nil => simp
  | cons p ps ih => cases p <;> simp [ih]

/-- What a token of a line is spelled like at the line's end. -/
theorem toList_spelling_of_endsLine {k : TokenKind} (hk : EndsLine k) :
    ∃ c, k.spelling.toList = [c] ∧ c ∈ [';', '\x7b', '\x7d'] := by
  rcases hk with rfl | rfl | rfl
  · exact ⟨_, rfl, by decide⟩
  · exact ⟨_, rfl, by decide⟩
  · exact ⟨_, rfl, by decide⟩

/-- A line that is followed among others is indented by the braces that are open before it. -/
theorem indented_of_run {before after : List (List Piece)} {l : List Piece}
    (hrun : Position.run blank ⟨0, .start⟩ (ofLines (before ++ l :: after)) = some s) (hne : l ≠ [])
    (hline : newline ∉ l) (hreadable : ∀ k, token k ∈ l → k.Readable) :
    Segment.Indented (tokens (ofLines before)) (segments l) := by
  -- the depth that the line is followed at is the number of braces that are open before it
  obtain ⟨d, t, t', hdepth, hl, hend⟩ := Position.exists_run_line hrun
  obtain ⟨level, margin, k, rest, rfl, hmargin, htext, rfl⟩ :=
    Position.exists_first_token hl hend hne hline
  have hdenotes := (hreadable k (by simp)).denotes_spelling
  obtain ⟨c, cs, hspelling⟩ : ∃ c cs, k.spelling.toList = c :: cs :=
    List.exists_cons_of_ne_nil (Segment.Reads.token hdenotes).text_ne_nil
  refine ⟨level, segments margin, k.spelling.toList, k, segments rest, by simp, ?_, ?_, ?_, ?_⟩
  · rw [kinds_segments, hmargin]
  · rw [textOf_segments, htext, Nat.mul_comm]
    rfl
  · exact ⟨c, cs, hspelling, hdenotes.isBlank_head c (by rw [hspelling]; rfl)⟩
  · unfold Position.outdent at hdepth
    omega

/-- A line that is followed among others ends with a token. -/
theorem exists_last_token_of_run {l : List Piece} (hl : l ∈ lines)
    (hrun : Position.run blank ⟨0, .start⟩ (ofLines lines) = some s) (hne : l ≠ [])
    (hline : newline ∉ l) : ∃ init k, l = init ++ [token k] ∧ EndsLine k := by
  obtain ⟨before, after, rfl⟩ := List.append_of_mem hl
  obtain ⟨d, t, t', -, hrun, hend⟩ := Position.exists_run_line hrun
  exact Position.exists_last_token hrun hend hne hline

/-- Legible lines that are followed are canonical. -/
theorem canonicalLines_of_run (hlegible : Legible (ofLines lines))
    (hrun : Position.run blank ⟨0, .start⟩ (ofLines lines) = some s)
    (hlines : ∀ l ∈ lines, newline ∉ l) : Segment.CanonicalLines (lines.map segments) := by
  have hreadable : ∀ l ∈ lines, ∀ k, token k ∈ l → k.Readable := fun l hl k hk =>
    hlegible.readable k (mem_tokens.2 (List.mem_flatMap.2 ⟨l, hl, List.mem_append_left _ hk⟩))
  have hplain : ∀ l ∈ lines, ∀ c ∈ ['\t', '\r', '\n'], c ∉ Segment.textOf (segments l) := by
    intro l hl c hc hmem
    rw [textOf_segments] at hmem
    obtain ⟨p, hp, hmem⟩ := List.mem_flatMap.1 hmem
    have hline : p ≠ newline := fun h => hlines l hl (h ▸ hp)
    exact not_mem_chars hline (fun k hk => hreadable l hl k (hk ▸ hp)) hc hmem
  have hnil : ∀ l : List Piece, segments l ≠ [] → l ≠ [] := fun l => mt (congrArg segments)
  refine ⟨?single, ?plain, ?indented, ?ended⟩
  case single =>
    exact List.forall_mem_map.2 fun l hl => hplain l hl '\n' (by decide)
  case plain =>
    exact List.forall_mem_map.2 fun l hl => ⟨hplain l hl '\t' (by decide), hplain l hl '\r' (by decide)⟩
  case indented =>
    intro before l after hsplit hne
    obtain ⟨before, rest, rfl, rfl, hrest⟩ := List.map_eq_append_iff.1 hsplit
    obtain ⟨l, after, rfl, rfl, rfl⟩ := List.map_eq_cons_iff.1 hrest
    have hmem : l ∈ before ++ l :: after := List.mem_append_right _ List.mem_cons_self
    rw [← segments_ofLines, kinds_segments]
    exact indented_of_run hrun (hnil l hne) (hlines l hmem) (hreadable l hmem)
  case ended =>
    refine List.forall_mem_map.2 fun l hl hne => ?_
    obtain ⟨init, k, rfl, hk⟩ := exists_last_token_of_run hl hrun (hnil l hne) (hlines l hl)
    obtain ⟨c, hc, hmem⟩ := toList_spelling_of_endsLine hk
    exact ⟨init.flatMap chars, c, by rw [textOf_segments, List.flatMap_append]; simp [chars, hc], hmem⟩

/-- Where no line may be empty, none has no segments. -/
theorem nil_notMem_of_run (hrun : Position.run false ⟨0, .start⟩ (ofLines lines) = some s)
    (hlines : ∀ l ∈ lines, newline ∉ l) : [] ∉ lines.map segments := by
  have hne : ∀ l ∈ lines, l ≠ [] := by
    intro l hl
    obtain ⟨before, after, rfl⟩ := List.append_of_mem hl
    exact Position.ne_nil_of_run hrun
  intro h
  obtain ⟨l, hl, hnil⟩ := List.mem_map.1 h
  obtain ⟨init, k, rfl, -⟩ := exists_last_token_of_run hl hrun (hne l hl) (hlines l hl)
  simp at hnil

end Piece

/-! ### Programs -/

/-- The lines of callables, with an empty line between two of them. -/
theorem Callable.exists_paragraphs {cs : List Callable} (h : ∀ c ∈ cs, c.Spellable IsIdentifier) :
    ∃ paragraphs : List (List (List Piece)),
      List.Forall₂ (fun c lines => c.pieces ++ [newline] = ofLines lines ∧ lines ≠ [] ∧
        [] ∉ lines.map segments) cs paragraphs ∧
      (∀ l ∈ [[]].intercalate paragraphs, newline ∉ l) ∧
      paragraphPieces cs = ofLines ([[]].intercalate paragraphs) := by
  induction cs with
  | nil => exact ⟨[], .nil, by simp, rfl⟩
  | cons c cs ih =>
      obtain ⟨hc, hcs⟩ := List.forall_mem_cons.1 h
      obtain ⟨paragraphs, hforall, hline, hpieces⟩ := ih hcs
      obtain ⟨lines, hlines, hne, hnewline⟩ := exists_lines c.pieces
      have hrun : Position.run false ⟨0, .start⟩ (ofLines lines) = some ⟨0, .start⟩ := by
        rw [← hlines, c.run_pieces hc]
        rfl
      have hcons : List.Forall₂ _ (c :: cs) (lines :: paragraphs) :=
        .cons ⟨hlines, hne, nil_notMem_of_run hrun hnewline⟩ hforall
      refine ⟨lines :: paragraphs, hcons, ?_⟩
      cases hforall with
      | nil => exact ⟨by simpa using hnewline, by simpa [paragraphPieces] using hlines⟩
      | @cons c' lines' cs paragraphs h' hforall =>
          rw [List.intercalate_cons_cons]
          constructor
          · simp only [List.forall_mem_append]
            exact ⟨⟨hnewline, by simp⟩, hline⟩
          · rw [paragraphPieces, hpieces, ofLines_append, ofLines_append, ← hlines]
            · simp
            · exact List.cons_ne_nil c' cs

/-- The layout of a callable ends with a brace. -/
theorem Callable.exists_pieces_end (c : Callable) : ∃ init, c.pieces = init ++ [sign .rbrace] := by
  obtain ⟨n, params, ⟨stmts, _⟩, _⟩ := c
  simp only [pieces, Block.pieces]
  split
  · exact ⟨_, (List.append_assoc _ [sign .lbrace] [sign .rbrace]).symm⟩
  · exact ⟨_, by rw [← List.append_assoc, ← List.append_assoc, List.append_cons]⟩

/-- The layout of callables ends with a brace and one line end. -/
theorem Callable.exists_paragraphPieces_end {cs : List Callable} (h : cs ≠ []) :
    ∃ init, paragraphPieces cs = init ++ [sign .rbrace, newline] := by
  induction cs with
  | nil => exact absurd rfl h
  | cons c cs ih =>
      cases cs with
      | nil =>
          obtain ⟨init, hinit⟩ := c.exists_pieces_end
          exact ⟨init, by rw [paragraphPieces, hinit]; simp⟩
      | cons c' cs =>
          obtain ⟨init, hinit⟩ := ih (List.cons_ne_nil c' cs)
          refine ⟨c.pieces ++ [newline, newline] ++ init, ?_⟩
          rw [paragraphPieces, hinit, ← List.append_assoc]
          exact List.cons_ne_nil c' cs

/-- The segments of paragraphs are the paragraphs of their segments, with the empty lines in between. -/
theorem map_segments_intercalate (paragraphs : List (List (List Piece))) :
    ([[]].intercalate paragraphs).map segments =
      [[]].intercalate (paragraphs.map (·.map segments)) := by
  induction paragraphs with
  | nil => rfl
  | cons lines paragraphs ih =>
      cases paragraphs with
      | nil => simp
      | cons lines' paragraphs =>
          rw [List.map_cons] at ih
          simp [List.intercalate_cons_cons, ih]

open Segment in
/-- **Printed programs have canonical lines.**  The text of a parsed program consists of the texts of its
callables with one empty line between two of them, and of no other empty lines.  Its lines can be cut into
segments, which give its tokens.  Each line that is not empty begins with four blanks for each brace that is
open, and ends with a semicolon or a brace.  There are no tabs and no carriage returns, and the text ends with
one line feed. -/
theorem Program.canonicalLines {source : String} {m : Program} (h : parse source = .ok m) :
    ∃ paragraphs : List (List (List Segment)),
      List.Forall₂ (fun c lines => c.format.toList = textOf (Segment.ofLines lines) ∧ lines ≠ [] ∧
        [] ∉ lines) m.callables paragraphs ∧
      m.format.toList = textOf (Segment.ofLines ([[]].intercalate paragraphs)) ∧
      tokenize m.format = .ok (tokensAt 0 (Segment.ofLines ([[]].intercalate paragraphs)) ++
        [⟨.eof, Span.ofRange m.format.utf8ByteSize m.format.utf8ByteSize⟩]) ∧
      CanonicalLines ([[]].intercalate paragraphs) ∧
      (m.format = "" ∨ ∃ init c, m.format.toList = init ++ [c, '\n'] ∧ c ≠ '\n') := by
  have hm := Program.spellable_of_parse h
  have hlegible := (m.settled hm).legible
  have hrun := Callable.run_paragraphPieces m.callables hm
  obtain ⟨paragraphs, hforall, hline, hpieces⟩ := Callable.exists_paragraphs hm
  have hsegments : segments m.pieces =
      Segment.ofLines ([[]].intercalate (paragraphs.map (·.map segments))) := by
    rw [← map_segments_intercalate, ← segments_ofLines, ← hpieces]
    rfl
  refine ⟨paragraphs.map (·.map segments), ?paragraphs, ?text, ?tokens, ?lines, ?ending⟩
  case paragraphs =>
    rw [List.forall₂_map_right_iff]
    refine hforall.imp fun c lines hc => ?_
    obtain ⟨hlines, hne, hnil⟩ := hc
    refine ⟨?_, by simpa using hne, hnil⟩
    rw [Callable.format, toList_render, hlines, ← textOf_segments, segments_ofLines]
  case text => rw [← hsegments, textOf_segments, format, toList_render]
  case tokens =>
    rw [← hsegments]
    exact hlegible.tokenize_segments
  case lines =>
    rw [← map_segments_intercalate]
    rw [hpieces] at hrun
    exact canonicalLines_of_run (hpieces ▸ hlegible) hrun hline
  case ending =>
    by_cases hcallables : m.callables = []
    · exact .inl (by rw [format, pieces, hcallables]; rfl)
    · obtain ⟨init, hinit⟩ := Callable.exists_paragraphPieces_end hcallables
      refine .inr ⟨init.flatMap chars, '\x7d', ?_, by decide⟩
      rw [format, toList_render, pieces, hinit, List.flatMap_append]
      rfl

open Segment in
/-- Two callables; in the first one, a block in a block, with a brace and a tab in a string. -/
theorem Program.canonicalLines_nested : ∃ m, ∃ paragraphs : List (List (List Segment)),
    parse "fn f(x) \x7b if x \x7b g(\"\x7b\t\"); \x7d \x7d fn g() \x7b\x7d" = .ok m ∧
      m.format =
        "fn f(x) \x7b\n    if x \x7b\n        g(\"\x7b\\t\");\n    \x7d\n\x7d\n\nfn g() \x7b\x7d\n" ∧
      m.format.toList = textOf (Segment.ofLines ([[]].intercalate paragraphs)) ∧
      paragraphs.length = 2 ∧ CanonicalLines ([[]].intercalate paragraphs) := by
  obtain ⟨m, hm, htext⟩ := Except.exists_map_eq_ok (show (Program.parse
      "fn f(x) \x7b if x \x7b g(\"\x7b\t\"); \x7d \x7d fn g() \x7b\x7d").map
        (fun m => (m.callables.length, m.format)) = .ok (2,
      "fn f(x) \x7b\n    if x \x7b\n        g(\"\x7b\\t\");\n    \x7d\n\x7d\n\nfn g() \x7b\x7d\n") by
    decide +kernel)
  obtain ⟨hlength, hformat⟩ := Prod.mk.inj htext
  obtain ⟨paragraphs, hparagraphs, hlines, -, hcanonical, -⟩ := Program.canonicalLines hm
  exact ⟨m, paragraphs, hm, hformat, hlines, hparagraphs.length_eq ▸ hlength, hcanonical⟩

end Freshen
