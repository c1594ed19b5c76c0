import Mathlib
import Freshen.Proofs.Grammar.Acceptance
import Freshen.Proofs.Layout.Groupings
import Freshen.Proofs.Layout.RoundTrip

/-!
# Every pair of grouping parentheses is needed

No tokens that derive an expression have fewer opening parentheses than its layout.  The layout without one
of its pairs of grouping parentheses is legible and has one opening parenthesis less, so its text is not
read back as the expression.

- `lparens`: the number of opening parentheses among tokens.

**Key results.** `IsExpr.lparens_le`: the layout of an expression has the fewest parentheses;
`Expr.parse_render_iff`: what legible pieces are parsed as; `Expr.groupings_needed`: every pair of grouping
parentheses is needed.
-/

namespace Freshen

open Grammar Piece

/-- The number of opening parentheses among tokens. -/
def lparens (ks : List TokenKind) : Nat := ks.count (.mark .lparen)

/-- Among no tokens there is no parenthesis. -/
@[simp] theorem lparens_nil : lparens [] = 0 := rfl

/-- The parentheses among the tokens of two rows are those of both. -/
@[simp] theorem lparens_append (ks ks' : List TokenKind) :
    lparens (ks ++ ks') = lparens ks + lparens ks' := List.count_append

/-- An opening parenthesis in front of tokens counts for one. -/
@[simp] theorem lparens_lparen (ks : List TokenKind) :
    lparens (.mark .lparen :: ks) = lparens ks + 1 := List.count_cons_self

/-- A token that is no opening parenthesis does not count. -/
@[simp] theorem lparens_cons_of_ne {k : TokenKind} (h : k ≠ .mark .lparen) (ks : List TokenKind) :
    lparens (k :: ks) = lparens ks := List.count_cons_of_ne h

/-- A token more does not make fewer parentheses. -/
theorem le_lparens_cons (k : TokenKind) (ks : List TokenKind) : lparens ks ≤ lparens (k :: ks) :=
  List.count_le_count_cons

/-! ### Items with commas between them -/

/-- Commas between items add no parentheses. -/
theorem lparens_commaSeparated_cons (item : List Piece) (items : List (List Piece)) :
    lparens (tokens (commaSeparated (item :: items))) =
      lparens (tokens item) + lparens (tokens (commaSeparated items)) := by
  cases items with
  | nil => simp [commaSeparated]
  | cons item' items => simp [commaSeparated]

/-- Parentheses around pieces add one pair if they are needed. -/
theorem lparens_parenthesized (needed : Bool) (ps : List Piece) :
    lparens (tokens (parenthesized needed ps)) = lparens (tokens ps) + needed.toNat := by
  cases needed with
  | false => rfl
  | true => simp [parenthesized]

/-! ### Types -/

mutual

/-- A type is laid out with no more parentheses than it was read from. -/
theorem Grammar.IsType.lparens_le {ks : List TokenKind} {t : TypeExpr} :
    IsType ks t → lparens (tokens t.pieces) ≤ lparens ks
  | .named _ _ => by simp [TypeExpr.pieces]
  | @IsType.applied _ [] _ _ _ _ => by simp [TypeExpr.pieces]
  | @IsType.applied _ (_ :: _) _ _ _ h => by
      simpa [TypeExpr.pieces] using SepBy.typesLparens h
  | .tuple _ h => by simpa [TypeExpr.pieces] using SepBy.typesLparens h
  | .array _ h => by simpa [TypeExpr.pieces] using IsType.lparens_le h

/-- So are types between commas. -/
theorem Grammar.SepBy.typesLparens {ks : List TokenKind} {types : List TypeExpr} {comma : Bool} :
    SepBy IsType ks types comma →
      lparens (tokens (commaSeparated (TypeExpr.piecesList types))) ≤ lparens ks
  | .nil => Nat.le_refl _
  | .last h => IsType.lparens_le h
  | .cons h hs => by
      rw [TypeExpr.piecesList, lparens_commaSeparated_cons, lparens_append]
      exact Nat.add_le_add (IsType.lparens_le h)
        ((SepBy.typesLparens hs).trans (le_lparens_cons _ _))

end

/-- Type arguments are laid out with no more parentheses than they were read from. -/
theorem Grammar.IsPathTail.lparens_le {ks : List TokenKind} {names : List Name}
    {args : Option (List TypeExpr)} (h : IsPathTail ks names args) :
    lparens (tokens (TypeExpr.argumentPieces args)) ≤ lparens ks := by
  induction h with
  | done => exact Nat.le_refl _
  | segment name _ ih => exact ih.trans ((le_lparens_cons _ _).trans (le_lparens_cons _ _))
  | args h => simpa [TypeExpr.argumentPieces] using SepBy.typesLparens h

/-! ### Expressions -/

/-- The names of a reference have no parentheses. -/
theorem lparens_reference (target : Reference) : lparens (tokens target.pieces) = 0 := by
  cases target with
  | unqualified name => rfl
  | qualified qualifiers name =>
      induction qualifiers with
      | nil => rfl
      | cons q qualifiers ih => exact ih

/-- What binds as tight as the surroundings ask for is laid out without parentheses. -/
theorem parenthesized_of_le {level : Nat} {e : Expr} (h : level ≤ e.strength) (ps : List Piece) :
    parenthesized (e.strength < level) ps = ps := by
  rw [decide_eq_false (Nat.not_lt.2 h)]
  rfl

/-- A reference is laid out with no more parentheses than it was read from. -/
theorem Grammar.IsPathTail.reference_lparens_le {ks : List TokenKind} {names : List Name}
    {args : Option (List TypeExpr)} (h : IsPathTail ks names args) (first : Name)
    (target : Reference) (span : Span) :
    lparens (tokens (Expr.ref target args span).pieces) ≤ lparens (.ident first :: ks) := by
  rw [Expr.pieces, tokens_append, lparens_append, lparens_reference, Nat.zero_add]
  exact h.lparens_le.trans (le_lparens_cons _ _)

/-- An operand has at most one pair of parentheses around it. -/
theorem lparens_parenthesized_le (needed : Bool) (ps : List Piece) :
    lparens (tokens (parenthesized needed ps)) ≤ lparens (tokens ps) + 1 := by
  rw [lparens_parenthesized]
  exact Nat.add_le_add_left (Bool.toNat_le needed) _

/-- A binary operator is no parenthesis. -/
@[simp] theorem lparens_operator (op : BinaryOp) (ks : List TokenKind) :
    lparens (op.token :: ks) = lparens ks :=
  lparens_cons_of_ne (by cases op <;> decide) ks

/-- A prefix operator is no parenthesis. -/
theorem lparens_unaryPieces (op : UnaryOp) : lparens (tokens op.pieces) = 0 := by
  cases op <;> rfl

variable {ok : Name → Prop}

mutual

/-- The layout of an expression, as an operand at a level, has the fewest parentheses of what derives the
expression at this level. -/
theorem Grammar.IsExpr.lparens_le {level : Nat} {ks : List TokenKind} {e : Expr} :
    IsExpr level ks e → e.Spellable ok →
      lparens (tokens (parenthesized (e.strength < level) e.pieces)) ≤ lparens ks
  | .tighter h, he => by
      -- a lower level asks for parentheses around fewer operands
      have hle := IsExpr.lparens_le h he
      rw [lparens_parenthesized] at hle ⊢
      refine le_trans (Nat.add_le_add_left (Bool.toNat_le_toNat fun hlt => ?_) _) hle
      exact decide_eq_true (Nat.lt_succ_of_lt (of_decide_eq_true hlt))
  | @IsExpr.binary _ op _ _ l r k span hop hl hr, he => by
      have hl := IsExpr.lparens_le hl he.1
      have hr := (IsExpr.lparens_le hr he.2).trans (le_lparens_cons k _)
      obtain ⟨-, rfl⟩ := mem_operatorsAt.1 hop
      rw [parenthesized_of_le (by simp), Expr.pieces]
      simpa using Nat.add_le_add hl hr
  | @IsExpr.unary _ _ op _ h, he => by
      have hle := (IsExpr.lparens_le h he).trans (le_lparens_cons (unaryToken op) _)
      rw [parenthesized_of_le (by simp), Expr.pieces]
      simpa [lparens_unaryPieces] using hle
  | .call span hf hargs, he => by
      have hf := IsExpr.lparens_le hf he.1
      have hargs := SepBy.exprsLparens hargs he.2
      rw [parenthesized_of_le (by simp), Expr.pieces]
      simpa [Nat.add_assoc, Nat.add_comm 1] using Nat.add_le_add hf (Nat.succ_le_succ hargs)
  | .index span hb hi, he => by
      have hb := IsExpr.lparens_le hb he.1
      have hi := IsExpr.lparens_le hi he.2
      rw [parenthesized_of_le (Expr.strength_pos _)] at hi
      rw [parenthesized_of_le (by simp), Expr.pieces]
      simpa using Nat.add_le_add hb hi
  | .int value span, he => by
      rw [parenthesized_of_le (by rw [Expr.strength, if_neg (Int64.not_lt.2 he)])]
      exact Nat.le_refl _
  | .str _ _, _ | .unit _, _ => Nat.le_refl _
  | .bool value _, _ => by cases value <;> exact Nat.le_refl _
  | .unqualified name span h, _ => h.reference_lparens_le name _ span
  | .qualified first name span h, _ => h.reference_lparens_le first _ span
  | .paren h, he => by
      have hle := IsExpr.lparens_le h he
      rw [parenthesized_of_le (Expr.strength_pos _)] at hle
      exact (lparens_parenthesized_le _ _).trans (by simpa using hle)
  | .tuple span h hne _, he => by
      have hitems := SepBy.exprsLparens h he.2
      rw [parenthesized_of_le (by simp), Expr.pieces]
      split <;> simpa using hitems
  | .array span h, he => by
      have hitems := SepBy.exprsLparens h he
      rw [parenthesized_of_le (by simp), Expr.pieces]
      simpa using hitems

/-- Expressions between commas are laid out with no more parentheses than they were read from. -/
theorem Grammar.SepBy.exprsLparens {ks : List TokenKind} {items : List Expr} {comma : Bool} :
    SepBy (IsExpr 1) ks items comma → Expr.SpellableList ok items →
      lparens (tokens (commaSeparated (Expr.piecesList items))) ≤ lparens ks
  | .nil, _ => Nat.le_refl _
  | .last h, he => by
      have hle := IsExpr.lparens_le h he.1
      rwa [parenthesized_of_le (Expr.strength_pos _)] at hle
  | .cons h hs, he => by
      have hle := IsExpr.lparens_le h he.1
      rw [parenthesized_of_le (Expr.strength_pos _)] at hle
      rw [Expr.piecesList, lparens_commaSeparated_cons, lparens_append]
      exact Nat.add_le_add hle ((SepBy.exprsLparens hs he.2).trans (le_lparens_cons _ _))

end

/-! ### What legible pieces are parsed as -/

/-- The text of legible pieces is parsed as an expression, up to spans, iff their tokens derive it. -/
theorem Expr.parse_render_iff {ps : List Piece} (h : Legible ps) (e : Expr) :
    (∃ e', Expr.parse (render ps) = .ok e' ∧ e'.withoutSpans = e.withoutSpans) ↔
      IsExpr 1 (tokens ps) e := by
  obtain ⟨ts, hts, hkinds⟩ := h.tokenize_render
  rw [Expr.parse, Parser.onText, hts]
  exact Parser.onTokens_iff (fun fuel => sound_only (sound_expr fuel))
    (natural_onlyExpr Span.coherent_nowhere) IsExpr.onlyCompletes IsExpr.of_withoutSpans hkinds
    h.eof_notMem e

/-! ### Every pair is needed -/

/-- One pair less is one opening parenthesis less. -/
theorem Piece.OnePairLess.lparens {ps qs : List Piece} (h : OnePairLess ps qs) :
    lparens (tokens ps) = Freshen.lparens (tokens qs) + 1 := by
  obtain ⟨before, inside, after, rfl, rfl⟩ := h
  have hopen : Freshen.lparens (tokens [sign .lparen]) = 1 := rfl
  have hclose : Freshen.lparens (tokens [sign .rparen]) = 0 := rfl
  simp only [tokens_append, lparens_append, hopen, hclose]
  omega

/-- **No grouping parentheses are redundant.**  The layout of a parsed expression has grouping parentheses at
the places of `groupings` and nowhere else.  The layout without the pair at one of these places is the same
but for this pair, and its text is not parsed as the expression, up to spans. -/
theorem Expr.groupings_needed {source : String} {e : Expr} (h : Expr.parse source = .ok e) :
    (∀ keep : Place → Bool, (∀ p ∈ e.groupings, keep p = true) → e.piecesKeeping keep = e.pieces) ∧
      ∀ place ∈ e.groupings, OnePairLess e.pieces (e.piecesWithout place) ∧
        ∀ e', Expr.parse (render (e.piecesWithout place)) = .ok e' →
          e'.withoutSpans ≠ e.withoutSpans := by
  have he := Expr.spellable_of_parse h
  refine ⟨fun _ => piecesKeeping_eq e, fun place hplace => ?_⟩
  have hless := e.onePairLess hplace
  refine ⟨hless, fun e' hparse hspans => ?_⟩
  have hlegible := (Expr.settled_keeping (fun p => p ≠ place) e he).legible
  have hderives := (Expr.parse_render_iff hlegible e).1 ⟨e', hparse, hspans⟩
  -- one pair less than in the layout, which has the fewest already
  have hmin := hderives.lparens_le he
  rw [parenthesized_of_le e.strength_pos, hless.lparens] at hmin
  exact Nat.not_succ_le_self _ hmin

/-- In the text of `-(a - (b - c))[(-d)(e)]` there are three pairs, and the one around `b - c` is needed. -/
theorem Expr.groupings_needed_nested : ∃ e,
    Expr.parse "-((a - ((b - c))))[(-d)(e)]" = .ok e ∧
      e.groupings = [[0, 0], [0, 0, 1], [0, 1, 0]] ∧ e.format = "-(a - (b - c))[(-d)(e)]" ∧
      render (e.piecesWithout [0, 0, 1]) = "-(a - b - c)[(-d)(e)]" ∧
      OnePairLess e.pieces (e.piecesWithout [0, 0, 1]) ∧
      ∀ e', Expr.parse "-(a - b - c)[(-d)(e)]" = .ok e' → e'.withoutSpans ≠ e.withoutSpans := by
  obtain ⟨e, he, hlayouts⟩ := Except.exists_map_eq_ok (show
    (Expr.parse "-((a - ((b - c))))[(-d)(e)]").map
      (fun e => (e.groupings, e.format, render (e.piecesWithout [0, 0, 1]))) =
    .ok ([[0, 0], [0, 0, 1], [0, 1, 0]], "-(a - (b - c))[(-d)(e)]", "-(a - b - c)[(-d)(e)]") by
      decide +kernel)
  obtain ⟨hgroupings, hlayouts⟩ := Prod.mk.inj hlayouts
  obtain ⟨hformat, hwithout⟩ := Prod.mk.inj hlayouts
  have hplace : [0, 0, 1] ∈ e.groupings := by
    rw [hgroupings]
    exact List.mem_cons_of_mem _ List.mem_cons_self
  obtain ⟨hless, hne⟩ := (Expr.groupings_needed he).2 [0, 0, 1] hplace
  exact ⟨e, he, hgroupings, hformat, hwithout, hless, hwithout ▸ hne⟩

end Freshen
