import Mathlib
import Freshen.Proofs.Layout.RoundTrip

/-!
# Negative integers

No integer in a parsed expression is negative, since a sign is read as a negation.  An expression that is
built in another way may have negative integers, and their text is that of negations: all but that of
`-2 ^ 63`, which has no counterpart among the positive integers and so no text at all.

- `Expr.ints`: the integers in an expression.
- `Expr.Writable`: the names, the paths and the tuples of an expression can be written down.
- `Expr.signed`: an expression with negations in place of its negative integers.

**Key results.** `Expr.spellable_signed`: when the expression with negations can be written down;
`Expr.chars_signed`: it has the text of the expression; `Expr.parse_format_eq_signed_iff`: an expression with
negative integers is parsed back with negations iff `-2 ^ 63` is not among its integers.
-/

namespace Freshen

open Piece

namespace Expr

mutual

/-- The integers in an expression. -/
def ints : Expr → List Int64
  | .int value _ => [value]
  | .bool _ _ | .str _ _ | .unit _ | .ref _ _ _ => []
  | .unary _ e _ => ints e
  | .binary _ l r _ => ints l ++ ints r
  | .call f args _ => ints f ++ intsList args
  | .index b i _ => ints b ++ ints i
  | .tuple items _ | .array items _ => intsList items
termination_by structural e => e

/-- The integers in several expressions. -/
def intsList : List Expr → List Int64
  | [] => []
  | e :: es => ints e ++ intsList es
termination_by structural es => es

end

mutual

/-- All names are identifiers, every path of global names has a qualifier and no tuple is empty.  Nothing is
asked of the integers. -/
def Writable : Expr → Prop
  | .int _ _ | .bool _ _ | .str _ _ | .unit _ => True
  | .ref target args _ => target.Spellable IsIdentifier ∧ ∀ ts ∈ args, TypeExpr.SpellableList ts
  | .unary _ e _ => Writable e
  | .binary _ l r _ => Writable l ∧ Writable r
  | .call f args _ => Writable f ∧ WritableList args
  | .index b i _ => Writable b ∧ Writable i
  | .tuple items _ => items ≠ [] ∧ WritableList items
  | .array items _ => WritableList items
termination_by structural e => e

/-- The same of several expressions. -/
def WritableList : List Expr → Prop
  | [] => True
  | e :: es => Writable e ∧ WritableList es
termination_by structural es => es

end

mutual

/-- The expression with a negation in place of every negative integer. -/
def signed : Expr → Expr
  | .int value span =>
      if value < 0 then .unary .neg (.int (-value) span) span else .int value span
  | .bool value span => .bool value span
  | .str value span => .str value span
  | .unit span => .unit span
  | .ref target args span => .ref target args span
  | .unary op e span => .unary op (signed e) span
  | .binary op l r span => .binary op (signed l) (signed r) span
  | .call f args span => .call (signed f) (signedList args) span
  | .index b i span => .index (signed b) (signed i) span
  | .tuple items span => .tuple (signedList items) span
  | .array items span => .array (signedList items) span
termination_by structural e => e

/-- The same of several expressions. -/
def signedList : List Expr → List Expr
  | [] => []
  | e :: es => signed e :: signedList es
termination_by structural es => es

end

end Expr

/-! ### The text of a negative integer -/

/-- Among the integers, `-2 ^ 63` alone is not the negation of its negation. -/
theorem Int64.toInt_neg_of_ne {value : Int64} (h : value ≠ Int64.minValue) :
    (-value).toInt = -value.toInt := by
  have hne : value.toInt ≠ -2 ^ 63 := fun hmin =>
    h (Int64.toInt_inj.1 (hmin.trans Int64.toInt_minValue.symm))
  have hle := value.le_toInt
  have hlt := value.toInt_lt
  rw [Int64.toInt_neg, Int.bmod_eq_of_le]
  · omega
  · omega

/-- The negation of a negative integer is not negative, unless it is the smallest one. -/
theorem Int64.zero_le_neg_iff {value : Int64} (h : value < 0) :
    0 ≤ -value ↔ value ≠ Int64.minValue := by
  constructor
  · rintro hle rfl
    exact absurd hle (by decide)
  · intro hne
    have hlt := Int64.lt_iff_toInt_lt.1 h
    rw [Int64.toInt_zero] at hlt
    rw [Int64.le_iff_toInt_le, Int64.toInt_neg_of_ne hne, Int64.toInt_zero]
    omega

/-- A negative integer is spelled as a minus sign and its negation, unless it is the smallest one. -/
theorem TokenKind.toList_spelling_of_neg {value : Int64} (h : value < 0)
    (hne : value ≠ Int64.minValue) : (TokenKind.int value).spelling.toList =
      '-' :: (TokenKind.int (-value)).spelling.toList := by
  have hlt := Int64.lt_iff_toInt_lt.1 h
  obtain ⟨n, hn⟩ := Int.eq_negSucc_of_lt_zero hlt
  rw [spelling, spelling, Int64.toInt_neg_of_ne hne, hn]
  show ("-" ++ Nat.repr (n + 1)).toList = _
  rw [String.toList_append]
  rfl

namespace Expr

variable {ok : Name → Prop}

/-! ### What can be written down -/

/-- As many expressions come out as go in, so that none come out of none. -/
theorem signedList_eq_nil {es : List Expr} : signedList es = [] ↔ es = [] := by
  cases es <;> simp [signedList]

mutual

/-- With negations, an expression can be written down iff nothing but its negative integers stood in the
way and `-2 ^ 63` is not among them. -/
theorem spellable_signed : ∀ e : Expr,
    e.signed.Spellable IsIdentifier ↔ e.Writable ∧ Int64.minValue ∉ e.ints
  | .int value span => by
      unfold signed
      by_cases h : value < 0
      · rw [if_pos h]
        simpa [Spellable, Writable, ints, eq_comm] using Int64.zero_le_neg_iff h
      · have hne : Int64.minValue ≠ value := by
          rintro rfl
          exact h (by decide)
        rw [if_neg h]
        simpa [Spellable, Writable, ints, hne] using Int64.not_lt.1 h
  | .bool _ _ | .str _ _ | .unit _ => by simp [signed, Spellable, Writable, ints]
  | .ref _ _ _ => by simp [signed, Spellable, Writable, ints]
  | .unary _ e _ => spellable_signed e
  | .binary _ l r _ => by
      simp only [signed, Spellable, Writable, ints, spellable_signed l, spellable_signed r,
        List.mem_append, not_or]
      exact and_and_and_comm
  | .call f args _ => by
      simp only [signed, Spellable, Writable, ints, spellable_signed f, spellableList_signed args,
        List.mem_append, not_or]
      exact and_and_and_comm
  | .index b i _ => by
      simp only [signed, Spellable, Writable, ints, spellable_signed b, spellable_signed i,
        List.mem_append, not_or]
      exact and_and_and_comm
  | .tuple items _ => by
      simp only [signed, Spellable, Writable, ints, spellableList_signed items, ne_eq,
        signedList_eq_nil]
      exact and_assoc.symm
  | .array items _ => spellableList_signed items

/-- The signed expressions of a list can be written down iff the list is writable and without the smallest
integer. -/
theorem spellableList_signed : ∀ es : List Expr,
    SpellableList IsIdentifier (signedList es) ↔ WritableList es ∧ Int64.minValue ∉ intsList es
  | [] => by simp [signedList, SpellableList, WritableList, intsList]
  | e :: es => by
      simp only [signedList, SpellableList, WritableList, intsList, spellable_signed e,
        spellableList_signed es, List.mem_append, not_or]
      exact and_and_and_comm

end

/-! ### The text -/

/-- A negation binds like the integer in whose place it stands. -/
@[simp] theorem strength_signed (e : Expr) : e.signed.strength = e.strength := by
  cases e with
  | int value =>
      unfold signed
      by_cases h : value < 0
      · rw [if_pos h, strength, strength, if_pos h]
      · rw [if_neg h]
  | _ => rfl

/-- As many expressions come out as go in. -/
theorem length_signedList (es : List Expr) : (signedList es).length = es.length := by
  induction es with
  | nil => rfl
  | cons e es ih => exact congrArg Nat.succ ih

/-- What has the same characters has the same between parentheses. -/
theorem chars_parenthesized {ps qs : List Piece} (h : ps.flatMap chars = qs.flatMap chars)
    (needed : Bool) :
    (parenthesized needed ps).flatMap chars = (parenthesized needed qs).flatMap chars := by
  unfold parenthesized
  split
  · simp [h]
  · exact h

mutual

/-- The text of an expression is that with negations in place of its negative integers. -/
theorem chars_signed : ∀ e : Expr, Int64.minValue ∉ e.ints →
    e.signed.pieces.flatMap chars = e.pieces.flatMap chars
  | .int value span, hmin => by
      have hne : value ≠ Int64.minValue := fun h => hmin (h ▸ List.mem_singleton_self _)
      unfold signed
      by_cases h : value < 0
      · have hpos := Int64.not_lt.2 ((Int64.zero_le_neg_iff h).2 hne)
        -- its negation is positive, so it stands behind the sign without parentheses
        have hparens : parenthesized ((int (-value) span).strength < Precedence.unary)
            (int (-value) span).pieces = [token (.int (-value))] := by
          rw [strength, if_neg hpos]
          rfl
        rw [if_pos h]
        show (UnaryOp.neg.pieces ++ parenthesized ((int (-value) span).strength < Precedence.unary)
          (int (-value) span).pieces).flatMap chars = _
        have hsign : UnaryOp.neg.pieces.flatMap chars = ['-'] := rfl
        rw [hparens, pieces, List.flatMap_append, hsign]
        simpa [chars] using (TokenKind.toList_spelling_of_neg h hne).symm
      · rw [if_neg h]
  | .bool _ _, _ | .str _ _, _ | .unit _, _ | .ref _ _ _, _ => rfl
  | .unary op e _, hmin => by
      have he := chars_parenthesized (chars_signed e hmin) (e.strength < Precedence.unary)
      simp only [signed, pieces, strength_signed, List.flatMap_append, he]
  | .binary op l r _, hmin => by
      obtain ⟨hl, hr⟩ := not_or.1 (List.mem_append.not.1 hmin)
      have hl := chars_parenthesized (chars_signed l hl) (l.strength < op.precedence)
      have hr := chars_parenthesized (chars_signed r hr) (r.strength < op.precedence + 1)
      simp only [signed, pieces, strength_signed, List.flatMap_append, hl, hr]
  | .call f args _, hmin => by
      obtain ⟨hf, hargs⟩ := not_or.1 (List.mem_append.not.1 hmin)
      have hf := chars_parenthesized (chars_signed f hf) (f.strength < Precedence.postfixed)
      simp only [signed, pieces, strength_signed, List.flatMap_append, hf,
        chars_signedList args hargs]
  | .index b i _, hmin => by
      obtain ⟨hb, hi⟩ := not_or.1 (List.mem_append.not.1 hmin)
      have hb := chars_parenthesized (chars_signed b hb) (b.strength < Precedence.postfixed)
      simp only [signed, pieces, strength_signed, List.flatMap_append, hb, chars_signed i hi]
  | .tuple items _, hmin => by
      simp only [signed, pieces, length_signedList, List.flatMap_append,
        chars_signedList items hmin]
  | .array items _, hmin => by
      simp only [signed, pieces, List.flatMap_append, chars_signedList items hmin]

/-- Without the smallest integer, signed expressions between commas have the characters of the expressions. -/
theorem chars_signedList : ∀ es : List Expr, Int64.minValue ∉ intsList es →
    (commaSeparated (piecesList (signedList es))).flatMap chars =
      (commaSeparated (piecesList es)).flatMap chars
  | [], _ => rfl
  | [e], hmin => chars_signed e (not_or.1 (List.mem_append.not.1 hmin)).1
  | e :: e' :: es, hmin => by
      obtain ⟨he, hes⟩ := not_or.1 (List.mem_append.not.1 hmin)
      have hes := chars_signedList (e' :: es) hes
      show (e.signed.pieces ++ [sign .comma, space] ++ commaSeparated (piecesList (signedList
          (e' :: es)))).flatMap chars =
        (e.pieces ++ [sign .comma, space] ++ commaSeparated (piecesList (e' :: es))).flatMap chars
      simp only [List.flatMap_append, chars_signed e he, hes]

end

/-- Without the smallest integer, an expression and the signed one are printed the same. -/
theorem format_signed {e : Expr} (h : Int64.minValue ∉ e.ints) : e.signed.format = e.format := by
  apply String.toList_inj.1
  rw [format, format, toList_render, toList_render]
  exact e.chars_signed h

/-- **Negative integers are read back as negations, all but one.**  The text of an expression whose names,
paths and tuples can be written down is parsed as the expression with negations in place of its negative
integers, up to spans, iff `-2 ^ 63` is not among its integers. -/
theorem parse_format_eq_signed_iff {e : Expr} (h : e.Writable) :
    (∃ e', Expr.parse e.format = .ok e' ∧ e'.withoutSpans = e.signed.withoutSpans) ↔
      Int64.minValue ∉ e.ints := by
  constructor
  · -- the digits of `2 ^ 63` denote no integer, so what is parsed has no counterpart of `-2 ^ 63`
    rintro ⟨e', hparse, hspans⟩
    have hiff : ∀ d : Expr, d.withoutSpans.Spellable IsIdentifier ↔ d.Spellable IsIdentifier :=
      spellable_mapSpans IsIdentifier _
    have hspellable := (hiff e').2 (Expr.spellable_of_parse hparse)
    rw [hspans, hiff] at hspellable
    exact (e.spellable_signed.1 hspellable).2
  · intro hmin
    rw [← format_signed hmin]
    exact Expr.parse_format (e.spellable_signed.2 ⟨h, hmin⟩)

/-- A negative integer that is called, one as an index, one after a sign and one as a right operand. -/
theorem parse_format_eq_signed_operands :
    ∃ e, e = binary .sub (index (call (int (-4) .nowhere) [] .nowhere)
        (unary .neg (int (-1) .nowhere) .nowhere) .nowhere) (int (-2) .nowhere) .nowhere ∧
      e.format = "(-4)()[--1] - -2" ∧ e.Writable ∧
      ∃ e', Expr.parse e.format = .ok e' ∧ e'.withoutSpans = e.signed.withoutSpans := by
  refine ⟨_, rfl, by decide +kernel, ?_, (parse_format_eq_signed_iff ?_).2 (by decide)⟩
  · simp [Writable, WritableList]
  · simp [Writable, WritableList]

/-- `-2 ^ 63` alone is an expression whose text is not read back. -/
theorem not_parse_format_minValue : (int Int64.minValue .nowhere).Writable ∧
    (int Int64.minValue .nowhere).format = "-9223372036854775808" ∧
    Expr.parse (int Int64.minValue .nowhere).format =
      .error (.lexical (.overflow "9223372036854775808" ⟨1, 20⟩)) ∧
    ¬ ∃ e', Expr.parse (int Int64.minValue .nowhere).format = .ok e' ∧
      e'.withoutSpans = (int Int64.minValue .nowhere).signed.withoutSpans := by
  have hparse : Expr.parse (int Int64.minValue .nowhere).format =
      .error (.lexical (.overflow "9223372036854775808" ⟨1, 20⟩)) := by decide +kernel
  refine ⟨trivial, by decide +kernel, hparse, ?_⟩
  rw [hparse]
  exact nofun

end Expr

end Freshen
