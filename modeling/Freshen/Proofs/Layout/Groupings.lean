import Freshen.Layout.Printer

/-!
# Grouping parentheses

The parentheses that a layout puts around an operand because the operand binds less tight than its
surroundings ask for.  Other parentheses, such as those of a call or a tuple, are no grouping ones.

- `Expr.Place`: a place in an expression.
- `Expr.groupings`: the places with grouping parentheses.
- `Expr.piecesKeeping`: the layout with some of the pairs left out.
- `Expr.piecesWithout`: the layout with one pair left out.
- `Piece.OnePairLess`: what is left of pieces without one pair of parentheses.

**Key results.** `Expr.piecesKeeping_eq`: with these pairs kept, this is the layout, so there are no others;
`Expr.onePairLess`: leaving out the pair at a place takes one pair of parentheses from the layout, and nothing
else.
-/

namespace Freshen

open Piece

namespace Piece

/-- The pieces `qs` are `ps` without one pair of parentheses. -/
def OnePairLess (ps qs : List Piece) : Prop :=
  ∃ before inside after, ps = before ++ [sign .lparen] ++ inside ++ [sign .rparen] ++ after ∧
    qs = before ++ inside ++ after

namespace OnePairLess

variable {ps qs : List Piece}

/-- The pair may stand after other pieces. -/
theorem append_left (h : OnePairLess ps qs) (xs : List Piece) :
    OnePairLess (xs ++ ps) (xs ++ qs) := by
  obtain ⟨before, inside, after, rfl, rfl⟩ := h
  exact ⟨xs ++ before, inside, after, by simp, by simp⟩

/-- The pair may stand before other pieces. -/
theorem append_right (h : OnePairLess ps qs) (ys : List Piece) :
    OnePairLess (ps ++ ys) (qs ++ ys) := by
  obtain ⟨before, inside, after, rfl, rfl⟩ := h
  exact ⟨before, inside, after ++ ys, by simp, by simp⟩

/-- The pair may stand inside other parentheses. -/
theorem parenthesized (h : OnePairLess ps qs) (needed : Bool) :
    OnePairLess (parenthesized needed ps) (parenthesized needed qs) := by
  cases needed with
  | false => exact h
  | true => exact (h.append_left _).append_right _

/-- A pair is left out of the first of several items. -/
theorem commaSeparated_head (h : OnePairLess ps qs) (items : List (List Piece)) :
    OnePairLess (commaSeparated (ps :: items)) (commaSeparated (qs :: items)) := by
  cases items with
  | nil => exact h
  | cons item items => exact (h.append_right _).append_right _

/-- A pair is left out of the items after the first. -/
theorem commaSeparated_tail {item item' : List Piece} {items items' : List (List Piece)}
    (h : OnePairLess (commaSeparated (item :: items)) (commaSeparated (item' :: items')))
    (first : List Piece) : OnePairLess (commaSeparated (first :: item :: items))
      (commaSeparated (first :: item' :: items')) :=
  h.append_left _

end OnePairLess

end Piece

namespace Expr

/-- A place in an expression: which operand or item to turn to at each node on the way from the root. -/
abbrev Place := List Nat

/-- The operand number `i` of a node that asks for the strength `level`, with what is laid out `inside`. -/
def grouped (keep : Place → Bool) (level i : Nat) (e : Expr) (inside : List Piece) : List Piece :=
  parenthesized (e.strength < level && keep [i]) inside

mutual

/-- The layout of an expression, with grouping parentheses only around what is at a place to `keep`
them. -/
def piecesKeeping (keep : Place → Bool) : Expr → List Piece
  | .int value _ => [token (.int value)]
  | .bool value _ => [word (if value then .true_ else .false_)]
  | .str value _ => [token (.str value)]
  | .unit _ => [sign .lparen, sign .rparen]
  | .ref target args _ => target.pieces ++ TypeExpr.argumentPieces args
  | .unary op e _ =>
      op.pieces ++ grouped keep Precedence.unary 0 e (piecesKeeping (fun p => keep (0 :: p)) e)
  | .binary op l r _ =>
      grouped keep op.precedence 0 l (piecesKeeping (fun p => keep (0 :: p)) l) ++
        [space, token op.token, space] ++
        grouped keep (op.precedence + 1) 1 r (piecesKeeping (fun p => keep (1 :: p)) r)
  | .call f args _ =>
      grouped keep Precedence.postfixed 0 f (piecesKeeping (fun p => keep (0 :: p)) f) ++
        [sign .lparen] ++ commaSeparated (piecesKeepingList keep 1 args) ++ [sign .rparen]
  | .index b i _ =>
      grouped keep Precedence.postfixed 0 b (piecesKeeping (fun p => keep (0 :: p)) b) ++
        [sign .lbracket] ++ piecesKeeping (fun p => keep (1 :: p)) i ++ [sign .rbracket]
  | .tuple items _ =>
      [sign .lparen] ++ commaSeparated (piecesKeepingList keep 0 items) ++
        (if items.length = 1 then [sign .comma] else []) ++ [sign .rparen]
  | .array items _ =>
      [sign .lbracket] ++ commaSeparated (piecesKeepingList keep 0 items) ++ [sign .rbracket]
termination_by structural e => e

/-- The layouts of several expressions, the first of which is item number `i`. -/
def piecesKeepingList (keep : Place → Bool) (i : Nat) : List Expr → List (List Piece)
  | [] => []
  | e :: es => piecesKeeping (fun p => keep (i :: p)) e :: piecesKeepingList keep (i + 1) es
termination_by structural es => es

end

/-- The places of the operand number `i` and in it that have grouping parentheses. -/
def groupingsOf (level i : Nat) (e : Expr) (inside : List Place) : List Place :=
  (if e.strength < level then [[i]] else []) ++ inside.map (i :: ·)

mutual

/-- The places of an expression where its layout has grouping parentheses. -/
def groupings : Expr → List Place
  | .int _ _ | .bool _ _ | .str _ _ | .unit _ | .ref _ _ _ => []
  | .unary _ e _ => groupingsOf Precedence.unary 0 e (groupings e)
  | .binary op l r _ =>
      groupingsOf op.precedence 0 l (groupings l) ++
        groupingsOf (op.precedence + 1) 1 r (groupings r)
  | .call f args _ => groupingsOf Precedence.postfixed 0 f (groupings f) ++ groupingsList 1 args
  | .index b i _ =>
      groupingsOf Precedence.postfixed 0 b (groupings b) ++ (groupings i).map (1 :: ·)
  | .tuple items _ | .array items _ => groupingsList 0 items
termination_by structural e => e

/-- The places in several expressions, the first of which is item number `i`. -/
def groupingsList (i : Nat) : List Expr → List Place
  | [] => []
  | e :: es => (groupings e).map (i :: ·) ++ groupingsList (i + 1) es
termination_by structural es => es

end

/-- The layout of an expression without the grouping parentheses at a place. -/
def piecesWithout (place : Place) (e : Expr) : List Piece := e.piecesKeeping fun p => p ≠ place

/-! ### Every pair kept -/

/-- Where the pair is kept, an operand is laid out as always. -/
theorem grouped_eq {keep : Place → Bool} {level i : Nat} {e : Expr}
    (h : e.strength < level → keep [i] = true) (inside : List Piece) :
    grouped keep level i e inside = parenthesized (e.strength < level) inside := by
  unfold grouped
  by_cases hlt : e.strength < level
  · rw [h hlt, Bool.and_true]
  · rw [decide_eq_false hlt, Bool.false_and]

/-- To keep all pairs at and in an operand is to keep the one around it and those inside. -/
theorem forall_mem_groupingsOf {level i : Nat} {e : Expr} {inside : List Place}
    {keep : Place → Bool} (h : ∀ p ∈ groupingsOf level i e inside, keep p = true) :
    (e.strength < level → keep [i] = true) ∧ ∀ p ∈ inside, keep (i :: p) = true := by
  obtain ⟨hpair, hinside⟩ := List.forall_mem_append.1 h
  refine ⟨fun hlt => hpair [i] ?_, List.forall_mem_map.1 hinside⟩
  rw [if_pos hlt]
  exact List.mem_singleton_self [i]

mutual

/-- The layout with the pairs at the places of `groupings` kept is that of the expression, whatever
`keep` says of other places: it has grouping parentheses nowhere else. -/
theorem piecesKeeping_eq : ∀ (e : Expr) {keep : Place → Bool},
    (∀ p ∈ e.groupings, keep p = true) → e.piecesKeeping keep = e.pieces
  | .int _ _, _, _ | .bool _ _, _, _ | .str _ _, _, _ | .unit _, _, _ | .ref _ _ _, _, _ => rfl
  | .unary _ e _, keep, h => by
      obtain ⟨hpair, he⟩ := forall_mem_groupingsOf h
      rw [piecesKeeping, pieces, grouped_eq hpair, piecesKeeping_eq e he]
  | .binary _ l r _, keep, h => by
      obtain ⟨hleft, hright⟩ := List.forall_mem_append.1 h
      obtain ⟨hlpair, hl⟩ := forall_mem_groupingsOf hleft
      obtain ⟨hrpair, hr⟩ := forall_mem_groupingsOf hright
      rw [piecesKeeping, pieces, grouped_eq hlpair, grouped_eq hrpair, piecesKeeping_eq l hl,
        piecesKeeping_eq r hr]
  | .call f args _, keep, h => by
      obtain ⟨hcallee, hargs⟩ := List.forall_mem_append.1 h
      obtain ⟨hpair, hf⟩ := forall_mem_groupingsOf hcallee
      rw [piecesKeeping, pieces, grouped_eq hpair, piecesKeeping_eq f hf,
        piecesKeepingList_eq args hargs]
  | .index b i _, keep, h => by
      obtain ⟨hbase, hi⟩ := List.forall_mem_append.1 h
      obtain ⟨hpair, hb⟩ := forall_mem_groupingsOf hbase
      have hi := List.forall_mem_map.1 hi
      rw [piecesKeeping, pieces, grouped_eq hpair, piecesKeeping_eq b hb, piecesKeeping_eq i hi]
  | .tuple items _, keep, h => by rw [piecesKeeping, pieces, piecesKeepingList_eq items h]
  | .array items _, keep, h => by rw [piecesKeeping, pieces, piecesKeepingList_eq items h]

/-- Items are laid out as always if all of their pairs are kept. -/
theorem piecesKeepingList_eq : ∀ (es : List Expr) {keep : Place → Bool} {i : Nat},
    (∀ p ∈ groupingsList i es, keep p = true) → piecesKeepingList keep i es = piecesList es
  | [], _, _, _ => rfl
  | e :: es, keep, i, h => by
      obtain ⟨he, hes⟩ := List.forall_mem_append.1 h
      have he := List.forall_mem_map.1 he
      rw [piecesKeepingList, piecesList, piecesKeeping_eq e he, piecesKeepingList_eq es hes]

end

/-! ### One pair left out -/

/-- A pair at or in an operand is the one around it, which it needs, or one of those inside. -/
theorem exists_of_mem_groupingsOf {level i : Nat} {e : Expr} {inside : List Place} {place : Place}
    (h : place ∈ groupingsOf level i e inside) :
    ∃ q, place = i :: q ∧ (q = [] ∧ e.strength < level ∨ q ∈ inside) := by
  rcases List.mem_append.1 h with h | h
  · split at h
    case isTrue hlt => exact ⟨[], List.mem_singleton.1 h, .inl ⟨rfl, hlt⟩⟩
    case isFalse => exact absurd h List.not_mem_nil
  · obtain ⟨q, hq, rfl⟩ := List.mem_map.1 h
    exact ⟨q, rfl, .inr hq⟩

/-- A pair in a list of items is one in an item. -/
theorem exists_of_mem_groupingsList {i : Nat} {es : List Expr} {place : Place}
    (h : place ∈ groupingsList i es) : ∃ j q, i ≤ j ∧ place = j :: q := by
  induction es generalizing i with
  | nil => exact absurd h List.not_mem_nil
  | cons e es ih =>
      rcases List.mem_append.1 h with h | h
      · obtain ⟨q, -, rfl⟩ := List.mem_map.1 h
        exact ⟨i, q, Nat.le_refl i, rfl⟩
      · obtain ⟨j, q, hj, rfl⟩ := ih h
        exact ⟨j, q, Nat.le_of_succ_le hj, rfl⟩

/-- No grouping parentheses stand around the whole expression. -/
theorem ne_nil_of_mem_groupings {e : Expr} {place : Place} (h : place ∈ e.groupings) :
    place ≠ [] := by
  have hcons : ∃ i q, place = i :: q := by
    cases e with
    | int | bool | str | unit | ref => exact absurd h List.not_mem_nil
    | unary op e =>
        obtain ⟨q, rfl, -⟩ := exists_of_mem_groupingsOf h
        exact ⟨_, q, rfl⟩
    | binary op l r =>
        rcases List.mem_append.1 h with h | h
        · obtain ⟨q, rfl, -⟩ := exists_of_mem_groupingsOf h
          exact ⟨_, q, rfl⟩
        · obtain ⟨q, rfl, -⟩ := exists_of_mem_groupingsOf h
          exact ⟨_, q, rfl⟩
    | call f args =>
        rcases List.mem_append.1 h with h | h
        · obtain ⟨q, rfl, -⟩ := exists_of_mem_groupingsOf h
          exact ⟨_, q, rfl⟩
        · obtain ⟨j, q, -, rfl⟩ := exists_of_mem_groupingsList h
          exact ⟨j, q, rfl⟩
    | index b i =>
        rcases List.mem_append.1 h with h | h
        · obtain ⟨q, rfl, -⟩ := exists_of_mem_groupingsOf h
          exact ⟨_, q, rfl⟩
        · obtain ⟨q, -, rfl⟩ := List.mem_map.1 h
          exact ⟨_, q, rfl⟩
    | tuple items | array items =>
        obtain ⟨j, q, -, rfl⟩ := exists_of_mem_groupingsList h
        exact ⟨j, q, rfl⟩
  obtain ⟨i, q, rfl⟩ := hcons
  exact List.cons_ne_nil i q

/-- What is at another operand or item keeps its pairs. -/
theorem piecesKeeping_other {i j : Nat} (hij : j ≠ i) (q : Place) (e : Expr) :
    e.piecesKeeping (fun p => j :: p ≠ i :: q) = e.pieces :=
  piecesKeeping_eq e fun _ _ => decide_eq_true fun h => hij (List.cons.inj h).1

/-- Operands other than the one in question keep their pair. -/
theorem grouped_other {i j : Nat} (hij : j ≠ i) (q : Place) (level : Nat) (e : Expr)
    (inside : List Piece) : grouped (fun p => p ≠ i :: q) level j e inside =
      parenthesized (e.strength < level) inside := by
  have hne : [j] ≠ i :: q := fun h => hij (List.cons.inj h).1
  exact grouped_eq (fun _ => decide_eq_true hne) inside

/-- Items after the one in question keep their pairs. -/
theorem piecesKeepingList_other {i j : Nat} (hij : i < j) (q : Place) (es : List Expr) :
    piecesKeepingList (fun p => p ≠ i :: q) j es = piecesList es := by
  refine piecesKeepingList_eq es fun p hp => decide_eq_true fun h => ?_
  obtain ⟨k, p, hk, rfl⟩ := exists_of_mem_groupingsList hp
  exact Nat.ne_of_gt (Nat.lt_of_lt_of_le hij hk) (List.cons.inj h).1

/-- To leave out a pair of an operand is to leave it out inside the operand. -/
theorem piecesKeeping_same (i : Nat) (q : Place) (e : Expr) :
    e.piecesKeeping (fun p => i :: p ≠ i :: q) = e.piecesWithout q := by
  simp [piecesWithout]

/-- A pair is left out around an operand or in it. -/
theorem onePairLess_grouped {level i : Nat} {e : Expr} {q : Place}
    (hq : q = [] ∧ e.strength < level ∨ q ∈ e.groupings)
    (ih : q ∈ e.groupings → OnePairLess e.pieces (e.piecesWithout q)) :
    OnePairLess (parenthesized (e.strength < level) e.pieces)
      (grouped (fun p => p ≠ i :: q) level i e (e.piecesKeeping fun p => i :: p ≠ i :: q)) := by
  rw [piecesKeeping_same]
  rcases hq with ⟨rfl, hlt⟩ | hq
  · have hkeep : e.piecesWithout [] = e.pieces :=
      piecesKeeping_eq e fun p hp => decide_eq_true (ne_nil_of_mem_groupings hp)
    exact ⟨[], e.pieces, [], by simp [parenthesized, hlt], by simp [grouped, parenthesized, hkeep]⟩
  · have hne : [i] ≠ i :: q := fun h => ne_nil_of_mem_groupings hq (List.cons.inj h).2.symm
    rw [grouped_eq fun _ => decide_eq_true hne]
    exact (ih hq).parenthesized _

mutual

/-- The layout without the grouping parentheses at a place is the layout without one pair of
parentheses. -/
theorem onePairLess : ∀ (e : Expr) {place : Place}, place ∈ e.groupings →
    OnePairLess e.pieces (e.piecesWithout place)
  | .int _ _, _, h | .bool _ _, _, h | .str _ _, _, h | .unit _, _, h | .ref _ _ _, _, h =>
      absurd h List.not_mem_nil
  | .unary op e _, place, h => by
      obtain ⟨q, rfl, hq⟩ := exists_of_mem_groupingsOf h
      exact (onePairLess_grouped hq (onePairLess e)).append_left _
  | .binary op l r _, place, h => by
      rw [piecesWithout, piecesKeeping, pieces]
      rcases List.mem_append.1 h with h | h
      · obtain ⟨q, rfl, hq⟩ := exists_of_mem_groupingsOf h
        rw [piecesKeeping_other (j := 1) (by decide), grouped_other (j := 1) (by decide)]
        exact ((onePairLess_grouped hq (onePairLess l)).append_right _).append_right _
      · obtain ⟨q, rfl, hq⟩ := exists_of_mem_groupingsOf h
        rw [piecesKeeping_other (j := 0) (by decide), grouped_other (j := 0) (by decide)]
        exact (onePairLess_grouped hq (onePairLess r)).append_left _
  | .call f args _, place, h => by
      rw [piecesWithout, piecesKeeping, pieces]
      rcases List.mem_append.1 h with h | h
      · obtain ⟨q, rfl, hq⟩ := exists_of_mem_groupingsOf h
        rw [piecesKeepingList_other (by decide)]
        exact (((onePairLess_grouped hq (onePairLess f)).append_right _).append_right _).append_right _
      · have hargs := onePairLess_list args h
        obtain ⟨j, q, hj, rfl⟩ := exists_of_mem_groupingsList h
        rw [piecesKeeping_other (Nat.ne_of_lt hj), grouped_other (Nat.ne_of_lt hj)]
        exact (hargs.append_left _).append_right _
  | .index b i _, place, h => by
      rw [piecesWithout, piecesKeeping, pieces]
      rcases List.mem_append.1 h with h | h
      · obtain ⟨q, rfl, hq⟩ := exists_of_mem_groupingsOf h
        rw [piecesKeeping_other (j := 1) (by decide)]
        exact (((onePairLess_grouped hq (onePairLess b)).append_right _).append_right _).append_right _
      · obtain ⟨q, hq, rfl⟩ := List.mem_map.1 h
        rw [piecesKeeping_other (j := 0) (by decide), grouped_other (j := 0) (by decide),
          piecesKeeping_same]
        exact ((onePairLess i hq).append_left _).append_right _
  | .tuple items _, place, h =>
      (((onePairLess_list items h).append_left _).append_right _).append_right _
  | .array items _, place, h => ((onePairLess_list items h).append_left _).append_right _

/-- The same for items with commas between them. -/
theorem onePairLess_list : ∀ (es : List Expr) {i : Nat} {place : Place},
    place ∈ groupingsList i es → OnePairLess (commaSeparated (piecesList es))
      (commaSeparated (piecesKeepingList (fun p => p ≠ place) i es))
  | [], _, _, h => absurd h List.not_mem_nil
  | e :: es, i, place, h => by
      rw [piecesKeepingList, piecesList]
      rcases List.mem_append.1 h with h | h
      · obtain ⟨q, hq, rfl⟩ := List.mem_map.1 h
        rw [piecesKeeping_same, piecesKeepingList_other (Nat.lt_succ_self i)]
        exact (onePairLess e hq).commaSeparated_head _
      · have hes := onePairLess_list es h
        obtain ⟨j, q, hj, rfl⟩ := exists_of_mem_groupingsList h
        rw [piecesKeeping_other (Nat.ne_of_lt hj)]
        cases es with
        | nil => exact absurd h List.not_mem_nil
        | cons e' es => exact hes.commaSeparated_tail _

end

end Expr

end Freshen
