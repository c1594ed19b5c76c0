import Mathlib
import Freshen.Proofs.Grammar.Reads
import Freshen.Proofs.Grammar.Viable
import Freshen.Proofs.Tree.Outline

/-!
# Where the parser puts nodes

A calculus for statements of the form: if a parser succeeds from one token of a text on up to another one,
then its answer covers tokens between these.

- `TokenRow`: tokens that stand one after the other; `TokenRow.spanOver`: the place that some of them cover.
- `Outline.Takes`: each node covers tokens of the row, and the nodes below it cover some of these tokens, one
  node after the other.
- `Cursor.StandsAt`: the cursor is before a token of the row.
- `Parser.Locates`: the statement.

**Key results.** `Outline.wellNested_of_takes`: such an outline is well nested. One rule for each step that a
parser is made of, and `Locates.sepList` for lists of items.
-/

namespace Freshen

/-- Tokens with texts of their own, one after the other, none of which ends the text. -/
structure TokenRow where
  tokens : List Token
  proper : ∀ t ∈ tokens, t.kind ≠ .eof
  nonempty : ∀ t ∈ tokens, t.span.start < t.span.stop
  sorted : tokens.Pairwise fun t later => t.span.Before later.span

namespace TokenRow

variable (row : TokenRow) {a b c d : Nat}

/-- The number of tokens. -/
def length : Nat := row.tokens.length

/-- Where token number `i` stands. -/
def place (i : Nat) : Span := (row.tokens[i]?.map Token.span).getD .nowhere

/-- The place from the start of token number `a` to the end of token number `b`. -/
def spanOver (a b : Nat) : Span := ⟨(row.place a).start, (row.place b).stop⟩

variable {row}

/-- A number within the row is that of a token, which stands at this place. -/
theorem exists_token (h : a < row.length) :
    ∃ t, row.tokens[a]? = some t ∧ t ∈ row.tokens ∧ row.place a = t.span := by
  have ht : row.tokens[a]? = some row.tokens[a] := List.getElem?_eq_getElem h
  exact ⟨_, ht, List.mem_of_getElem? ht, by rw [place, ht]; rfl⟩

/-- A place is not empty. -/
theorem start_lt_stop (h : a < row.length) : (row.place a).start < (row.place a).stop := by
  obtain ⟨t, -, ht, hplace⟩ := exists_token h
  rw [hplace]
  exact row.nonempty t ht

/-- A later token starts where an earlier one has stopped. -/
theorem stop_le_start (hab : a < b) (hb : b < row.length) :
    (row.place a).stop ≤ (row.place b).start := by
  obtain ⟨t, ht, -, hplace⟩ := exists_token (Nat.lt_trans hab hb)
  obtain ⟨u, hu, -, hplace'⟩ := exists_token hb
  rw [hplace, hplace']
  obtain ⟨ha, rfl⟩ := List.getElem?_eq_some_iff.1 ht
  obtain ⟨hb, rfl⟩ := List.getElem?_eq_some_iff.1 hu
  exact List.pairwise_iff_getElem.1 row.sorted a b ha hb hab

/-- Later tokens start later. -/
theorem start_le_start (hab : a ≤ b) (hb : b < row.length) :
    (row.place a).start ≤ (row.place b).start := by
  rcases Nat.eq_or_lt_of_le hab with rfl | hlt
  · exact le_rfl
  · have hsize := start_lt_stop (Nat.lt_trans hlt hb)
    have hnext := stop_le_start hlt hb
    omega

/-- Later tokens stop later. -/
theorem stop_le_stop (hab : a ≤ b) (hb : b < row.length) : (row.place a).stop ≤ (row.place b).stop := by
  rcases Nat.eq_or_lt_of_le hab with rfl | hlt
  · exact le_rfl
  · have hsize := start_lt_stop hb
    have hnext := stop_le_start hlt hb
    omega

/-- Tokens and later ones are covered together by the place from the first to the last one. -/
theorem spanOver_merge (hac : a ≤ c) (hbd : b ≤ d) (hc : c < row.length) (hd : d < row.length) :
    (row.spanOver a b).merge (row.spanOver c d) = row.spanOver a d := by
  simp only [spanOver, Span.merge, Span.mk.injEq]
  exact ⟨Nat.min_eq_left (start_le_start hac hc), Nat.max_eq_right (stop_le_stop hbd hd)⟩

/-- Two places are covered by the span from the first to the second. -/
theorem place_merge (hab : a ≤ b) (hb : b < row.length) :
    (row.place a).merge (row.place b) = row.spanOver a b :=
  spanOver_merge hab hab hb hb

end TokenRow

/-! ### Outlines over tokens -/

namespace Outline

variable {row : TokenRow}

mutual

/-- The node covers tokens from number `i` on and before number `j`, and the nodes below it cover some of
them. -/
def Takes (row : TokenRow) (i j : Nat) : Outline → Prop
  | .node s parts => ∃ a b, i ≤ a ∧ a ≤ b ∧ b < j ∧ b < row.length ∧ s = row.spanOver a b ∧
      TakesAll row a (b + 1) parts

/-- The nodes cover tokens from number `i` on and before number `j`, one after the other. -/
def TakesAll (row : TokenRow) (i j : Nat) : List Outline → Prop
  | [] => i ≤ j
  | o :: os => ∃ k, Takes row i k o ∧ TakesAll row k j os

end

/-- A node covers the tokens of its span, and its parts are among them. -/
theorem takes_node {i j : Nat} {s : Span} {parts : List Outline} : (node s parts).Takes row i j ↔
    ∃ a b, i ≤ a ∧ a ≤ b ∧ b < j ∧ b < row.length ∧ s = row.spanOver a b ∧
      TakesAll row a (b + 1) parts := by
  rw [Takes]

variable {i i' j j' k : Nat} {o o' : Outline} {os os' : List Outline}

/-- Where no nodes are, no tokens have to be covered. -/
theorem takesAll_nil : TakesAll row i j [] ↔ i ≤ j := by
  rw [TakesAll]

/-- Several nodes are a first one and others after it. -/
theorem takesAll_cons : TakesAll row i j (o :: os) ↔ ∃ k, o.Takes row i k ∧ TakesAll row k j os := by
  rw [TakesAll]

/-- A node that covers tokens of a range does so in a wider range. -/
theorem Takes.mono (h : o.Takes row i j) (hi : i' ≤ i) (hj : j ≤ j') : o.Takes row i' j' := by
  obtain ⟨s, parts⟩ := o
  obtain ⟨a, b, ha, hab, hb, hrest⟩ := takes_node.1 h
  exact takes_node.2 ⟨a, b, hi.trans ha, hab, hb.trans_le hj, hrest⟩

/-- A node takes exactly the tokens that its place covers. -/
theorem Takes.tight (h : o.Takes row i j) : ∃ a b, i ≤ a ∧ a ≤ b ∧ b < j ∧ b < row.length ∧
    o.span = row.spanOver a b ∧ o.Takes row a (b + 1) := by
  obtain ⟨s, parts⟩ := o
  obtain ⟨a, b, ha, hab, hb, hrow, rfl, hparts⟩ := takes_node.1 h
  exact ⟨a, b, ha, hab, hb, hrow, rfl,
    takes_node.2 ⟨a, b, le_rfl, hab, Nat.lt_succ_self b, hrow, rfl, hparts⟩⟩

/-- A node covers at least one token. -/
theorem Takes.lt (h : o.Takes row i j) : i < j := by
  obtain ⟨a, b, ha, hab, hb, -⟩ := h.tight
  omega

/-- A node in front of others. -/
theorem Takes.cons (h : o.Takes row i k) (hos : TakesAll row k j os) : TakesAll row i j (o :: os) :=
  takesAll_cons.2 ⟨k, h, hos⟩

/-- A node by itself. -/
theorem Takes.all (h : o.Takes row i j) : TakesAll row i j [o] := h.cons (takesAll_nil.2 le_rfl)

/-- A single node covers what the row of it covers. -/
theorem TakesAll.only (h : TakesAll row i j [o]) : o.Takes row i j := by
  obtain ⟨k, ho, hk⟩ := takesAll_cons.1 h
  exact ho.mono le_rfl (takesAll_nil.1 hk)

/-- Nodes cover no tokens before those that they start from. -/
theorem TakesAll.le (h : TakesAll row i j os) : i ≤ j := by
  induction os generalizing i with
  | nil => exact takesAll_nil.1 h
  | cons o os ih =>
      obtain ⟨k, ho, hos⟩ := takesAll_cons.1 h
      exact ho.lt.le.trans (ih hos)

/-- Nodes that cover tokens of a range do so in a wider range. -/
theorem TakesAll.mono (h : TakesAll row i j os) (hi : i' ≤ i) (hj : j ≤ j') : TakesAll row i' j' os := by
  induction os generalizing i i' with
  | nil => exact takesAll_nil.2 ((hi.trans (takesAll_nil.1 h)).trans hj)
  | cons o os ih =>
      obtain ⟨k, ho, hos⟩ := takesAll_cons.1 h
      exact (ho.mono hi le_rfl).cons (ih hos le_rfl)

/-- Nodes in front of others cover the tokens of both ranges. -/
theorem TakesAll.append (h : TakesAll row i k os) (h' : TakesAll row k j os') :
    TakesAll row i j (os ++ os') := by
  induction os generalizing i with
  | nil => exact h'.mono (takesAll_nil.1 h) le_rfl
  | cons o os ih =>
      obtain ⟨m, ho, hos⟩ := takesAll_cons.1 h
      exact ho.cons (ih hos)

/-! ### Nodes made of tokens and of other nodes -/

/-- A node from one token to another one, around other nodes. -/
theorem TakesAll.node (h : TakesAll row i (j + 1) os) (hij : i ≤ j) (hj : j < row.length) :
    (Outline.node (row.spanOver i j) os).Takes row i (j + 1) :=
  takes_node.2 ⟨i, j, le_rfl, hij, Nat.lt_succ_self j, hj, rfl, h⟩

/-- A node that is one token. -/
theorem takes_place (hi : i < row.length) : (Outline.node (row.place i) []).Takes row i (i + 1) :=
  (takesAll_nil.2 (Nat.le_succ i)).node le_rfl hi

/-- A node that goes from an opening token to a closing one. -/
theorem TakesAll.enclosed (h : TakesAll row (i + 1) j os) (hj : j < row.length) :
    (Outline.node ((row.place i).merge (row.place j)) os).Takes row i (j + 1) := by
  have hij : i ≤ j := (Nat.le_succ i).trans h.le
  rw [TokenRow.place_merge hij hj]
  exact (h.mono (Nat.le_succ i) (Nat.le_succ j)).node hij hj

/-- A node that goes from a token to the last token before number `j`. -/
theorem TakesAll.covered (h : TakesAll row i j os) (hij : i < j) (hj : j ≤ row.length) :
    (Outline.node ((row.place i).merge (row.place (j - 1))) os).Takes row i j := by
  obtain ⟨l, rfl⟩ : ∃ l, j = l + 1 := ⟨j - 1, (Nat.sub_add_cancel (Nat.zero_lt_of_lt hij)).symm⟩
  rw [Nat.add_sub_cancel, TokenRow.place_merge (Nat.le_of_lt_succ hij) hj]
  exact h.node (Nat.le_of_lt_succ hij) hj

/-- A node that goes from a token to the end of its last part. -/
theorem TakesAll.concluded (h : TakesAll row i k os) (ho : o.Takes row k j) :
    (Outline.node ((row.place i).merge o.span) (os ++ [o])).Takes row i j := by
  obtain ⟨a, b, ha, hab, hb, hrow, hspan, ho⟩ := ho.tight
  have hik := h.le
  rw [hspan, show row.place i = row.spanOver i i from rfl,
    TokenRow.spanOver_merge (by omega) (by omega) (by omega) hrow]
  exact ((h.append (ho.all.mono ha le_rfl)).node (by omega) hrow).mono le_rfl hb

/-- A node that goes from the start of its first part to a closing token. -/
theorem Takes.extended (h : o.Takes row i k) (hos : TakesAll row k j os) (hj : j < row.length) :
    (Outline.node (o.span.merge (row.place j)) (o :: os)).Takes row i (j + 1) := by
  obtain ⟨a, b, ha, hab, hb, hrow, hspan, ho⟩ := h.tight
  have hkj := hos.le
  rw [hspan, show row.place j = row.spanOver j j from rfl,
    TokenRow.spanOver_merge (by omega) (by omega) hj hj]
  exact ((ho.cons (hos.mono hb (Nat.le_succ j))).node (by omega) hj).mono ha le_rfl

/-- A node around another one, at the same place. -/
theorem Takes.around (h : o.Takes row i j) : (Outline.node o.span [o]).Takes row i j := by
  obtain ⟨a, b, ha, hab, hb, hrow, hspan, ho⟩ := h.tight
  rw [hspan]
  exact (ho.all.node hab hrow).mono ha hb

/-- A node that goes from the start of its first part to the end of its second one. -/
theorem Takes.joined (h : o.Takes row i k) (h' : o'.Takes row k j) :
    (Outline.node (o.span.merge o'.span) [o, o']).Takes row i j := by
  obtain ⟨a, b, ha, hab, hb, hrow, hspan, ho⟩ := h.tight
  obtain ⟨c, d, hc, hcd, hd, hrow', hspan', ho'⟩ := h'.tight
  rw [hspan, hspan', TokenRow.spanOver_merge (by omega) (by omega) (by omega) hrow']
  exact ((ho.cons (ho'.all.mono (by omega) le_rfl)).node (by omega) hrow').mono ha hd

/-! ### Outlines over tokens are well nested -/

/-- Each node of a row covers tokens of the range of the row. -/
theorem TakesAll.takes (h : TakesAll row i j os) : ∀ o ∈ os, o.Takes row i j := by
  induction os generalizing i with
  | nil => exact fun o ho => absurd ho List.not_mem_nil
  | cons o os ih =>
      obtain ⟨k, ho, hos⟩ := takesAll_cons.1 h
      refine List.forall_mem_cons.2 ⟨ho.mono le_rfl hos.le, fun u hu => ?_⟩
      exact (ih hos u hu).mono ho.lt.le le_rfl

/-- The span of a node lies within that of the tokens that it may cover. -/
theorem Takes.within {a b : Nat} (h : o.Takes row a (b + 1)) (hb : b < row.length) :
    o.span.Within (row.spanOver a b) := by
  obtain ⟨a', b', ha, hab, hb', hrow, hspan, -⟩ := h.tight
  rw [hspan]
  exact ⟨TokenRow.start_le_start ha (by omega), TokenRow.stop_le_stop (by omega) hb⟩

/-- A node whose tokens come first stands before the other. -/
theorem Takes.before (h : o.Takes row i k) (h' : o'.Takes row k j) :
    o.span.Before o'.span := by
  obtain ⟨a, b, -, -, hb, -, hspan, -⟩ := h.tight
  obtain ⟨a', b', ha', hab', -, hrow', hspan', -⟩ := h'.tight
  rw [hspan, hspan']
  exact TokenRow.stop_le_start (by omega) (by omega)

/-- The nodes of a row stand one after the other. -/
theorem TakesAll.pairwise (h : TakesAll row i j os) :
    os.Pairwise fun o later => o.span.Before later.span := by
  induction os generalizing i with
  | nil => exact .nil
  | cons o os ih =>
      obtain ⟨k, ho, hos⟩ := takesAll_cons.1 h
      exact .cons (fun u hu => ho.before (hos.takes u hu)) (ih hos)

mutual

/-- A node that covers tokens is well nested among them. -/
theorem wellNested_of_takes : ∀ {o : Outline} {i j : Nat}, o.Takes row i j → o.WellNested row.tokens
  | node s parts, i, j, h => by
      obtain ⟨a, b, -, hab, -, hrow, rfl, hparts⟩ := takes_node.1 h
      obtain ⟨t, -, ht, hplace⟩ := TokenRow.exists_token (hab.trans_lt hrow)
      obtain ⟨u, -, hu, hplace'⟩ := TokenRow.exists_token hrow
      refine .node ?_ ⟨t, ht, by rw [TokenRow.spanOver, hplace]⟩ ⟨u, hu, by rw [TokenRow.spanOver, hplace']⟩
        (fun o ho => (hparts.takes o ho).within hrow) hparts.pairwise (wellNested_of_takesAll hparts)
      exact (TokenRow.start_le_start hab hrow).trans_lt (TokenRow.start_lt_stop hrow)

/-- So are nodes that cover tokens one after the other. -/
theorem wellNested_of_takesAll : ∀ {os : List Outline} {i j : Nat}, TakesAll row i j os →
    ∀ o ∈ os, o.WellNested row.tokens
  | [], _, _, _ => fun o ho => absurd ho List.not_mem_nil
  | o :: os, i, j, h => by
      obtain ⟨k, ho, hos⟩ := takesAll_cons.1 h
      exact List.forall_mem_cons.2 ⟨wellNested_of_takes ho, wellNested_of_takesAll hos⟩

end

end Outline

/-! ### Cursors before tokens -/

namespace Cursor

/-- The cursor is before token number `i` of the row, after which the text ends. -/
structure StandsAt (row : TokenRow) (i : Nat) (c : Cursor) : Prop where
  le_length : i ≤ row.length
  rest_eq : ∃ t, t.kind = .eof ∧ c.rest = row.tokens.drop i ++ [t]
  last_eq : ∀ j, i = j + 1 → c.last = row.place j

variable {row : TokenRow} {i : Nat} {c : Cursor}

/-- At the start the cursor stands before the first token. -/
theorem standsAt_start {t : Token} (ht : t.kind = .eof) : (start (row.tokens ++ [t])).StandsAt row 0 where
  le_length := Nat.zero_le _
  rest_eq := ⟨t, ht, rfl⟩
  last_eq := fun _ h => absurd h (Nat.succ_ne_zero _).symm

/-- Before a token of the row: this token is the current one, and the other ones are left after it. -/
theorem StandsAt.exists_rest (h : c.StandsAt row i) (hi : i < row.length) : ∃ t u, u.kind = .eof ∧
    t ∈ row.tokens ∧ row.place i = t.span ∧ c.rest = t :: (row.tokens.drop (i + 1) ++ [u]) := by
  obtain ⟨u, hu, hrest⟩ := h.rest_eq
  obtain ⟨t, hget, ht, hplace⟩ := TokenRow.exists_token hi
  refine ⟨t, u, hu, ht, hplace, ?_⟩
  rw [hrest, List.drop_eq_getElem?_toList_append, hget]
  rfl

/-- Before a token of the row, the next token stands at its place. -/
theorem StandsAt.current_span (h : c.StandsAt row i) (hi : i < row.length) :
    c.current.span = row.place i := by
  obtain ⟨t, u, -, -, hplace, hrest⟩ := h.exists_rest hi
  rw [current, hrest, hplace]
  rfl

/-- One step leads to the next token of the row. -/
theorem StandsAt.next (h : c.StandsAt row i) (hi : i < row.length) : c.next.StandsAt row (i + 1) := by
  obtain ⟨t, u, hu, ht, hplace, hrest⟩ := h.exists_rest hi
  have hnext : c.next = { c with rest := row.tokens.drop (i + 1) ++ [u], last := t.span } := by
    simp only [Cursor.next, hrest, if_neg (row.proper t ht)]
  rw [hnext]
  exact ⟨hi, ⟨u, hu, rfl⟩, fun j hj => by obtain rfl := Nat.succ.inj hj; exact hplace.symm⟩

/-- A token that does not end the text is one of the row. -/
theorem StandsAt.lt_length (h : c.StandsAt row i) (hkind : c.current.kind ≠ .eof) : i < row.length := by
  obtain ⟨t, ht, hrest⟩ := h.rest_eq
  refine h.le_length.lt_of_ne fun hi => hkind ?_
  rw [current, hrest, hi, TokenRow.length, List.drop_length]
  exact ht

/-- If the token after the next is not the end, it is one of the row. -/
theorem StandsAt.succ_lt_length (h : c.StandsAt row i) (hi : i < row.length) (hkind : c.nextKind ≠ .eof) :
    i + 1 < row.length := by
  obtain ⟨t, u, hu, -, -, hrest⟩ := h.exists_rest hi
  refine (Nat.succ_le_of_lt hi).lt_of_ne fun hlast => hkind ?_
  have hdrop : row.tokens.drop (i + 1) = [] := List.drop_eq_nil_of_le hlast.ge
  rw [nextKind, hrest, hdrop]
  exact hu

end Cursor

/-! ### Parsers -/

namespace Parser

variable {α β : Type} {p : Parser α} {f : α → Parser β} {k : TokenKind} {row : TokenRow} {i : Nat}
  {Q : Nat → α → Prop} {R : Nat → β → Prop}

/-- If `p` succeeds before token number `i`, it stops before a token with a number `j` such that `Q j` is true
of its answer. -/
def Locates (row : TokenRow) (i : Nat) (p : Parser α) (Q : Nat → α → Prop) : Prop :=
  ∀ c a c', c.StandsAt row i → p.run c = .ok (a, c') → ∃ j, i ≤ j ∧ c'.StandsAt row j ∧ Q j a

/-- If `p` succeeds, its answer covers some of the tokens that it read. -/
abbrev LocatesNode (row : TokenRow) (p : Parser α) (outline : α → Outline) : Prop :=
  ∀ i, Locates row i p fun j a => (outline a).Takes row i j

namespace Locates

/-- An answer that covers nothing yet. -/
theorem pure {a : α} (h : Q i a) : Locates row i (Pure.pure a) Q := by
  rintro c b c' hc hrun
  obtain ⟨rfl, rfl⟩ := Prod.mk.inj (Except.ok.inj hrun)
  exact ⟨i, le_rfl, hc, h⟩

/-- What is read first is located first, and the rest is located from there on. -/
theorem bind (hp : Locates row i p Q)
    (hf : ∀ a j, i ≤ j → j ≤ row.length → Q j a → Locates row j (f a) R) :
    Locates row i (p >>= f) R := by
  intro c b c' hc hrun
  obtain ⟨a, c₁, hrun₁, hrun₂⟩ := run_bind_eq_ok hrun
  obtain ⟨j, hij, hc₁, hQ⟩ := hp c a c₁ hc hrun₁
  obtain ⟨l, hjl, hc', hR⟩ := hf a j hij hc₁.le_length hQ c₁ b c' hc₁ hrun₂
  exact ⟨l, hij.trans hjl, hc', hR⟩

/-- A parser that fails covers nothing. -/
theorem fail (expected : Expected) : Locates row i (Parser.fail expected) Q :=
  fun _ _ _ _ hrun => by cases hrun

/-- Nor does one that is out of fuel. -/
theorem outOfFuel : Locates row i Parser.outOfFuel Q :=
  fun _ _ _ _ hrun => by cases hrun

/-! ### Looking ahead and reading one token -/

/-- The next token may be looked at, with its place if it is one of the row. -/
theorem current {f : Token → Parser β}
    (h : ∀ t, (i < row.length → t.span = row.place i) → Locates row i (f t) R) :
    Locates row i (Parser.current >>= f) R :=
  fun c b c' hc hrun => h c.current hc.current_span c b c' hc hrun

/-- After a token of the row, the span that was read last is its place. -/
theorem lastSpan {f : Span → Parser β} (hi : 0 < i) (h : Locates row i (f (row.place (i - 1))) R) :
    Locates row i (Parser.lastSpan >>= f) R := by
  intro c b c' hc hrun
  have hrun : (f c.last).run c = .ok (b, c') := hrun
  rw [hc.last_eq (i - 1) (Nat.sub_add_cancel hi).symm] at hrun
  exact h c b c' hc hrun

/-- The kind of the next token may be looked at; if it is not the end, the token is one of the row. -/
theorem peek {f : TokenKind → Parser β}
    (h : ∀ k, (k ≠ .eof → i < row.length) → Locates row i (f k) R) :
    Locates row i (Parser.peek >>= f) R :=
  fun c b c' hc hrun => h c.current.kind hc.lt_length c b c' hc hrun

/-- The kind of the token after the next may be looked at; if it is not the end, the token is one of the
row. -/
theorem peekNext {f : TokenKind → Parser β} (hi : i < row.length)
    (h : ∀ k, (k ≠ .eof → i + 1 < row.length) → Locates row i (f k) R) :
    Locates row i (Parser.peekNext >>= f) R :=
  fun c b c' hc hrun => h c.nextKind (hc.succ_lt_length hi) c b c' hc hrun

/-- One step reads a token of the row and answers with its place. -/
theorem advance {f : Span → Parser β} (hi : i < row.length)
    (h : Locates row (i + 1) (f (row.place i)) R) : Locates row i (Parser.advance >>= f) R := by
  intro c b c' hc hrun
  have hrun : (f c.current.span).run c.next = .ok (b, c') := hrun
  rw [hc.current_span hi] at hrun
  obtain ⟨j, hij, hj⟩ := h c.next b c' (hc.next hi) hrun
  exact ⟨j, (Nat.le_succ i).trans hij, hj⟩

/-- A test of the next token has two outcomes; if it succeeds, the token is one of the row. -/
theorem at? {f : Bool → Parser β} (htrue : (k ≠ .eof → i < row.length) → Locates row i (f true) R)
    (hfalse : Locates row i (f false) R) : Locates row i (Parser.at? k >>= f) R := by
  intro c b c' hc hrun
  have hrun : (f (decide (c.current.kind = k))).run c = .ok (b, c') := hrun
  by_cases heq : c.current.kind = k
  · rw [decide_eq_true heq] at hrun
    exact htrue (fun hk => hc.lt_length (heq ▸ hk)) c b c' hc hrun
  · rw [decide_eq_false heq] at hrun
    exact hfalse c b c' hc hrun

/-- A choice by the kind of the next token, which is not read. -/
theorem ifAt {q q' : Parser β} [hk : k.Proper] (htrue : i < row.length → Locates row i q R)
    (hfalse : Locates row i q' R) : Locates row i (do if ← Parser.at? k then q else q') R := by
  refine at? (fun hi => ?_) ?_
  · rw [if_pos rfl]
    exact htrue (hi hk.ne_eof)
  · rwa [if_neg Bool.false_ne_true]

/-- A token that is taken is one of the row, and the cursor is after it. -/
theorem eaten [k.Proper] : Locates row i (Parser.eat k) fun j b =>
    if b then i < row.length ∧ j = i + 1 else j = i :=
  ifAt (fun hi => advance hi (pure ⟨hi, rfl⟩)) (pure rfl)

/-- A choice by the kind of the next token, which is read if it is of this kind. -/
theorem ifEat {q q' : Parser β} [k.Proper] (htrue : i < row.length → Locates row (i + 1) q R)
    (hfalse : Locates row i q' R) : Locates row i (do if ← Parser.eat k then q else q') R := by
  refine bind eaten fun b j _ _ hj => ?_
  cases b with
  | true =>
      obtain ⟨hi, rfl⟩ := hj
      rw [if_pos rfl]
      exact htrue hi
  | false =>
      obtain rfl : j = i := hj
      rwa [if_neg Bool.false_ne_true]

/-- An expected token is one of the row, and its place is the answer. -/
theorem expect {f : Span → Parser β} [k.Proper]
    (h : i < row.length → Locates row (i + 1) (f (row.place i)) R) :
    Locates row i (Parser.expect k >>= f) R := by
  have hexpect : Locates row i (Parser.expect k) fun j s =>
      i < row.length ∧ j = i + 1 ∧ s = row.place i := by
    refine ifAt (fun hi => ?_) (fail _)
    rw [← bind_pure Parser.advance]
    exact advance hi (pure ⟨hi, rfl, rfl⟩)
  refine bind hexpect fun s j _ _ hj => ?_
  obtain ⟨hi, rfl, rfl⟩ := hj
  exact h hi

/-- An identifier is a token of the row, and its place is part of the answer. -/
theorem identifier {f : Name × Span → Parser β}
    (h : ∀ name, i < row.length → Locates row (i + 1) (f (name, row.place i)) R) :
    Locates row i (Parser.identifier >>= f) R := by
  have hidentifier : Locates row i Parser.identifier fun j found =>
      i < row.length ∧ j = i + 1 ∧ found.2 = row.place i := by
    refine peek fun k hk => ?_
    cases k with
    | ident name =>
        have hi := hk TokenKind.Proper.ne_eof
        exact advance hi (pure ⟨hi, rfl, rfl⟩)
    | _ => exact fail _
  refine bind hidentifier fun found j _ _ hj => ?_
  obtain ⟨hi, rfl, hplace⟩ := hj
  obtain ⟨name, s⟩ := found
  obtain rfl : s = row.place i := hplace
  exact h name hi

/-- To test that nothing is left reads nothing. -/
theorem finished {f : Unit → Parser β} (h : Locates row i (f ()) R) :
    Locates row i (Parser.finished >>= f) R := by
  have hfinished : Locates row i Parser.finished fun j _ => j = i := by
    refine at? (fun _ => ?_) ?_
    · rw [if_pos rfl]
      exact pure rfl
    · rw [if_neg Bool.false_ne_true]
      exact fail _
  refine bind hfinished fun u j _ _ hj => ?_
  obtain rfl := hj
  exact h

/-! ### Lists of items -/

/-- If items cover the tokens that they are read from, those of a list cover tokens one after the other. -/
theorem sepList {item : Parser α} {outline : α → Outline} (close : TokenKind) [close.Proper]
    (hitem : LocatesNode row item outline) (fuel : Nat) :
    Locates row i (Parser.sepList close item fuel) fun j list =>
      Outline.TakesAll row i j (list.1.map outline) := by
  induction fuel generalizing i with
  | zero => exact outOfFuel
  | succ fuel ih =>
      refine ifAt (fun _ => pure (Outline.takesAll_nil.2 le_rfl)) ?_
      refine bind (hitem i) fun x j _ _ hx => ifEat (fun _ => ?_) (pure hx.all)
      refine bind ih fun list l _ _ hlist => pure ?_
      exact (hx.mono le_rfl (Nat.le_succ j)).cons hlist

end Locates

end Parser

end Freshen
