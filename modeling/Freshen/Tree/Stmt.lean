import Freshen.Tree.Binder
import Freshen.Tree.Expr

/-!
# Statements and blocks

- `Stmt`, `Block`, `Branch`: the statement tree.
- Equality is decidable, node by node (`Stmt.same_iff`, `Block.same_iff`).
-/

namespace Freshen

mutual

/-- A statement. -/
inductive Stmt where
  /-- `let [mut] pattern = init;` -/
  | bind (pattern : Pattern) (mutable : Bool) (init : Expr) (span : Span)
  /-- `set target = value;` -/
  | assign (target value : Expr) (span : Span)
  /-- `value;` -/
  | eval (value : Expr) (span : Span)
  /-- `return [value];` -/
  | ret (value : Option Expr) (span : Span)
  /-- `if … elif … else …`: the first branch whose condition holds, else the last block. -/
  | choose (branches : List Branch) (otherwise : Option Block) (span : Span)
  /-- `while cond body` -/
  | loopWhile (cond : Expr) (body : Block) (span : Span)
  /-- `for pattern in source body` -/
  | loopFor (pattern : Pattern) (source : Expr) (body : Block) (span : Span)
  /-- `repeat body until cond [fixup fixup];` -/
  | loopUntil (body : Block) (cond : Expr) (fixup : Option Block) (span : Span)
  /-- A block as a statement. -/
  | block (body : Block) (span : Span)

/-- Statements between braces. -/
structure Block where
  stmts : List Stmt
  span : Span

/-- A condition and the block that it guards. -/
structure Branch where
  cond : Expr
  body : Block

end

/-- Where the statement stands. -/
def Stmt.span : Stmt → Span
  | .bind _ _ _ s => s
  | .assign _ _ s => s
  | .eval _ s => s
  | .ret _ s => s
  | .choose _ _ s => s
  | .loopWhile _ _ s => s
  | .loopFor _ _ _ s => s
  | .loopUntil _ _ _ s => s
  | .block _ s => s

mutual

/-- Compares two statements node by node, spans included. -/
def Stmt.same : Stmt → Stmt → Bool
  | .bind p m e s, .bind p' m' e' s' => p == p' && m == m' && e == e' && s == s'
  | .assign t v s, .assign t' v' s' => t == t' && v == v' && s == s'
  | .eval v s, .eval v' s' => v == v' && s == s'
  | .ret v s, .ret v' s' => v == v' && s == s'
  | .choose bs b s, .choose bs' b' s' =>
      Branch.sameList bs bs' && Block.sameOption b b' && s == s'
  | .loopWhile c b s, .loopWhile c' b' s' => c == c' && Block.same b b' && s == s'
  | .loopFor p e b s, .loopFor p' e' b' s' => p == p' && e == e' && Block.same b b' && s == s'
  | .loopUntil b c f s, .loopUntil b' c' f' s' =>
      Block.same b b' && c == c' && Block.sameOption f f' && s == s'
  | .block b s, .block b' s' => Block.same b b' && s == s'
  | _, _ => false
termination_by structural t _ => t

/-- Compares two blocks node by node, spans included. -/
def Block.same : Block → Block → Bool
  | ⟨ts, s⟩, ⟨ts', s'⟩ => Stmt.sameList ts ts' && s == s'
termination_by structural t _ => t

/-- Compares two optional blocks. -/
def Block.sameOption : Option Block → Option Block → Bool
  | none, none => true
  | some b, some b' => Block.same b b'
  | _, _ => false
termination_by structural t _ => t

/-- Compares two lists of statements. -/
def Stmt.sameList : List Stmt → List Stmt → Bool
  | [], [] => true
  | t :: ts, t' :: ts' => Stmt.same t t' && Stmt.sameList ts ts'
  | _, _ => false
termination_by structural t _ => t

/-- Compares two lists of branches. -/
def Branch.sameList : List Branch → List Branch → Bool
  | [], [] => true
  | ⟨c, b⟩ :: bs, ⟨c', b'⟩ :: bs' => c == c' && Block.same b b' && Branch.sameList bs bs'
  | _, _ => false
termination_by structural t _ => t

end

mutual

/-- The comparison of statements accepts a statement and itself. -/
theorem Stmt.same_refl : ∀ t : Stmt, t.same t = true
  | .bind _ _ _ _ | .assign _ _ _ | .eval _ _ | .ret _ _ => by simp [Stmt.same]
  | .choose bs b _ => by simp [Stmt.same, Branch.sameList_refl bs, Block.sameOption_refl b]
  | .loopWhile _ b _ => by simp [Stmt.same, Block.same_refl b]
  | .loopFor _ _ b _ => by simp [Stmt.same, Block.same_refl b]
  | .loopUntil b _ f _ => by simp [Stmt.same, Block.same_refl b, Block.sameOption_refl f]
  | .block b _ => by simp [Stmt.same, Block.same_refl b]

/-- The comparison of blocks accepts a block and itself. -/
theorem Block.same_refl : ∀ b : Block, b.same b = true
  | ⟨ts, _⟩ => by simp [Block.same, Stmt.sameList_refl ts]

/-- A block that may be missing is the same as itself. -/
theorem Block.sameOption_refl : ∀ b : Option Block, Block.sameOption b b = true
  | none => rfl
  | some b => by simp [Block.sameOption, Block.same_refl b]

/-- Every list of statements is the same as itself. -/
theorem Stmt.sameList_refl : ∀ ts : List Stmt, Stmt.sameList ts ts = true
  | [] => rfl
  | t :: ts => by simp [Stmt.sameList, Stmt.same_refl t, Stmt.sameList_refl ts]

/-- Every list of branches is the same as itself. -/
theorem Branch.sameList_refl : ∀ bs : List Branch, Branch.sameList bs bs = true
  | [] => rfl
  | ⟨_, b⟩ :: bs => by simp [Branch.sameList, Block.same_refl b, Branch.sameList_refl bs]

end

mutual

/-- Statements that compare as the same are equal. -/
theorem Stmt.eq_of_same : ∀ {t t' : Stmt}, t.same t' = true → t = t'
  | .bind _ _ _ _, .bind _ _ _ _, h | .assign _ _ _, .assign _ _ _, h
  | .eval _ _, .eval _ _, h | .ret _ _, .ret _ _, h => by simp_all [Stmt.same]
  | .choose bs b _, .choose bs' b' _, h => by
      simp only [Stmt.same, Bool.and_eq_true, beq_iff_eq] at h
      rw [Branch.eq_of_sameList h.1.1, Block.eq_of_sameOption h.1.2, h.2]
  | .loopWhile _ b _, .loopWhile _ b' _, h => by
      simp only [Stmt.same, Bool.and_eq_true, beq_iff_eq] at h
      rw [h.1.1, Block.eq_of_same h.1.2, h.2]
  | .loopFor _ _ b _, .loopFor _ _ b' _, h => by
      simp only [Stmt.same, Bool.and_eq_true, beq_iff_eq] at h
      rw [h.1.1.1, h.1.1.2, Block.eq_of_same h.1.2, h.2]
  | .loopUntil b _ f _, .loopUntil b' _ f' _, h => by
      simp only [Stmt.same, Bool.and_eq_true, beq_iff_eq] at h
      rw [Block.eq_of_same h.1.1.1, h.1.1.2, Block.eq_of_sameOption h.1.2, h.2]
  | .block b _, .block b' _, h => by
      simp only [Stmt.same, Bool.and_eq_true, beq_iff_eq] at h
      rw [Block.eq_of_same h.1, h.2]

/-- Blocks that compare as the same are equal. -/
theorem Block.eq_of_same : ∀ {b b' : Block}, b.same b' = true → b = b'
  | ⟨ts, _⟩, ⟨ts', _⟩, h => by
      simp only [Block.same, Bool.and_eq_true, beq_iff_eq] at h
      rw [Stmt.eq_of_sameList h.1, h.2]

/-- Blocks that may be missing and compare as the same are equal. -/
theorem Block.eq_of_sameOption : ∀ {b b' : Option Block}, Block.sameOption b b' = true → b = b'
  | none, none, _ => rfl
  | some b, some b', h => by
      simp only [Block.sameOption] at h
      rw [Block.eq_of_same h]

/-- Lists of statements that compare as the same are equal. -/
theorem Stmt.eq_of_sameList : ∀ {ts ts' : List Stmt}, Stmt.sameList ts ts' = true → ts = ts'
  | [], [], _ => rfl
  | t :: ts, t' :: ts', h => by
      simp only [Stmt.sameList, Bool.and_eq_true] at h
      rw [Stmt.eq_of_same h.1, Stmt.eq_of_sameList h.2]

/-- Lists of branches that compare as the same are equal. -/
theorem Branch.eq_of_sameList : ∀ {bs bs' : List Branch}, Branch.sameList bs bs' = true → bs = bs'
  | [], [], _ => rfl
  | ⟨_, b⟩ :: bs, ⟨_, b'⟩ :: bs', h => by
      simp only [Branch.sameList, Bool.and_eq_true, beq_iff_eq] at h
      rw [h.1.1, Block.eq_of_same h.1.2, Branch.eq_of_sameList h.2]

end

/-- Comparing node by node decides equality of statements. -/
theorem Stmt.same_iff {t t' : Stmt} : t.same t' = true ↔ t = t' :=
  ⟨Stmt.eq_of_same, fun h => h ▸ Stmt.same_refl t⟩

/-- Comparing node by node decides equality of blocks. -/
theorem Block.same_iff {b b' : Block} : b.same b' = true ↔ b = b' :=
  ⟨Block.eq_of_same, fun h => h ▸ Block.same_refl b⟩

/-- Statements are compared by structure. -/
instance : DecidableEq Stmt := fun _ _ => decidable_of_iff _ Stmt.same_iff

/-- Blocks are compared by structure. -/
instance : DecidableEq Block := fun _ _ => decidable_of_iff _ Block.same_iff

end Freshen
