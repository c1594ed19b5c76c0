import Freshen.Grammar.Exprs
import Freshen.Token
import Freshen.Tree.Program

/-!
# The grammar as derivations

What token kinds derive which trees, without any parser.  Spans are free: a derivation says nothing of
where a tree stands.

- `SepBy`: items between commas; the last item may be followed by one.
- `IsType`, `IsPattern`, `IsParam`: annotations and binding sites.
- `operatorsAt`: the binary operators of each level, with their tokens.
- `IsExpr`: expressions by level.  Binary operators stand at the levels 1 to 6 and are left-associative;
  then come prefix operators, calls and indexing, and what stands alone or in brackets.
- `IsStmt`, `IsBlock`, `IsCallable`, `IsProgram`.

**Key results.** `mem_operatorsAt`, `IsExpr.path`: the levels and the paths of the grammar are those of the
parser's tables.
-/

namespace Freshen.Grammar

/-! ### Lists -/

/-- The tokens are those of the items with commas between them.  The flag says whether there is any
comma; one may follow the last item. -/
inductive SepBy {α : Type} (Item : List TokenKind → α → Prop) :
    List TokenKind → List α → Bool → Prop
  | nil : SepBy Item [] [] false
  | last {ks : List TokenKind} {x : α} : Item ks x → SepBy Item ks [x] false
  | cons {ks rest : List TokenKind} {x : α} {xs : List α} {comma : Bool} :
      Item ks x → SepBy Item rest xs comma → SepBy Item (ks ++ .mark .comma :: rest) (x :: xs) true

/-! ### Types and binding sites -/

/-- The tokens of a type annotation. -/
inductive IsType : List TokenKind → TypeExpr → Prop
  | named (name : Name) (span : Span) : IsType [.ident name] (.named name [] span)
  | applied {ks : List TokenKind} {args : List TypeExpr} {comma : Bool} (name : Name) (span : Span) :
      SepBy IsType ks args comma →
      IsType (.ident name :: .mark .lt :: (ks ++ [.mark .gt])) (.named name args span)
  | tuple {ks : List TokenKind} {items : List TypeExpr} {comma : Bool} (span : Span) :
      SepBy IsType ks items comma →
      IsType (.mark .lparen :: (ks ++ [.mark .rparen])) (.tuple items span)
  | array {ks : List TokenKind} {elem : TypeExpr} (span : Span) :
      IsType ks elem → IsType (.mark .lbracket :: (ks ++ [.mark .rbracket])) (.array elem span)

/-- The tokens of an optional annotation. -/
inductive IsAnnotation : List TokenKind → Option TypeExpr → Prop
  | none : IsAnnotation [] none
  | some {ks : List TokenKind} {type : TypeExpr} :
      IsType ks type → IsAnnotation (.mark .colon :: ks) (some type)

/-- The tokens of a bound name with its annotation. -/
inductive IsBinder : List TokenKind → Binder → Prop
  | mk {ks : List TokenKind} {type : Option TypeExpr} (name : Name) (span : Span) :
      IsAnnotation ks type → IsBinder (.ident name :: ks) ⟨name, type, span⟩

/-- The tokens of a binding pattern.  A single pattern in parentheses is that pattern, unless a comma
follows it. -/
inductive IsPattern : List TokenKind → Pattern → Prop
  | binder {ks : List TokenKind} {b : Binder} : IsBinder ks b → IsPattern ks (.binder b)
  | discard (span : Span) : IsPattern [.mark .underscore] (.discard span)
  | paren {ks : List TokenKind} {p : Pattern} :
      IsPattern ks p → IsPattern (.mark .lparen :: (ks ++ [.mark .rparen])) p
  | tuple {ks : List TokenKind} {items : List Pattern} {comma : Bool} (span : Span) :
      SepBy IsPattern ks items comma → (items.length = 1 → comma = true) →
      IsPattern (.mark .lparen :: (ks ++ [.mark .rparen])) (.tuple items span)

/-- The tokens of a parameter.  A single parameter in parentheses is that parameter, comma or not. -/
inductive IsParam : List TokenKind → Params → Prop
  | binder {ks : List TokenKind} {b : Binder} : IsBinder ks b → IsParam ks (.binder b)
  | unnamed (span : Span) : IsParam [.mark .underscore] (.unnamed span)
  | paren {ks : List TokenKind} {p : Params} {comma : Bool} :
      SepBy IsParam ks [p] comma → IsParam (.mark .lparen :: (ks ++ [.mark .rparen])) p
  | tuple {ks : List TokenKind} {items : List Params} {comma : Bool} (span : Span) :
      SepBy IsParam ks items comma → items.length ≠ 1 →
      IsParam (.mark .lparen :: (ks ++ [.mark .rparen])) (.tuple items span)

/-! ### Expressions -/

/-- The tokens of a path after its first segment: further segments, then type arguments. -/
inductive IsPathTail : List TokenKind → List Name → Option (List TypeExpr) → Prop
  | done : IsPathTail [] [] none
  | segment {ks : List TokenKind} {names : List Name} {args : Option (List TypeExpr)} (name : Name) :
      IsPathTail ks names args →
      IsPathTail (.mark .doubleColon :: .ident name :: ks) (name :: names) args
  | args {ks : List TokenKind} {args : List TypeExpr} {comma : Bool} :
      SepBy IsType ks args comma →
      IsPathTail (.mark .doubleColon :: .mark .lt :: (ks ++ [.mark .gt])) [] (some args)

/-- The binary operators of a level with their tokens; the loosest stands at level 1. -/
def operatorsAt : Nat → List (TokenKind × BinaryOp)
  | 1 => [(.keyword .or, .or)]
  | 2 => [(.keyword .and, .and)]
  | 3 => [(.mark .eqEq, .eq), (.mark .notEq, .ne)]
  | 4 => [(.mark .lt, .lt), (.mark .ltEq, .le), (.mark .gt, .gt), (.mark .gtEq, .ge)]
  | 5 => [(.mark .plus, .add), (.mark .minus, .sub)]
  | 6 => [(.mark .star, .mul), (.mark .slash, .div), (.mark .percent, .mod)]
  | _ => []

/-- The token of a unary operator. -/
def unaryToken : UnaryOp → TokenKind
  | .neg => .mark .minus
  | .not => .keyword .not

/-- The token of a truth value. -/
def boolToken : Bool → TokenKind
  | true => .keyword .true_
  | false => .keyword .false_

/-- The tokens of an expression at a level: that of a binary operator, or that of prefix operators, of
calls and indexing, or of what stands alone.  A path of one segment is a local name, a longer one a global
name. -/
inductive IsExpr : Nat → List TokenKind → Expr → Prop
  | tighter {level : Nat} {ks : List TokenKind} {e : Expr} :
      IsExpr (level + 1) ks e → IsExpr level ks e
  | binary {level : Nat} {op : BinaryOp} {ks ks' : List TokenKind} {l r : Expr} (k : TokenKind)
      (span : Span) :
      (k, op) ∈ operatorsAt level → IsExpr level ks l → IsExpr (level + 1) ks' r →
      IsExpr level (ks ++ k :: ks') (.binary op l r span)
  | unary {ks : List TokenKind} {e : Expr} (op : UnaryOp) (span : Span) :
      IsExpr Precedence.unary ks e → IsExpr Precedence.unary (unaryToken op :: ks) (.unary op e span)
  | call {ks ks' : List TokenKind} {f : Expr} {args : List Expr} {comma : Bool} (span : Span) :
      IsExpr Precedence.postfixed ks f → SepBy (IsExpr 1) ks' args comma →
      IsExpr Precedence.postfixed (ks ++ .mark .lparen :: (ks' ++ [.mark .rparen])) (.call f args span)
  | index {ks ks' : List TokenKind} {b i : Expr} (span : Span) :
      IsExpr Precedence.postfixed ks b → IsExpr 1 ks' i →
      IsExpr Precedence.postfixed (ks ++ .mark .lbracket :: (ks' ++ [.mark .rbracket]))
        (.index b i span)
  | int (value : Int64) (span : Span) : IsExpr Precedence.atom [.int value] (.int value span)
  | str (value : String) (span : Span) : IsExpr Precedence.atom [.str value] (.str value span)
  | bool (value : Bool) (span : Span) : IsExpr Precedence.atom [boolToken value] (.bool value span)
  | unqualified {ks : List TokenKind} {args : Option (List TypeExpr)} (name : Name) (span : Span) :
      IsPathTail ks [] args →
      IsExpr Precedence.atom (.ident name :: ks) (.ref (.unqualified name) args span)
  | qualified {ks : List TokenKind} {qualifiers : List Name} {args : Option (List TypeExpr)}
      (first name : Name) (span : Span) :
      IsPathTail ks (qualifiers ++ [name]) args →
      IsExpr Precedence.atom (.ident first :: ks)
        (.ref (.qualified (first :: qualifiers) name) args span)
  | unit (span : Span) : IsExpr Precedence.atom [.mark .lparen, .mark .rparen] (.unit span)
  | paren {ks : List TokenKind} {e : Expr} :
      IsExpr 1 ks e → IsExpr Precedence.atom (.mark .lparen :: (ks ++ [.mark .rparen])) e
  | tuple {ks : List TokenKind} {items : List Expr} {comma : Bool} (span : Span) :
      SepBy (IsExpr 1) ks items comma → items ≠ [] → (items.length = 1 → comma = true) →
      IsExpr Precedence.atom (.mark .lparen :: (ks ++ [.mark .rparen])) (.tuple items span)
  | array {ks : List TokenKind} {items : List Expr} {comma : Bool} (span : Span) :
      SepBy (IsExpr 1) ks items comma →
      IsExpr Precedence.atom (.mark .lbracket :: (ks ++ [.mark .rbracket])) (.array items span)

/-- What is derived at a level is derived at every lower one. -/
theorem IsExpr.mono {level level' : Nat} {ks : List TokenKind} {e : Expr} (h : IsExpr level ks e)
    (hle : level' ≤ level) : IsExpr level' ks e := by
  induction hle with
  | refl => exact h
  | step _ ih => exact ih (.tighter h)

/-- The levels of the grammar are the precedences of the operators that the parser knows tokens of. -/
theorem mem_operatorsAt {level : Nat} {k : TokenKind} {op : BinaryOp} :
    (k, op) ∈ operatorsAt level ↔ binaryOp? k = some op ∧ op.precedence = level := by
  constructor
  · have hall : ∀ entry ∈ operatorsAt level,
        binaryOp? entry.1 = some entry.2 ∧ entry.2.precedence = level := by
      unfold operatorsAt
      split
      case h_7 => exact nofun
      all_goals decide
    exact hall (k, op)
  · rintro ⟨h, rfl⟩
    unfold binaryOp? at h
    split at h <;> cases h <;> decide

/-- A longer path is the reference to its last segment, qualified by the others. -/
theorem pathReference_append (first : Name) (qualifiers : List Name) (name : Name) :
    pathReference first (qualifiers ++ [name]) = .qualified (first :: qualifiers) name := by
  induction qualifiers generalizing first with
  | nil => rfl
  | cons second qualifiers ih => rw [List.cons_append, pathReference, ih]

/-- A path derives what the parser makes of it. -/
theorem IsExpr.path {ks : List TokenKind} {names : List Name} {args : Option (List TypeExpr)}
    (name : Name) (span : Span) (h : IsPathTail ks names args) :
    IsExpr Precedence.atom (.ident name :: ks) (.ref (pathReference name names) args span) := by
  rcases List.eq_nil_or_concat names with rfl | ⟨qualifiers, last, rfl⟩
  · exact .unqualified name span h
  · rw [List.concat_eq_append] at h ⊢
    rw [pathReference_append]
    exact .qualified name last span h

/-! ### Statements -/

mutual

/-- The tokens of a statement. -/
inductive IsStmt : List TokenKind → Stmt → Prop
  | bind {pks eks : List TokenKind} {p : Pattern} {e : Expr} (span : Span) :
      IsPattern pks p → IsExpr 1 eks e →
      IsStmt (.keyword .let_ :: (pks ++ .mark .eq :: (eks ++ [.mark .semicolon])))
        (.bind p false e span)
  | bindMut {pks eks : List TokenKind} {p : Pattern} {e : Expr} (span : Span) :
      IsPattern pks p → IsExpr 1 eks e →
      IsStmt
        (.keyword .let_ :: .keyword .mut_ :: (pks ++ .mark .eq :: (eks ++ [.mark .semicolon])))
        (.bind p true e span)
  | assign {tks vks : List TokenKind} {t v : Expr} (span : Span) :
      IsExpr 1 tks t → IsExpr 1 vks v →
      IsStmt (.keyword .set :: (tks ++ .mark .eq :: (vks ++ [.mark .semicolon]))) (.assign t v span)
  | eval {ks : List TokenKind} {e : Expr} (span : Span) :
      IsExpr 1 ks e → IsStmt (ks ++ [.mark .semicolon]) (.eval e span)
  | retNone (span : Span) :
      IsStmt [.keyword .return_, .mark .semicolon] (.ret none span)
  | ret {ks : List TokenKind} {e : Expr} (span : Span) :
      IsExpr 1 ks e →
      IsStmt (.keyword .return_ :: (ks ++ [.mark .semicolon])) (.ret (some e) span)
  | choose {ks oks : List TokenKind} {bs : List Branch} {b : Option Block} (span : Span) :
      IsBranches ks bs → IsBlockAfter .else_ oks b →
      IsStmt (.keyword .if_ :: (ks ++ oks)) (.choose bs b span)
  | loopWhile {cks bks : List TokenKind} {c : Expr} {b : Block} (span : Span) :
      IsExpr 1 cks c → IsBlock bks b →
      IsStmt (.keyword .while_ :: (cks ++ bks)) (.loopWhile c b span)
  | loopFor {pks eks bks : List TokenKind} {p : Pattern} {e : Expr} {b : Block} (span : Span) :
      IsPattern pks p → IsExpr 1 eks e → IsBlock bks b →
      IsStmt (.keyword .for_ :: (pks ++ .keyword .in_ :: (eks ++ bks))) (.loopFor p e b span)
  | loopUntil {bks cks xks : List TokenKind} {b : Block} {c : Expr} {x : Option Block} (span : Span) :
      IsBlock bks b → IsExpr 1 cks c → IsBlockAfter .fixup xks x →
      IsStmt (.keyword .repeat_ :: (bks ++ .keyword .until_ :: (cks ++ (xks ++ [.mark .semicolon]))))
        (.loopUntil b c x span)
  | block {ks : List TokenKind} {b : Block} (span : Span) : IsBlock ks b → IsStmt ks (.block b span)

/-- The tokens of a block. -/
inductive IsBlock : List TokenKind → Block → Prop
  | mk {ks : List TokenKind} {stmts : List Stmt} (span : Span) :
      IsStmts ks stmts → IsBlock (.mark .lbrace :: (ks ++ [.mark .rbrace])) ⟨stmts, span⟩

/-- The tokens of an optional block after a word. -/
inductive IsBlockAfter : Keyword → List TokenKind → Option Block → Prop
  | none {word : Keyword} : IsBlockAfter word [] none
  | some {word : Keyword} {ks : List TokenKind} {b : Block} :
      IsBlock ks b → IsBlockAfter word (.keyword word :: ks) (some b)

/-- The tokens of several statements. -/
inductive IsStmts : List TokenKind → List Stmt → Prop
  | nil : IsStmts [] []
  | cons {ks ks' : List TokenKind} {t : Stmt} {ts : List Stmt} :
      IsStmt ks t → IsStmts ks' ts → IsStmts (ks ++ ks') (t :: ts)

/-- The tokens of the branches of a choice, after its first word. -/
inductive IsBranches : List TokenKind → List Branch → Prop
  | last {cks bks : List TokenKind} {c : Expr} {b : Block} :
      IsExpr 1 cks c → IsBlock bks b → IsBranches (cks ++ bks) [⟨c, b⟩]
  | cons {cks bks ks : List TokenKind} {c : Expr} {b : Block} {bs : List Branch} :
      IsExpr 1 cks c → IsBlock bks b → IsBranches ks bs →
      IsBranches (cks ++ (bks ++ .keyword .elif :: ks)) (⟨c, b⟩ :: bs)

end

/-! ### Callables -/

/-- The tokens of a callable.  Its parameters are a parenthesised parameter. -/
inductive IsCallable : List TokenKind → Callable → Prop
  | mk {pks bks : List TokenKind} {params : Params} {body : Block} (name : Name) (span : Span) :
      IsParam (.mark .lparen :: (pks ++ [.mark .rparen])) params → IsBlock bks body →
      IsCallable
        (.keyword .fn :: .ident name :: .mark .lparen :: (pks ++ .mark .rparen :: bks))
        ⟨name, params, body, span⟩

/-- The tokens of several callables. -/
inductive IsCallables : List TokenKind → List Callable → Prop
  | nil : IsCallables [] []
  | cons {ks ks' : List TokenKind} {c : Callable} {cs : List Callable} :
      IsCallable ks c → IsCallables ks' cs → IsCallables (ks ++ ks') (c :: cs)

/-- The tokens of a program. -/
def IsProgram (ks : List TokenKind) (p : Program) : Prop := IsCallables ks p.callables

end Freshen.Grammar
