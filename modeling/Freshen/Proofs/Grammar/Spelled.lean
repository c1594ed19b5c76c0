import Mathlib
import Freshen.Proofs.Grammar.Derivation
import Freshen.Proofs.Tree.Spellable

/-!
# Derived trees are spellable

A tree that readable tokens derive can be written down, and its local names are identifiers.

**Key results.** `IsExpr.spellable`, `IsCallable.spellable`, `IsProgram.spellable`.
-/

namespace Freshen.Grammar

/-- Tokens that can be read from a text. -/
def AllReadable (ks : List TokenKind) : Prop := ∀ k ∈ ks, k.Readable

/-- No tokens are readable. -/
@[simp] theorem allReadable_nil : AllReadable [] := nofun

/-- A token in front of others is readable together with them. -/
@[simp] theorem allReadable_cons (k : TokenKind) (ks : List TokenKind) :
    AllReadable (k :: ks) ↔ k.Readable ∧ AllReadable ks := List.forall_mem_cons

/-- Tokens are readable iff those of both parts are. -/
@[simp] theorem allReadable_append (ks ks' : List TokenKind) :
    AllReadable (ks ++ ks') ↔ AllReadable ks ∧ AllReadable ks' := List.forall_mem_append

/-! ### Types and binding sites -/

mutual

/-- The names in a type of readable tokens can be spelled. -/
theorem IsType.spellable {ks : List TokenKind} {t : TypeExpr} :
    IsType ks t → AllReadable ks → t.Spellable
  | .named _ _, hks => by
      simp only [allReadable_cons] at hks
      exact ⟨hks.1, trivial⟩
  | .applied _ _ h, hks => by
      simp only [allReadable_cons, allReadable_append] at hks
      exact ⟨hks.1, SepBy.typesSpellable h hks.2.2.1⟩
  | .tuple _ h, hks => by
      simp only [allReadable_cons, allReadable_append] at hks
      exact SepBy.typesSpellable h hks.2.1
  | .array _ h, hks => by
      simp only [allReadable_cons, allReadable_append] at hks
      rw [TypeExpr.Spellable]
      exact IsType.spellable h hks.2.1

/-- So can those in the types of a list. -/
theorem SepBy.typesSpellable {ks : List TokenKind} {types : List TypeExpr} {comma : Bool} :
    SepBy IsType ks types comma → AllReadable ks → TypeExpr.SpellableList types
  | .nil, _ => trivial
  | .last h, hks => ⟨IsType.spellable h hks, trivial⟩
  | .cons h hs, hks => by
      simp only [allReadable_cons, allReadable_append] at hks
      exact ⟨IsType.spellable h hks.1, SepBy.typesSpellable hs hks.2.2⟩

end

/-- The name and the type of a binding site of readable tokens can be spelled. -/
theorem IsBinder.spellable {ks : List TokenKind} {b : Binder} (h : IsBinder ks b)
    (hks : AllReadable ks) : b.Spellable IsIdentifier := by
  obtain ⟨name, span, htype⟩ := h
  rw [allReadable_cons] at hks
  refine ⟨hks.1, ?_⟩
  cases htype with
  | none => exact nofun
  | some htype =>
      rw [allReadable_cons] at hks
      intro t ht
      obtain rfl := Option.some.inj ht
      exact htype.spellable hks.2.2

mutual

/-- The names that a pattern of readable tokens binds can be spelled. -/
theorem IsPattern.spellable {ks : List TokenKind} {p : Pattern} :
    IsPattern ks p → AllReadable ks → p.Spellable IsIdentifier
  | .binder h, hks => h.spellable hks
  | .discard _, _ => trivial
  | .paren h, hks => by
      simp only [allReadable_cons, allReadable_append] at hks
      exact IsPattern.spellable h hks.2.1
  | .tuple _ h _, hks => by
      simp only [allReadable_cons, allReadable_append] at hks
      exact SepBy.patternsSpellable h hks.2.1

/-- So can those of the patterns of a list. -/
theorem SepBy.patternsSpellable {ks : List TokenKind} {items : List Pattern} {comma : Bool} :
    SepBy IsPattern ks items comma → AllReadable ks → Pattern.SpellableList IsIdentifier items
  | .nil, _ => trivial
  | .last h, hks => ⟨IsPattern.spellable h hks, trivial⟩
  | .cons h hs, hks => by
      simp only [allReadable_cons, allReadable_append] at hks
      exact ⟨IsPattern.spellable h hks.1, SepBy.patternsSpellable hs hks.2.2⟩

end

mutual

/-- The names that a parameter of readable tokens binds can be spelled. -/
theorem IsParam.spellable {ks : List TokenKind} {p : Params} :
    IsParam ks p → AllReadable ks → p.Spellable IsIdentifier
  | .binder h, hks => h.spellable hks
  | .unnamed _, _ => trivial
  | .paren h, hks => by
      simp only [allReadable_cons, allReadable_append] at hks
      exact (SepBy.paramsSpellable h hks.2.1).1
  | .tuple _ h hlength, hks => by
      simp only [allReadable_cons, allReadable_append] at hks
      exact ⟨hlength, SepBy.paramsSpellable h hks.2.1⟩

/-- So can those of the parameters of a list. -/
theorem SepBy.paramsSpellable {ks : List TokenKind} {items : List Params} {comma : Bool} :
    SepBy IsParam ks items comma → AllReadable ks → Params.SpellableList IsIdentifier items
  | .nil, _ => trivial
  | .last h, hks => ⟨IsParam.spellable h hks, trivial⟩
  | .cons h hs, hks => by
      simp only [allReadable_cons, allReadable_append] at hks
      exact ⟨IsParam.spellable h hks.1, SepBy.paramsSpellable hs hks.2.2⟩

end

/-! ### Expressions -/

/-- The names and the type arguments of a path of readable tokens can be spelled. -/
theorem IsPathTail.spellable {ks : List TokenKind} {names : List Name}
    {args : Option (List TypeExpr)} (h : IsPathTail ks names args) (hks : AllReadable ks) :
    (∀ name ∈ names, IsIdentifier name) ∧ ∀ ts ∈ args, TypeExpr.SpellableList ts := by
  induction h with
  | done => simp
  | segment name _ ih =>
      simp only [allReadable_cons] at hks
      exact ⟨List.forall_mem_cons.2 ⟨hks.2.1, (ih hks.2.2).1⟩, (ih hks.2.2).2⟩
  | args h =>
      simp only [allReadable_cons, allReadable_append] at hks
      exact ⟨nofun, fun ts hts => Option.some.inj hts ▸ SepBy.typesSpellable h hks.2.2.1⟩

mutual

/-- Literals and names in an expression of readable tokens can be spelled. -/
theorem IsExpr.spellable {level : Nat} {ks : List TokenKind} {e : Expr} :
    IsExpr level ks e → AllReadable ks → e.Spellable IsIdentifier
  | .tighter h, hks => IsExpr.spellable h hks
  | .binary _ _ _ hl hr, hks => by
      simp only [allReadable_cons, allReadable_append] at hks
      exact ⟨IsExpr.spellable hl hks.1, IsExpr.spellable hr hks.2.2⟩
  | .unary _ _ h, hks => by
      rw [Expr.Spellable]
      exact IsExpr.spellable h ((allReadable_cons _ _).1 hks).2
  | .call _ hf hargs, hks => by
      simp only [allReadable_cons, allReadable_append] at hks
      exact ⟨IsExpr.spellable hf hks.1, SepBy.exprsSpellable hargs hks.2.2.1⟩
  | .index _ hb hi, hks => by
      simp only [allReadable_cons, allReadable_append] at hks
      exact ⟨IsExpr.spellable hb hks.1, IsExpr.spellable hi hks.2.2.1⟩
  | .int _ _, hks => ((allReadable_cons _ _).1 hks).1
  | .str _ _, _ | .bool _ _, _ | .unit _, _ => trivial
  | .unqualified _ _ h, hks => by
      rw [allReadable_cons] at hks
      exact ⟨hks.1, (h.spellable hks.2).2⟩
  | .qualified _ _ _ h, hks => by
      rw [allReadable_cons] at hks
      obtain ⟨hnames, hargs⟩ := h.spellable hks.2
      rw [List.forall_mem_append, List.forall_mem_singleton] at hnames
      exact ⟨⟨by simp, List.forall_mem_cons.2 ⟨hks.1, hnames.1⟩, hnames.2⟩, hargs⟩
  | .paren h, hks => by
      simp only [allReadable_cons, allReadable_append] at hks
      exact IsExpr.spellable h hks.2.1
  | .tuple _ h hne _, hks => by
      simp only [allReadable_cons, allReadable_append] at hks
      exact ⟨hne, SepBy.exprsSpellable h hks.2.1⟩
  | .array _ h, hks => by
      simp only [allReadable_cons, allReadable_append] at hks
      exact SepBy.exprsSpellable h hks.2.1

/-- So can those in the expressions of a list. -/
theorem SepBy.exprsSpellable {ks : List TokenKind} {items : List Expr} {comma : Bool} :
    SepBy (IsExpr 1) ks items comma → AllReadable ks → Expr.SpellableList IsIdentifier items
  | .nil, _ => trivial
  | .last h, hks => ⟨IsExpr.spellable h hks, trivial⟩
  | .cons h hs, hks => by
      simp only [allReadable_cons, allReadable_append] at hks
      exact ⟨IsExpr.spellable h hks.1, SepBy.exprsSpellable hs hks.2.2⟩

end

/-! ### Statements and programs -/

mutual

/-- A statement of readable tokens can be spelled. -/
theorem IsStmt.spellable {ks : List TokenKind} {t : Stmt} :
    IsStmt ks t → AllReadable ks → t.Spellable IsIdentifier
  | .bind _ hp he, hks => by
      simp only [allReadable_cons, allReadable_append] at hks
      exact ⟨hp.spellable hks.2.1, he.spellable hks.2.2.2.1⟩
  | .bindMut _ hp he, hks => by
      simp only [allReadable_cons, allReadable_append] at hks
      exact ⟨hp.spellable hks.2.2.1, he.spellable hks.2.2.2.2.1⟩
  | .assign _ ht hv, hks => by
      simp only [allReadable_cons, allReadable_append] at hks
      exact ⟨ht.spellable hks.2.1, hv.spellable hks.2.2.2.1⟩
  | .eval _ he, hks => he.spellable ((allReadable_append _ _).1 hks).1
  | .retNone _, _ => nofun
  | .ret _ he, hks => by
      simp only [allReadable_cons, allReadable_append] at hks
      intro e he'
      obtain rfl := Option.some.inj he'
      exact he.spellable hks.2.1
  | .choose _ hbs hb, hks => by
      simp only [allReadable_cons, allReadable_append] at hks
      exact ⟨by cases hbs <;> simp, IsBranches.spellable hbs hks.2.1,
        IsBlockAfter.spellable hb hks.2.2⟩
  | .loopWhile _ hc hb, hks => by
      simp only [allReadable_cons, allReadable_append] at hks
      exact ⟨hc.spellable hks.2.1, IsBlock.spellable hb hks.2.2⟩
  | .loopFor _ hp he hb, hks => by
      simp only [allReadable_cons, allReadable_append] at hks
      exact ⟨hp.spellable hks.2.1, he.spellable hks.2.2.2.1, IsBlock.spellable hb hks.2.2.2.2⟩
  | .loopUntil _ hb hc hx, hks => by
      simp only [allReadable_cons, allReadable_append] at hks
      exact ⟨IsBlock.spellable hb hks.2.1, hc.spellable hks.2.2.2.1,
        IsBlockAfter.spellable hx hks.2.2.2.2.1⟩
  | .block _ hb, hks => IsBlock.spellable hb hks

/-- A block of readable tokens can be spelled. -/
theorem IsBlock.spellable {ks : List TokenKind} {b : Block} :
    IsBlock ks b → AllReadable ks → b.Spellable IsIdentifier
  | .mk _ h, hks => by
      simp only [allReadable_cons, allReadable_append] at hks
      exact IsStmts.spellable h hks.2.1

/-- A block after a word, of readable tokens, can be spelled if there is one. -/
theorem IsBlockAfter.spellable {word : Keyword} {ks : List TokenKind} {b : Option Block} :
    IsBlockAfter word ks b → AllReadable ks → Block.SpellableOption IsIdentifier b
  | .none, _ => trivial
  | .some h, hks => IsBlock.spellable h ((allReadable_cons _ _).1 hks).2

/-- Statements of readable tokens can be spelled. -/
theorem IsStmts.spellable {ks : List TokenKind} {ts : List Stmt} :
    IsStmts ks ts → AllReadable ks → Stmt.SpellableList IsIdentifier ts
  | .nil, _ => trivial
  | .cons h hs, hks => by
      rw [allReadable_append] at hks
      exact ⟨IsStmt.spellable h hks.1, IsStmts.spellable hs hks.2⟩

/-- Branches of readable tokens can be spelled. -/
theorem IsBranches.spellable {ks : List TokenKind} {bs : List Branch} :
    IsBranches ks bs → AllReadable ks → Branch.SpellableList IsIdentifier bs
  | .last hc hb, hks => by
      rw [allReadable_append] at hks
      exact ⟨hc.spellable hks.1, IsBlock.spellable hb hks.2, trivial⟩
  | .cons hc hb hbs, hks => by
      simp only [allReadable_cons, allReadable_append] at hks
      exact ⟨hc.spellable hks.1, IsBlock.spellable hb hks.2.1, IsBranches.spellable hbs hks.2.2.2⟩

end

/-- A callable of readable tokens can be spelled. -/
theorem IsCallable.spellable {ks : List TokenKind} {c : Callable} (h : IsCallable ks c)
    (hks : AllReadable ks) : c.Spellable IsIdentifier := by
  obtain ⟨name, span, hparams, hbody⟩ := h
  simp only [allReadable_cons, allReadable_append] at hks
  refine ⟨hks.2.1, hparams.spellable ?_, hbody.spellable hks.2.2.2.2.2⟩
  simp only [allReadable_cons, allReadable_append, allReadable_nil, and_true]
  exact ⟨hks.2.2.1, hks.2.2.2.1, hks.2.2.2.2.1⟩

/-- Callables of readable tokens can be spelled. -/
theorem IsCallables.spellable {ks : List TokenKind} {cs : List Callable} (h : IsCallables ks cs)
    (hks : AllReadable ks) : ∀ c ∈ cs, c.Spellable IsIdentifier := by
  induction h with
  | nil => exact nofun
  | cons hc _ ih =>
      rw [allReadable_append] at hks
      exact List.forall_mem_cons.2 ⟨hc.spellable hks.1, ih hks.2⟩

/-- A program of readable tokens can be spelled. -/
theorem IsProgram.spellable {ks : List TokenKind} {p : Program} (h : IsProgram ks p)
    (hks : AllReadable ks) : p.Spellable IsIdentifier := IsCallables.spellable h hks

end Freshen.Grammar
