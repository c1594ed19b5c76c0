import Mathlib
import Freshen.Proofs.Naming.Allocation
import Freshen.Proofs.Token.Reading

/-!
# Identifiers among allocated names

A name is allocated as a tagged form of the base of an identifier, or as the base itself.  A tagged form
is always an identifier again.  The base need not be one: what stands between the delimiters of a tagged
name may begin with a digit or be a reserved word.

**Key results.** `Name.isIdentifier_tagged`: tagged forms are identifiers; `Allocates.isIdentifier_iff`:
all allocated names are identifiers iff all bases are.
-/

namespace Freshen

/-! ### Tagged forms are identifiers -/

/-- A word that begins with two underscores is an identifier. -/
theorem isIdentifier_of_underscores {cs : List Char} (hcs : ∀ c ∈ cs, isWordPart c = true) :
    IsIdentifier (String.ofList ('_' :: '_' :: cs)) := by
  have hkeyword : ∀ k : Keyword, k.text.toList.head? ≠ some '_' := by
    intro k
    cases k <;> decide
  have hnone : Keyword.ofWord? (String.ofList ('_' :: '_' :: cs)) = none := by
    refine Keyword.ofWord?_eq_none_iff.2 fun k hk => hkeyword k ?_
    rw [hk, String.toList_ofList, List.head?_cons]
  have hne : String.ofList ('_' :: '_' :: cs) ≠ "_" := fun h =>
    absurd (congrArg (·.toList.length) h) (by simp)
  exact ⟨⟨_, _, rfl, rfl, List.forall_mem_cons.2 ⟨rfl, hcs⟩⟩, by
    rw [TokenKind.ofWord, if_neg hne, hnone]⟩

namespace Name

/-- A tagged form of the base of an identifier is an identifier. -/
theorem isIdentifier_tagged {name : Name} (h : IsIdentifier name) {k : Nat} (hk : 0 < k) :
    IsIdentifier (tagged k name.base) := by
  have hbase : ∀ c ∈ name.base.toList, isWordPart c = true := fun c hc => by
    rw [base, String.toList_ofList] at hc
    exact h.1.isWordPart (TaggedName.mem_of_mem_core hc)
  have hdigits : ∀ c ∈ Nat.toDigits 10 k, isWordPart c = true := fun c hc =>
    isWordPart_of_isDigit (Nat.isDigit_of_mem_toDigits (by decide) (by decide) hc)
  have htext : tagged k name.base = String.ofList ('_' :: '_' ::
      (['v', 'a', 'r'] ++ Nat.toDigits 10 k ++ ['_', '_'] ++ name.base.toList ++ ['_', '_'])) := by
    refine String.toList_inj.1 ?_
    rw [tagged, if_neg hk.ne', TaggedName.toList_text, String.toList_ofList]
    rfl
  rw [htext]
  refine isIdentifier_of_underscores ?_
  simp only [List.forall_mem_append]
  exact ⟨⟨⟨⟨by simp [isWordPart], hdigits⟩, by simp [isWordPart]⟩, hbase⟩, by simp [isWordPart]⟩

end Name

/-! ### Rows of requests -/

/-- If the requested names and those taken are identifiers, then the names handed out are identifiers
iff the bases are: the first name that asks for a base gets the base. -/
theorem Allocates.isIdentifier_iff {taken names fresh : List Name} (h : Allocates taken names fresh)
    (htaken : ∀ name ∈ taken, IsIdentifier name) (hnames : ∀ name ∈ names, IsIdentifier name) :
    (∀ name ∈ fresh, IsIdentifier name) ↔ ∀ name ∈ names, IsIdentifier name.base := by
  induction h with
  | nil => simp
  | @cons taken names fresh name k hless _ _ ih =>
      obtain ⟨hname, hnames⟩ := List.forall_mem_cons.1 hnames
      have hhead : IsIdentifier (Name.tagged k name.base) ↔ IsIdentifier name.base := by
        rcases Nat.eq_zero_or_pos k with rfl | hk
        · rfl
        · exact iff_of_true (Name.isIdentifier_tagged hname hk) (htaken _ (hless 0 hk))
      rw [List.forall_mem_cons, List.forall_mem_cons, ← hhead]
      refine and_congr_right fun hfresh => ih (List.forall_mem_cons.2 ⟨hfresh, htaken⟩) hnames

end Freshen
