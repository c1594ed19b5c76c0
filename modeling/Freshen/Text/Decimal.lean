/-!
# Decimal numbers

- `Decimal.value`: the number that a row of decimal digits denotes.

**Key result.** `Decimal.value_toDigits`: the digits of a number denote it.
-/

namespace Freshen.Decimal

/-- The number that a decimal digit denotes. -/
def digitValue (c : Char) : Nat := c.toNat - '0'.toNat

/-- The number that a row of decimal digits denotes, the most significant first. -/
def value (digits : List Char) : Nat := digits.foldl (fun n c => 10 * n + digitValue c) 0

/-- One digit more at the end: ten times the value before, and the digit. -/
theorem value_append_singleton (digits : List Char) (c : Char) :
    value (digits ++ [c]) = 10 * value digits + digitValue c := by
  simp [value, List.foldl_append]

/-- The character for a digit stands for this digit. -/
theorem digitValue_digitChar {d : Nat} (h : d < 10) : digitValue d.digitChar = d := by
  have : ∀ d < 10, digitValue (Nat.digitChar d) = d := by decide
  exact this d h

/-- The digits of a number denote it. -/
theorem value_toDigits (n : Nat) : value (Nat.toDigits 10 n) = n := by
  induction n using Nat.strongRecOn with
  | ind n ih =>
    by_cases h : n < 10
    · rw [Nat.toDigits_of_lt_base h]
      simp [value, digitValue_digitChar h]
    · rw [Nat.toDigits_of_base_le (by omega) (Nat.not_lt.1 h), value_append_singleton,
        ih (n / 10) (by omega), digitValue_digitChar (Nat.mod_lt _ (by omega))]
      omega

end Freshen.Decimal
