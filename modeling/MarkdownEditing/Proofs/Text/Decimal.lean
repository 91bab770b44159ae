import MarkdownEditing.Text.Basic

namespace MarkdownEditing

namespace Text

variable {n : Nat} {c : Char}

theorem ofNat_ne_nil (n : Nat) : ofNat n ≠ [] := Nat.toDigits_ne_nil

theorem isDigit_of_mem_ofNat (member : c ∈ ofNat n) : c.isDigit = true :=
  Nat.isDigit_of_mem_toDigits (by decide) (by decide) member

theorem ofDigitChars_ofNat (n : Nat) : Nat.ofDigitChars 10 (ofNat n) 0 = n :=
  Nat.ofDigitChars_toDigits (by decide) (by decide)

theorem ofNat_of_lt (digit : n < 10) : ofNat n = [n.digitChar] := Nat.toDigits_of_lt_base digit

theorem ofNat_of_ge (large : 10 ≤ n) : ofNat n = ofNat (n / 10) ++ [(n % 10).digitChar] := by
  rw [ofNat, Nat.toDigits_eq_if (by decide), if_neg (by omega)]
  rfl

theorem head?_ofNat (positive : 0 < n) : (ofNat n).head? ≠ some '0' := by
  induction n using Nat.strongRecOn with
  | ind n ih =>
    by_cases digit : n < 10
    · rw [ofNat_of_lt digit]
      have cases_of_digit : n = 1 ∨ n = 2 ∨ n = 3 ∨ n = 4 ∨ n = 5 ∨ n = 6 ∨ n = 7 ∨ n = 8 ∨ n = 9 := by
        omega
      rcases cases_of_digit with rfl | rfl | rfl | rfl | rfl | rfl | rfl | rfl | rfl <;> decide
    · have front := ih (n / 10) (by omega) (by omega)
      rw [ofNat_of_ge (by omega)]
      cases digits : ofNat (n / 10) with
      | nil => exact absurd digits (ofNat_ne_nil _)
      | cons d ds =>
        rw [digits] at front
        exact front

theorem length_ofNat_of_zero (zero : (ofNat n).head? = some '0') : (ofNat n).length = 1 := by
  cases n with
  | zero => rfl
  | succ n => exact absurd zero (head?_ofNat (by omega))

end Text

end MarkdownEditing
