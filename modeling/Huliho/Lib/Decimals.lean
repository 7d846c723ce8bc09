import Mathlib.Algebra.GroupWithZero.Nat
import Mathlib.Data.List.TakeDrop
import Mathlib.Data.List.TakeWhile

/-!
# Numbers in a text

`decimal` is a number as it is written, `readDecimal` the number a text opens with and what follows it.
What is written ahead of no digit is read back (**`readDecimal_append`**), and a number below a power
of ten takes no more characters than the power says (`length_decimal_le`).
-/

namespace Huliho

/-- The digits of a number. -/
def decimal (n : Nat) : List Char := Nat.toDigits 10 n

/-- The number a text opens with, and the rest of the text. -/
def readDecimal (text : List Char) : Option (Nat × List Char) :=
  match text.takeWhile Char.isDigit with
  | [] => none
  | digits => some (Nat.ofDigitChars 10 digits 0, text.dropWhile Char.isDigit)

variable {n k : Nat} {c : Char} {rest : List Char}

theorem isDigit_of_mem_decimal (h : c ∈ decimal n) : c.isDigit :=
  Nat.isDigit_of_mem_toDigits (by decide) (by decide) h

theorem decimal_ne_nil : decimal n ≠ [] := Nat.toDigits_ne_nil

theorem length_decimal_le (hk : 0 < k) (h : n < 10 ^ k) : (decimal n).length ≤ k :=
  (Nat.length_toDigits_le_iff (by decide) hk).2 h

/-- **A number is read back where no digit follows it.** -/
theorem readDecimal_append (hrest : ∀ c ∈ rest.head?, ¬ c.isDigit) :
    readDecimal (decimal n ++ rest) = some (n, rest) := by
  have hdigits : ∀ c ∈ decimal n, c.isDigit := fun c hc => isDigit_of_mem_decimal hc
  have hstop : rest.takeWhile Char.isDigit = [] ∧ rest.dropWhile Char.isDigit = rest := by
    cases rest with
    | nil => exact ⟨rfl, rfl⟩
    | cons c rest =>
      have hc := hrest c rfl
      exact ⟨List.takeWhile_cons_of_neg hc, List.dropWhile_cons_of_neg hc⟩
  have htake : (decimal n ++ rest).takeWhile Char.isDigit = decimal n := by
    rw [List.takeWhile_append_of_pos hdigits, hstop.1, List.append_nil]
  have hdrop : (decimal n ++ rest).dropWhile Char.isDigit = rest := by
    rw [List.dropWhile_append_of_pos hdigits, hstop.2]
  rw [readDecimal, htake, hdrop]
  split
  · rename_i hnil
    exact absurd hnil decimal_ne_nil
  · rw [decimal, Nat.ofDigitChars_ten_toDigits]

/-- A number is read back with nothing left. -/
theorem readDecimal_decimal (n : Nat) : readDecimal (decimal n) = some (n, []) := by
  have hread : readDecimal (decimal n ++ []) = some (n, []) := readDecimal_append (by simp)
  rwa [List.append_nil] at hread

end Huliho
