import Mathlib.Logic.Function.Defs

/-!
# Numbers at the end of a name

`padded w n` is what `printf` makes of a natural number with the conversion `%0wd`: its decimal digits, with zeros in front up to
the width `w`. A text that ends in such a number, after a character that is not a digit, determines the number.
-/

namespace Decimal

variable {w v m n : Nat} {c : Char}

/-- The decimal digits of a number, with zeros in front up to a width. -/
def padded (w n : Nat) : List Char := List.replicate (w - (Nat.toDigits 10 n).length) '0' ++ Nat.toDigits 10 n

theorem isDigit_of_mem_padded (h : c ∈ padded w n) : c.isDigit = true := by
  rcases List.mem_append.mp h with h | h
  · rw [List.eq_of_mem_replicate h]
    rfl
  · exact Nat.isDigit_of_mem_toDigits (by decide) (by decide) h

/-- The zeros in front do not change the number. -/
theorem ofDigitChars_padded (w n : Nat) : Nat.ofDigitChars 10 (padded w n) 0 = n := by
  unfold padded
  rw [Nat.ofDigitChars_append, Nat.ofDigitChars_replicate_zero, Nat.mul_zero, Nat.ofDigitChars_ten_toDigits]

/-- The digits at the end of a text. -/
def trailing (s : List Char) : List Char := (s.reverse.takeWhile Char.isDigit).reverse

theorem trailing_append_padded (hc : c.isDigit = false) (p : List Char) (w n : Nat) :
    trailing (p ++ c :: padded w n) = padded w n := by
  have hd : ∀ x ∈ (padded w n).reverse, x.isDigit = true := fun x hx =>
    isDigit_of_mem_padded (List.mem_reverse.mp hx)
  unfold trailing
  rw [List.reverse_append, List.reverse_cons, List.append_assoc, List.takeWhile_append_of_pos hd, List.singleton_append,
    List.takeWhile_cons_of_neg (by simp [hc]), List.append_nil, List.reverse_reverse]

/-- The number at the end of a text, whatever comes before it. -/
theorem padded_inj (hc : c.isDigit = false) {p q : List Char} (h : p ++ c :: padded w m = q ++ c :: padded v n) : m = n := by
  have ht := congrArg (fun s => Nat.ofDigitChars 10 (trailing s) 0) h
  simpa only [trailing_append_padded hc, ofDigitChars_padded] using ht

end Decimal
