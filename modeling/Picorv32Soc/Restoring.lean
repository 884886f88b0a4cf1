import Mathlib.Algebra.Order.Ring.Nat
import Mathlib.Tactic.Ring

/-!
# Restoring division

`n` is divided by `d` bit by bit, from the top: in the round for bit `k` the divisor, shifted by `k`, is
subtracted if it fits, and bit `k` of the quotient says whether it did. `remainder n d k` and
`quotient w n d k` are what is left and what has been found when the bits from `k` on are done. Division
by zero is not a special case: the divisor always fits, so all bits of the quotient are set.
-/

namespace Restoring

/-- What is left of `n` when the bits of the quotient from `k` on are known. -/
def remainder (n d k : Nat) : Nat := n % (d * 2 ^ k)

/-- The bits from `k` on of a quotient of `w` bits. -/
def quotient (w n d k : Nat) : Nat := if d = 0 then 2 ^ w - 2 ^ k else n / (d * 2 ^ k) * 2 ^ k

variable {w n d k : Nat}

theorem remainder_top (hn : n < 2 ^ w) : remainder n d w = n := by
  unfold remainder
  rcases Nat.eq_zero_or_pos d with rfl | hd
  · rw [Nat.zero_mul, Nat.mod_zero]
  · exact Nat.mod_eq_of_lt (Nat.lt_of_lt_of_le hn (Nat.le_mul_of_pos_left _ hd))

theorem quotient_top (hn : n < 2 ^ w) : quotient w n d w = 0 := by
  unfold quotient
  split_ifs with hd
  · exact Nat.sub_self _
  · rw [Nat.div_eq_of_lt (Nat.lt_of_lt_of_le hn (Nat.le_mul_of_pos_left _ (Nat.pos_of_ne_zero hd))), Nat.zero_mul]

theorem remainder_zero : remainder n d 0 = n % d := by rw [remainder, Nat.pow_zero, Nat.mul_one]

theorem quotient_zero : quotient w n d 0 = if d = 0 then 2 ^ w - 1 else n / d := by
  simp only [quotient, Nat.pow_zero, Nat.mul_one]

theorem double (d k : Nat) : d * 2 ^ (k + 1) = 2 * (d * 2 ^ k) := by ring

/-- The quotient by the double of `b`, and its lowest bit. -/
theorem div_double (n b : Nat) (hb : 0 < b) :
    n / b = 2 * (n / (2 * b)) + (if b ≤ n % (2 * b) then 1 else 0) ∧
      n % b = if b ≤ n % (2 * b) then n % (2 * b) - b else n % (2 * b) := by
  have hdiv := Nat.div_add_mod n (2 * b)
  have hlt := Nat.mod_lt n (show 0 < 2 * b by omega)
  rw [show 2 * b * (n / (2 * b)) = b * (2 * (n / (2 * b))) by ring] at hdiv
  rw [Nat.div_mod_unique hb]
  split_ifs with h
  · rw [Nat.mul_add]
    omega
  · rw [Nat.add_zero]
    omega

/-- The round for bit `k`, for what is left. -/
theorem remainder_round : remainder n d k =
    if d * 2 ^ k ≤ remainder n d (k + 1) then remainder n d (k + 1) - d * 2 ^ k else remainder n d (k + 1) := by
  unfold remainder
  rw [double d k]
  rcases Nat.eq_zero_or_pos d with rfl | hd
  · simp
  · exact (div_double n _ (Nat.mul_pos hd (Nat.two_pow_pos k))).2

/-- The round for bit `k`, for the quotient. -/
theorem quotient_round (hk : k < w) : quotient w n d k =
    quotient w n d (k + 1) + if d * 2 ^ k ≤ remainder n d (k + 1) then 2 ^ k else 0 := by
  unfold quotient remainder
  rw [double d k]
  split_ifs with hd hle hle
  · have := Nat.pow_le_pow_right (show 0 < 2 by omega) hk
    rw [Nat.pow_succ] at this ⊢
    omega
  · exact absurd (by rw [hd, Nat.zero_mul]; exact Nat.zero_le _) hle
  · have := (div_double n _ (Nat.mul_pos (Nat.pos_of_ne_zero hd) (Nat.two_pow_pos k))).1
    rw [if_pos hle] at this
    rw [this]; ring
  · have := (div_double n _ (Nat.mul_pos (Nat.pos_of_ne_zero hd) (Nat.two_pow_pos k))).1
    rw [if_neg hle] at this
    rw [this]; ring

/-- The bits below `k` are still zero. -/
theorem quotient_dvd (hk : k ≤ w) : 2 ^ k ∣ quotient w n d k := by
  unfold quotient
  split_ifs
  · exact Nat.dvd_sub (Nat.pow_dvd_pow 2 hk) (Nat.dvd_refl _)
  · exact Nat.dvd_mul_left _ _

end Restoring
