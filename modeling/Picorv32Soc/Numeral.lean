import Mathlib.Data.Nat.Digits.Lemmas

/-!
# Numerals

A number written in a base, the most significant digit first and without zeros in front. There is
exactly one such numeral (`isNumeral_iff`); `numeral_of_le` is how it grows when a number is divided
by its base.
-/

namespace Numeral

variable {b n : Nat} {ds : List Nat}

/-- The digits of `n` in base `b`. -/
def numeral (b n : Nat) : List Nat := if n = 0 then [0] else (Nat.digits b n).reverse

/-- `ds` is a numeral for `n` in base `b`: the digits have the value `n`, and the first is zero only in
the numeral `0`. -/
structure IsNumeral (b n : Nat) (ds : List Nat) : Prop where
  digit_lt : ∀ d ∈ ds, d < b
  leading : ds = [0] ∨ ∃ d ds', ds = d :: ds' ∧ d ≠ 0
  value : Nat.ofDigits b ds.reverse = n

theorem numeral_of_lt (h : n < b) : numeral b n = [n] := by
  rw [numeral]
  split_ifs with h0
  · rw [h0]
  · rw [Nat.digits_of_lt b n h0 h]; rfl

theorem numeral_of_le (hb : 2 ≤ b) (h : b ≤ n) : numeral b n = numeral b (n / b) ++ [n % b] := by
  have hdiv : 0 < n / b := Nat.div_pos h (by omega)
  rw [numeral, numeral, if_neg (by omega), if_neg (by omega), Nat.digits_def' hb (by omega), List.reverse_cons]

theorem length_numeral_pos (b n : Nat) : 0 < (numeral b n).length := by
  rw [numeral]
  split_ifs with h0
  · exact Nat.one_pos
  · rw [List.length_reverse, List.length_pos_iff]
    exact Nat.digits_ne_nil_iff_ne_zero.2 h0

theorem length_numeral_le {k : Nat} (hb : 2 ≤ b) (hk : 0 < k) (h : n < b ^ k) : (numeral b n).length ≤ k := by
  rw [numeral]
  split_ifs with h0
  · exact hk
  · rw [List.length_reverse]
    exact (Nat.digits_length_le_iff hb n).2 h

theorem digit_lt (hb : 2 ≤ b) {d : Nat} (h : d ∈ numeral b n) : d < b := by
  rw [numeral] at h
  split_ifs at h with h0
  · rw [List.mem_singleton.1 h]; omega
  · exact Nat.digits_lt_base hb (List.mem_reverse.1 h)

theorem isNumeral_numeral (hb : 2 ≤ b) : IsNumeral b n (numeral b n) := by
  refine ⟨fun d hd => digit_lt hb hd, ?_, ?_⟩
  · rw [numeral]
    split_ifs with h0
    · exact Or.inl rfl
    · have hne : (Nat.digits b n).reverse ≠ [] :=
        fun h => Nat.digits_ne_nil_iff_ne_zero.2 h0 (List.reverse_eq_nil_iff.1 h)
      obtain ⟨d, ds', h⟩ := List.exists_cons_of_ne_nil hne
      refine Or.inr ⟨d, ds', h, ?_⟩
      have hlast := Nat.getLast_digit_ne_zero b h0
      rwa [List.getLast_eq_head_reverse, List.head_eq_getElem, List.getElem_of_eq h] at hlast
  · rw [numeral]
    split_ifs with h0
    · rw [h0]; rfl
    · rw [List.reverse_reverse, Nat.ofDigits_digits]

theorem isNumeral_iff (hb : 2 ≤ b) : IsNumeral b n ds ↔ ds = numeral b n := by
  refine ⟨?_, fun h => h ▸ isNumeral_numeral hb⟩
  rintro ⟨hlt, rfl | ⟨d, ds', rfl, hd⟩, rfl⟩
  · rfl
  · have hdig : Nat.digits b (Nat.ofDigits b (d :: ds').reverse) = (d :: ds').reverse :=
      Nat.digits_ofDigits b hb _ (fun x hx => hlt x (List.mem_reverse.1 hx)) (fun _ => by simpa using hd)
    have hne : Nat.ofDigits b (d :: ds').reverse ≠ 0 := by
      rw [← Nat.digits_ne_nil_iff_ne_zero (b := b), hdig]; simp
    rw [numeral, if_neg hne, hdig, List.reverse_reverse]

end Numeral
