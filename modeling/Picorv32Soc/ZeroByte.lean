import Picorv32Soc.Bits

/-!
# Is there a zero byte in a word?

The test on a whole word that string functions use, and that it is exact (`zeroTest_ne_zero_iff`): the
subtraction may borrow from one byte to the next, but only out of a zero byte.
-/

namespace Bits

/-- `((v) - 0x01010101UL) & ~(v) & 0x80808080UL` -/
def zeroTest (v : BitVec 32) : BitVec 32 := (v - 0x01010101) &&& ~~~ v &&& 0x80808080

theorem toNat_byteLane (v : BitVec 32) (l : BitVec 2) :
    (byteLane v l).toNat = v.toNat / 2 ^ (8 * l.toNat) % 256 := by
  rw [byteLane, BitVec.extractLsb'_toNat, Nat.shiftRight_eq_div_pow]

theorem byteLane_eq_zero_iff (v : BitVec 32) (l : BitVec 2) :
    byteLane v l = 0 ↔ v.toNat / 2 ^ (8 * l.toNat) % 256 = 0 := by
  rw [← toNat_byteLane]
  exact BitVec.toNat_inj.symm

theorem getLsbD_mask : ∀ i, i < 32 → ((0x80808080 : BitVec 32).getLsbD i = true ↔ i % 8 = 7) := by decide

theorem getLsbD_zeroTest (v : BitVec 32) (i : Nat) : (zeroTest v).getLsbD i = true ↔
    i < 32 ∧ i % 8 = 7 ∧ (v.toNat + (2 ^ 32 - 0x01010101)) % 2 ^ 32 / 2 ^ i % 2 = 1 ∧ v.toNat / 2 ^ i % 2 = 0 := by
  by_cases hi : i < 32
  · have hsub : (v - 0x01010101).toNat = (v.toNat + (2 ^ 32 - 0x01010101)) % 2 ^ 32 := by
      rw [BitVec.toNat_sub, Nat.add_comm]; rfl
    rw [zeroTest, BitVec.getLsbD_and, BitVec.getLsbD_and, BitVec.getLsbD_not, Bool.and_eq_true, Bool.and_eq_true,
      getLsbD_mask i hi, Bool.and_eq_true, decide_eq_true_eq, Bool.not_eq_true', BitVec.getLsbD, BitVec.getLsbD, hsub,
      Nat.testBit_eq_decide_div_mod_eq, Nat.testBit_eq_decide_div_mod_eq, decide_eq_true_eq, decide_eq_false_iff_not]
    constructor
    · rintro ⟨⟨h1, -, h2⟩, h3⟩
      exact ⟨hi, h3, h1, by omega⟩
    · rintro ⟨-, h3, h1, h2⟩
      exact ⟨⟨h1, hi, by omega⟩, h3⟩
  · rw [BitVec.getLsbD_of_ge _ _ (by omega)]
    exact iff_of_false (by decide) (fun h => hi h.1)

theorem ne_zero_iff_exists_getLsbD {w : Nat} (x : BitVec w) : x ≠ 0#w ↔ ∃ i, x.getLsbD i = true := by
  constructor
  · intro hx
    by_contra hno
    refine hx (BitVec.eq_of_getLsbD_eq fun i _ => ?_)
    rw [BitVec.getLsbD_zero]
    exact Bool.eq_false_iff.2 fun h => hno ⟨i, h⟩
  · rintro ⟨i, hi⟩ rfl
    rw [BitVec.getLsbD_zero] at hi
    exact absurd hi (by decide)

/-- Without a zero byte there is no borrow, and a byte whose top bit appears had it before. -/
theorem no_borrow {x : Nat} (h0 : x % 256 ≠ 0) (h1 : x / 2 ^ 8 % 256 ≠ 0) (h2 : x / 2 ^ 16 % 256 ≠ 0)
    (h3 : x / 2 ^ 24 % 256 ≠ 0) (hx : x < 2 ^ 32) {j : Nat} (hj : j < 4)
    (hbit : (x + (2 ^ 32 - 0x01010101)) % 2 ^ 32 / 2 ^ (8 * j + 7) % 2 = 1) : x / 2 ^ (8 * j + 7) % 2 = 1 := by
  interval_cases j <;> omega

/-- The top bit of a zero byte is set, with a borrow from below or without. -/
theorem borrow {x j : Nat} (hj : j < 4) (h : x / 2 ^ (8 * j) % 256 = 0) :
    (x + (2 ^ 32 - 0x01010101)) % 2 ^ 32 / 2 ^ (8 * j + 7) % 2 = 1 ∧ x / 2 ^ (8 * j + 7) % 2 = 0 := by
  interval_cases j <;> omega

theorem zeroTest_ne_zero_iff (v : BitVec 32) : zeroTest v ≠ 0 ↔ ∃ l, byteLane v l = 0 := by
  have hv := v.isLt
  refine (ne_zero_iff_exists_getLsbD _).trans ?_
  constructor
  · rintro ⟨i, hi⟩
    obtain ⟨hlt, htop, hset, hclear⟩ := (getLsbD_zeroTest v i).1 hi
    obtain ⟨j, rfl⟩ : ∃ j, i = 8 * j + 7 := ⟨i / 8, by omega⟩
    by_contra hno
    have hlane : ∀ l : BitVec 2, v.toNat / 2 ^ (8 * l.toNat) % 256 ≠ 0 := fun l h =>
      hno ⟨l, (byteLane_eq_zero_iff v l).2 h⟩
    have h0 : v.toNat % 256 ≠ 0 := by
      have := hlane 0
      rwa [show 2 ^ (8 * (0 : BitVec 2).toNat) = 1 from rfl, Nat.div_one] at this
    have := no_borrow h0 (hlane 1) (hlane 2) (hlane 3) hv (by omega) hset
    omega
  · rintro ⟨l, hl⟩
    have hl' := (byteLane_eq_zero_iff v l).1 hl
    have hlt : l.toNat < 4 := l.isLt
    exact ⟨8 * l.toNat + 7, (getLsbD_zeroTest v _).2 ⟨by omega, by omega, borrow hlt hl'⟩⟩

end Bits
