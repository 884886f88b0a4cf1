import Mathlib.Algebra.Order.Ring.Abs
import Mathlib.Algebra.Order.Ring.Int
import Mathlib.Tactic.Ring
import Picorv32Soc.Cpu.Rv32m

/-!
# `four_stage_signed_35x35_multiply`

The multiplier that is put together from four 18 bit multipliers of the FPGA. The operands are cut into
a signed upper part of 18 bits and an unsigned lower part of 17 bits; the partial products are added
in two halves, with the carry between them in the next stage. `MULT_MACRO` is a primitive of the device:
it is a parameter here, and `Multiplies` is what is asked of it. Then six edges after the operands have
been applied the signed product stands on `P` (`Filled.product`).
-/

namespace Picorv32Soc

/-- A clocked multiplier in the place of `MULT_MACRO`, with what it holds left open. -/
structure MultMacro (μ : Type) where
  step : BitVec 18 → BitVec 18 → μ → μ
  p : μ → BitVec 36

namespace MultMacro
variable {μ : Type} {M : MultMacro μ} {prod : BitVec 18 → BitVec 18 → BitVec 36} {a b : BitVec 18} {k : Nat} {m : μ}

/-- What `MULT_MACRO #(.LATENCY(3), .WIDTH_A(18), .WIDTH_B(18))` is used for. -/
structure Multiplies (M : MultMacro μ) (prod : BitVec 18 → BitVec 18 → BitVec 36) : Prop where
  /-- Both operands are signed. -/
  signed : ∀ a b, (prod a b).toInt = a.toInt * b.toInt
  /-- `P` is the product of the operands of three edges before, whatever has been applied since. -/
  latency : ∀ a b a₁ b₁ a₂ b₂ m, M.p (M.step a₂ b₂ (M.step a₁ b₁ (M.step a b m))) = prod a b

/-- `m` comes from `k` edges with the operands `a` and `b`. -/
def Fed (M : MultMacro μ) (a b : BitVec 18) : Nat → μ → Prop
  | 0, _ => True
  | k + 1, m => ∃ m', M.Fed a b k m' ∧ m = M.step a b m'

theorem Fed.step (h : M.Fed a b k m) : M.Fed a b (k + 1) (M.step a b m) := ⟨m, h, rfl⟩

theorem Fed.toInt_p (hM : M.Multiplies prod) (h : M.Fed a b k m) (hk : 3 ≤ k) : (M.p m).toInt = a.toInt * b.toInt := by
  obtain ⟨k, rfl⟩ : ∃ j, k = j + 3 := ⟨k - 3, by omega⟩
  obtain ⟨m₂, ⟨m₁, ⟨m₀, -, rfl⟩, rfl⟩, rfl⟩ := h
  rw [hM.latency, hM.signed]

end MultMacro

structure Multiply (μ : Type) where
  mul0 : μ
  mul1 : μ
  mul2 : μ
  mul3 : μ
  p0b : BitVec 36
  p1b : BitVec 34
  p2b : BitVec 36
  upperA : BitVec 35
  upperB : BitVec 35
  lowerSum : BitVec 36
  p : BitVec 70
deriving DecidableEq, Repr

namespace Multiply

variable {μ : Type} {M : MultMacro μ} {prod : BitVec 18 → BitVec 18 → BitVec 36} {a b : BitVec 35} {s : Multiply μ}

/-- `A[34:17]`. -/
def upper (a : BitVec 35) : BitVec 18 := a.extractLsb' 17 18

/-- `{1'b0, A[16:0]}`. -/
def lower (a : BitVec 35) : BitVec 18 := (a.extractLsb' 0 17).setWidth 18

/-- `{wupper_a, wlower_a}`. -/
def wordA (s : Multiply μ) : BitVec 70 := s.p0b ++ s.p1b

/-- `{wupper_b, wlower_b}`. -/
def wordB (s : Multiply μ) : BitVec 70 := s.p2b.signExtend 53 ++ 0#17

def upperSum (s : Multiply μ) : BitVec 36 := (s.upperA ++ 1#1) + (s.upperB ++ s.lowerSum.extractLsb' 35 1)

def step (M : MultMacro μ) (a b : BitVec 35) (s : Multiply μ) : Multiply μ where
  mul0 := M.step (upper a) (upper b) s.mul0
  mul1 := M.step (lower a) (lower b) s.mul1
  mul2 := M.step (upper a) (lower b) s.mul2
  mul3 := M.step (lower a) (upper b) s.mul3
  p0b := M.p s.mul0
  p1b := (M.p s.mul1).setWidth 34
  p2b := M.p s.mul2 + M.p s.mul3
  upperA := s.wordA.extractLsb' 35 35
  upperB := s.wordB.extractLsb' 35 35
  lowerSum := (s.wordA.extractLsb' 0 35).setWidth 36 + (s.wordB.extractLsb' 0 35).setWidth 36
  p := s.upperSum.extractLsb' 1 35 ++ s.lowerSum.setWidth 35

/-! ### The parts -/

theorem toInt_lower (a : BitVec 35) : (lower a).toInt = a.toNat % 2 ^ 17 := by
  rw [lower, BitVec.toInt_eq_toNat_of_lt] <;>
    rw [BitVec.toNat_setWidth, BitVec.extractLsb'_toNat, Nat.shiftRight_zero] <;> omega

theorem toInt_upper (a : BitVec 35) : a.toInt = 2 ^ 17 * (upper a).toInt + (lower a).toInt := by
  have ha := a.isLt
  rw [toInt_lower, BitVec.toInt_eq_toNat_cond, BitVec.toInt_eq_toNat_cond, upper, BitVec.extractLsb'_toNat,
    Nat.shiftRight_eq_div_pow]
  split_ifs <;> omega

/-- The product from the four partial products. -/
theorem product_eq (a b : BitVec 35) : a.toInt * b.toInt =
    2 ^ 34 * ((upper a).toInt * (upper b).toInt) + (lower a).toInt * (lower b).toInt +
      2 ^ 17 * ((upper a).toInt * (lower b).toInt + (lower a).toInt * (upper b).toInt) := by
  rw [toInt_upper a, toInt_upper b]; ring

theorem toNat_append {v w : Nat} (x : BitVec v) (y : BitVec w) : (x ++ y).toNat = x.toNat * 2 ^ w + y.toNat := by
  rw [BitVec.toNat_append, Nat.shiftLeft_eq, Nat.mul_comm, Nat.two_pow_add_eq_or_of_lt y.isLt]

/-- The two halves of a sum, the upper one with the carry of the lower one. -/
theorem halves_add (x y : BitVec 70) (s : Multiply μ) (ha : s.upperA = x.extractLsb' 35 35)
    (hb : s.upperB = y.extractLsb' 35 35)
    (hl : s.lowerSum = (x.extractLsb' 0 35).setWidth 36 + (y.extractLsb' 0 35).setWidth 36) :
    s.upperSum.extractLsb' 1 35 ++ s.lowerSum.setWidth 35 = x + y := by
  have hx := x.isLt
  have hy := y.isLt
  have hlow : s.lowerSum.toNat = x.toNat % 2 ^ 35 + y.toNat % 2 ^ 35 := by
    rw [hl, BitVec.toNat_add, BitVec.toNat_setWidth, BitVec.toNat_setWidth, BitVec.extractLsb'_toNat,
      BitVec.extractLsb'_toNat, Nat.shiftRight_zero, Nat.shiftRight_zero]
    omega
  have hup : s.upperSum.toNat / 2 % 2 ^ 35 =
      (x.toNat / 2 ^ 35 + y.toNat / 2 ^ 35 + s.lowerSum.toNat / 2 ^ 35) % 2 ^ 35 := by
    have hcarry : s.lowerSum.toNat / 2 ^ 35 < 2 := by omega
    rw [upperSum, BitVec.toNat_add, toNat_append, toNat_append, ha, hb]
    simp only [BitVec.extractLsb'_toNat, Nat.shiftRight_eq_div_pow, BitVec.toNat_ofNat]
    generalize s.lowerSum.toNat / 2 ^ 35 = c at hcarry ⊢
    omega
  apply BitVec.eq_of_toNat_eq
  rw [toNat_append, BitVec.toNat_add, BitVec.extractLsb'_toNat, BitVec.toNat_setWidth, Nat.shiftRight_one, hup, hlow]
  omega

/-- The operands `a` and `b` have been applied for `k` edges. -/
structure Filled (M : MultMacro μ) (a b : BitVec 35) (k : Nat) (s : Multiply μ) : Prop where
  mul0 : M.Fed (upper a) (upper b) k s.mul0
  mul1 : M.Fed (lower a) (lower b) k s.mul1
  mul2 : M.Fed (upper a) (lower b) k s.mul2
  mul3 : M.Fed (lower a) (upper b) k s.mul3
  words : 4 ≤ k → s.wordA + s.wordB = BitVec.ofInt 70 (a.toInt * b.toInt)
  sums : 5 ≤ k → s.upperSum.extractLsb' 1 35 ++ s.lowerSum.setWidth 35 = BitVec.ofInt 70 (a.toInt * b.toInt)
  product : 6 ≤ k → s.p = BitVec.ofInt 70 (a.toInt * b.toInt)

theorem filled_zero (M : MultMacro μ) (a b : BitVec 35) (s : Multiply μ) : Filled M a b 0 s :=
  ⟨trivial, trivial, trivial, trivial, by omega, by omega, by omega⟩

theorem abs_mul_le {x y m n : Int} (hx : |x| ≤ m) (hy : |y| ≤ n) : |x * y| ≤ m * n := by
  rw [abs_mul]
  exact mul_le_mul hx hy (abs_nonneg y) ((abs_nonneg x).trans hx)

theorem abs_upper (a : BitVec 35) : |(upper a).toInt| ≤ 2 ^ 17 := by
  have h1 := BitVec.le_toInt (upper a)
  have h2 := BitVec.toInt_lt (x := upper a)
  rw [abs_le]
  omega

theorem abs_lower (a : BitVec 35) : |(lower a).toInt| ≤ 2 ^ 17 - 1 := by
  rw [toInt_lower, abs_le]
  omega

theorem toNat_eq_of_toInt {w : Nat} {x : BitVec w} {z : Int} (h : x.toInt = z) (hz : 0 ≤ z) : (x.toNat : Int) = z := by
  have hx := x.isLt
  rw [BitVec.toInt_eq_toNat_cond] at h
  split_ifs at h <;> omega

theorem toInt_add_36 {x y : BitVec 36} (h : |x.toInt + y.toInt| < 2 ^ 35) : (x + y).toInt = x.toInt + y.toInt := by
  rw [abs_lt] at h
  rw [BitVec.toInt_add]
  exact Int.bmod_eq_of_le (by omega) (by omega)

/-- The four partial products, three edges after their operands. -/
theorem words_eq (hM : M.Multiplies prod) {k : Nat} (h : Filled M a b k s) (hk : 3 ≤ k) (x y : BitVec 35) :
    (step M x y s).wordA + (step M x y s).wordB = BitVec.ofInt 70 (a.toInt * b.toInt) := by
  have h1 := h.mul1.toInt_p hM hk
  have h2 := h.mul2.toInt_p hM hk
  have h3 := h.mul3.toInt_p hM hk
  have hhigh : (step M x y s).p0b.toInt = (upper a).toInt * (upper b).toInt := h.mul0.toInt_p hM hk
  have hlow : ((step M x y s).p1b.toNat : Int) = (lower a).toInt * (lower b).toInt := by
    have hbound := abs_le.1 (abs_mul_le (abs_lower a) (abs_lower b))
    have hpos : 0 ≤ (lower a).toInt * (lower b).toInt :=
      mul_nonneg (by rw [toInt_lower]; omega) (by rw [toInt_lower]; omega)
    have hnat := toNat_eq_of_toInt h1 hpos
    show (((M.p s.mul1).setWidth 34).toNat : Int) = _
    rw [BitVec.toNat_setWidth, ← hnat]
    rw [← hnat] at hbound
    omega
  have hmid : (step M x y s).p2b.toInt = (upper a).toInt * (lower b).toInt + (lower a).toInt * (upper b).toInt := by
    have hb1 := abs_mul_le (abs_upper a) (abs_lower b)
    have hb2 := abs_mul_le (abs_lower a) (abs_upper b)
    rw [← h2, ← h3]
    refine toInt_add_36 ?_
    rw [h2, h3]
    exact lt_of_le_of_lt ((abs_add_le _ _).trans (add_le_add hb1 hb2)) (by decide)
  have hsext : ((step M x y s).p2b.signExtend 53).toInt = (step M x y s).p2b.toInt :=
    BitVec.toInt_signExtend_of_le (by omega)
  apply BitVec.eq_of_toNat_eq
  rw [product_eq, BitVec.toNat_add, wordA, wordB, toNat_append, toNat_append, ← hhigh, ← hmid, ← hlow, ← hsext,
    BitVec.toNat_ofInt, BitVec.toInt_eq_toNat_cond, BitVec.toInt_eq_toNat_cond, BitVec.toNat_ofNat]
  have := (step M x y s).p1b.isLt
  have := (step M x y s).p0b.isLt
  have := ((step M x y s).p2b.signExtend 53).isLt
  split_ifs <;> omega

theorem Filled.step (hM : M.Multiplies prod) {k : Nat} (h : Filled M a b k s) : Filled M a b (k + 1) (step M a b s) where
  mul0 := h.mul0.step
  mul1 := h.mul1.step
  mul2 := h.mul2.step
  mul3 := h.mul3.step
  words := fun hk => words_eq hM h (by omega) a b
  sums := fun hk => (halves_add _ _ _ rfl rfl rfl).trans (h.words (by omega))
  product := fun hk => h.sums (by omega)

end Multiply

end Picorv32Soc
