import Mathlib.Data.BitVec
import Mathlib.Tactic.IntervalCases

/-!
# Bits and byte lanes of machine words

Single-bit assignment in a register (`reg[i] <= b`) and the four byte lanes of a 32-bit word.
-/

namespace Bits

variable {w : Nat}

/-- `x` with bit `i` assigned `b`. -/
def setBit (x : BitVec w) (i : Nat) (b : Bool) : BitVec w :=
  if b then x ||| BitVec.twoPow w i else x &&& ~~~ BitVec.twoPow w i

theorem getLsbD_setBit (x : BitVec w) (i j : Nat) (b : Bool) (hi : i < w) :
    (setBit x i b).getLsbD j = if j = i then b else x.getLsbD j := by
  unfold setBit
  by_cases hj : j = i
  · subst hj; cases b <;> simp [hi]
  · have hne : i ≠ j := Ne.symm hj
    cases b
    · by_cases hw : j < w
      · simp [hj, hw]
      · simp [hj, BitVec.getLsbD_of_ge x j (by omega)]
    · simp [BitVec.getLsbD_twoPow, hj, hne]

/-- Byte lane `l` of a word, lane 0 the least significant. -/
def byteLane (x : BitVec 32) (l : BitVec 2) : BitVec 8 := x.extractLsb' (8 * l.toNat) 8

/-- The word with the given byte lanes. -/
def joinLanes (f : BitVec 2 → BitVec 8) : BitVec 32 := f 3 ++ f 2 ++ f 1 ++ f 0

/-- `x` with lane `l` assigned `b`. -/
def setLane (x : BitVec 32) (l : BitVec 2) (b : BitVec 8) : BitVec 32 := joinLanes (Function.update (byteLane x) l b)

theorem lane_cases (l : BitVec 2) : l = 0 ∨ l = 1 ∨ l = 2 ∨ l = 3 := by
  revert l; decide

theorem getLsbD_joinLanes (f : BitVec 2 → BitVec 8) (i : Nat) :
    (joinLanes f).getLsbD i =
      if i < 8 then (f 0).getLsbD i else if i < 16 then (f 1).getLsbD (i - 8)
      else if i < 24 then (f 2).getLsbD (i - 16) else (f 3).getLsbD (i - 24) := by
  unfold joinLanes
  simp only [BitVec.getLsbD_append]
  split_ifs <;> first | rfl | omega

@[simp] theorem byteLane_joinLanes (f : BitVec 2 → BitVec 8) (l : BitVec 2) :
    byteLane (joinLanes f) l = f l := by
  apply BitVec.eq_of_getLsbD_eq
  intro i hi
  rw [byteLane, BitVec.getLsbD_extractLsb', getLsbD_joinLanes]
  have hlt : decide (i < 8) = true := decide_eq_true hi
  rcases lane_cases l with rfl | rfl | rfl | rfl <;> simp only [hlt, Bool.true_and] <;>
    split_ifs <;> simp_all <;> omega

theorem setLane_joinLanes (f : BitVec 2 → BitVec 8) (l : BitVec 2) (b : BitVec 8) :
    setLane (joinLanes f) l b = joinLanes (Function.update f l b) := by
  rw [setLane, show byteLane (joinLanes f) = f from funext (byteLane_joinLanes f)]

theorem byteLane_shift (x : BitVec 32) {c l m : Nat} (hl : c + l < 4) (hm : m = 32 - 8 * c) :
    byteLane ((x.extractLsb' (8 * c) m).setWidth 32) (BitVec.ofNat 2 l) = byteLane x (BitVec.ofNat 2 (c + l)) := by
  have e1 : (BitVec.ofNat 2 l).toNat = l := by rw [BitVec.toNat_ofNat]; omega
  have e2 : (BitVec.ofNat 2 (c + l)).toNat = c + l := by rw [BitVec.toNat_ofNat]; omega
  apply BitVec.eq_of_getLsbD_eq
  intro j hj
  simp only [byteLane, BitVec.getLsbD_extractLsb', BitVec.getLsbD_setWidth, e1, e2, hj, decide_true, Bool.true_and]
  rw [decide_eq_true (by omega), decide_eq_true (by omega), Bool.true_and, Bool.true_and]
  congr 1; omega

end Bits
