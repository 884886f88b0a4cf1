import Picorv32Soc.Ram

/-!
# The bytes of `RAM_64KB`

The contents of the memory by byte address. An edge changes exactly the bytes that are strobed in that
cycle (`byte_step`); which ones these are depends on the strobes of two cycles ago and on the address
of this one.
-/

namespace Picorv32Soc
open Bits

/-- `mem_addr[1:0]`: the byte lane of an address. -/
def laneOf (a : BitVec 32) : BitVec 2 := a.extractLsb' 0 2

theorem bankOf_toNat (a : BitVec 32) : (bankOf a).toNat = a.toNat / 16384 % 4 := by
  simp [bankOf, BitVec.extractLsb'_toNat, Nat.shiftRight_eq_div_pow]

theorem offsetOf_toNat (a : BitVec 32) : (offsetOf a).toNat = a.toNat / 4 % 4096 := by
  simp [offsetOf, BitVec.extractLsb'_toNat, Nat.shiftRight_eq_div_pow]

theorem laneOf_toNat (a : BitVec 32) : (laneOf a).toNat = a.toNat % 4 := by
  simp [laneOf, BitVec.extractLsb'_toNat]

theorem bankOf_eq_iff {a b : BitVec 32} : bankOf a = bankOf b ↔ a.toNat / 16384 % 4 = b.toNat / 16384 % 4 := by
  rw [← BitVec.toNat_inj, bankOf_toNat, bankOf_toNat]

theorem offsetOf_eq_iff {a b : BitVec 32} : offsetOf a = offsetOf b ↔ a.toNat / 4 % 4096 = b.toNat / 4 % 4096 := by
  rw [← BitVec.toNat_inj, offsetOf_toNat, offsetOf_toNat]

namespace Ram64KB
variable (r : Ram64KB) (p : MemPort) (a : BitVec 32)

/-- The byte at an address; the bits above the 64 KB are not looked at. -/
def byte : BitVec 8 := ((r.bank (bankOf a)).bram (laneOf a)).mem (offsetOf a)

/-- The byte is written at this edge. -/
def strobed : Bool :=
  p.valid && (r.ramWstrb (bankOf a)).getLsbD (laneOf a).toNat && (offsetOf p.addr == offsetOf a)

theorem byte_stepData :
    (r.stepData p).byte a = if r.strobed p a then byteLane p.wdata (laneOf a) else r.byte a := by
  show (((r.bank (bankOf a)).bram (laneOf a)).step _ _ _ _).mem _ = _
  unfold strobed Bram4k8.step
  cases p.valid
  · rfl
  · cases (r.ramWstrb (bankOf a)).getLsbD (laneOf a).toNat
    · rfl
    · by_cases h : offsetOf p.addr = offsetOf a
      · simp [h]
      · simp [h, Function.update_of_ne (Ne.symm h), byte]

theorem byte_step : (r.step p).byte a = if r.strobed p a then byteLane p.wdata (laneOf a) else r.byte a :=
  r.byte_stepData p a

def word : BitVec 32 := joinLanes fun l => ((r.bank (bankOf a)).bram l).mem (offsetOf a)

theorem byteLane_word {x : BitVec 32} (hb : bankOf x = bankOf a) (ho : offsetOf x = offsetOf a) :
    byteLane (r.word a) (laneOf x) = r.byte x := by
  rw [word, byteLane_joinLanes, byte, hb, ho]

theorem byteLane_word_add {l : Nat} (hl : a.toNat % 4 + l < 4) :
    byteLane (r.word a) (BitVec.ofNat 2 (a.toNat % 4 + l)) = r.byte (a + BitVec.ofNat 32 l) := by
  have hx : (a + BitVec.ofNat 32 l).toNat = a.toNat + l := by
    rw [BitVec.toNat_add, BitVec.toNat_ofNat]; omega
  have hlane : laneOf (a + BitVec.ofNat 32 l) = BitVec.ofNat 2 (a.toNat % 4 + l) := by
    apply BitVec.eq_of_toNat_eq
    rw [laneOf_toNat, hx, BitVec.toNat_ofNat]; omega
  rw [← hlane]
  refine r.byteLane_word a ?_ ?_
  · rw [bankOf_eq_iff, hx]; omega
  · rw [offsetOf_eq_iff, hx]; omega

/-- A read takes three edges: the word at the address that was on the port three cycles ago. -/
theorem memRdata_step (p₁ p₂ : MemPort) (hv : p.valid = true) (hw : r.ramWstrb (bankOf p.addr) = 0) :
    (((r.step p).step p₁).step p₂).memRdata = r.word p.addr := by
  show joinLanes (fun l => ((r.bank (bankOf p.addr)).bram l |>.step (offsetOf p.addr) (byteLane p.wdata l)
    ((r.ramWstrb (bankOf p.addr)).getLsbD l.toNat) p.valid).dout) = _
  rw [hw, hv]
  simp only [BitVec.ofNat_eq_ofNat, BitVec.getLsbD_zero]
  rfl

end Ram64KB

end Picorv32Soc
