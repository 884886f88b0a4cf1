import Picorv32Soc.Crc
import Picorv32Soc.Eth.Lfsr

/-!
# The frame check sequence

Transmitter and receiver have the same instance of the shift register, `eth_crc_8`. A register of its kind
(Galois form, bits reversed) computes the remainder of a cyclic code, least significant bit first
(`stateOut_crc`); for this polynomial it is the reflected `0xEDB88320`.
-/

namespace Picorv32Soc
open ShiftRegister

namespace Lfsr
variable {p : Lfsr}

/-- The reflected polynomial, with its leading term in the highest bit. -/
def reflected (p : Lfsr) : BitVec p.lfsrWidth :=
  ofBits p.lfsrWidth fun i => i == p.lfsrWidth - 1 || p.lfsrPoly.testBit (p.lfsrWidth - 1 - i)

section
variable (hg : p.lfsrConfig = .galois) (hf : p.lfsrFeedForward = false)
include hg hf

/-- One shift of the register is one bit of the remainder, which runs the other way. -/
theorem reverse_serial (c : BitVec p.lfsrWidth) (d : Bool) :
    (p.taps.serial c.reverse d).1 = (Crc.bit p.reflected c d).reverse := by
  have hw := p.lfsrWidth_pos
  have hlow : c.reverse.msb = c.getLsbD 0 := by rw [BitVec.msb_reverse]
  have hpoly : ∀ i, i < p.lfsrWidth → (p.taps.poly ||| 1#p.lfsrWidth).getLsbD i = p.reflected.getLsbD (p.lfsrWidth - 1 - i) := by
    intro i hi
    rw [reflected, getLsbD_ofBits, decide_eq_true (by omega), Nat.sub_sub_self (by omega), Bool.true_and, BitVec.getLsbD_or,
      taps, BitVec.getLsbD_ofNat, decide_eq_true hi, Bool.true_and, BitVec.getLsbD_one, Bool.or_comm]
    congr 1
    rw [Bool.eq_iff_iff, beq_iff_eq, Bool.and_eq_true, decide_eq_true_iff, decide_eq_true_iff]
    omega
  have hshift : ∀ i, i < p.lfsrWidth → (c.reverse <<< 1).getLsbD i = c.getLsbD (1 + (p.lfsrWidth - 1 - i)) := by
    intro i hi
    rw [BitVec.getLsbD_shiftLeft, decide_eq_true hi, Bool.true_and]
    cases i with
    | zero => rw [BitVec.getLsbD_of_ge c _ (by omega)]; rfl
    | succ i =>
      rw [decide_eq_false (by omega), Bool.not_false, Bool.true_and, Nat.add_sub_cancel, BitVec.getLsbD_reverse,
        BitVec.getMsbD, decide_eq_true (by omega), Bool.true_and]
      congr 1; omega
  have hserial : (p.taps.serial c.reverse d).1 =
      (c.reverse <<< 1) ^^^ (if c.getLsbD 0 ^^ d then p.taps.poly ||| 1#_ else 0#_) := by
    rw [← hlow, Taps.serial]
    simp only [taps, hg, hf]
  refine BitVec.eq_of_getLsbD_eq fun i hi => ?_
  rw [hserial, BitVec.getLsbD_xor, hshift i hi, BitVec.getLsbD_reverse, BitVec.getMsbD, decide_eq_true hi, Bool.true_and,
    Crc.bit, BitVec.getLsbD_xor, BitVec.getLsbD_ushiftRight]
  congr 1
  cases c.getLsbD 0 ^^ d with
  | false => rw [if_neg Bool.false_ne_true, if_neg Bool.false_ne_true, BitVec.getLsbD_zero, BitVec.getLsbD_zero]
  | true => rw [if_pos rfl, if_pos rfl, hpoly i hi]

theorem reverse_serialRun (c : BitVec p.lfsrWidth) (ds : List Bool) :
    (p.taps.serialRun ds c.reverse).1 = (Crc.bits p.reflected c ds).reverse := by
  induction ds generalizing c with
  | nil => rfl
  | cons d ds ih => rw [Taps.serialRun, reverse_serial hg hf, ih, Crc.bits_cons]

/-- The module computes the remainder after the bits of its data, least significant first. -/
theorem stateOut_crc (hr : p.reverse = true) (style : LfsrStyle) (data : BitVec p.dataWidth) (state : BitVec p.lfsrWidth) :
    p.stateOut style data state = Crc.bits p.reflected state (Crc.bitsOf data) := by
  have hdata : msbFirst data.reverse = Crc.bitsOf data := by
    refine List.map_congr_left fun i hi => ?_
    rw [BitVec.getMsbD_reverse]
  have hout : p.order (p.stateOut style data state) = (p.taps.serialRun (msbFirst (p.order data)) (p.order state)).1 :=
    stateOut_serial
  simp only [order, hr, if_true, hdata] at hout
  rw [reverse_serialRun hg hf] at hout
  rw [← BitVec.reverse_reverse_eq (x := p.stateOut style data state), hout, BitVec.reverse_reverse_eq]

end

end Lfsr

/-! ### The instance in the media access controller -/

/-- The parameters of `eth_crc_8`. -/
@[reducible] def ethCrc8 : Lfsr where
  lfsrWidth := 32
  lfsrPoly := 0x4c11db7
  lfsrConfig := .galois
  lfsrFeedForward := false
  reverse := true
  dataWidth := 8
  lfsrWidth_pos := by decide

abbrev Byte := BitVec 8

/-- The wire `crc_next`, as it is synthesised. -/
def crcNext (data : Byte) (crcState : BitVec 32) : BitVec 32 := ethCrc8.stateOut .loop data crcState

def crcPoly : BitVec 32 := 0xEDB88320

theorem crcNext_eq (data : Byte) (c : BitVec 32) : crcNext data c = Crc.bits crcPoly c (Crc.bitsOf data) := by
  have hpoly : ethCrc8.reflected = crcPoly := by decide
  rw [crcNext, Lfsr.stateOut_crc rfl rfl rfl, hpoly]

/-- The register `crc_state` after the bytes of a frame. -/
def crcOf (m : List Byte) : BitVec 32 := m.foldl (fun c b => crcNext b c) 0xFFFFFFFF

@[simp] theorem crcOf_nil : crcOf [] = 0xFFFFFFFF := rfl

theorem crcOf_append_singleton (m : List Byte) (b : Byte) : crcOf (m ++ [b]) = crcNext b (crcOf m) := by
  rw [crcOf, List.foldl_append]; rfl

/-- The bits of a frame in the order they are sent. -/
def frameBits (m : List Byte) : List Bool := m.flatMap Crc.bitsOf

theorem crcOf_eq (m : List Byte) : crcOf m = Crc.bits crcPoly 0xFFFFFFFF (frameBits m) := by
  have hfold : ∀ c, m.foldl (fun c b => crcNext b c) c = Crc.bits crcPoly c (frameBits m) := by
    induction m with
    | nil => exact fun c => rfl
    | cons b m ih =>
      intro c
      rw [List.foldl_cons, ih, crcNext_eq, frameBits, frameBits, List.flatMap_cons, Crc.bits_append]
  exact hfold _

/-- The four bytes of the frame check sequence, in the order they are sent. -/
def fcs (m : List Byte) : List Byte :=
  let c := ~~~ crcOf m
  [c.extractLsb' 0 8, c.extractLsb' 8 8, c.extractLsb' 16 8, c.extractLsb' 24 8]

end Picorv32Soc
