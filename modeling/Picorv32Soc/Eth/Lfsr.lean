import Picorv32Soc.ShiftRegister

/-!
# The parallel shift register (`rtl/eth/lfsr.v`)

The module finds its bit masks by shifting masks through a register, in its `initial` block. A mask names
the bits of the state and of the data whose sum a cell holds; the sum of two masks names the sum. So
what is true of masks is true of the bits they name, and the outputs are those of the serial register
after `DATA_WIDTH` shifts (`lfsr_serial`), whatever the polynomial, form, bit order and style. The bit
shifted out is the one fed back, the data bit included; in the module's drawing of the Galois form `DOUT`
leaves before the data bit is added.
-/

namespace Picorv32Soc
open ShiftRegister

/-! ### Masks -/

structure Mask (w d : Nat) where
  state : BitVec w
  data : BitVec d

namespace Mask
variable {w d : Nat}

def xor (a b : Mask w d) : Mask w d := ⟨a.state ^^^ b.state, a.data ^^^ b.data⟩

def reverse (a : Mask w d) : Mask w d := ⟨a.state.reverse, a.data.reverse⟩

/-- The sum of the bits a mask names. -/
def sum (state : BitVec w) (data : BitVec d) (a : Mask w d) : Bool :=
  xorBelow w (state &&& a.state).getLsbD ^^ xorBelow d (data &&& a.data).getLsbD

variable (state : BitVec w) (data : BitVec d)

theorem sum_xor (a b : Mask w d) : sum state data (a.xor b) = (sum state data a ^^ sum state data b) := by
  have hdistrib : ∀ {n : Nat} (x y z : BitVec n),
      xorBelow n (x &&& (y ^^^ z)).getLsbD = (xorBelow n (x &&& y).getLsbD ^^ xorBelow n (x &&& z).getLsbD) := by
    intro n x y z
    rw [← xorBelow_xor]
    refine xorBelow_congr fun i _ => ?_
    simp only [BitVec.getLsbD_and, BitVec.getLsbD_xor]
    cases x.getLsbD i <;> rfl
  simp only [sum, xor, hdistrib, Bool.xor_assoc, Bool.xor_left_comm (xorBelow d (data &&& a.data).getLsbD)]

theorem sum_reverse (a : Mask w d) : sum state data a.reverse = sum state.reverse data.reverse a := by
  have hrev : ∀ {n : Nat} (x y : BitVec n), xorBelow n (x &&& y.reverse).getLsbD = xorBelow n (x.reverse &&& y).getLsbD := by
    intro n x y
    rw [← xorBelow_reverse]
    refine xorBelow_congr fun i hi => ?_
    simp only [BitVec.getLsbD_and, BitVec.getLsbD_reverse, BitVec.getMsbD, hi, decide_true, Bool.true_and,
      show n - 1 - i < n by omega, show n - 1 - (n - 1 - i) = i by omega]
  simp only [sum, reverse, hrev]

theorem xorBelow_twoPow {n : Nat} (x : BitVec n) (i : Nat) : xorBelow n (x &&& BitVec.twoPow n i).getLsbD = x.getLsbD i := by
  rw [xorBelow_congr (g := fun j => x.getLsbD j && decide (j = i)), xorBelow_single]
  · by_cases hi : i < n
    · simp [hi]
    · simp [hi, BitVec.getLsbD_of_ge x i (by omega)]
  · intro j hj
    rw [BitVec.getLsbD_and, BitVec.getLsbD_twoPow]
    by_cases h : j = i
    · subst h; simp [hj]
    · simp [h, Ne.symm h]

theorem xorBelow_and_zero {n : Nat} (x : BitVec n) : xorBelow n (x &&& 0#n).getLsbD = false := by
  rw [BitVec.and_zero, xorBelow_congr (g := fun _ => false) fun _ _ => BitVec.getLsbD_zero, xorBelow_false]

end Mask

/-! ### The module -/

/-- The parameters of the module. -/
structure Lfsr where
  lfsrWidth : Nat
  lfsrPoly : Nat
  lfsrConfig : Config
  lfsrFeedForward : Bool
  reverse : Bool
  dataWidth : Nat
  lfsrWidth_pos : 0 < lfsrWidth

/-- How the sums are written; `AUTO` stands for one of these. -/
inductive LfsrStyle
  | loop
  | reduction

namespace Lfsr
variable (p : Lfsr)

def taps : Taps p.lfsrWidth := ⟨BitVec.ofNat p.lfsrWidth p.lfsrPoly, p.lfsrConfig, p.lfsrFeedForward⟩

/-- The masks before the first shift: every cell holds its own bit. -/
def initMasks : Register (Mask p.lfsrWidth p.dataWidth) where
  cells i := ⟨BitVec.twoPow p.lfsrWidth i, 0⟩
  -- a data bit beyond the register's width has no cell to start from
  out i := ⟨BitVec.twoPow p.lfsrWidth i, 0⟩

/-- The masks after one shift for each data bit, the most significant first. -/
def shiftedMasks : Register (Mask p.lfsrWidth p.dataWidth) :=
  p.initMasks.run p.taps Mask.xor ((List.range p.dataWidth).reverse.map fun i => ⟨0, BitVec.twoPow p.dataWidth i⟩)

/-- The masks the outputs are selected with: `lfsr_mask_state`, `lfsr_mask_data` in the cells and
`output_mask_state`, `output_mask_data` beside them. -/
def masks : Register (Mask p.lfsrWidth p.dataWidth) :=
  if p.reverse then
    { cells := fun i => (p.shiftedMasks.cells (p.lfsrWidth - i - 1)).reverse
      out := fun i => (p.shiftedMasks.out (p.dataWidth - i - 1)).reverse }
  else p.shiftedMasks

/-- One output bit. -/
def select (style : LfsrStyle) (data : BitVec p.dataWidth) (state : BitVec p.lfsrWidth)
    (a : Mask p.lfsrWidth p.dataWidth) : Bool :=
  match style with
  | .reduction => xorBelow (p.lfsrWidth + p.dataWidth) ((state &&& a.state) ++ (data &&& a.data)).getLsbD
  | .loop =>
    let reg := (List.range p.lfsrWidth).foldl (fun b j => if a.state.getLsbD j then b ^^ state.getLsbD j else b) false
    (List.range p.dataWidth).foldl (fun b j => if a.data.getLsbD j then b ^^ data.getLsbD j else b) reg

def stateOut (style : LfsrStyle) (data : BitVec p.dataWidth) (state : BitVec p.lfsrWidth) : BitVec p.lfsrWidth :=
  ofBits p.lfsrWidth fun n => p.select style data state (p.masks.cells n)

def dataOut (style : LfsrStyle) (data : BitVec p.dataWidth) (state : BitVec p.lfsrWidth) : BitVec p.dataWidth :=
  ofBits p.dataWidth fun n => p.select style data state (p.masks.out n)

theorem select_eq_sum (style : LfsrStyle) (data : BitVec p.dataWidth) (state : BitVec p.lfsrWidth)
    (a : Mask p.lfsrWidth p.dataWidth) : p.select style data state a = a.sum state data := by
  cases style with
  | reduction =>
    have hcomm : ∀ f, xorBelow (p.lfsrWidth + p.dataWidth) f = xorBelow (p.dataWidth + p.lfsrWidth) f := fun f => by
      rw [Nat.add_comm]
    rw [select, hcomm, xorBelow_add, Bool.xor_comm, Mask.sum]
    congr 1
    · exact xorBelow_congr fun i _ => by rw [BitVec.getLsbD_append, if_neg (by omega), Nat.add_sub_cancel_left]
    · exact xorBelow_congr fun i hi => by rw [BitVec.getLsbD_append, if_pos hi]
  | loop =>
    have hloop : ∀ {w : Nat} (x m : BitVec w) (b : Bool) (n : Nat),
        (List.range n).foldl (fun b j => if m.getLsbD j then b ^^ x.getLsbD j else b) b =
          (b ^^ xorBelow n (x &&& m).getLsbD) := by
      intro w x m b n
      induction n with
      | zero => simp [xorBelow]
      | succ n ih =>
        rw [List.range_succ, List.foldl_append, ih, xorBelow, BitVec.getLsbD_and]
        cases hm : m.getLsbD n <;> simp [hm]
    simp only [select, hloop, Mask.sum, Bool.false_xor]

/-! ### The serial register -/

/-- The order in which the bits go through the register. -/
def order {n : Nat} (x : BitVec n) : BitVec n := if p.reverse then x.reverse else x

variable {p} {data : BitVec p.dataWidth} {state : BitVec p.lfsrWidth} {style : LfsrStyle}

/-- The masks name what a register of bits holds. -/
theorem shiftedMasks_sum (data : BitVec p.dataWidth) (state : BitVec p.lfsrWidth) :
    p.shiftedMasks.map (Mask.sum state data) =
      (Register.mk state.getLsbD state.getLsbD).run p.taps Bool.xor (msbFirst data) := by
  rw [shiftedMasks, ← Register.run_map (Mask.sum_xor state data), msbFirst_eq, List.map_map]
  congr 1
  · refine List.map_congr_left fun i _ => ?_
    simp only [Function.comp_apply, Mask.sum]
    rw [show (0 : BitVec p.lfsrWidth) = 0#_ from rfl, Mask.xorBelow_and_zero, Mask.xorBelow_twoPow, Bool.false_xor]
  · have hcell : ∀ i, Mask.sum state data ⟨BitVec.twoPow p.lfsrWidth i, 0⟩ = state.getLsbD i := by
      intro i
      simp only [Mask.sum]
      rw [show (0 : BitVec p.dataWidth) = 0#_ from rfl, Mask.xorBelow_and_zero, Mask.xorBelow_twoPow, Bool.xor_false]
    exact Register.ext (funext hcell) (funext hcell)

/-- With `REVERSE` the masks are turned round, and what they select from is. -/
theorem order_stateOut : p.order (p.stateOut style data state) =
    ofBits p.lfsrWidth (p.shiftedMasks.map (Mask.sum (p.order state) (p.order data))).cells := by
  cases hr : p.reverse with
  | false => simp only [order, stateOut, masks, select_eq_sum, hr, Bool.false_eq_true, if_false, Register.map]
  | true =>
    simp only [order, stateOut, masks, select_eq_sum, hr, if_true, Register.map, Mask.sum_reverse, reverse_ofBits]
    exact ofBits_congr fun i hi => by congr 2; omega

theorem order_dataOut : p.order (p.dataOut style data state) =
    ofBits p.dataWidth (p.shiftedMasks.map (Mask.sum (p.order state) (p.order data))).out := by
  cases hr : p.reverse with
  | false => simp only [order, dataOut, masks, select_eq_sum, hr, Bool.false_eq_true, if_false, Register.map]
  | true =>
    simp only [order, dataOut, masks, select_eq_sum, hr, if_true, Register.map, Mask.sum_reverse, reverse_ofBits]
    exact ofBits_congr fun i hi => by congr 2; omega

theorem holds_shiftedMasks (data : BitVec p.dataWidth) (state : BitVec p.lfsrWidth) :
    (p.shiftedMasks.map (Mask.sum state data)).Holds (p.taps.serialRun (msbFirst data) state).1 := by
  rw [shiftedMasks_sum]
  exact (Register.Holds.run p.lfsrWidth_pos (fun _ _ => rfl) _).1

theorem out_shiftedMasks (data : BitVec p.dataWidth) (state : BitVec p.lfsrWidth) {j : Nat} (hj : j < p.dataWidth) :
    (p.shiftedMasks.map (Mask.sum state data)).out j =
      (p.taps.serialRun (msbFirst data) state).2.getD (p.dataWidth - 1 - j) false := by
  rw [shiftedMasks_sum, (Register.Holds.run p.lfsrWidth_pos (s := state) (fun _ _ => rfl) _).2, length_msbFirst, if_pos hj]

theorem stateOut_serial : p.order (p.stateOut style data state) =
    (p.taps.serialRun (msbFirst (p.order data)) (p.order state)).1 := by
  rw [order_stateOut]
  refine BitVec.eq_of_getLsbD_eq fun i hi => ?_
  rw [getLsbD_ofBits, decide_eq_true hi, Bool.true_and]
  exact holds_shiftedMasks _ _ i hi

theorem dataOut_serial : msbFirst (p.order (p.dataOut style data state)) =
    (p.taps.serialRun (msbFirst (p.order data)) (p.order state)).2 := by
  have hlen : (p.taps.serialRun (msbFirst (p.order data)) (p.order state)).2.length = p.dataWidth := by
    rw [Taps.length_serialRun, length_msbFirst]
  refine List.ext_getElem (by rw [length_msbFirst, hlen]) fun i hi hi' => ?_
  rw [length_msbFirst] at hi
  rw [getElem_msbFirst, order_dataOut, BitVec.getMsbD, getLsbD_ofBits, decide_eq_true hi, Bool.true_and,
    decide_eq_true (by omega), Bool.true_and, out_shiftedMasks _ _ (by omega), Nat.sub_sub_self (by omega),
    List.getD_eq_getElem _ _ hi']

/-- The outputs are the contents of the serial register after `DATA_WIDTH` shifts, and the bits it shifted
out. -/
theorem lfsr_serial (p : Lfsr) (style : LfsrStyle) (data : BitVec p.dataWidth) (state : BitVec p.lfsrWidth) :
    p.taps.serialRun (msbFirst (p.order data)) (p.order state) =
      (p.order (p.stateOut style data state), msbFirst (p.order (p.dataOut style data state))) :=
  Prod.ext stateOut_serial.symm dataOut_serial.symm

end Lfsr

end Picorv32Soc
