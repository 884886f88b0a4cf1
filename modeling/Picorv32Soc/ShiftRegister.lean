import Mathlib.Data.BitVec
import Mathlib.Data.List.GetD
import Mathlib.Tactic.SplitIfs

/-!
# Shift registers with feedback

A register shifts values of any type that can be added (`xor`): bits, or names of bits. A map that
respects the addition goes through every shift (`Register.shift_map`), so shifting names and then looking
their values up is the same as shifting the values (`run_map`). On bits it is one of the four registers
of `Taps.serial`, which are given as operations on words (`Register.Holds.run`).
-/

namespace ShiftRegister

/-! ### Sums of bits -/

/-- The sum of the bits below `n`: Verilog's reduction operator `^`. -/
def xorBelow : Nat → (Nat → Bool) → Bool
  | 0, _ => false
  | n + 1, f => xorBelow n f ^^ f n

theorem xorBelow_congr {n : Nat} {f g : Nat → Bool} (h : ∀ i, i < n → f i = g i) : xorBelow n f = xorBelow n g := by
  induction n with
  | zero => rfl
  | succ n ih => rw [xorBelow, xorBelow, ih fun i hi => h i (by omega), h n (by omega)]

theorem xorBelow_xor (n : Nat) (f g : Nat → Bool) :
    xorBelow n (fun i => f i ^^ g i) = (xorBelow n f ^^ xorBelow n g) := by
  induction n with
  | zero => rfl
  | succ n ih => simp only [xorBelow, ih, Bool.xor_assoc, Bool.xor_left_comm (f n)]

theorem xorBelow_add (n m : Nat) (f : Nat → Bool) :
    xorBelow (n + m) f = (xorBelow n f ^^ xorBelow m fun i => f (n + i)) := by
  induction m with
  | zero => simp [xorBelow]
  | succ m ih => rw [← Nat.add_assoc, xorBelow, ih, xorBelow, Bool.xor_assoc]

theorem xorBelow_succ_left (n : Nat) (f : Nat → Bool) : xorBelow (n + 1) f = (f 0 ^^ xorBelow n fun i => f (i + 1)) := by
  rw [Nat.add_comm, xorBelow_add]
  simp only [xorBelow, Bool.false_xor, Nat.add_comm]

theorem xorBelow_false (n : Nat) : xorBelow n (fun _ => false) = false := by
  induction n with
  | zero => rfl
  | succ n ih => rw [xorBelow, ih]; rfl

theorem xorBelow_reverse (n : Nat) (f : Nat → Bool) : xorBelow n (fun i => f (n - 1 - i)) = xorBelow n f := by
  induction n generalizing f with
  | zero => rfl
  | succ n ih =>
    rw [xorBelow_succ_left, xorBelow, ← ih f, Bool.xor_comm]
    congr 1
    exact xorBelow_congr fun i hi => by congr 1; omega

theorem xorBelow_single (n k : Nat) (f : Nat → Bool) :
    xorBelow n (fun i => f i && decide (i = k)) = (decide (k < n) && f k) := by
  induction n with
  | zero => rfl
  | succ n ih =>
    rw [xorBelow, ih]
    rcases Nat.lt_trichotomy k n with h | rfl | h
    · simp [h, Nat.lt_succ_of_lt h, Nat.ne_of_gt h]
    · simp
    · simp [Nat.not_lt_of_gt h, Nat.ne_of_lt h, show ¬ k < n + 1 by omega]

/-- The word with the bits `f`. -/
def ofBits : (n : Nat) → (Nat → Bool) → BitVec n
  | 0, _ => 0#0
  | n + 1, f => BitVec.cons (f n) (ofBits n f)

theorem getLsbD_ofBits (n : Nat) (f : Nat → Bool) (i : Nat) : (ofBits n f).getLsbD i = (decide (i < n) && f i) := by
  induction n with
  | zero => simp [ofBits]
  | succ n ih =>
    rw [ofBits, BitVec.getLsbD_cons, ih]
    split_ifs with h
    · simp [h]
    · rw [show decide (i < n + 1) = decide (i < n) from decide_eq_decide.2 (by omega)]

theorem ofBits_congr {n : Nat} {f g : Nat → Bool} (h : ∀ i, i < n → f i = g i) : ofBits n f = ofBits n g := by
  refine BitVec.eq_of_getLsbD_eq fun i hi => ?_
  rw [getLsbD_ofBits, getLsbD_ofBits, h i hi]

theorem reverse_ofBits (n : Nat) (f : Nat → Bool) : (ofBits n f).reverse = ofBits n fun i => f (n - i - 1) := by
  refine BitVec.eq_of_getLsbD_eq fun i hi => ?_
  rw [BitVec.getLsbD_reverse, BitVec.getMsbD, getLsbD_ofBits, getLsbD_ofBits, Nat.sub_right_comm]
  simp only [hi, decide_true, Bool.true_and, show n - i - 1 < n by omega]

/-- The bits of a word, the most significant first. -/
def msbFirst {n : Nat} (x : BitVec n) : List Bool := (List.range n).map x.getMsbD

@[simp] theorem length_msbFirst {n : Nat} (x : BitVec n) : (msbFirst x).length = n := by simp [msbFirst]

theorem getElem_msbFirst {n : Nat} (x : BitVec n) (i : Nat) (h : i < (msbFirst x).length) :
    (msbFirst x)[i] = x.getMsbD i := by simp [msbFirst]

theorem msbFirst_eq {n : Nat} (x : BitVec n) : msbFirst x = (List.range n).reverse.map x.getLsbD := by
  refine List.ext_getElem (by simp) fun i hi _ => ?_
  rw [length_msbFirst] at hi
  simp [getElem_msbFirst, BitVec.getMsbD, hi]

/-! ### The registers on bits -/

/-- Where the taps are joined: before the first cell or between the cells. -/
inductive Config
  | fibonacci
  | galois
  deriving DecidableEq

/-- A register of `w` cells. -/
structure Taps (w : Nat) where
  poly : BitVec w
  config : Config
  /-- Only the input is shifted in, not the feedback. -/
  feedForward : Bool

namespace Taps
variable {w : Nat} (T : Taps w)

/-- The sum of the tapped cells of the Fibonacci form, the last cell apart: the term of power `j + 1` taps
cell `j`. -/
def tapped (s : BitVec w) : Bool := xorBelow w (s &&& T.poly >>> 1).getLsbD

/-- One shift of the register with the contents `s`, whose last cell is the most significant bit: the new
contents, and the bit shifted out. In the Galois form the polynomial is added when the bit that comes in
is set; in the Fibonacci form the bit goes in front of the word. -/
def serial (s : BitVec w) (d : Bool) : BitVec w × Bool :=
  match T.config, T.feedForward with
  | .galois, false => ((s <<< 1) ^^^ (if s.msb ^^ d then T.poly ||| 1#w else 0#w), s.msb ^^ d)
  | .galois, true => ((s <<< 1) ^^^ (if d then T.poly ||| 1#w else 0#w), s.msb ^^ d)
  | .fibonacci, false => ((s.concat (s.msb ^^ T.tapped s ^^ d)).setWidth w, s.msb ^^ T.tapped s ^^ d)
  | .fibonacci, true => ((s.concat d).setWidth w, s.msb ^^ T.tapped s ^^ d)

/-- Bit after bit: the contents at the end, and the bits shifted out. -/
def serialRun : List Bool → BitVec w → BitVec w × List Bool
  | [], s => (s, [])
  | d :: ds, s => ((serialRun ds (T.serial s d).1).1, (T.serial s d).2 :: (serialRun ds (T.serial s d).1).2)

theorem length_serialRun (ds : List Bool) (s : BitVec w) : (T.serialRun ds s).2.length = ds.length := by
  induction ds generalizing s with
  | nil => rfl
  | cons d ds ih => rw [serialRun, List.length_cons, ih, List.length_cons]

end Taps

/-! ### Any cells -/

/-- The cells, and what was shifted out, the last value first. -/
@[ext]
structure Register (α : Type*) where
  cells : Nat → α
  out : Nat → α

variable {α β : Type*} {w : Nat}

/-- The contents moved on by one place, with `a` in the first. -/
def push (a : α) (f : Nat → α) : Nat → α
  | 0 => a
  | j + 1 => f j

theorem map_push (f : α → β) (a : α) (g : Nat → α) (j : Nat) : f (push a g j) = push (f a) (fun i => f (g i)) j := by
  cases j <;> rfl

namespace Register

section
variable (T : Taps w) (xor : α → α → α)

/-- The value fed back: the last cell and the input, in the Fibonacci form also the taps. -/
def feedback (d : α) (r : Register α) : α :=
  match T.config with
  | .galois => xor (r.cells (w - 1)) d
  | .fibonacci =>
    (List.range' 1 (w - 1)).foldl (fun v j => if T.poly.getLsbD j then xor (r.cells (j - 1)) v else v)
      (xor (r.cells (w - 1)) d)

def shift (d : α) (r : Register α) : Register α :=
  let v := r.feedback T xor d
  let a := if T.feedForward then d else v
  { cells := fun j =>
      match T.config with
      | .fibonacci => push a r.cells j
      | .galois => if 1 ≤ j ∧ T.poly.getLsbD j then xor (push a r.cells j) a else push a r.cells j
    out := push v r.out }

def run (ds : List α) (r : Register α) : Register α := ds.foldl (fun r d => r.shift T xor d) r

end

def map (f : α → β) (r : Register α) : Register β := ⟨fun j => f (r.cells j), fun j => f (r.out j)⟩

section
variable {T : Taps w} {xor : α → α → α} {xor' : β → β → β} {f : α → β} (hf : ∀ a b, f (xor a b) = xor' (f a) (f b))
include hf

theorem feedback_map (d : α) (r : Register α) : (r.map f).feedback T xor' (f d) = f (r.feedback T xor d) := by
  have hfold : ∀ (js : List Nat) (v : α),
      js.foldl (fun v j => if T.poly.getLsbD j then xor' ((r.map f).cells (j - 1)) v else v) (f v) =
        f (js.foldl (fun v j => if T.poly.getLsbD j then xor (r.cells (j - 1)) v else v) v) := by
    intro js
    induction js with
    | nil => intro v; rfl
    | cons j js ih =>
      intro v
      rw [List.foldl_cons, List.foldl_cons, ← ih]
      congr 1
      split
      · exact (hf _ _).symm
      · rfl
  have hlast : xor' ((r.map f).cells (w - 1)) (f d) = f (xor (r.cells (w - 1)) d) := (hf _ _).symm
  cases h : T.config with
  | galois => simp only [feedback, h]; exact hlast
  | fibonacci => simp only [feedback, h]; rw [hlast, hfold]

theorem shift_map (d : α) (r : Register α) : (r.map f).shift T xor' (f d) = (r.shift T xor d).map f := by
  have hin : (if T.feedForward then f d else (r.map f).feedback T xor' (f d)) =
      f (if T.feedForward then d else r.feedback T xor d) := by
    rw [feedback_map hf, apply_ite f]
  ext j
  · simp only [shift, hin]
    generalize (if T.feedForward then d else r.feedback T xor d) = a
    cases T.config with
    | fibonacci => exact (map_push f a r.cells j).symm
    | galois =>
      dsimp only [map]
      by_cases hj : 1 ≤ j ∧ T.poly.getLsbD j = true
      · rw [if_pos hj, if_pos hj, hf, map_push f a r.cells]
      · rw [if_neg hj, if_neg hj, map_push f a r.cells]
  · simp only [shift, feedback_map hf]
    exact (map_push f _ _ j).symm

theorem run_map (ds : List α) (r : Register α) : (r.map f).run T xor' (ds.map f) = (r.run T xor ds).map f := by
  induction ds generalizing r with
  | nil => rfl
  | cons d ds ih =>
    rw [List.map_cons, run, List.foldl_cons, shift_map hf]
    exact ih (r.shift T xor d)

end

/-! ### Cells that are bits -/

/-- The cells hold the word `s`. -/
def Holds (r : Register Bool) (s : BitVec w) : Prop := ∀ i, i < w → r.cells i = s.getLsbD i

section
variable {T : Taps w} {r : Register Bool} {s : BitVec w}

theorem foldl_taps (f g : Nat → Bool) (v : Bool) (n : Nat) :
    (List.range' 1 n).foldl (fun v j => if f j then g (j - 1) ^^ v else v) v =
      (v ^^ xorBelow n fun i => g i && f (i + 1)) := by
  induction n with
  | zero => simp [xorBelow]
  | succ n ih =>
    rw [List.range'_concat, List.foldl_append, ih, xorBelow]
    simp only [Nat.one_mul, List.foldl_cons, List.foldl_nil, Nat.add_comm 1 n, Nat.add_sub_cancel]
    cases f (n + 1)
    · simp
    · simp [Bool.xor_comm, Bool.xor_left_comm]

variable (hw : 0 < w) (h : r.Holds s)
include hw h

theorem Holds.feedback (d : Bool) : r.feedback T Bool.xor d = (T.serial s d).2 := by
  have hlast : r.cells (w - 1) = s.msb := by rw [h _ (by omega), BitVec.msb_eq_getLsbD_last]
  have htaps : xorBelow (w - 1) (fun i => r.cells i && T.poly.getLsbD (i + 1)) = T.tapped s := by
    obtain ⟨n, rfl⟩ : ∃ n, w = n + 1 := ⟨w - 1, by omega⟩
    rw [Taps.tapped, xorBelow, BitVec.getLsbD_and, BitVec.getLsbD_ushiftRight, BitVec.getLsbD_of_ge T.poly (1 + n) (by omega),
      Bool.and_false, Bool.xor_false, Nat.add_sub_cancel]
    exact xorBelow_congr fun i hi => by
      rw [h i (by omega), BitVec.getLsbD_and, BitVec.getLsbD_ushiftRight, Nat.add_comm 1 i]
  rw [Register.feedback, Taps.serial]
  cases T.config with
  | galois => cases T.feedForward <;> (dsimp only; rw [hlast])
  | fibonacci =>
    have hsum : ((s.msb ^^ d) ^^ T.tapped s) = (s.msb ^^ T.tapped s ^^ d) := by
      rw [Bool.xor_assoc, Bool.xor_comm d, ← Bool.xor_assoc]
    cases T.feedForward <;> (dsimp only; rw [foldl_taps, htaps, hlast, hsum])

theorem Holds.shift (d : Bool) : (r.shift T Bool.xor d).Holds (T.serial s d).1 := by
  have hpush : ∀ (a : Bool) (i : Nat), i < w → push a r.cells i = ((s.concat a).setWidth w).getLsbD i := by
    intro a i hi
    rw [BitVec.getLsbD_setWidth, decide_eq_true hi, Bool.true_and, BitVec.getLsbD_concat]
    cases i with
    | zero => rfl
    | succ i => rw [if_neg (Nat.succ_ne_zero i), Nat.add_sub_cancel]; exact h i (by omega)
  -- the polynomial is added under the cells that `push` filled, and the first one has no tap of its own
  have hadd : ∀ (a : Bool) (i : Nat), i < w →
      (if 1 ≤ i ∧ T.poly.getLsbD i = true then push a r.cells i ^^ a else push a r.cells i) =
        ((s <<< 1) ^^^ (if a then T.poly ||| 1#w else 0#w)).getLsbD i := by
    intro a i hi
    rw [hpush a i hi, BitVec.getLsbD_setWidth, decide_eq_true hi, Bool.true_and, BitVec.getLsbD_concat,
      BitVec.getLsbD_xor, BitVec.getLsbD_shiftLeft]
    cases i with
    | zero => cases a <;> simp [hw]
    | succ i =>
      have hpoly : (T.poly ||| 1#w).getLsbD (i + 1) = T.poly.getLsbD (i + 1) := by simp
      cases a with
      | false => simp [hi]
      | true => rw [if_pos rfl, hpoly]; cases T.poly.getLsbD (i + 1) <;> simp [hi]
  intro i hi
  have hv := h.feedback hw (T := T) d
  rw [Taps.serial] at hv ⊢
  simp only [Register.shift]
  cases hc : T.config with
  | galois =>
    cases hff : T.feedForward with
    | false => simp only [hc, hff, Bool.false_eq_true, if_false] at hv ⊢; rw [hv]; exact hadd _ i hi
    | true => simp only [if_true]; exact hadd d i hi
  | fibonacci =>
    cases hff : T.feedForward with
    | false => simp only [hc, hff, Bool.false_eq_true, if_false] at hv ⊢; rw [hv]; exact hpush _ i hi
    | true => simp only [if_true]; exact hpush d i hi

/-- The cells are those of the serial register, and so are the bits shifted out. -/
theorem Holds.run (ds : List Bool) : (r.run T Bool.xor ds).Holds (T.serialRun ds s).1 ∧
    ∀ j, (r.run T Bool.xor ds).out j =
      if j < ds.length then (T.serialRun ds s).2.getD (ds.length - 1 - j) false else r.out (j - ds.length) := by
  induction ds generalizing r s with
  | nil => exact ⟨h, fun j => rfl⟩
  | cons d ds ih =>
    obtain ⟨hcells, hout⟩ := ih (h.shift hw d)
    refine ⟨hcells, fun j => ?_⟩
    refine (hout j).trans ?_
    rw [Taps.serialRun, List.length_cons]
    have hfirst : (r.shift T Bool.xor d).out = push (T.serial s d).2 r.out := by rw [← h.feedback hw]; rfl
    rcases Nat.lt_trichotomy j ds.length with hj | rfl | hj
    · rw [if_pos hj, if_pos (by omega), show ds.length + 1 - 1 - j = ds.length - 1 - j + 1 by omega, List.getD_cons_succ]
    · rw [if_neg (by omega), if_pos (by omega), hfirst, Nat.sub_self, Nat.add_sub_cancel, Nat.sub_self,
        List.getD_cons_zero]
      rfl
    · rw [if_neg (by omega), if_neg (by omega), hfirst, show j - ds.length = j - (ds.length + 1) + 1 by omega]
      rfl

end

end Register

end ShiftRegister
