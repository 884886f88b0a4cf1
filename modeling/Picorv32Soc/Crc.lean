import Mathlib.Data.BitVec
import Mathlib.Data.List.GetD
import Mathlib.Tactic.SplitIfs

/-!
# Cyclic redundancy checks

The remainder of a message that comes least significant bit first, in the reflected form: the register
moves down, and what falls out of it decides whether the polynomial `P` is added. A shift is linear
(`bits_xor`) and, when the polynomial has its leading term, loses nothing (`bits_injective`). Data may be
added to the register all at once or bit after bit (`bits_eq_word`). So a difference within `w` bits
always changes the remainder (`bits_burst_ne`).
-/

namespace Crc

variable {w : Nat} (P : BitVec w)

/-- One bit of the message. -/
def bit (c : BitVec w) (d : Bool) : BitVec w := (c >>> 1) ^^^ (if c.getLsbD 0 ^^ d then P else 0#w)

def bits (c : BitVec w) (ds : List Bool) : BitVec w := ds.foldl (bit P) c

/-- The bits of a word in the order they are sent. -/
def bitsOf {n : Nat} (x : BitVec n) : List Bool := (List.range n).map x.getLsbD

@[simp] theorem length_bitsOf {n : Nat} (x : BitVec n) : (bitsOf x).length = n := by simp [bitsOf]

theorem bitsOf_append {n m : Nat} (x : BitVec n) (y : BitVec m) : bitsOf (x ++ y) = bitsOf y ++ bitsOf x := by
  have hrange : List.range (n + m) = List.range m ++ (List.range n).map (m + ·) := by rw [Nat.add_comm, List.range_add]
  rw [bitsOf, hrange, List.map_append, List.map_map]
  congr 1
  · refine List.map_congr_left fun i hi => ?_
    rw [BitVec.getLsbD_append, if_pos (List.mem_range.1 hi)]
  · refine List.map_congr_left fun i _ => ?_
    rw [Function.comp_apply, BitVec.getLsbD_append, if_neg (by omega), Nat.add_sub_cancel_left]

theorem bitsOf_not {n : Nat} (x : BitVec n) : bitsOf (~~~ x) = (bitsOf x).map not := by
  rw [bitsOf, bitsOf, List.map_map]
  refine List.map_congr_left fun i hi => ?_
  simp [List.mem_range.1 hi]

variable {P}

@[simp] theorem bits_nil (c : BitVec w) : bits P c [] = c := rfl

@[simp] theorem bits_cons (c : BitVec w) (d : Bool) (ds : List Bool) : bits P c (d :: ds) = bits P (bit P c d) ds := rfl

theorem bits_append (c : BitVec w) (ds es : List Bool) : bits P c (ds ++ es) = bits P (bits P c ds) es :=
  List.foldl_append

/-! ### Linearity -/

theorem bit_xor (a b : BitVec w) (d e : Bool) : bit P (a ^^^ b) (d ^^ e) = bit P a d ^^^ bit P b e := by
  have hsum : (if (a ^^^ b).getLsbD 0 ^^ (d ^^ e) then P else 0#w) =
      (if a.getLsbD 0 ^^ d then P else 0#w) ^^^ (if b.getLsbD 0 ^^ e then P else 0#w) := by
    rw [BitVec.getLsbD_xor]
    cases a.getLsbD 0 <;> cases b.getLsbD 0 <;> cases d <;> cases e <;> simp
  rw [bit, bit, bit, hsum, BitVec.ushiftRight_xor_distrib, BitVec.xor_assoc, BitVec.xor_assoc,
    ← BitVec.xor_assoc (b >>> 1), BitVec.xor_comm (b >>> 1), BitVec.xor_assoc]

theorem bits_xor {ds es : List Bool} (h : ds.length = es.length) (a b : BitVec w) :
    bits P (a ^^^ b) (List.zipWith xor ds es) = bits P a ds ^^^ bits P b es := by
  induction ds generalizing es a b with
  | nil => cases es with
    | nil => rfl
    | cons e es => cases h
  | cons d ds ih => cases es with
    | nil => cases h
    | cons e es => simp only [List.zipWith_cons_cons, bits_cons, bit_xor, ih (Nat.succ.inj h)]

theorem bits_zeros (n : Nat) : bits P 0#w (List.replicate n false) = 0#w := by
  induction n with
  | zero => rfl
  | succ n ih =>
    rw [List.replicate_succ, bits_cons, show bit P 0#w false = 0#w by simp [bit]]
    exact ih

/-! ### Nothing is lost -/

section
variable (hP : P.msb = true)
include hP

/-- The bit that fell out is seen in the leading term. -/
theorem msb_bit (c : BitVec w) (d : Bool) : (bit P c d).msb = (c.getLsbD 0 ^^ d) := by
  have hw : 0 < w := by
    rcases Nat.eq_zero_or_pos w with rfl | h
    · exact absurd hP (by simp [BitVec.msb_of_zero_length])
    · exact h
  rw [bit, BitVec.msb_xor]
  have hshift : (c >>> 1).msb = false := by
    rw [BitVec.msb_eq_getLsbD_last, BitVec.getLsbD_ushiftRight, BitVec.getLsbD_of_ge c _ (by omega)]
  rw [hshift]
  cases c.getLsbD 0 ^^ d <;> simp [hP]

theorem bit_injective (d : Bool) : Function.Injective fun c => bit P c d := by
  intro a b h
  have hlow : a.getLsbD 0 = b.getLsbD 0 := by
    have := congrArg BitVec.msb h
    simp only [msb_bit hP] at this
    cases d <;> simpa using this
  have hhigh : a >>> 1 = b >>> 1 := by
    simp only [bit, hlow] at h
    exact (BitVec.xor_left_inj _).1 h
  refine BitVec.eq_of_getLsbD_eq fun i _ => ?_
  cases i with
  | zero => exact hlow
  | succ i =>
    have := congrArg (fun x : BitVec w => x.getLsbD i) hhigh
    simpa only [BitVec.getLsbD_ushiftRight, Nat.add_comm 1] using this

theorem bits_injective (ds : List Bool) : Function.Injective fun c => bits P c ds := by
  induction ds with
  | nil => exact fun a b h => h
  | cons d ds ih => exact fun a b h => bit_injective hP d (ih h)

end

/-! ### A word at once -/

/-- The bits `ds` as a word, the first one lowest. -/
def word (w : Nat) : List Bool → BitVec w
  | [] => 0#w
  | d :: ds => (word w ds <<< 1) ^^^ (BitVec.ofBool d).setWidth w

theorem getLsbD_word (ds : List Bool) (i : Nat) : (word w ds).getLsbD i = (decide (i < w) && ds.getD i false) := by
  by_cases hi : i < w
  · rw [decide_eq_true hi, Bool.true_and]
    induction ds generalizing i with
    | nil => simp [word]
    | cons d ds ih =>
      rw [word, BitVec.getLsbD_xor, BitVec.getLsbD_shiftLeft, BitVec.getLsbD_setWidth, BitVec.getLsbD_ofBool]
      cases i with
      | zero => simp [hi]
      | succ i => simpa [hi] using ih i (by omega)
  · rw [BitVec.getLsbD_of_ge _ _ (by omega), decide_eq_false hi, Bool.false_and]

/-- The word's lowest bit meets the first bit of the message, and the rest moves down. -/
theorem bit_word {d : Bool} {ds : List Bool} (h : ds.length < w) (c : BitVec w) :
    bit P (c ^^^ word w (d :: ds)) false = bit P c d ^^^ word w ds := by
  have hlow : (word w (d :: ds)).getLsbD 0 = d := by
    rw [getLsbD_word, decide_eq_true (by omega), Bool.true_and, List.getD_cons_zero]
  have hdown : word w (d :: ds) >>> 1 = word w ds := by
    refine BitVec.eq_of_getLsbD_eq fun i hi => ?_
    rw [BitVec.getLsbD_ushiftRight, getLsbD_word, getLsbD_word, Nat.add_comm, List.getD_cons_succ, decide_eq_true hi]
    by_cases hlast : i + 1 < w
    · rw [decide_eq_true hlast]
    · rw [List.getD_eq_default _ _ (by omega), Bool.and_false, Bool.and_false]
  have hbit : bit P (word w (d :: ds)) d = word w ds := by
    rw [bit, hlow, hdown, Bool.xor_self, if_neg Bool.false_ne_true, BitVec.xor_zero]
  rw [← hbit, ← bit_xor, Bool.xor_self]

theorem bits_eq_word {ds : List Bool} (h : ds.length ≤ w) (c : BitVec w) :
    bits P c ds = bits P (c ^^^ word w ds) (List.replicate ds.length false) := by
  induction ds generalizing c with
  | nil => simp [word]
  | cons d ds ih => rw [bits_cons, ih (Nat.le_of_succ_le h), List.length_cons, List.replicate_succ, bits_cons, bit_word h]

theorem word_bitsOf (x : BitVec w) : word w (bitsOf x) = x := by
  refine BitVec.eq_of_getLsbD_eq fun i hi => ?_
  rw [getLsbD_word, decide_eq_true hi, Bool.true_and, bitsOf, List.getD_eq_getElem _ _ (by simpa using hi)]
  simp

/-- A message ends in its own remainder exactly when the register becomes zero. -/
theorem bits_bitsOf_eq_zero_iff (hP : P.msb = true) (c x : BitVec w) : bits P c (bitsOf x) = 0#w ↔ c = x := by
  rw [bits_eq_word (length_bitsOf x).le, word_bitsOf, length_bitsOf]
  constructor
  · intro h
    have := bits_injective hP _ (h.trans (bits_zeros w).symm)
    exact BitVec.xor_eq_zero_iff.1 this
  · rintro rfl
    rw [BitVec.xor_self, bits_zeros]

/-- A burst of at most `w` bits, wherever it is, leaves a remainder. -/
theorem bits_burst_ne (hP : P.msb = true) {ds : List Bool} (hlen : ds.length ≤ w) (hne : true ∈ ds) (n m : Nat) :
    bits P 0#w (List.replicate n false ++ ds ++ List.replicate m false) ≠ 0#w := by
  rw [bits_append, bits_append, bits_zeros]
  intro h
  have h₁ : bits P 0#w ds = 0#w := bits_injective hP _ (h.trans (bits_zeros m).symm)
  rw [bits_eq_word hlen, BitVec.zero_xor] at h₁
  have h₂ : word w ds = 0#w := bits_injective hP _ (h₁.trans (bits_zeros _).symm)
  obtain ⟨i, hi, hd⟩ := List.getElem_of_mem hne
  have hbit := getLsbD_word (w := w) ds i
  rw [h₂, decide_eq_true (by omega), List.getD_eq_getElem _ _ hi, hd] at hbit
  simp at hbit

end Crc
