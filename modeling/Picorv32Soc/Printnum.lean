import Mathlib.Data.BitVec
import Picorv32Soc.HexText
import Picorv32Soc.Numeral

/-!
# `printnum`

How `mylib.c` prints a number: the digits go into an array from the least significant on, then the
padding is put, then the digits from the end of the array back. `putch` and what it works on are left
open. `printnum_eq` says what is put.
-/

namespace Picorv32Soc.Mylib
open Numeral

/-- A character as an `int`. -/
abbrev chr (c : Char) : BitVec 32 := BitVec.ofNat 32 c.toNat

section
variable {σ : Type} (putch : BitVec 32 → σ → σ)

/-- Characters put one after the other. -/
def puts (cs : List (BitVec 32)) (s : σ) : σ := cs.foldl (fun s c => putch c s) s

@[simp]
theorem puts_nil (s : σ) : puts putch [] s = s := rfl

@[simp]
theorem puts_cons (c : BitVec 32) (cs : List (BitVec 32)) (s : σ) :
    puts putch (c :: cs) s = puts putch cs (putch c s) := rfl

@[simp]
theorem puts_append (cs cs' : List (BitVec 32)) (s : σ) :
    puts putch (cs ++ cs') s = puts putch cs' (puts putch cs s) := List.foldl_append

/-- The digits of `num`, stored in `digs` from `pos` on, and the `pos` behind them; `none` when one is
stored outside the array. -/
def digitLoop (base : BitVec 32) (digs : Nat → BitVec 32) (pos : Nat) (num : BitVec 64) :
    Option ((Nat → BitVec 32) × Nat) :=
  if pos < 64 then
    let digs := Function.update digs pos ((num % base.setWidth 64).setWidth 32)
    if num < base.setWidth 64 then some (digs, pos + 1)
    else digitLoop base digs (pos + 1) (num / base.setWidth 64)
  else none
termination_by 64 - pos

theorem toInt_sub_one {w : BitVec 32} (h : 0 < w.toInt) : (w - 1).toInt = w.toInt - 1 := by
  have hle := w.toInt_lt
  rw [BitVec.toInt_sub]
  exact Int.bmod_eq_of_le (by simp; omega) (by simp; omega)

/-- `while (width-- > pos)` -/
def padLoop (padc : BitVec 32) (pos : Nat) (width : BitVec 32) (s : σ) : σ :=
  if (pos : Int) < width.toInt then padLoop padc pos (width - 1) (putch padc s) else s
termination_by width.toInt.toNat
decreasing_by rw [toInt_sub_one (by omega)]; omega

def digitChar (d : BitVec 32) : BitVec 32 := d + if 10 ≤ d then chr 'a' - 10 else chr '0'

/-- `while (pos-- > 0)` -/
def putDigits (digs : Nat → BitVec 32) : Nat → σ → σ
  | 0, s => s
  | pos + 1, s => putDigits digs pos (putch (digitChar (digs pos)) s)

/-- `digs` is what stands in the array before: it is not initialised. -/
def printnum (digs : Nat → BitVec 32) (num : BitVec 64) (base width padc : BitVec 32) (s : σ) : Option σ := do
  let (digs, pos) ← digitLoop base digs 0 num
  return putDigits putch digs pos (padLoop putch padc pos width s)

end

/-! ### What is put -/

section
variable {σ : Type} {putch : BitVec 32 → σ → σ}

theorem padLoop_eq (padc : BitVec 32) (pos : Nat) (width : BitVec 32) (s : σ) :
    padLoop putch padc pos width s = puts putch (List.replicate (width.toInt - pos).toNat padc) s := by
  fun_induction padLoop putch padc pos width s with
  | case1 width s h ih =>
    have hn : (width.toInt - pos).toNat = ((width - 1).toInt - pos).toNat + 1 := by
      rw [toInt_sub_one (by omega)]; omega
    rw [ih, hn, List.replicate_succ, puts_cons]
  | case2 width s h =>
    have hn : (width.toInt - pos).toNat = 0 := by omega
    rw [hn, List.replicate_zero, puts_nil]

theorem putDigits_congr {digs digs' : Nat → BitVec 32} {pos : Nat} (h : ∀ i, i < pos → digs i = digs' i) (s : σ) :
    putDigits putch digs pos s = putDigits putch digs' pos s := by
  induction pos generalizing s with
  | zero => rfl
  | succ pos ih =>
    rw [putDigits, putDigits, h pos (Nat.lt_succ_self pos)]
    exact ih (fun i hi => h i (Nat.lt_succ_of_lt hi)) _

theorem putDigits_update (digs : Nat → BitVec 32) (pos : Nat) (d : BitVec 32) (s : σ) :
    putDigits putch (Function.update digs pos d) (pos + 1) s = putDigits putch digs pos (putch (digitChar d) s) := by
  rw [putDigits, Function.update_self]
  exact putDigits_congr (fun i hi => Function.update_of_ne (Nat.ne_of_lt hi) _ _) _

/-- The characters of a numeral. -/
def digitChars (ds : List Nat) : List (BitVec 32) := ds.map fun d => digitChar (BitVec.ofNat 32 d)

theorem digitChars_concat (ds : List Nat) (d : Nat) :
    digitChars (ds ++ [d]) = digitChars ds ++ [digitChar (BitVec.ofNat 32 d)] := List.map_append

variable {base : BitVec 32} {num : BitVec 64}

theorem toNat_setWidth_64 (x : BitVec 32) : (x.setWidth 64).toNat = x.toNat := by
  rw [BitVec.toNat_setWidth]
  exact Nat.mod_eq_of_lt (Nat.lt_trans x.isLt (by decide))

theorem digit_eq (base : BitVec 32) (num : BitVec 64) :
    (num % base.setWidth 64).setWidth 32 = BitVec.ofNat 32 (num.toNat % base.toNat) := by
  apply BitVec.eq_of_toNat_eq
  rw [BitVec.toNat_setWidth, BitVec.toNat_umod, toNat_setWidth_64, BitVec.toNat_ofNat]

/-- The loop stores the numeral, and putting back what it stored puts the numeral. -/
theorem digitLoop_spec (putch : BitVec 32 → σ → σ) (num : BitVec 64) (hb : 2 ≤ base.toNat) (digs : Nat → BitVec 32) (pos : Nat)
    (h : pos + (numeral base.toNat num.toNat).length ≤ 64) :
    ∃ digs', digitLoop base digs pos num = some (digs', pos + (numeral base.toNat num.toNat).length) ∧
      ∀ s : σ, putDigits putch digs' (pos + (numeral base.toNat num.toNat).length) s =
        putDigits putch digs pos (puts putch (digitChars (numeral base.toNat num.toNat)) s) := by
  have hlen := length_numeral_pos base.toNat num.toNat
  fun_induction digitLoop base digs pos num with
  | case1 digs pos num hpos digs₁ hlt =>
    have hlt : num.toNat < base.toNat := by rwa [BitVec.lt_def, toNat_setWidth_64] at hlt
    have hdigs : digs₁ = Function.update digs pos (BitVec.ofNat 32 num.toNat) := by
      rw [← Nat.mod_eq_of_lt hlt, ← digit_eq]
    rw [numeral_of_lt hlt]
    refine ⟨digs₁, rfl, ?_⟩
    intro s
    rw [hdigs]
    exact putDigits_update digs pos _ s
  | case2 digs pos num hpos digs₁ hlt ih =>
    have hle : base.toNat ≤ num.toNat := by
      rw [BitVec.lt_def, toNat_setWidth_64] at hlt; omega
    have hdiv : (num / base.setWidth 64).toNat = num.toNat / base.toNat := by rw [BitVec.toNat_udiv, toNat_setWidth_64]
    rw [hdiv] at ih
    rw [numeral_of_le hb hle, List.length_append, List.length_singleton] at h ⊢
    obtain ⟨digs', hrun, hput⟩ := ih (by omega) (length_numeral_pos _ _)
    refine ⟨digs', by rw [hrun]; congr 2; omega, ?_⟩
    intro s
    rw [← Nat.add_assoc, Nat.add_right_comm, hput, digitChars_concat, puts_append, putDigits_update, digit_eq]
    rfl
  | case3 digs pos num hpos => omega

/-- What `printnum` puts. -/
theorem printnum_eq (hb : 2 ≤ base.toNat) (digs : Nat → BitVec 32) (width padc : BitVec 32) (s : σ) :
    printnum putch digs num base width padc s =
      some (puts putch (List.replicate (width.toInt - (numeral base.toNat num.toNat).length).toNat padc ++
        digitChars (numeral base.toNat num.toNat)) s) := by
  have hlen : (numeral base.toNat num.toNat).length ≤ 64 := by
    refine length_numeral_le hb (by decide) (Nat.lt_of_lt_of_le num.isLt ?_)
    exact Nat.pow_le_pow_left hb 64
  obtain ⟨digs', hrun, hput⟩ := digitLoop_spec putch num hb digs 0 (by omega)
  rw [printnum, hrun]
  show some _ = _
  rw [hput, Nat.zero_add, padLoop_eq, puts_append]
  rfl

/-- The character of a digit, with small letters from ten on. -/
def digit8 (d : Nat) : BitVec 8 := BitVec.ofNat 8 (if d < 10 then '0'.toNat + d else 'a'.toNat + (d - 10))

theorem digitChar_eq : ∀ d, d < 16 → digitChar (BitVec.ofNat 32 d) = (digit8 d).setWidth 32 := by decide

theorem digitValue_digit8 : ∀ d, d < 16 → HexText.digitValue (Char.ofNat ((digit8 d).setWidth 32).toNat) = some d := by
  decide

/-- `printnum` ends, stores no digit outside its array, and puts the one numeral of `num` behind the
padding. -/
theorem printnum_numeral (putch : BitVec 32 → σ → σ) (digs : Nat → BitVec 32) (num : BitVec 64)
    (base width padc : BitVec 32) (hb : 2 ≤ base.toNat) (hb' : base.toNat ≤ 16) (s : σ) :
    ∃ ds cs, printnum putch digs num base width padc s =
        some (puts putch (List.replicate (width.toInt - cs.length).toNat padc ++ cs) s) ∧
      (∀ ds', IsNumeral base.toNat num.toNat ds' ↔ ds' = ds) ∧
      cs = ds.map (fun d => (digit8 d).setWidth 32) ∧
      cs.map (fun c => HexText.digitValue (Char.ofNat c.toNat)) = ds.map some := by
  have hlt : ∀ d ∈ numeral base.toNat num.toNat, d < 16 := fun d hd => Nat.lt_of_lt_of_le (digit_lt hb hd) hb'
  have hcs : digitChars (numeral base.toNat num.toNat) =
      (numeral base.toNat num.toNat).map fun d => (digit8 d).setWidth 32 :=
    List.map_congr_left fun d hd => digitChar_eq d (hlt d hd)
  refine ⟨numeral base.toNat num.toNat, _, ?_, fun _ => isNumeral_iff hb, rfl, ?_⟩
  · rw [printnum_eq hb, hcs, List.length_map]
  · rw [List.map_map]
    exact List.map_congr_left fun d hd => digitValue_digit8 d (hlt d hd)

theorem printnum_numeral_max : ∃ ds cs,
    printnum (fun c s => s ++ [c]) (fun _ => 0) (BitVec.allOnes 64) 2 (-1) (chr ' ') [] =
        some (puts (fun c s => s ++ [c])
          (List.replicate ((-1 : BitVec 32).toInt - cs.length).toNat (chr ' ') ++ cs) []) ∧
      (∀ ds', IsNumeral 2 (2 ^ 64 - 1) ds' ↔ ds' = ds) ∧
      cs = ds.map (fun d => (digit8 d).setWidth 32) ∧
      cs.map (fun c => HexText.digitValue (Char.ofNat c.toNat)) = ds.map some :=
  printnum_numeral _ _ _ _ _ _ (by decide) (by decide) _

end

end Picorv32Soc.Mylib
