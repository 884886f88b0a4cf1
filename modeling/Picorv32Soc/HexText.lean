import Mathlib.Data.BitVec

/-!
# Numbers as text

Numbers written by a format such as `%02d` or `%02x`, and files of hexadecimal numbers separated by
white space. Bytes written one on a line are read back as they were (`numbers_lines`).
-/

namespace HexText

/-- `%0<w>d`: decimal, with zeros in front up to `w` characters. -/
def decimal (w n : Nat) : List Char := List.leftpad w '0' (Nat.toDigits 10 n)

/-- `%02x` of a byte. -/
def byte (b : BitVec 8) : List Char := List.leftpad 2 '0' (Nat.toDigits 16 b.toNat)

def line (b : BitVec 8) : List Char := byte b ++ ['\n']

def lines (bs : List (BitVec 8)) : List Char := bs.flatMap line

theorem lines_concat (bs : List (BitVec 8)) (b : BitVec 8) : lines (bs ++ [b]) = lines bs ++ line b := by
  rw [lines, List.flatMap_append, List.flatMap_singleton, ← lines]

theorem ofDigitChars_replicate_zero (k : Nat) (cs : List Char) :
    Nat.ofDigitChars 10 (List.replicate k '0' ++ cs) 0 = Nat.ofDigitChars 10 cs 0 := by
  induction k with
  | zero => rfl
  | succ k ih => rw [List.replicate_succ, List.cons_append, Nat.ofDigitChars_cons]; exact ih

theorem decimal_inj {w m n : Nat} (h : decimal w m = decimal w n) : m = n := by
  have hval : ∀ k, Nat.ofDigitChars 10 (decimal w k) 0 = k := by
    intro k
    rw [decimal, List.leftpad, ofDigitChars_replicate_zero]
    exact Nat.ofDigitChars_ten_toDigits
  rw [← hval m, h, hval]

theorem decimal_ne_nil (w n : Nat) : decimal w n ≠ [] := by
  rw [decimal, List.leftpad]
  exact List.append_ne_nil_of_right_ne_nil _ Nat.toDigits_ne_nil

theorem isDigit_of_mem_decimal {w n : Nat} {c : Char} (h : c ∈ decimal w n) : c.isDigit := by
  rw [decimal, List.leftpad, List.mem_append] at h
  rcases h with h | h
  · rw [List.eq_of_mem_replicate h]; rfl
  · exact Nat.isDigit_of_mem_toDigits (by decide) (by decide) h

/-! ### Reading -/

def digitValue (c : Char) : Option Nat :=
  if '0' ≤ c ∧ c ≤ '9' then some (c.toNat - '0'.toNat)
  else if 'a' ≤ c ∧ c ≤ 'f' then some (c.toNat - 'a'.toNat + 10)
  else if 'A' ≤ c ∧ c ≤ 'F' then some (c.toNat - 'A'.toNat + 10)
  else none

def blank (c : Char) : Bool := c = ' ' || c = '\t' || c = '\n' || c = '\r'

/-- The numbers of a text, where `acc` is the number that the digits before it have begun; `none` when
there is something else than digits and white space. -/
def numbers : Option Nat → List Char → Option (List Nat)
  | acc, [] => some acc.toList
  | acc, c :: cs =>
    match digitValue c with
    | some d => numbers (some (16 * acc.getD 0 + d)) cs
    | none => if blank c then (numbers none cs).map (acc.toList ++ ·) else none

theorem byte_digits (b : BitVec 8) :
    (byte b).map digitValue = [some (b.toNat / 16), some (b.toNat % 16)] := by
  revert b; decide +kernel

theorem numbers_line (b : BitVec 8) (cs : List Char) :
    numbers none (line b ++ cs) = (numbers none cs).map (b.toNat :: ·) := by
  obtain ⟨c, d, hb⟩ : ∃ c d, byte b = [c, d] :=
    List.length_eq_two.1 (by simpa using congrArg List.length (byte_digits b))
  have hdig := byte_digits b
  rw [hb, List.map_cons, List.map_cons, List.map_nil, List.cons.injEq, List.cons.injEq] at hdig
  have hnl : digitValue '\n' = none := by decide
  have hval : 16 * (16 * 0 + b.toNat / 16) + b.toNat % 16 = b.toNat := by omega
  rw [line, hb]
  show numbers none (c :: d :: '\n' :: cs) = _
  rw [numbers, hdig.1]
  show numbers (some _) (d :: '\n' :: cs) = _
  rw [numbers, hdig.2.1]
  show numbers (some _) ('\n' :: cs) = _
  rw [numbers, hnl]
  show (numbers none cs).map ([_] ++ ·) = _
  rw [Option.getD_none, Option.getD_some, hval]; rfl

theorem numbers_lines (bs : List (BitVec 8)) : numbers none (lines bs) = some (bs.map BitVec.toNat) := by
  induction bs with
  | nil => rfl
  | cons b bs ih =>
    show numbers none (line b ++ lines bs) = _
    rw [numbers_line, ih]; rfl

end HexText
