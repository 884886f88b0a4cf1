import Picorv32Soc.Cells
import Picorv32Soc.ZeroByte

/-!
# Strings in memory, and `strcmp`

`strcmp` goes byte by byte until its two pointers are aligned, which they never are together when they
differ modulo 4, and then word by word until words differ or have a zero byte. A word is read as a
whole, so that bytes behind the end of a string are read as well; an access to a word that is not there
fails. `strcmp_first_difference` says that none of this shows in the result.
-/

namespace Picorv32Soc.Mylib
open Bits Cells

/-- A memory of 32-bit words, of which only some are there. -/
structure Mem where
  byte : BitVec 32 → BitVec 8
  mapped : BitVec 30 → Bool

namespace Mem

def wordOf (a : BitVec 32) : BitVec 30 := a.extractLsb' 2 30

def load8 (m : Mem) (a : BitVec 32) : Option (BitVec 8) :=
  if m.mapped (wordOf a) then some (m.byte a) else none

/-- A word, the least significant byte first. -/
def load32 (m : Mem) (a : BitVec 32) : Option (BitVec 32) :=
  if a &&& 3 = 0 ∧ m.mapped (wordOf a) then some (joinLanes fun l => m.byte (a + BitVec.ofNat 32 l.toNat)) else none

def store8 (m : Mem) (a : BitVec 32) (b : BitVec 8) : Option Mem :=
  if m.mapped (wordOf a) then some { m with byte := Function.update m.byte a b } else none

def store32 (m : Mem) (a v : BitVec 32) : Option Mem :=
  if a &&& 3 = 0 ∧ m.mapped (wordOf a) then
    some { m with byte := store m.byte a [byteLane v 0, byteLane v 1, byteLane v 2, byteLane v 3] }
  else none

end Mem

/-! ### The function -/

/-- `c1 < c2 ? -1 : +1` -/
def sign (c1 c2 : BitVec 8) : Int := if c1 < c2 then -1 else 1

/-- The bytes of two words compared from the least significant on, `n` of them. -/
def strcmpBytes : Nat → BitVec 32 → BitVec 32 → Int
  | 0, _, _ => 0
  | n + 1, v1, v2 =>
    if v1.setWidth 8 ≠ v2.setWidth 8 then sign (v1.setWidth 8) (v2.setWidth 8)
    else if v1.setWidth 8 = 0 then 0
    else strcmpBytes n (v1 >>> 8) (v2 >>> 8)

/-- The second loop of `strcmp`. -/
def strcmpWords (m : Mem) : Nat → BitVec 32 → BitVec 32 → Option Int
  | 0, _, _ => none
  | fuel + 1, s1, s2 => do
    let v1 ← m.load32 s1
    let v2 ← m.load32 s2
    if v1 ≠ v2 then return strcmpBytes 4 v1 v2
    else if zeroTest v1 ≠ 0 then return 0
    else strcmpWords m fuel (s1 + 4) (s2 + 4)

/-- `strcmp(s1, s2)`; `none` when a word is not there or `fuel` rounds are not enough. -/
def strcmp (m : Mem) : Nat → BitVec 32 → BitVec 32 → Option Int
  | 0, _, _ => none
  | fuel + 1, s1, s2 =>
    if (s1 ||| s2) &&& 3 ≠ 0 then do
      let c1 ← m.load8 s1
      let c2 ← m.load8 s2
      if c1 ≠ c2 then return sign c1 c2
      else if c1 = 0 then return 0
      else strcmp m fuel (s1 + 1) (s2 + 1)
    else strcmpWords m fuel s1 s2

/-! ### Strings -/

/-- The words with the bytes from `a` to `a + n` are there. -/
def Mapped (m : Mem) (a : BitVec 32) (n : Nat) : Prop :=
  ∀ i, i ≤ n → m.mapped (Mem.wordOf (a + BitVec.ofNat 32 i))

theorem Mapped.head {m : Mem} {a : BitVec 32} {n : Nat} (h : Mapped m a n) : m.mapped (Mem.wordOf a) := by
  have h0 := h 0 (Nat.zero_le n)
  rwa [add_ofNat_zero] at h0

theorem Mapped.skip {m : Mem} {a : BitVec 32} {k n : Nat} (h : Mapped m a (k + n)) :
    Mapped m (a + BitVec.ofNat 32 k) n := by
  intro i hi
  rw [← add_ofNat_add]; exact h (k + i) (Nat.add_le_add_left hi k)

/-- The string `p` stands at `a`, and the words with its bytes and its NUL are there. -/
structure StringAt (m : Mem) (a : BitVec 32) (p : List (BitVec 8)) : Prop where
  nonzero : 0 ∉ p
  bytes : Holds m.byte a (p ++ [0])
  mapped : Mapped m a p.length

namespace StringAt
variable {m : Mem} {a : BitVec 32} {p : List (BitVec 8)}

theorem byte (h : StringAt m a p) : m.byte a = p.headD 0 := by
  cases p <;> exact h.bytes.head

theorem load8 (h : StringAt m a p) : m.load8 a = some (p.headD 0) := by
  rw [Mem.load8, if_pos h.mapped.head, h.byte]

theorem head_ne {c : BitVec 8} (h : StringAt m a (c :: p)) : c ≠ 0 := fun h0 =>
  h.nonzero (h0 ▸ List.mem_cons_self)

theorem tail {c : BitVec 8} (h : StringAt m a (c :: p)) : StringAt m (a + 1) p := by
  refine ⟨fun hp => h.nonzero (List.mem_cons_of_mem _ hp), h.bytes.tail, ?_⟩
  have hmapped := h.mapped
  rw [List.length_cons, Nat.add_comm] at hmapped
  exact hmapped.skip

/-- The first zero byte is the NUL. -/
theorem length_le (h : StringAt m a p) {i : Nat} (h0 : m.byte (a + BitVec.ofNat 32 i) = 0) : p.length ≤ i := by
  by_contra hlt
  have hi : i < p.length := Nat.lt_of_not_le hlt
  have hbyte := h.bytes i p[i] (by rw [List.getElem?_append_left hi, List.getElem?_eq_getElem hi])
  exact h.nonzero (h0 ▸ hbyte ▸ List.getElem_mem hi)

/-- Behind a byte that is not the NUL. -/
theorem next (h : StringAt m a p) (h0 : p.headD 0 ≠ 0) : StringAt m (a + 1) p.tail ∧ p = p.headD 0 :: p.tail := by
  cases p with
  | nil => exact absurd rfl h0
  | cons c p => exact ⟨h.tail, rfl⟩

/-- The first `n` bytes, when none of them is the NUL. -/
theorem skip (n : Nat) (h : StringAt m a p) (hne : ∀ i, i < n → m.byte (a + BitVec.ofNat 32 i) ≠ 0) :
    ∃ p', p = (List.range n).map (fun i => m.byte (a + BitVec.ofNat 32 i)) ++ p' ∧
      StringAt m (a + BitVec.ofNat 32 n) p' := by
  induction n with
  | zero => exact ⟨p, rfl, by rwa [add_ofNat_zero]⟩
  | succ n ih =>
    obtain ⟨p', hp, h'⟩ := ih fun i hi => hne i (Nat.lt_succ_of_lt hi)
    have hbyte := h'.byte
    have h0 : p'.headD 0 ≠ 0 := hbyte ▸ hne n (Nat.lt_succ_self n)
    obtain ⟨hnext, hcons⟩ := h'.next h0
    refine ⟨p'.tail, ?_, by rwa [add_ofNat_add]⟩
    rw [List.range_succ, List.map_append, List.append_assoc, List.map_singleton, List.singleton_append, hbyte, ← hcons]
    exact hp

end StringAt

/-! ### Words -/

/-- Byte `i` of a word. -/
def lane (v : BitVec 32) (i : Nat) : BitVec 8 := (v >>> (8 * i)).setWidth 8

theorem lane_zero (v : BitVec 32) : lane v 0 = v.setWidth 8 := by
  rw [lane, Nat.mul_zero, BitVec.ushiftRight_zero]

theorem lane_shift (v : BitVec 32) (i : Nat) : lane (v >>> 8) i = lane v (i + 1) := by
  rw [lane, lane, ← BitVec.shiftRight_add, Nat.mul_succ, Nat.add_comm]

theorem toNat_lane (v : BitVec 32) (i : Nat) : (lane v i).toNat = v.toNat / 2 ^ (8 * i) % 256 := by
  rw [lane, BitVec.toNat_setWidth, BitVec.toNat_ushiftRight, Nat.shiftRight_eq_div_pow]

theorem byteLane_eq_lane (v : BitVec 32) (l : BitVec 2) : byteLane v l = lane v l.toNat :=
  BitVec.eq_of_toNat_eq (by rw [toNat_byteLane, toNat_lane])

theorem eq_of_lanes {v1 v2 : BitVec 32} (h : ∀ i, i < 4 → lane v1 i = lane v2 i) : v1 = v2 := by
  have hlane : ∀ i, i < 4 → v1.toNat / 2 ^ (8 * i) % 256 = v2.toNat / 2 ^ (8 * i) % 256 := fun i hi => by
    rw [← toNat_lane, ← toNat_lane, h i hi]
  have h0 := hlane 0 (by decide)
  have h1 := hlane 1 (by decide)
  have h2 := hlane 2 (by decide)
  have h3 := hlane 3 (by decide)
  have hv1 := v1.isLt
  have hv2 := v2.isLt
  exact BitVec.eq_of_toNat_eq (by omega)

theorem zeroTest_iff (v : BitVec 32) : zeroTest v ≠ 0 ↔ ∃ i, i < 4 ∧ lane v i = 0 := by
  rw [zeroTest_ne_zero_iff]
  constructor
  · rintro ⟨l, hl⟩
    exact ⟨l.toNat, l.isLt, by rw [← byteLane_eq_lane, hl]⟩
  · rintro ⟨i, hi, h0⟩
    refine ⟨BitVec.ofNat 2 i, ?_⟩
    rw [byteLane_eq_lane, BitVec.toNat_ofNat, Nat.mod_eq_of_lt hi, h0]

/-- `v` has the `n` bytes from `a` on. -/
def Bytes (m : Mem) (a : BitVec 32) (n : Nat) (v : BitVec 32) : Prop :=
  ∀ i, i < n → lane v i = m.byte (a + BitVec.ofNat 32 i)

theorem Bytes.head {m : Mem} {a v : BitVec 32} {n : Nat} (h : Bytes m a (n + 1) v) : v.setWidth 8 = m.byte a := by
  have h0 := h 0 (Nat.succ_pos n)
  rwa [lane_zero, add_ofNat_zero] at h0

theorem Bytes.tail {m : Mem} {a v : BitVec 32} {n : Nat} (h : Bytes m a (n + 1) v) :
    Bytes m (a + 1) n (v >>> 8) := by
  intro i hi
  have hi' := h (i + 1) (Nat.succ_lt_succ hi)
  rwa [← lane_shift, add_ofNat_succ] at hi'

theorem Bytes.map_range {m : Mem} {a v : BitVec 32} {n : Nat} (h : Bytes m a n v) :
    (List.range n).map (lane v) = (List.range n).map fun i => m.byte (a + BitVec.ofNat 32 i) :=
  List.map_congr_left fun i hi => h i (List.mem_range.1 hi)

theorem StringAt.load32 {m : Mem} {a : BitVec 32} {p : List (BitVec 8)} (h : StringAt m a p) (ha : a &&& 3 = 0) :
    ∃ v, m.load32 a = some v ∧ Bytes m a 4 v := by
  refine ⟨_, if_pos ⟨ha, h.mapped.head⟩, ?_⟩
  intro i hi
  have hl : (BitVec.ofNat 2 i).toNat = i := by rw [BitVec.toNat_ofNat]; exact Nat.mod_eq_of_lt hi
  have hlane := byteLane_eq_lane (joinLanes fun l => m.byte (a + BitVec.ofNat 32 l.toNat)) (BitVec.ofNat 2 i)
  rw [byteLane_joinLanes, hl] at hlane
  exact hlane.symm

theorem and_three_eq_zero_iff (a : BitVec 32) : a &&& 3 = 0 ↔ a.toNat % 4 = 0 := by
  have hmod : (a &&& 3).toNat = a.toNat % 4 := by
    rw [BitVec.toNat_and]; exact Nat.and_two_pow_sub_one_eq_mod a.toNat 2
  rw [← hmod]
  exact BitVec.toNat_inj.symm

theorem aligned_add_four {a : BitVec 32} (h : a &&& 3 = 0) : (a + 4) &&& 3 = 0 := by
  rw [and_three_eq_zero_iff] at h ⊢
  rw [BitVec.toNat_add]
  show (a.toNat + 4) % 2 ^ 32 % 4 = 0
  omega

theorem aligned_of_or {a b : BitVec 32} (h : (a ||| b) &&& 3 = 0) : a &&& 3 = 0 ∧ b &&& 3 = 0 := by
  rw [BitVec.and_or_distrib_right] at h
  exact BitVec.or_eq_zero_iff.1 h

/-! ### `strcmp` -/

/-- Strings compared byte by byte: -1, 0 or 1. -/
def order : List (BitVec 8) → List (BitVec 8) → Int
  | [], [] => 0
  | [], _ :: _ => -1
  | _ :: _, [] => 1
  | c :: p, d :: q => if c = d then order p q else sign c d

/-- The bytes that are compared are those of the strings with their NULs. -/
theorem order_eq {p q : List (BitVec 8)} (hp : 0 ∉ p) (hq : 0 ∉ q) :
    order p q = if p.headD 0 ≠ q.headD 0 then sign (p.headD 0) (q.headD 0)
      else if p.headD 0 = 0 then 0 else order p.tail q.tail := by
  have hpos : ∀ {c : BitVec 8}, c ≠ 0 → (0 : BitVec 8) < c := by decide +kernel
  cases p with
  | nil =>
    cases q with
    | nil => rfl
    | cons d q =>
      have hd : d ≠ 0 := fun h => hq (h ▸ List.mem_cons_self)
      rw [order, List.headD_nil, List.headD_cons, if_pos hd.symm, sign, if_pos (hpos hd)]
  | cons c p =>
    have hc : c ≠ 0 := fun h => hp (h ▸ List.mem_cons_self)
    cases q with
    | nil => rw [order, List.headD_nil, List.headD_cons, if_pos hc, sign, if_neg (by simp)]
    | cons d q =>
      rw [order, List.headD_cons, List.headD_cons, ite_not, if_neg hc]
      rfl

section
variable {m : Mem} {a b : BitVec 32} {p q : List (BitVec 8)}

/-- The unrolled comparison of two words, when it comes to a difference or to an end. -/
theorem strcmpBytes_eq {n : Nat} {v1 v2 : BitVec 32} (hp : StringAt m a p) (hq : StringAt m b q)
    (h1 : Bytes m a n v1) (h2 : Bytes m b n v2) (hex : ∃ i, i < n ∧ (lane v1 i ≠ lane v2 i ∨ lane v1 i = 0)) :
    strcmpBytes n v1 v2 = order p q := by
  induction n generalizing v1 v2 a b p q with
  | zero =>
    obtain ⟨i, hi, -⟩ := hex
    exact absurd hi (Nat.not_lt_zero i)
  | succ n ih =>
    have hc : v1.setWidth 8 = p.headD 0 := h1.head.trans hp.byte
    have hd : v2.setWidth 8 = q.headD 0 := h2.head.trans hq.byte
    rw [strcmpBytes, order_eq hp.nonzero hq.nonzero, hc, hd]
    by_cases hcd : p.headD 0 ≠ q.headD 0
    · rw [if_pos hcd, if_pos hcd]
    · rw [if_neg hcd, if_neg hcd]
      by_cases h0 : p.headD 0 = 0
      · rw [if_pos h0, if_pos h0]
      · rw [if_neg h0, if_neg h0]
        rw [not_not] at hcd
        refine ih (hp.next h0).1 (hq.next (hcd ▸ h0)).1 h1.tail h2.tail ?_
        obtain ⟨i, hi, hex⟩ := hex
        cases i with
        | zero =>
          rw [lane_zero, lane_zero, hc, hd] at hex
          rcases hex with hne | hz
          · exact absurd hcd hne
          · exact absurd hz h0
        | succ i =>
          refine ⟨i, Nat.lt_of_succ_lt_succ hi, ?_⟩
          rwa [lane_shift, lane_shift]

theorem strcmpBytes_self (n : Nat) (v : BitVec 32) : strcmpBytes n v v = 0 := by
  induction n generalizing v with
  | zero => rfl
  | succ n ih =>
    rw [strcmpBytes, if_neg (by simp)]
    split_ifs
    · rfl
    · exact ih _

theorem order_append (bs p q : List (BitVec 8)) : order (bs ++ p) (bs ++ q) = order p q := by
  induction bs with
  | nil => rfl
  | cons b bs ih => rw [List.cons_append, List.cons_append, order, if_pos rfl, ih]

theorem strcmpWords_eq {fuel : Nat} (hp : StringAt m a p) (hq : StringAt m b q) (ha : a &&& 3 = 0) (hb : b &&& 3 = 0)
    (hf : p.length < fuel) : strcmpWords m fuel a b = some (order p q) := by
  induction fuel generalizing a b p q with
  | zero => exact absurd hf (Nat.not_lt_zero _)
  | succ fuel ih =>
    obtain ⟨v1, hv1, hb1⟩ := hp.load32 ha
    obtain ⟨v2, hv2, hb2⟩ := hq.load32 hb
    rw [strcmpWords, hv1, hv2]
    show (if v1 ≠ v2 then some (strcmpBytes 4 v1 v2) else if zeroTest v1 ≠ 0 then some 0 else _) = _
    split_ifs with hne hz
    · -- the words differ, so the bytes do
      have hex : ∃ i, i < 4 ∧ lane v1 i ≠ lane v2 i := by
        by_contra hno
        exact hne (eq_of_lanes fun i hi => not_not.1 fun h => hno ⟨i, hi, h⟩)
      obtain ⟨i, hi, hdiff⟩ := hex
      rw [strcmpBytes_eq hp hq hb1 hb2 ⟨i, hi, Or.inl hdiff⟩]
    · obtain rfl := not_not.1 hne
      obtain ⟨i, hi, h0⟩ := (zeroTest_iff v1).1 hz
      rw [← strcmpBytes_eq hp hq hb1 hb2 ⟨i, hi, Or.inr h0⟩, strcmpBytes_self]
    · obtain rfl := not_not.1 hne
      have hfull : ∀ i, i < 4 → lane v1 i ≠ 0 := fun i hi h0 => hz ((zeroTest_iff v1).2 ⟨i, hi, h0⟩)
      obtain ⟨p', rfl, hp'⟩ := hp.skip 4 fun i hi => hb1 i hi ▸ hfull i hi
      obtain ⟨q', rfl, hq'⟩ := hq.skip 4 fun i hi => hb2 i hi ▸ hfull i hi
      rw [← hb1.map_range, ← hb2.map_range, order_append]
      rw [List.length_append, List.length_map, List.length_range] at hf
      exact ih hp' hq' (aligned_add_four ha) (aligned_add_four hb) (by omega)

theorem strcmp_eq {fuel : Nat} (hp : StringAt m a p) (hq : StringAt m b q) (hf : p.length + 1 < fuel) :
    strcmp m fuel a b = some (order p q) := by
  induction fuel generalizing a b p q with
  | zero => exact absurd hf (Nat.not_lt_zero _)
  | succ fuel ih =>
    rw [strcmp]
    split_ifs with hal
    · rw [hp.load8, hq.load8]
      show (if p.headD 0 ≠ q.headD 0 then some (sign (p.headD 0) (q.headD 0))
        else if p.headD 0 = 0 then some 0 else strcmp m fuel (a + 1) (b + 1)) = _
      rw [order_eq hp.nonzero hq.nonzero]
      split_ifs with hcd h0
      · rfl
      · rfl
      · obtain ⟨hp', hcons⟩ := hp.next h0
        have hq' := (hq.next (not_not.1 hcd ▸ h0)).1
        rw [hcons, List.length_cons] at hf
        exact ih hp' hq' (by omega)
    · obtain ⟨ha, hb⟩ := aligned_of_or (not_not.1 hal)
      exact strcmpWords_eq hp hq ha hb (by omega)

/-- Strings that differ have a first difference, if only in their NULs. -/
theorem order_spec (hp : 0 ∉ p) (hq : 0 ∉ q) :
    p = q ∧ order p q = 0 ∨ ∃ pre c d p' q', p ++ [0] = pre ++ c :: p' ∧ q ++ [0] = pre ++ d :: q' ∧ c ≠ d ∧
      order p q = sign c d := by
  induction p generalizing q with
  | nil =>
    cases q with
    | nil => exact Or.inl ⟨rfl, rfl⟩
    | cons d q =>
      have hd : (0 : BitVec 8) ≠ d := fun h => hq (h ▸ List.mem_cons_self)
      refine Or.inr ⟨[], 0, d, [], q ++ [0], rfl, rfl, hd, ?_⟩
      rw [order_eq hp hq]; exact if_pos hd
  | cons c p ih =>
    cases q with
    | nil =>
      have hc : c ≠ 0 := fun h => hp (h ▸ List.mem_cons_self)
      refine Or.inr ⟨[], c, 0, p ++ [0], [], rfl, rfl, hc, ?_⟩
      rw [order_eq hp hq]; exact if_pos hc
    | cons d q =>
      by_cases hcd : c = d
      · subst hcd
        rw [order, if_pos rfl]
        rcases ih (fun h => hp (List.mem_cons_of_mem _ h)) (fun h => hq (List.mem_cons_of_mem _ h)) with
          ⟨rfl, h0⟩ | ⟨pre, x, y, p', q', hp', hq', hne, hsign⟩
        · exact Or.inl ⟨rfl, h0⟩
        · exact Or.inr ⟨c :: pre, x, y, p', q', congrArg (c :: ·) hp', congrArg (c :: ·) hq', hne, hsign⟩
      · exact Or.inr ⟨[], c, d, p ++ [0], q ++ [0], rfl, rfl, hcd, if_neg hcd⟩

/-- `strcmp` returns 0 for equal strings and otherwise -1 or 1 according to the first byte in which they
differ, at any addresses and whatever stands behind the strings. -/
theorem strcmp_first_difference (hp : StringAt m a p) (hq : StringAt m b q) :
    ∃ n r, (∀ fuel, n ≤ fuel → strcmp m fuel a b = some r) ∧
      (p = q ∧ r = 0 ∨ ∃ pre c d p' q', p ++ [0] = pre ++ c :: p' ∧ q ++ [0] = pre ++ d :: q' ∧ c ≠ d ∧
        r = if c < d then -1 else 1) :=
  ⟨p.length + 2, order p q, fun _ hf => strcmp_eq hp hq hf, order_spec hp.nonzero hq.nonzero⟩

end

/-- A memory with the string `p` at `a`. -/
def memWith (a : BitVec 32) (p : List (BitVec 8)) : Mem := ⟨store (fun _ => 0) a (p ++ [0]), fun _ => true⟩

theorem stringAt_memWith {a : BitVec 32} {p : List (BitVec 8)} (hp : 0 ∉ p) (h : p.length < 2 ^ 32) :
    StringAt (memWith a p) a p :=
  ⟨hp, holds_store (by rw [List.length_append, List.length_singleton]; exact h), fun _ _ => rfl⟩

/-- `aab` and its end `ab`. -/
theorem strcmp_first_difference_aab : ∃ n r,
    (∀ fuel, n ≤ fuel → strcmp (memWith 0x1001 [0x61, 0x61, 0x62]) fuel 0x1001 0x1002 = some r) ∧
      ([0x61, 0x61, 0x62] = ([0x61, 0x62] : List (BitVec 8)) ∧ r = 0 ∨ ∃ pre c d p' q',
        [0x61, 0x61, 0x62] ++ [(0 : BitVec 8)] = pre ++ c :: p' ∧ [0x61, 0x62] ++ [0] = pre ++ d :: q' ∧ c ≠ d ∧
        r = if c < d then -1 else 1) := by
  have h : StringAt (memWith 0x1001 [0x61, 0x61, 0x62]) 0x1001 [0x61, 0x61, 0x62] :=
    stringAt_memWith (by decide) (by decide)
  exact strcmp_first_difference h (h.next (by decide)).1

end Picorv32Soc.Mylib
