import Mathlib.Data.BitVec
import Mathlib.Tactic.SplitIfs
import Mathlib.Data.Nat.Bitwise

/-!
# Gray codes of counters

A counter that is read in another clock domain is sent as its Gray code. Two counts that follow each other
differ there in one bit, so a reading that takes each bit from the old or the new value is one of both
(`pick_gray_succ`). The code is linear and has an inverse, so counts can be compared in it: for equality
(`gray_inj`) and for being half a turn apart (`gray_apart_iff`).
-/

namespace Gray

variable {w : Nat}

def gray (x : BitVec w) : BitVec w := x ^^^ (x >>> 1)

theorem getLsbD_gray (x : BitVec w) (i : Nat) : (gray x).getLsbD i = (x.getLsbD i ^^ x.getLsbD (i + 1)) := by
  rw [gray, BitVec.getLsbD_xor, BitVec.getLsbD_ushiftRight, Nat.add_comm]

theorem gray_xor (x y : BitVec w) : gray (x ^^^ y) = gray x ^^^ gray y := by
  refine BitVec.eq_of_getLsbD_eq fun i _ => ?_
  simp only [getLsbD_gray, BitVec.getLsbD_xor, Bool.xor_assoc, Bool.xor_left_comm (y.getLsbD i)]

theorem gray_zero : gray (0#w) = 0#w := by rw [gray, BitVec.zero_ushiftRight, BitVec.xor_self]

/-- From the top down, every bit of a word with the code zero is zero. -/
theorem eq_zero_of_gray {x : BitVec w} (h : gray x = 0#w) : x = 0#w := by
  have hbit : ∀ n i, w ≤ i + n → x.getLsbD i = false := by
    intro n
    induction n with
    | zero => exact fun i hi => BitVec.getLsbD_of_ge x i hi
    | succ n ih =>
      intro i hi
      have := getLsbD_gray x i
      rw [h, BitVec.getLsbD_zero, ih (i + 1) (by omega), Bool.xor_false] at this
      exact this.symm
  refine BitVec.eq_of_getLsbD_eq fun i _ => ?_
  rw [hbit w i (by omega), BitVec.getLsbD_zero]

theorem gray_inj {x y : BitVec w} : gray x = gray y ↔ x = y := by
  refine ⟨fun h => ?_, fun h => h ▸ rfl⟩
  have h0 : gray (x ^^^ y) = 0#w := by rw [gray_xor, h, BitVec.xor_self]
  exact BitVec.xor_eq_zero_iff.1 (eq_zero_of_gray h0)

/-! ### Readings during a change -/

/-- A reading that takes bits from `old` where `sel` is set and from `new` elsewhere. -/
def pick (sel old new : BitVec w) : BitVec w := (old &&& sel) ||| (new &&& ~~~ sel)

theorem getLsbD_pick (sel old new : BitVec w) (i : Nat) :
    (pick sel old new).getLsbD i = if sel.getLsbD i then old.getLsbD i else new.getLsbD i := by
  rw [pick, BitVec.getLsbD_or, BitVec.getLsbD_and, BitVec.getLsbD_and, BitVec.getLsbD_not]
  by_cases hi : i < w
  · cases sel.getLsbD i <;> simp [hi]
  · simp [BitVec.getLsbD_of_ge old i (by omega), BitVec.getLsbD_of_ge new i (by omega)]

theorem pick_self (sel x : BitVec w) : pick sel x x = x := by
  refine BitVec.eq_of_getLsbD_eq fun i _ => ?_
  rw [getLsbD_pick, ite_self]

/-- A bit that does not change on counting up stops the carry. -/
theorem getLsbD_succ_of_eq (x : BitVec w) {i : Nat} (hi : i + 1 < w) (h : x.getLsbD i = (x + 1).getLsbD i) :
    x.getLsbD (i + 1) = (x + 1).getLsbD (i + 1) := by
  have hadd : ∀ j, j < w → (x + 1).getLsbD j = (x.toNat + 1).testBit j := by
    intro j hj
    rw [BitVec.getLsbD, BitVec.toNat_add, show (1 : BitVec w).toNat = 1 by
      rw [show (1 : BitVec w) = BitVec.ofNat w 1 from rfl, BitVec.toNat_ofNat,
        Nat.mod_eq_of_lt (Nat.one_lt_two_pow (by omega))], Nat.testBit_mod_two_pow, decide_eq_true hj, Bool.true_and]
  rw [hadd i (by omega), BitVec.getLsbD] at h
  rw [hadd (i + 1) hi, BitVec.getLsbD]
  generalize x.toNat = n at h ⊢
  rw [Nat.testBit_eq_decide_div_mod_eq, Nat.testBit_eq_decide_div_mod_eq, decide_eq_decide, Nat.succ_div] at h
  rw [Nat.testBit_eq_decide_div_mod_eq, Nat.testBit_eq_decide_div_mod_eq, Nat.pow_succ, ← Nat.div_div_eq_div_mul,
    ← Nat.div_div_eq_div_mul, Nat.succ_div]
  split_ifs at h ⊢ with hd
  · omega
  · rfl

/-- At most one bit of the code changes: below it all bits of the count change, above it none. -/
theorem gray_succ_unique (x : BitVec w) {p q : Nat} (hp : (gray x).getLsbD p ≠ (gray (x + 1)).getLsbD p)
    (hq : (gray x).getLsbD q ≠ (gray (x + 1)).getLsbD q) : p = q := by
  have hlt : ∀ {i}, (gray x).getLsbD i ≠ (gray (x + 1)).getLsbD i → i < w := fun {i} h => by
    rcases Nat.lt_or_ge i w with hi | hi
    · exact hi
    · exact absurd (by rw [BitVec.getLsbD_of_ge _ _ hi, BitVec.getLsbD_of_ge _ _ hi]) h
  -- a changing bit of the code stands where the changes of the count end
  have hend : ∀ {i}, (gray x).getLsbD i ≠ (gray (x + 1)).getLsbD i →
      x.getLsbD i ≠ (x + 1).getLsbD i ∧ x.getLsbD (i + 1) = (x + 1).getLsbD (i + 1) := by
    intro i h
    have hi := hlt h
    rw [getLsbD_gray, getLsbD_gray] at h
    by_cases heq : x.getLsbD i = (x + 1).getLsbD i
    · rcases Nat.lt_or_ge (i + 1) w with hi' | hi'
      · exact absurd (by rw [heq, getLsbD_succ_of_eq x hi' heq]) h
      · exact absurd (by rw [heq, BitVec.getLsbD_of_ge x _ hi', BitVec.getLsbD_of_ge (x + 1) _ hi']) h
    · refine ⟨heq, ?_⟩
      revert h heq
      cases x.getLsbD i <;> cases (x + 1).getLsbD i <;> cases x.getLsbD (i + 1) <;> cases (x + 1).getLsbD (i + 1) <;> simp
  have hup : ∀ {i} k, i + k < w → x.getLsbD i = (x + 1).getLsbD i → x.getLsbD (i + k) = (x + 1).getLsbD (i + k) := by
    intro i k hk h
    induction k with
    | zero => exact h
    | succ k ih => exact getLsbD_succ_of_eq x hk (ih (by omega))
  have hle : ∀ {p q}, (gray x).getLsbD p ≠ (gray (x + 1)).getLsbD p →
      (gray x).getLsbD q ≠ (gray (x + 1)).getLsbD q → q ≤ p := by
    intro p q hp hq
    by_contra hlt'
    have hq' := hlt hq
    obtain ⟨k, hk⟩ := Nat.exists_eq_add_of_le (show p + 1 ≤ q by omega)
    subst hk
    exact (hend hq).1 (hup k hq' (hend hp).2)
  exact Nat.le_antisymm (hle hq hp) (hle hp hq)

/-- What is read while the counter moves on is its old or its new code. -/
theorem pick_gray_succ (sel x : BitVec w) :
    pick sel (gray x) (gray (x + 1)) = gray x ∨ pick sel (gray x) (gray (x + 1)) = gray (x + 1) := by
  by_cases h : ∃ p, (gray x).getLsbD p ≠ (gray (x + 1)).getLsbD p
  · obtain ⟨p, hp⟩ := h
    have heq : ∀ i, i ≠ p → (gray x).getLsbD i = (gray (x + 1)).getLsbD i := by
      intro i hi
      by_contra hne
      exact hi (gray_succ_unique x hne hp)
    cases hs : sel.getLsbD p with
    | true =>
      refine .inl (BitVec.eq_of_getLsbD_eq fun i _ => ?_)
      rw [getLsbD_pick]
      rcases eq_or_ne i p with rfl | hi
      · rw [hs, if_pos rfl]
      · rw [heq i hi, ite_self]
    | false =>
      refine .inr (BitVec.eq_of_getLsbD_eq fun i _ => ?_)
      rw [getLsbD_pick]
      rcases eq_or_ne i p with rfl | hi
      · rw [hs, if_neg Bool.false_ne_true]
      · rw [heq i hi, ite_self]
  · have heq : gray x = gray (x + 1) := BitVec.eq_of_getLsbD_eq fun i _ => not_not.1 fun hne => h ⟨i, hne⟩
    exact .inl (by rw [← heq, pick_self])

/-! ### Counters with one bit more than an address -/

section
variable {a : Nat}

/-- Half a turn apart: only the highest bit differs. -/
def apart (x y : BitVec (a + 1)) : Bool := x.getLsbD a != y.getLsbD a && x.setWidth a == y.setWidth a

/-- The same in the code: the two highest bits differ. -/
def grayApart (x y : BitVec (a + 1)) : Bool :=
  x.getLsbD a != y.getLsbD a && x.getLsbD (a - 1) != y.getLsbD (a - 1) && x.setWidth (a - 1) == y.setWidth (a - 1)

theorem setWidth_eq_iff {n : Nat} (x y : BitVec w) :
    x.setWidth n = y.setWidth n ↔ ∀ i, i < n → x.getLsbD i = y.getLsbD i := by
  constructor
  · intro h i hi
    have := congrArg (fun z : BitVec n => z.getLsbD i) h
    simpa only [BitVec.getLsbD_setWidth, hi, decide_true, Bool.true_and] using this
  · intro h
    refine BitVec.eq_of_getLsbD_eq fun i hi => ?_
    simp only [BitVec.getLsbD_setWidth, hi, decide_true, Bool.true_and, h i hi]

theorem apart_comm (x y : BitVec (a + 1)) : apart x y = apart y x := by
  rw [apart, apart, bne_comm, BEq.comm]

theorem apart_iff (x y : BitVec (a + 1)) : apart x y = true ↔ x ^^^ y = BitVec.twoPow (a + 1) a := by
  have hbits : x ^^^ y = BitVec.twoPow (a + 1) a ↔
      ∀ i, i < a + 1 → (x.getLsbD i ^^ y.getLsbD i) = decide (a = i) := by
    constructor
    · intro h i hi
      rw [← BitVec.getLsbD_xor, h, BitVec.getLsbD_twoPow, decide_eq_true (show a < a + 1 by omega), Bool.true_and]
    · intro h
      refine BitVec.eq_of_getLsbD_eq fun i hi => ?_
      rw [BitVec.getLsbD_xor, h i hi, BitVec.getLsbD_twoPow, decide_eq_true (show a < a + 1 by omega), Bool.true_and]
  rw [hbits, apart, Bool.and_eq_true, bne_iff_ne, beq_iff_eq, setWidth_eq_iff x y]
  constructor
  · rintro ⟨htop, hlow⟩ i hi
    rcases Nat.lt_or_eq_of_le (Nat.le_of_lt_succ hi) with h | rfl
    · rw [hlow i h, Bool.xor_self, decide_eq_false (by omega)]
    · rw [decide_eq_true rfl]; revert htop; cases x.getLsbD i <;> cases y.getLsbD i <;> simp
  · intro h
    refine ⟨fun heq => ?_, fun i hi => ?_⟩
    · have := h a (by omega)
      rw [heq, Bool.xor_self, decide_eq_true rfl] at this
      exact Bool.false_ne_true this
    · have := h i (by omega)
      rw [decide_eq_false (show ¬ a = i by omega)] at this
      simpa using this

theorem gray_apart_iff (ha : 1 ≤ a) (x y : BitVec (a + 1)) : grayApart (gray x) (gray y) = apart x y := by
  have htwo : ∀ i, (gray (BitVec.twoPow (a + 1) a)).getLsbD i = decide (i = a ∨ i + 1 = a) := by
    intro i
    rw [getLsbD_gray, BitVec.getLsbD_twoPow, BitVec.getLsbD_twoPow, decide_eq_true (show a < a + 1 by omega), Bool.true_and,
      Bool.true_and]
    by_cases h1 : a = i
    · subst h1; simp
    · by_cases h2 : a = i + 1
      · subst h2; simp
      · simp [h1, h2, Ne.symm h1, Ne.symm h2]
  rw [Bool.eq_iff_iff, apart_iff, ← gray_inj, gray_xor, grayApart, Bool.and_eq_true, Bool.and_eq_true, bne_iff_ne, bne_iff_ne,
    beq_iff_eq, setWidth_eq_iff]
  generalize gray x = u
  generalize gray y = v
  constructor
  · rintro ⟨⟨htop, hnext⟩, hlow⟩
    refine BitVec.eq_of_getLsbD_eq fun i hi => ?_
    rw [BitVec.getLsbD_xor, htwo]
    rcases Nat.lt_trichotomy (i + 1) a with h | h | h
    · rw [hlow i (by omega), Bool.xor_self, decide_eq_false (by omega)]
    · obtain rfl : i = a - 1 := by omega
      rw [decide_eq_true (by omega)]
      revert hnext; cases u.getLsbD (a - 1) <;> cases v.getLsbD (a - 1) <;> simp
    · obtain rfl : i = a := by omega
      rw [decide_eq_true (.inl rfl)]
      revert htop; cases u.getLsbD i <;> cases v.getLsbD i <;> simp
  · intro h
    have hbit : ∀ i, (u.getLsbD i ^^ v.getLsbD i) = decide (i = a ∨ i + 1 = a) := by
      intro i
      rw [← BitVec.getLsbD_xor, h, htwo]
    have hne : ∀ i, (i = a ∨ i + 1 = a) → u.getLsbD i ≠ v.getLsbD i := by
      intro i hi heq
      have := hbit i
      rw [heq, Bool.xor_self, decide_eq_true hi] at this
      exact Bool.false_ne_true this
    refine ⟨⟨hne a (.inl rfl), hne (a - 1) (.inr (by omega))⟩, fun i hi => ?_⟩
    have := hbit i
    rw [decide_eq_false (by omega)] at this
    simpa using this

variable {c r : Nat}

theorem ofNat_eq_iff (h : r ≤ c) (h' : c ≤ r + 2 ^ a) : BitVec.ofNat (a + 1) c = BitVec.ofNat (a + 1) r ↔ c = r := by
  refine ⟨fun heq => ?_, fun h => h ▸ rfl⟩
  have hmod := congrArg BitVec.toNat heq
  rw [BitVec.toNat_ofNat, BitVec.toNat_ofNat] at hmod
  obtain ⟨k, rfl⟩ := Nat.exists_eq_add_of_le h
  have hk : k ≡ 0 [MOD 2 ^ (a + 1)] := Nat.ModEq.add_left_cancel' r hmod
  have hlt : k < 2 ^ (a + 1) := Nat.lt_of_le_of_lt (Nat.le_of_add_le_add_left h') (Nat.pow_lt_pow_succ (by decide))
  have : k = 0 := by rwa [Nat.ModEq, Nat.mod_eq_of_lt hlt, Nat.zero_mod] at hk
  omega

theorem apart_ofNat (h : r ≤ c) (h' : c ≤ r + 2 ^ a) :
    apart (BitVec.ofNat (a + 1) c) (BitVec.ofNat (a + 1) r) = decide (c = r + 2 ^ a) := by
  have htop : ∀ n, (BitVec.ofNat (a + 1) n).getLsbD a = decide (n / 2 ^ a % 2 = 1) := by
    intro n
    rw [BitVec.getLsbD_ofNat, decide_eq_true (show a < a + 1 by omega), Bool.true_and, Nat.testBit_eq_decide_div_mod_eq]
  have hlow : ∀ n, (BitVec.ofNat (a + 1) n).setWidth a = BitVec.ofNat a n := fun n =>
    BitVec.setWidth_ofNat_of_le (by omega) n
  rw [apart, htop, htop, hlow, hlow]
  by_cases hc : c = r + 2 ^ a
  · have hdiv : c / 2 ^ a = r / 2 ^ a + 1 := by rw [hc, Nat.add_div_right _ (Nat.two_pow_pos a)]
    have hmod : BitVec.ofNat a c = BitVec.ofNat a r := by
      refine BitVec.eq_of_toNat_eq ?_
      rw [BitVec.toNat_ofNat, BitVec.toNat_ofNat, hc, Nat.add_mod_right]
    rw [decide_eq_true hc, hmod, hdiv, Bool.and_eq_true, bne_iff_ne, Ne, decide_eq_decide]
    refine ⟨by omega, beq_self_eq_true _⟩
  · rw [decide_eq_false hc, Bool.and_eq_false_iff]
    by_cases hmod : BitVec.ofNat a c = BitVec.ofNat a r
    · have heq : c = r := by
        have hm := congrArg BitVec.toNat hmod
        rw [BitVec.toNat_ofNat, BitVec.toNat_ofNat] at hm
        obtain ⟨k, rfl⟩ := Nat.exists_eq_add_of_le h
        have hk : k ≡ 0 [MOD 2 ^ a] := Nat.ModEq.add_left_cancel' r hm
        rw [Nat.ModEq, Nat.mod_eq_of_lt (by omega), Nat.zero_mod] at hk
        omega
      left
      rw [heq, bne_self_eq_false]
    · right
      exact beq_eq_false_iff_ne.2 hmod

/-- A counter of a clock domain is read in another one as a count between its old and its new value. -/
theorem pick_counter (sel : BitVec w) {n n' : Nat} (h : n' = n ∨ n' = n + 1) :
    ∃ k, (k = n ∨ k = n') ∧ pick sel (gray (BitVec.ofNat w n)) (gray (BitVec.ofNat w n')) = gray (BitVec.ofNat w k) := by
  rcases h with rfl | rfl
  · exact ⟨n', .inl rfl, pick_self _ _⟩
  · have hsucc : BitVec.ofNat w (n + 1) = BitVec.ofNat w n + 1 := BitVec.ofNat_add n 1
    rw [hsucc]
    rcases pick_gray_succ sel (BitVec.ofNat w n) with h | h
    · exact ⟨n, .inl rfl, h⟩
    · exact ⟨n + 1, .inr rfl, by rw [h, hsucc]⟩

end

end Gray
