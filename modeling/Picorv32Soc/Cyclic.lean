import Mathlib.Data.BitVec
import Mathlib.Data.List.Nodup
import Mathlib.Data.Nat.ModEq

/-!
# Cyclic intervals

The indices of a ring of `2 ^ w` slots are the words of width `w`, with wrap-around. `interval e n`
is the interval of the `n` indices that end just before `e`, in order: what a first-in first-out
queue of length `n` occupies when `e` is the next slot to be filled. `window n a t m` is what such a
queue holds when it is kept in an array `a` of `n` cells.
-/

namespace Cyclic

variable {w : Nat}

/-- The `n` indices just before `e`, the oldest first. -/
def interval (e : BitVec w) : Nat → List (BitVec w)
  | 0 => []
  | n + 1 => (e - BitVec.ofNat w (n + 1)) :: interval e n

variable (e : BitVec w) (n : Nat)

theorem interval_push : interval (e + 1) (n + 1) = interval e n ++ [e] := by
  have shift : ∀ m, e + 1 - BitVec.ofNat w (m + 1) = e - BitVec.ofNat w m := by
    intro m
    rw [BitVec.ofNat_add]
    exact add_sub_add_right_eq_sub e _ _
  induction n with
  | zero => simp [interval]
  | succ n ih => rw [interval, ih, shift]; rfl

theorem mem_interval {k : BitVec w} : k ∈ interval e n ↔ ∃ j, j < n ∧ k = e - BitVec.ofNat w (j + 1) := by
  induction n with
  | zero => simp [interval]
  | succ n ih =>
    rw [interval, List.mem_cons, ih]
    constructor
    · rintro (rfl | ⟨j, hj, rfl⟩)
      · exact ⟨n, Nat.lt_succ_self n, rfl⟩
      · exact ⟨j, Nat.lt_succ_of_lt hj, rfl⟩
    · rintro ⟨j, hj, rfl⟩
      rcases Nat.lt_succ_iff_lt_or_eq.1 hj with hj | rfl
      · exact .inr ⟨j, hj, rfl⟩
      · exact .inl rfl

variable {e n}

theorem sub_ofNat_inj {a b : Nat} (ha : a < 2 ^ w) (hb : b < 2 ^ w)
    (h : e - BitVec.ofNat w a = e - BitVec.ofNat w b) : a = b := by
  have h' : BitVec.ofNat w a = BitVec.ofNat w b := (BitVec.sub_right_inj e).1 h
  have := congrArg BitVec.toNat h'
  rwa [BitVec.toNat_ofNat, BitVec.toNat_ofNat, Nat.mod_eq_of_lt ha, Nat.mod_eq_of_lt hb] at this

theorem ofNat_two_pow : BitVec.ofNat w (2 ^ w) = BitVec.ofNat w 0 := by
  apply BitVec.eq_of_toNat_eq
  rw [BitVec.toNat_ofNat, BitVec.toNat_ofNat, Nat.mod_self, Nat.zero_mod]

theorem ofNat_inj {x y : Nat} (hle : x ≤ y) (hlt : y < x + 2 ^ w) : BitVec.ofNat w x = BitVec.ofNat w y ↔ x = y := by
  refine ⟨fun h => ?_, fun h => h ▸ rfl⟩
  have hmod := congrArg BitVec.toNat h
  rw [BitVec.toNat_ofNat, BitVec.toNat_ofNat] at hmod
  have hdvd := (Nat.modEq_iff_dvd' hle).1 hmod
  have := Nat.eq_zero_of_dvd_of_lt hdvd (by omega)
  omega

theorem ofNat_succ (x : Nat) : BitVec.ofNat w (x + 1) = BitVec.ofNat w x + 1 := by
  rw [BitVec.ofNat_add]
  rfl

theorem ofNat_add_two_pow (x : Nat) : BitVec.ofNat w (x + 2 ^ w) = BitVec.ofNat w x := by
  rw [BitVec.ofNat_add, ofNat_two_pow]
  exact add_zero _

theorem not_mem_interval (hn : n < 2 ^ w) : e ∉ interval e n := by
  intro h
  obtain ⟨j, hj, he⟩ := (mem_interval e n).1 h
  have h0 : e - BitVec.ofNat w 0 = e - BitVec.ofNat w (j + 1) := by simpa using he
  have := sub_ofNat_inj (by omega) (by omega) h0
  omega

theorem nodup_interval (hn : n ≤ 2 ^ w) : (interval e n).Nodup := by
  induction n with
  | zero => exact List.nodup_nil
  | succ n ih =>
    refine List.nodup_cons.2 ⟨fun h => ?_, ih (by omega)⟩
    obtain ⟨j, hj, he⟩ := (mem_interval e n).1 h
    -- the distances are `n + 1` and `j + 1`, both below `2 ^ w` unless the ring is full
    rcases Nat.lt_or_ge (n + 1) (2 ^ w) with hlt | hge
    · have := sub_ofNat_inj hlt (by omega) he
      omega
    · rw [Nat.le_antisymm hn hge, ofNat_two_pow] at he
      have := sub_ofNat_inj (by omega) (by omega) he
      omega

theorem mem_interval_full (k : BitVec w) : k ∈ interval e (2 ^ w) := by
  rw [mem_interval]
  have hk : k = e - BitVec.ofNat w (e - k).toNat := by
    rw [BitVec.ofNat_toNat, BitVec.setWidth_eq]; exact (sub_sub_cancel e k).symm
  rcases Nat.eq_zero_or_pos (e - k).toNat with h0 | hpos
  · refine ⟨2 ^ w - 1, Nat.sub_lt (Nat.two_pow_pos w) Nat.one_pos, ?_⟩
    rw [h0] at hk
    rwa [Nat.sub_add_cancel (Nat.two_pow_pos w), ofNat_two_pow]
  · refine ⟨(e - k).toNat - 1, ?_, by rwa [Nat.sub_add_cancel hpos]⟩
    have := (e - k).isLt
    omega

/-! ### Circular arrays -/

variable {α : Type*} {a : Nat → α} {n t m : Nat}

/-- The `m` cells from position `t` on of a circular array of `n` cells. -/
def window (n : Nat) (a : Nat → α) (t m : Nat) : List α := (List.range m).map fun i => a ((t + i) % n)

@[simp] theorem length_window : (window n a t m).length = m := by simp [window]

theorem window_push (hm : m < n) (x : α) :
    window n (Function.update a ((t + m) % n) x) t (m + 1) = window n a t m ++ [x] := by
  have hne : ∀ i < m, (t + i) % n ≠ (t + m) % n := by
    intro i hi h
    have : (i : Nat) ≡ m [MOD n] := Nat.ModEq.add_left_cancel' t h
    have := Nat.ModEq.eq_of_lt_of_lt this (hi.trans hm) hm
    omega
  rw [window, List.range_succ, List.map_append, List.map_singleton, Function.update_self]
  congr 1
  refine List.map_congr_left fun i hi => ?_
  rw [Function.update_of_ne (hne i (List.mem_range.1 hi))]

theorem window_pop : window n a t (m + 1) = a (t % n) :: window n a ((t + 1) % n) m := by
  rw [window, List.range_succ_eq_map, List.map_cons, List.map_map]
  congr 1
  refine List.map_congr_left fun i _ => ?_
  show a ((t + (i + 1)) % n) = a (((t + 1) % n + i) % n)
  rw [Nat.mod_add_mod, Nat.add_right_comm, Nat.add_assoc]

end Cyclic
