import Mathlib.Data.BitVec
import Mathlib.Logic.Function.Basic

/-!
# Lists in a memory

A memory is a function of the address, and addresses wrap around. `store` writes a list from an address
on; `Holds` says that a list stands in the memory from an address on.
-/

namespace Cells

variable {w : Nat} {α : Type*}

def store (mem : BitVec w → α) (a : BitVec w) : List α → BitVec w → α
  | [] => mem
  | b :: bs => store (Function.update mem a b) (a + 1) bs

/-- The list `bs` stands in the memory from `a` on. -/
def Holds (mem : BitVec w → α) (a : BitVec w) (bs : List α) : Prop :=
  ∀ i b, bs[i]? = some b → mem (a + BitVec.ofNat w i) = b

variable {mem : BitVec w → α} {a : BitVec w} {bs cs : List α}

theorem ofNat_succ (i : Nat) : BitVec.ofNat w (i + 1) = 1 + BitVec.ofNat w i := by
  rw [Nat.add_comm, BitVec.ofNat_add]; rfl

theorem add_ofNat_zero (a : BitVec w) : a + BitVec.ofNat w 0 = a := BitVec.add_zero a

theorem add_ofNat_add (a : BitVec w) (k i : Nat) :
    a + BitVec.ofNat w (k + i) = a + BitVec.ofNat w k + BitVec.ofNat w i := by
  rw [BitVec.ofNat_add, BitVec.add_assoc]

theorem add_ofNat_succ (a : BitVec w) (i : Nat) : a + BitVec.ofNat w (i + 1) = a + 1 + BitVec.ofNat w i := by
  rw [ofNat_succ, BitVec.add_assoc]

theorem store_append (mem : BitVec w → α) (a : BitVec w) (bs cs : List α) :
    store mem a (bs ++ cs) = store (store mem a bs) (a + BitVec.ofNat w bs.length) cs := by
  induction bs generalizing mem a with
  | nil => rw [List.length_nil, add_ofNat_zero]; rfl
  | cons b bs ih => rw [List.length_cons, add_ofNat_succ]; exact ih _ _

theorem offset_add {i : Nat} (a : BitVec w) (hi : i < 2 ^ w) :
    (a + BitVec.ofNat w i - a).toNat = i := by
  rw [BitVec.add_comm, BitVec.add_sub_cancel, BitVec.toNat_ofNat]
  exact Nat.mod_eq_of_lt hi

theorem add_offset (a x : BitVec w) : a + BitVec.ofNat w (x - a).toNat = x := by
  rw [BitVec.ofNat_toNat, BitVec.setWidth_eq, BitVec.add_comm, BitVec.sub_add_cancel]

/-- The list is found where it was stored, and the other cells are as before. -/
theorem store_apply (h : bs.length ≤ 2 ^ w) (x : BitVec w) :
    store mem a bs x = bs[(x - a).toNat]?.getD (mem x) := by
  induction bs generalizing mem a with
  | nil => rfl
  | cons b bs ih =>
    rw [List.length_cons] at h
    rw [store, ih (by omega)]
    by_cases hx : x = a
    · subst hx
      have hlast : (x - (x + 1)).toNat = 2 ^ w - 1 := by
        have hneg : x - (x + 1) = -1#w := by
          rw [← BitVec.sub_sub, BitVec.sub_self, BitVec.zero_sub]; rfl
        rw [hneg, BitVec.neg_one_eq_allOnes, BitVec.toNat_allOnes]
      rw [hlast, List.getElem?_eq_none (by omega), BitVec.sub_self, Option.getD_none, Function.update_self]
      rfl
    · -- the offset from `a` is one more than that from `a + 1`
      have hne : (x - a).toNat ≠ 0 := fun h0 =>
        hx (by rw [← add_offset a x, h0, add_ofNat_zero])
      obtain ⟨k, hk⟩ := Nat.exists_eq_succ_of_ne_zero hne
      have hlt := (x - a).isLt
      have hoff : (x - (a + 1)).toNat = k := by
        have hx' : x = a + 1 + BitVec.ofNat w k := by
          rw [← add_ofNat_succ, ← Nat.succ_eq_add_one, ← hk, add_offset]
        rw [hx', offset_add _ (by omega)]
      rw [hoff, hk, List.getElem?_cons_succ, Function.update_of_ne hx]

theorem store_of_ne {x : BitVec w} (h : ∀ i, i < bs.length → x ≠ a + BitVec.ofNat w i) : store mem a bs x = mem x := by
  induction bs generalizing mem a with
  | nil => rfl
  | cons b bs ih =>
    have hx : x ≠ a := by
      have h0 := h 0 (Nat.succ_pos _)
      rwa [add_ofNat_zero] at h0
    rw [store, ih, Function.update_of_ne hx]
    intro i hi
    have hi' := h (i + 1) (Nat.succ_lt_succ hi)
    rwa [add_ofNat_succ] at hi'

theorem holds_store (h : bs.length ≤ 2 ^ w) : Holds (store mem a bs) a bs := by
  intro i b hb
  have hi : i < bs.length := (List.getElem?_eq_some_iff.1 hb).1
  rw [store_apply h, offset_add a (by omega), hb, Option.getD_some]

theorem Holds.eq_of_length (hb : Holds mem a bs) (hc : Holds mem a cs) (h : bs.length = cs.length) : bs = cs := by
  apply List.ext_getElem h
  intro i hi hi'
  rw [← hb i _ (List.getElem?_eq_getElem hi), hc i _ (List.getElem?_eq_getElem hi')]

theorem Holds.head {b : α} (h : Holds mem a (b :: bs)) : mem a = b := by
  have h0 := h 0 b rfl
  rwa [add_ofNat_zero] at h0

theorem Holds.tail {b : α} (h : Holds mem a (b :: bs)) : Holds mem (a + 1) bs := by
  intro i c hc
  rw [← add_ofNat_succ]; exact h (i + 1) c hc

theorem Holds.append (h : Holds mem a (bs ++ cs)) : Holds mem a bs := by
  intro i b hb
  have hi : i < bs.length := (List.getElem?_eq_some_iff.1 hb).1
  exact h i b (by rwa [List.getElem?_append_left hi])

end Cells
