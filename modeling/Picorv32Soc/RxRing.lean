import Picorv32Soc.Axis
import Picorv32Soc.Cyclic
import Picorv32Soc.Dmac

/-!
# The receive ring as a representation of a queue

The abstract view of the receive ring is the queue of the slots published and not yet cleared, each
with its frame, the oldest first. `Ring.Holds` says how the registers represent a queue; reserving,
publishing, dropping and clearing are a no-op, an append, a no-op and a removal of the head on it.
-/

namespace Picorv32Soc
open Bits

/-- The published slots with their frames, the oldest first. -/
abbrev SlotQueue := List (BitVec 3 × Frame)

def slotMask (k : BitVec 3) : BitVec 8 := BitVec.twoPow 8 k.toNat

theorem getLsbD_slotMask (k j : BitVec 3) : (slotMask k).getLsbD j.toNat = decide (k = j) := by
  rw [slotMask, BitVec.getLsbD_twoPow, decide_eq_true (by omega : k.toNat < 8), Bool.true_and]
  congr 1
  rw [BitVec.toNat_inj]

namespace Dmac.Ring
variable {q : SlotQueue} {resv : Bool} {g : Ring}

/-- The registers represent the queue `q`; with `resv`, the next slot is reserved for a reception. -/
structure Holds (q : SlotQueue) (resv : Bool) (g : Ring) : Prop where
  slots : q.map Prod.fst = Cyclic.interval g.rxBdIdx q.length
  le : q.length ≤ 8
  room : resv = true → q.length < 8
  sta : ∀ k : BitVec 3, g.rxBdSta.getLsbD k.toNat = decide (k ∈ q.map Prod.fst)
  staR : ∀ k : BitVec 3, g.rxBdStaR.getLsbD k.toNat = (decide (k ∈ q.map Prod.fst) || (resv && k == g.rxBdIdx))
  len : ∀ p ∈ q, g.rxBdLen p.1 = BitVec.ofNat 32 p.2.nbytes

theorem holds_reset : reset.Holds [] false :=
  ⟨rfl, by decide, by simp, by simp [reset], by simp [reset], by simp⟩

theorem Holds.txBdIdx (w : g.Holds q resv) (k : BitVec 3) : { g with txBdIdx := k }.Holds q resv :=
  ⟨w.slots, w.le, w.room, w.sta, w.staR, w.len⟩

theorem Holds.idx_not_mem (w : g.Holds q resv) (hq : q.length < 8) : g.rxBdIdx ∉ q.map Prod.fst := by
  rw [w.slots]; exact Cyclic.not_mem_interval hq

theorem Holds.nodup (w : g.Holds q resv) : (q.map Prod.fst).Nodup := by
  rw [w.slots]; exact Cyclic.nodup_interval w.le

theorem Holds.full (w : g.Holds q resv) (hq : q.length = 8) : g.rxBdStaR = 0xff := by
  have hall : ∀ k : BitVec 3, g.rxBdStaR.getLsbD k.toNat = true := by
    intro k
    have hk : k ∈ Cyclic.interval g.rxBdIdx 8 := Cyclic.mem_interval_full k
    rw [w.staR, w.slots, hq, decide_eq_true hk, Bool.true_or]
  apply BitVec.eq_of_getLsbD_eq
  intro j hj
  rw [show j = (BitVec.ofNat 3 j).toNat by simp; omega, hall]
  interval_cases j <;> rfl

theorem Holds.reserve (w : g.Holds q false) (hq : q.length < 8) : g.reserve.Holds q true := by
  refine ⟨w.slots, w.le, fun _ => hq, w.sta, fun k => ?_, w.len⟩
  show (setBit _ _ _).getLsbD _ = (_ || (true && k == g.rxBdIdx))
  rw [getLsbD_setBit_slot, w.staR]
  by_cases hk : k = g.rxBdIdx <;> simp [hk]

theorem Holds.drop (w : g.Holds q true) : g.drop.Holds q false := by
  have hidx := w.idx_not_mem (w.room rfl)
  refine ⟨w.slots, w.le, by simp, w.sta, fun k => ?_, fun p hp => ?_⟩
  · show (setBit _ _ _).getLsbD _ = _
    rw [getLsbD_setBit_slot, w.staR]
    by_cases hk : k = g.rxBdIdx
    · subst hk; simpa using hidx
    · simp [hk]
  · have hne : p.1 ≠ g.rxBdIdx := fun h => hidx (h ▸ List.mem_map_of_mem hp)
    show Function.update g.rxBdLen g.rxBdIdx 0 p.1 = _
    rw [Function.update_of_ne hne]; exact w.len p hp

theorem Holds.publish (w : g.Holds q true) (f : Frame) :
    (g.publish (BitVec.ofNat 32 f.nbytes)).Holds (q ++ [(g.rxBdIdx, f)]) false := by
  have hq := w.room rfl
  have hidx := w.idx_not_mem hq
  refine ⟨?_, by simp; omega, by simp, fun k => ?_, fun k => ?_, fun p hp => ?_⟩
  · show _ = Cyclic.interval (g.rxBdIdx + 1) _
    rw [List.length_append, List.map_append, w.slots]
    exact (Cyclic.interval_push _ _).symm
  · show (setBit _ _ _).getLsbD _ = _
    rw [getLsbD_setBit_slot, w.sta]
    by_cases hk : k = g.rxBdIdx <;> simp [hk]
  · show g.rxBdStaR.getLsbD _ = _
    rw [w.staR, Bool.eq_iff_iff]
    simp [List.mem_append]
  · show Function.update g.rxBdLen g.rxBdIdx _ p.1 = _
    rcases List.mem_append.1 hp with hp | hp
    · have hne : p.1 ≠ g.rxBdIdx := fun h => hidx (h ▸ List.mem_map_of_mem hp)
      rw [Function.update_of_ne hne]; exact w.len p hp
    · obtain rfl := List.mem_singleton.1 hp
      exact Function.update_self ..

theorem clear_zero (g : Ring) : g.clear 0 = g := by
  have hand : ∀ x : BitVec 8, x &&& ~~~ 0#8 = x := fun x => BitVec.and_allOnes
  simp only [Ring.clear, BitVec.ofNat_eq_ofNat, hand, BitVec.getLsbD_zero, Bool.false_eq_true, if_false]

theorem Holds.clear {p : BitVec 3 × Frame} (w : g.Holds (p :: q) resv) :
    (g.clear (slotMask p.1)).Holds q resv := by
  have hnd := w.nodup
  rw [List.map_cons, List.nodup_cons] at hnd
  have hne : ∀ x ∈ q.map Prod.fst, p.1 ≠ x := fun x hx h => hnd.1 (h ▸ hx)
  have hs := w.slots
  rw [List.map_cons, List.length_cons, Cyclic.interval] at hs
  have hidx : resv = true → p.1 ≠ g.rxBdIdx := fun hr h =>
    w.idx_not_mem (w.room hr) (by rw [List.map_cons, h]; exact List.mem_cons_self ..)
  have hbit : ∀ (x : BitVec 8) (k : BitVec 3), (x &&& ~~~ slotMask p.1).getLsbD k.toNat =
      (x.getLsbD k.toNat && !decide (p.1 = k)) := by
    intro x k
    rw [BitVec.getLsbD_and, BitVec.getLsbD_not, getLsbD_slotMask, decide_eq_true (by omega : k.toNat < 8),
      Bool.true_and]
  refine ⟨(List.cons.inj hs).2, Nat.le_of_succ_le w.le, fun hr => Nat.lt_of_succ_lt (w.room hr), fun k => ?_,
    fun k => ?_, fun x hx => ?_⟩
  · show (_ &&& _ : BitVec 8).getLsbD _ = _
    rw [hbit, w.sta]
    by_cases hk : p.1 = k
    · subst hk; simpa using hnd.1
    · simp [hk, Ne.symm hk]
  · show (_ &&& _ : BitVec 8).getLsbD _ = (_ || (resv && k == g.rxBdIdx))
    rw [hbit, w.staR]
    by_cases hk : p.1 = k
    · subst hk
      cases resv with
      | false => simpa using hnd.1
      | true => simpa [hidx rfl] using hnd.1
    · rw [decide_eq_false hk, Bool.not_false, Bool.and_true, List.map_cons]
      simp only [List.mem_cons, Ne.symm hk, false_or]
  · show (if (slotMask p.1).getLsbD x.1.toNat then _ else _) = _
    rw [getLsbD_slotMask, decide_eq_false (hne x.1 (List.mem_map_of_mem hx))]
    exact w.len x (List.mem_cons_of_mem _ hx)

theorem Holds.filter_clear {p : BitVec 3 × Frame} (w : g.Holds (p :: q) resv) :
    (p :: q).filter (fun x => !(slotMask p.1).getLsbD x.1.toNat) = q := by
  have hnd := w.nodup
  rw [List.map_cons, List.nodup_cons] at hnd
  rw [List.filter_cons_of_neg (by simp [getLsbD_slotMask]), List.filter_eq_self]
  intro x hx
  have hne : p.1 ≠ x.1 := fun h => hnd.1 (h ▸ List.mem_map_of_mem hx)
  rw [getLsbD_slotMask, decide_eq_false hne]; rfl

end Dmac.Ring

end Picorv32Soc
