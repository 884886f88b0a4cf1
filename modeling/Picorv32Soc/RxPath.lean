import Picorv32Soc.Driver

/-!
# Ownership of the receive buffers

The invariant of the receive path. The published slots fall into three parts, the oldest first: the
one `ethernetif_input` has taken out of `recv_q` and not yet cleared (at most one), those in `recv_q`,
and those `dma_rx_irq` has not seen. The pbuf of every slot belongs to the driver, except that of the
slot whose packet was just given away, until `pbuf_alloc` has returned a new one for it.

This needs `dma_rx_irq` to enqueue what it should. `hits` are the slots it finds, and `IrqInOrder` is
the condition: when it finds any, it starts at slot 0 (otherwise the loop variable is not the slot),
and they are the slots it has not seen yet, in the order of their publication.
-/

namespace Picorv32Soc
open Bits

def slotBit (k : BitVec 3) : BitVec 32 := BitVec.twoPow 32 k.toNat

theorem setWidth_slotBit (k : BitVec 3) : (slotBit k).setWidth 8 = slotMask k := by
  revert k; decide

theorem eq_zero_of_slotBit_eq_one {k : BitVec 3} (h : slotBit k = 1) : k = 0 := by
  revert k; decide

theorem findSlot_slotBit (k : BitVec 3) : Driver.findSlot (slotBit k) 8 = k.toNat := by
  revert k; decide

theorem and_slotBit (x : BitVec 8) (k : BitVec 3) :
    x.setWidth 32 &&& slotBit k = slotBit k ↔ x.getLsbD k.toNat = true := by
  have hk : k.toNat < 32 := by omega
  have hne : 0#32 ≠ BitVec.twoPow 32 k.toNat := by
    revert k; decide
  rw [slotBit, BitVec.and_twoPow, BitVec.getLsbD_setWidth, decide_eq_true hk, Bool.true_and]
  cases x.getLsbD k.toNat
  · simpa using hne
  · simp

namespace Driver
variable {P : Type*} {s : Driver P} {k : BitVec 3} {n : Nat}

/-! ### What `dma_rx_irq` does -/

/-- The rounds among the first `n`, from slot `k` on, that find a published slot. -/
def found (sta : BitVec 8) (k : BitVec 3) (n : Nat) : List Nat :=
  (List.range n).filter fun i => sta.getLsbD (k + BitVec.ofNat 3 i).toNat

/-- The slots `dma_rx_irq` finds. -/
def hits (s : Driver P) : List (BitVec 3) :=
  (found s.ring.rxBdSta (BitVec.ofNat 3 s.maskIdx) (8 - s.recvQ.len)).map fun i =>
    BitVec.ofNat 3 s.maskIdx + BitVec.ofNat 3 i

theorem found_succ (sta : BitVec 8) (k : BitVec 3) (n : Nat) :
    found sta k (n + 1) =
      found sta k n ++ if sta.getLsbD (k + BitVec.ofNat 3 n).toNat then [n] else [] := by
  rw [found, found, List.range_succ, List.filter_append, List.filter_singleton, Bool.cond_eq_ite]

theorem slotBit_next (k : BitVec 3) :
    (slotBit k = 0x80 ↔ k = 7) ∧
      (k = 7 ∨ slotBit k <<< 1 = slotBit (k + 1) ∧ k.toNat + 1 = (k + 1).toNat) := by
  revert k; decide

theorem rotate_eq (hm : s.mask = slotBit k) (hi : s.maskIdx = k.toNat) :
    s.rotate = { s with mask := slotBit (k + 1), maskIdx := (k + 1).toNat } := by
  obtain ⟨hlast, hnext⟩ := slotBit_next k
  unfold rotate
  rw [hm, hi]
  split_ifs with h
  · obtain rfl := hlast.1 h
    rfl
  · obtain ⟨h1, h2⟩ := hnext.resolve_left fun h7 => h (hlast.2 h7)
    rw [h1, h2]

/-- The state after `n` rounds: besides the lengths of the packets only the queue and the place of the
handler have changed, and the queue has an entry more for each slot found. -/
theorem irqLoop_eq [DecidableEq P] (sta : BitVec 8) (w : s.recvQ.Wf) (hm : s.mask = slotBit k) (hi : s.maskIdx = k.toNat)
    (hn : s.recvQ.len + n ≤ 8) :
    ∃ lens q, irqLoop (sta.setWidth 32) n s =
        { s with
          totLen := lens, recvQ := q, mask := slotBit (k + BitVec.ofNat 3 n),
          maskIdx := (k + BitVec.ofNat 3 n).toNat } ∧
      q.Wf ∧ q.toList = s.recvQ.toList ++
        (found sta k n).map fun i => (s.dmaBdPbuf i, slotBit (k + BitVec.ofNat 3 i)) := by
  induction n with
  | zero => exact ⟨s.totLen, s.recvQ, by simp [irqLoop, ← hm, ← hi], w, by simp [found]⟩
  | succ n ih =>
    obtain ⟨lens, q, he, wq, hq⟩ := ih (by omega)
    have hnext : k + BitVec.ofNat 3 n + 1 = k + BitVec.ofNat 3 (n + 1) := by
      rw [BitVec.ofNat_add, BitVec.add_assoc]; rfl
    have hlen : q.len < pqQueueSize := by
      have h1 := congrArg List.length hq
      have h2 : (found sta k n).length ≤ n := (List.length_filter_le ..).trans (List.length_range ..).le
      rw [List.length_append, List.length_map, Pqueue.length_toList, Pqueue.length_toList] at h1
      show _ < 8
      omega
    rw [irqLoop, he, irqBody]
    simp only [and_slotBit]
    split_ifs with hit
    · refine ⟨_, _, (rotate_eq rfl rfl).trans (by rw [hnext]), wq.enqueue, ?_⟩
      rw [wq.toList_enqueue hlen, hq, found_succ, if_pos hit, List.map_append, List.append_assoc]
      rfl
    · refine ⟨_, _, (rotate_eq rfl rfl).trans (by rw [hnext]), wq, ?_⟩
      rw [hq, found_succ, if_neg hit, List.append_nil]

end Driver

namespace Pc
variable {P : Type*}

/-- The packet has been given away. -/
def given : Pc P → Bool
  | .fetch | .dispatch _ => false
  | _ => true

/-- The entry has been taken out of `recv_q`. -/
def popped : Pc P → Nat
  | .setPbuf .. | .setAdr .. | .clr _ => 1
  | _ => 0

end Pc

namespace RxPath
variable {P : Type*} [DecidableEq P] (pool : Pool P) (hold : BitVec 3 → Option P) {y : RxPath P}

/-- The published slots `dma_rx_irq` has not enqueued, in the order of their publication. -/
def fresh (y : RxPath P) : List (BitVec 3) :=
  (y.hist.pend.drop (y.drv.pc.popped + y.drv.recvQ.len)).map Prod.fst

/-- A run of `dma_rx_irq` finds nothing, or it starts at slot 0 and finds the published slots it has
not seen, in the order of their publication. -/
def IrqInOrder (y : RxPath P) : Prop :=
  y.drv.hits ≠ [] → y.drv.mask = 1 ∧ y.drv.hits <+: y.fresh

instance (y : RxPath P) : Decidable y.IrqInOrder := inferInstanceAs (Decidable (_ → _))

/-- `pbuf_alloc` succeeds and `dma_rx_irq` runs in order. -/
def Clean (a : Act P) (y : RxPath P) : Prop := a.allocates y.drv = true ∧ (a.isIrq = true → y.IrqInOrder)

instance (a : Act P) (y : RxPath P) : Decidable (Clean a y) := inferInstanceAs (Decidable (_ ∧ _))

/-- The slot waits for its frame or for `ethernetif_input` with the pbuf `hold k`. -/
def Armed (s : Driver P) (k : BitVec 3) : Prop :=
  ∃ p, hold k = some p ∧ s.dmaBdPbuf k.toNat = some p ∧ s.rxBdAdr k = pool.payload p

/-- The pbuf recorded for the slot is the one its buffer belongs to, and no other slot has it. -/
def Recorded (s : Driver P) (k : BitVec 3) : Prop :=
  ∃ p, s.dmaBdPbuf k.toNat = some p ∧ s.rxBdAdr k = pool.payload p ∧ ∀ k', k' ≠ k → hold k' ≠ some p

/-- What holds at each statement of `ethernetif_input` about the oldest slot. -/
def Local (y : RxPath P) : Prop :=
  match y.drv.pc with
  | .fetch => True
  | .dispatch p => 0 < y.drv.recvQ.len ∧ ∃ e ∈ y.hist.pend.head?, hold e.1 = some p
  | .alloc => 0 < y.drv.recvQ.len ∧ ∃ e ∈ y.hist.pend.head?, Recorded pool hold y.drv e.1
  | .pop p => 0 < y.drv.recvQ.len ∧ ∃ e ∈ y.hist.pend.head?, hold e.1 = some p ∧ Recorded pool hold y.drv e.1
  | .setPbuf p j => ∃ e ∈ y.hist.pend.head?, hold e.1 = some p ∧ j = slotBit e.1
  | .setAdr p j =>
    ∃ e ∈ y.hist.pend.head?, hold e.1 = some p ∧ j = slotBit e.1 ∧ y.drv.dmaBdPbuf e.1.toNat = some p
  | .clr j => ∃ e ∈ y.hist.pend.head?, j = slotBit e.1 ∧ Armed pool hold y.drv e.1

/-- Ownership of the slots; `hold k` is the pbuf the driver has for slot `k`, `g` says that the packet
of the oldest slot was given away, and `n` slots have been taken out of `recv_q` and not yet cleared. -/
structure Owns (g : Bool) (n : Nat) (y : RxPath P) : Prop where
  wf : y.drv.recvQ.Wf
  mask : ∃ k, y.drv.mask = slotBit k ∧ y.drv.maskIdx = k.toNat
  ring : y.drv.ring.Holds y.hist.pend y.drv.target.isSome
  target : ∀ a, y.drv.target = some a → a = y.drv.rxBdAdr y.drv.ring.rxBdIdx
  given_le : g.toNat ≤ y.hist.pend.length
  le : n + y.drv.recvQ.len ≤ y.hist.pend.length
  entries : y.drv.recvQ.toList = ((y.hist.pend.drop n).take y.drv.recvQ.len).map fun e =>
    (y.drv.dmaBdPbuf e.1.toNat, slotBit e.1)
  armed : ∀ k, (g = true → ∀ e ∈ y.hist.pend.head?, e.1 ≠ k) → Armed pool hold y.drv k
  own : ∀ k p, hold k = some p → y.drv.owner p = .driver
  inj : ∀ k k' p, hold k = some p → hold k' = some p → k = k'
  contents : ∀ e ∈ y.hist.pend.drop g.toNat, y.drv.buf (y.drv.rxBdAdr e.1) = some e.2
  history : ∃ done, y.hist.published = done ++ y.hist.pend.map Prod.snd ∧
    y.hist.handled = done ++ (y.hist.pend.take g.toNat).map Prod.snd
  passed : y.hist.passed = y.hist.handled.filter Frame.passesUp
  handed : ∀ p ∈ y.hist.handed, y.drv.owner p ≠ .driver

/-- The invariant. -/
structure Inv (y : RxPath P) : Prop where
  owns : Owns pool hold y.drv.pc.given y.drv.pc.popped y
  loc : Local pool hold y

end RxPath

end Picorv32Soc
