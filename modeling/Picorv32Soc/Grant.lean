import Picorv32Soc.Proofs.PhaseStep

/-!
# Direction and address at the grant

`STATE_ABUS` registers `heap_addr` from the value `tx_sta_valid` has in that cycle; the branch to
`STATE_READ` or `STATE_WRITE` is taken one cycle later, on the value it has then. The two agree unless
something happens in the one cycle in which `mux_heap` grants the bus: a store that sets `tx_BD_sta`,
a store to the address of the next slot, or a publication.
-/

namespace Picorv32Soc.Heap

variable {h : Heap} {i : HeapIn}

/-- The driver's protocol for transmissions: the descriptor is left alone while the request is pending,
and `tx_BD_sta` is only ever set. -/
structure TxProtocol (i : HeapIn) (h : Heap) : Prop where
  desc : h.dmac.regs.store i.mem = true → Dmac.Regs.group i.mem = 4 ∨ Dmac.Regs.group i.mem = 5 →
    Dmac.Regs.slot i.mem = 0 → h.dmac.txStaValid = false
  sta : h.dmac.regs.store i.mem = true → Dmac.Regs.sel i.mem = 0x33 → i.mem.wdata.setWidth 8 ≠ 0#8

/-- `mux_heap` grants the bus at this edge. -/
def Granting (i : HeapIn) (h : Heap) : Prop :=
  h.dmac.cur = .abus ∧ h.mux.busReady = false ∧ i.cpu.valid = false

/-- Nothing that decides about direction and address changes at an edge that grants the bus without a
transmit request: `tx_BD_sta` and `rx_BD_adr[rx_BD_idx]` are not stored to, no slot is published. -/
structure GrantClean (i : HeapIn) (h : Heap) : Prop where
  noTx : Granting i h → h.dmac.txStaValid = false →
    ¬ (h.dmac.regs.store i.mem = true ∧ Dmac.Regs.sel i.mem = 0x33)
  noAdr : Granting i h → h.dmac.txStaValid = false →
    ¬ (h.dmac.regs.store i.mem = true ∧ Dmac.Regs.group i.mem = 2 ∧ Dmac.Regs.slot i.mem = h.dmac.ring.rxBdIdx)
  noPublish : Granting i h → h.dmac.txStaValid = false →
    ¬ (h.dmac.rxEnd = true ∧ h.dmac.filter.dropFrame = false)

/-- In the cycle in which `STATE_READ` or `STATE_WRITE` first becomes the next state, the registered
address (and length) are those of the descriptor the state is about. -/
structure GrantOk (h : Heap) : Prop where
  read : h.dmac.cur ≠ .read → h.nxtState = .read →
    h.dmac.out.heapAddr = h.dmac.regs.txBdAdr 0 ∧ h.dmac.out.bdFrameLen = h.dmac.regs.txBdLen 0
  write : h.dmac.cur ≠ .write → h.nxtState = .write →
    h.dmac.out.heapAddr = h.dmac.regs.rxBdAdr h.dmac.ring.rxBdIdx

/-- While the granted bus is not used yet, `heap_addr` is the address of what will be done. -/
structure GrantInv (h : Heap) : Prop where
  quiet : h.dmac.cur = .idle ∨ h.dmac.cur = .wait → h.dmac.out.busValid = false
  txStaReady : h.dmac.cur = .abus → h.dmac.out.txStaReady = false
  txBdIdx : h.dmac.ring.txBdIdx = 0
  read : h.dmac.cur = .abus → h.mux.busReady = true → h.dmac.txStaValid = true →
    h.dmac.out.heapAddr = h.dmac.regs.txBdAdr 0 ∧ h.dmac.out.bdFrameLen = h.dmac.regs.txBdLen 0
  write : h.dmac.cur = .abus → h.mux.busReady = true → h.dmac.txStaValid = false →
    h.dmac.out.heapAddr = h.dmac.regs.rxBdAdr h.dmac.ring.rxBdIdx

theorem GrantInv.granting (w : GrantInv h) (hn : h.nxtState = .abus) (hr : (step i h).mux.busReady = true) :
    Granting i h := by
  rcases of_nxtState_abus hn with ⟨hc, -⟩ | ⟨hc, hb⟩
  · rw [step_busReady_released h i (w.quiet (.inr hc))] at hr
    cases hr
  · exact ⟨hc, hb, (step_busReady_granted h i hb hr).2⟩

theorem step_group_eq {g k : BitVec 3} {v : BitVec 3 → BitVec 32}
    (hno : ¬ (h.dmac.regs.store i.mem = true ∧ Dmac.Regs.group i.mem = g ∧ Dmac.Regs.slot i.mem = k)) :
    h.dmac.regs.stepGroup i.mem g v k = v k := by
  unfold Dmac.Regs.stepGroup
  split_ifs with hst
  · simp only [Bool.and_eq_true, beq_iff_eq] at hst
    exact Function.update_of_ne (fun hk => hno ⟨hst.1, hst.2, hk.symm⟩) ..
  · rfl

theorem step_txStaValid (ht : h.dmac.out.txStaReady = false)
    (hno : ¬ (h.dmac.regs.store i.mem = true ∧ Dmac.Regs.sel i.mem = 0x33)) :
    (step i h).dmac.txStaValid = h.dmac.txStaValid := by
  show ((if h.dmac.out.txStaReady then 0 else
    if h.dmac.regs.store i.mem && Dmac.Regs.sel i.mem == 0x33 then i.mem.wdata.setWidth 8
    else h.dmac.regs.txBdSta) != (0 : BitVec 8)) = _
  rw [ht, if_neg Bool.false_ne_true, if_neg (by simpa using hno)]
  rfl

theorem GrantInv.step (w : GrantInv h) (hp : TxProtocol i h) (hg : GrantClean i h) :
    GrantInv (Heap.step i h) := by
  refine ⟨fun hc => ?_, fun hc => ?_, h.dmac.stepRing_txBdIdx, fun hc hr hv => ?_, fun hc hr hv => ?_⟩
  · rw [step_out_quiet h i hc]; rfl
  · rw [step_out_abus h i hc]; rfl
  · -- the request was there already when `heap_addr` was registered
    have hgr := w.granting hc hr
    have hv' : h.dmac.txStaValid = true := by
      by_contra hf
      rw [Bool.not_eq_true] at hf
      rw [step_txStaValid (w.txStaReady hgr.1) (hg.noTx hgr hf), hf] at hv
      cases hv
    have hkeep : ∀ g : BitVec 3, g = 4 ∨ g = 5 →
        ¬ (h.dmac.regs.store i.mem = true ∧ Dmac.Regs.group i.mem = g ∧ Dmac.Regs.slot i.mem = 0) := by
      rintro g hgrp ⟨hst, rfl, hsl⟩
      rw [hp.desc hst hgrp hsl] at hv'
      cases hv'
    rw [step_out_abus h i hc]
    constructor
    · show (if h.dmac.txStaValid then h.dmac.regs.txBdAdr h.dmac.ring.txBdIdx else _) =
        h.dmac.regs.stepGroup i.mem 4 h.dmac.regs.txBdAdr 0
      rw [hv', if_pos rfl, w.txBdIdx, step_group_eq (hkeep 4 (.inl rfl))]
    · show h.dmac.regs.txBdLen h.dmac.ring.txBdIdx = h.dmac.regs.stepGroup i.mem 5 h.dmac.regs.txBdLen 0
      rw [w.txBdIdx, step_group_eq (hkeep 5 (.inr rfl))]
  · have hgr := w.granting hc hr
    have hv' : h.dmac.txStaValid = false := by
      by_contra hf
      rw [Bool.not_eq_false] at hf
      rw [txStaValid_step (fun _ => hp.sta) (w.txStaReady hgr.1) hf] at hv
      cases hv
    have hidx : (Heap.step i h).dmac.ring.rxBdIdx = h.dmac.ring.rxBdIdx := by
      show h.dmac.stepRing.rxBdIdx = _
      rw [Dmac.stepRing_rxBdIdx, if_neg]
      simpa using hg.noPublish hgr hv'
    rw [step_out_abus h i hc, hidx]
    show (if h.dmac.txStaValid then _ else h.dmac.regs.rxBdAdr h.dmac.ring.rxBdIdx) =
      h.dmac.regs.stepGroup i.mem 2 h.dmac.regs.rxBdAdr h.dmac.ring.rxBdIdx
    rw [hv', step_group_eq (hg.noAdr hgr hv')]
    rfl

theorem GrantInv.grantOk (w : GrantInv h) : GrantOk h := by
  constructor
  · intro hc hn
    rcases of_nxtState_read hn with ⟨ha, hb, hv⟩ | ⟨e, -⟩
    · exact w.read ha hb hv
    · exact absurd e hc
  · intro hc hn
    rcases of_nxtState_write hn with ⟨ha, hb, hv⟩ | ⟨e, -⟩
    · exact w.write ha hb hv
    · exact absurd e hc

theorem run_grantInv {inp : Nat → HeapIn} {sched : List (Nat × Frame)} (hr : h.AfterReset sched)
    (hp : ∀ t, TxProtocol (inp t) (run inp h t)) (hg : ∀ t, GrantClean (inp t) (run inp h t)) :
    ∀ t, GrantInv (run inp h t) := by
  obtain ⟨hc, ho, -, -, hring, -⟩ := hr.quiet
  have h0 : GrantInv h := by
    refine ⟨fun _ => by rw [ho]; rfl, fun _ => by rw [ho]; rfl, by rw [hring]; rfl, fun hc' => ?_, fun hc' => ?_⟩
    all_goals rw [hc] at hc'; cases hc'
  exact Clocked.run_inv h0 fun t w => w.step (hp t) (hg t)

/-- **Direction and address agree** in every state of a run, for any stream, as long as every edge that
grants the bus is clean. -/
theorem grant_agrees {inp : Nat → HeapIn} {sched : List (Nat × Frame)} (hr : h.AfterReset sched)
    (hp : ∀ t, TxProtocol (inp t) (run inp h t)) (hg : ∀ t, GrantClean (inp t) (run inp h t)) :
    ∀ t, GrantOk (run inp h t) :=
  fun t => (run_grantInv hr hp hg t).grantOk

/-- With frames two idle cycles apart no slot is published while the bus is asked for. -/
theorem Ctl.rxEnd_abus {st : Stage} (c : Ctl st h) (hc : h.dmac.cur = .abus) : h.dmac.rxEnd = false := by
  obtain rfl := c.phase.of_abus hc
  simp [Dmac.rxEnd, (show Asking h from c.phase).rx.treadyM2]

/-- The descriptors are programmed, the controller is switched on, and a frame is requested to be sent
in cycle `t₀`. -/
def sendAt (t₀ t : Nat) : HeapIn :=
  if t = 0 then ⟨.idle, .store 0x80000040 0x00010100⟩
  else if t = 2 then ⟨.idle, .store 0x80000080 0x00010800⟩
  else if t = 4 then ⟨.idle, .store 0x800000a0 60⟩
  else if t = 6 then ⟨.idle, .store 0x800000c0 1⟩
  else if t = t₀ then ⟨.idle, .store 0x800000cc 1⟩
  else ⟨.idle, .idle⟩

/-- A frame that arrives in cycle 11. -/
def oneFrame : List (Nat × Frame) := [(10, .ofWords (List.replicate 14 0xffffffff) 0xffffffff)]

theorem sendAt_txSta {t₀ t : Nat} (hsel : Dmac.Regs.sel (sendAt t₀ t).mem = 0x33) :
    t = t₀ ∧ (sendAt t₀ t).mem.wdata.setWidth 8 ≠ 0#8 := by
  unfold sendAt at hsel ⊢
  split_ifs at hsel ⊢ with h0 h2 h4 h6 ht <;> first | exact absurd hsel (by decide) | exact ⟨ht, by decide⟩

theorem sendAt_txProtocol {t₀ : Nat} (ht₀ : t₀ = 12 ∨ t₀ = 13) (t : Nat) :
    TxProtocol (sendAt t₀ t) (run (sendAt t₀) (start oneFrame) t) := by
  refine ⟨fun _ hgrp _ => ?_, fun _ hsel => (sendAt_txSta hsel).2⟩
  have ht : t = 2 ∨ t = 4 := by
    unfold sendAt at hgrp
    split_ifs at hgrp with h0 h2 h4 h6 h8 <;> first | exact .inl h2 | exact .inr h4 | exact absurd hgrp (by decide)
  rcases ht with rfl | rfl <;> rcases ht₀ with rfl | rfl <;> decide +kernel

theorem grant_agrees_sent_late :
    (run (sendAt 13) (start oneFrame) 13).nxtState = .write ∧ ∀ t, GrantOk (run (sendAt 13) (start oneFrame) t) := by
  have hctl : ∀ t, ∃ st, Ctl st (run (sendAt 13) (start oneFrame) t) :=
    run_ctl (start_afterReset oneFrame) (by decide) fun t _ _ hsel => (sendAt_txSta hsel).2
  refine ⟨by decide +kernel, grant_agrees (start_afterReset oneFrame) (sendAt_txProtocol (.inr rfl)) fun t => ?_⟩
  refine ⟨fun hgr _ hst => ?_, fun hgr _ hst => ?_, fun hgr _ hend => ?_⟩
  · obtain ⟨rfl, -⟩ := sendAt_txSta hst.2
    exact absurd hgr.2.1 (by decide +kernel)
  · have ht : t = 0 := by
      have hgrp := hst.2.1
      unfold sendAt at hgrp
      split_ifs at hgrp with h0 <;> first | exact h0 | exact absurd hgrp (by decide)
    subst ht
    exact absurd hgr.1 (by decide +kernel)
  · obtain ⟨st, c⟩ := hctl t
    rw [c.rxEnd_abus hgr.1] at hend
    cases hend.1

/-- The request is stored in the cycle in which the bus is granted for the frame: `STATE_READ` is
entered with the address of the receive buffer. -/
theorem request_at_grant_reads_rx_buffer :
    (∀ t, TxProtocol (sendAt 12 t) (run (sendAt 12) (start oneFrame) t)) ∧
      (run (sendAt 12) (start oneFrame) 13).nxtState = .read ∧
      (run (sendAt 12) (start oneFrame) 13).dmac.out.heapAddr = 0x00010100 ∧
      (run (sendAt 12) (start oneFrame) 13).dmac.regs.txBdAdr 0 = 0x00010800 ∧
      ¬ GrantOk (run (sendAt 12) (start oneFrame) 13) := by
  have hn : (run (sendAt 12) (start oneFrame) 13).nxtState = .read := by decide +kernel
  have ha : (run (sendAt 12) (start oneFrame) 13).dmac.out.heapAddr = 0x00010100 := by decide +kernel
  have ht : (run (sendAt 12) (start oneFrame) 13).dmac.regs.txBdAdr 0 = 0x00010800 := by decide +kernel
  refine ⟨sendAt_txProtocol (.inl rfl), hn, ha, ht, fun w => ?_⟩
  have := (w.read (by decide +kernel) hn).1
  rw [ha, ht] at this
  exact absurd this (by decide)

end Picorv32Soc.Heap
