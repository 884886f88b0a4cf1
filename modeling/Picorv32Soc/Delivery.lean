import Picorv32Soc.Proofs.RxPathStep

/-!
# What the receive path delivers

From `dma_init` on, along every interleaving of the controller, `dma_rx_irq` and `ethernetif_input` in
which `dma_rx_irq` runs in order (`IrqInOrder`), the driver keeps its buffers apart (`Owned`) and lwIP
sees the IP and ARP frames in the order of their reception, each once (`Delivers`).

Without that condition neither holds: the status bit of a slot stays set until `ethernetif_input` is
done with it, and an interrupt in between enqueues the slot once more.
-/

namespace Picorv32Soc
open Bits

namespace RxPath
variable {P : Type*} {pool : Pool P} {ps : BitVec 3 → P} {hold : BitVec 3 → Option P} {y : RxPath P}

/-- The frames handled are those published, in order, up to the slots not yet cleared; the IP and ARP
frames among them were passed up. -/
structure Delivers (y : RxPath P) : Prop where
  handled : y.hist.handled <+: y.hist.published
  passed : y.hist.passed = y.hist.handled.filter Frame.passesUp
  all : y.drv.ring.rxBdSta = 0 → y.hist.handled = y.hist.published

/-- The controller may write at `a`: it does so now, or the next reception can go there. -/
def MayWrite (s : Driver P) (a : BitVec 32) : Prop :=
  s.target = some a ∨
    ∃ k, a = s.rxBdAdr k ∧
      (s.ring.rxBdSta.getLsbD k.toNat = false ∨ k = s.ring.rxBdIdx ∧ s.ring.rxBdStaR ≠ 0xff)

/-- Slot, mask, queue entry and address register agree, and no packet in use is written. -/
structure Owned (pool : Pool P) (y : RxPath P) : Prop where
  entry : ∀ x ∈ y.drv.recvQ.toList, ∃ k p, x = (some p, slotBit k) ∧
    y.drv.ring.rxBdSta.getLsbD k.toNat = true ∧ y.drv.dmaBdPbuf k.toNat = some p ∧
    y.drv.rxBdAdr k = pool.payload p
  nodup : (y.drv.recvQ.toList.map Prod.fst).Nodup
  target : ∀ p, some p ∈ y.drv.recvQ.toList.map Prod.fst ∨ p ∈ y.hist.handed →
    ∀ a, MayWrite y.drv a → a ≠ pool.payload p

/-! ### From the invariant -/

namespace Inv

theorem delivers (w : Inv pool hold y) : y.Delivers := by
  have o := w.owns
  obtain ⟨done, hpub, hhan⟩ := o.history
  refine ⟨?_, o.passed, fun h0 => ?_⟩
  · rw [hpub, hhan, List.prefix_append_right_inj, List.map_take]
    exact List.take_prefix ..
  · have hnil : y.hist.pend = [] := by
      cases hp : y.hist.pend with
      | nil => rfl
      | cons e l =>
        have := o.ring.sta e.1
        rw [h0, hp] at this
        simp at this
    rw [hpub, hhan, hnil, List.take_nil]

theorem recorded (w : Inv pool hold y) {e : BitVec 3 × Frame} (he : e ∈ y.hist.pend.drop y.drv.pc.popped) :
    Recorded pool hold y.drv e.1 := by
  have o := w.owns
  have of_armed : Armed pool hold y.drv e.1 → Recorded pool hold y.drv e.1 := fun ⟨p, hp, hb, ha⟩ =>
    ⟨p, hb, ha, fun k hk h => hk (o.inj k e.1 p h hp)⟩
  have l := w.loc
  unfold Local at l
  cases hpc : y.drv.pc with
  | fetch | dispatch | setPbuf | setAdr | clr =>
    rw [hpc] at he o
    exact of_armed (o.armed_of_mem he)
  | alloc | pop =>
    rw [hpc] at he o l
    -- the oldest slot is still in the queue, though its packet was given away
    obtain ⟨-, x, hx, hl⟩ := l
    by_cases hex : x.1 = e.1
    · rw [← hex]
      first | exact hl | exact hl.2
    · refine of_armed (o.armed e.1 fun _ x' hx' => ?_)
      rwa [Option.mem_unique hx' hx]

theorem dmaBdPbuf_ne (w : Inv pool hold y) {e x : BitVec 3 × Frame} (he : e ∈ y.hist.pend.drop y.drv.pc.popped)
    (hx : x ∈ y.hist.pend.drop y.drv.pc.popped) (hne : e.1 ≠ x.1) :
    y.drv.dmaBdPbuf e.1.toNat ≠ y.drv.dmaBdPbuf x.1.toNat := by
  obtain ⟨p, hb, -, hp⟩ := w.recorded he
  obtain ⟨p', hb', -, hp'⟩ := w.recorded hx
  rw [hb, hb']
  intro h
  obtain rfl := Option.some.inj h
  -- only the oldest slot may be without a pbuf of its own, so one of the two is armed
  by_cases hhead : ∀ z ∈ y.hist.pend.head?, z.1 ≠ x.1
  · obtain ⟨q, hq, hbq, -⟩ := w.owns.armed x.1 fun _ => hhead
    obtain rfl : p = q := Option.some.inj (hb'.symm.trans hbq)
    exact hp x.1 hne.symm hq
  · push Not at hhead
    obtain ⟨z, hz, hzx⟩ := hhead
    obtain ⟨q, hq, hbq, -⟩ := w.owns.armed e.1 fun _ z' hz' => by
      rw [Option.mem_unique hz' hz, hzx]; exact hne.symm
    obtain rfl : p = q := Option.some.inj (hb.symm.trans hbq)
    exact hp' e.1 hne hq

theorem armed_of_mayWrite (w : Inv pool hold y) {a : BitVec 32} (h : MayWrite y.drv a) :
    ∃ k, k ∉ y.hist.pend.map Prod.fst ∧ Armed pool hold y.drv k ∧ a = y.drv.rxBdAdr k := by
  have o := w.owns
  have next : y.hist.pend.length < 8 → y.drv.ring.rxBdIdx ∉ y.hist.pend.map Prod.fst ∧
      Armed pool hold y.drv y.drv.ring.rxBdIdx := fun hlt => ⟨o.ring.idx_not_mem hlt, o.armed_idx hlt⟩
  rcases h with ht | ⟨k, rfl, hk | ⟨rfl, hr⟩⟩
  · obtain ⟨h1, h2⟩ := next (o.ring.room (by rw [ht]; rfl))
    exact ⟨_, h1, h2, o.target a ht⟩
  · have hmem : k ∉ y.hist.pend.map Prod.fst := by
      rw [o.ring.sta] at hk
      exact of_decide_eq_false hk
    refine ⟨k, hmem, o.armed k fun _ e he h => hmem ?_, rfl⟩
    rw [← h]; exact List.mem_map_of_mem (List.mem_of_mem_head? he)
  · obtain ⟨h1, h2⟩ := next (Nat.lt_of_le_of_ne o.ring.le fun h8 => hr (o.ring.full h8))
    exact ⟨_, h1, h2, rfl⟩

theorem owned (w : Inv pool hold y) : y.Owned pool := by
  have o := w.owns
  have mem_drop : ∀ {x}, x ∈ y.drv.recvQ.toList → ∃ e ∈ y.hist.pend.drop y.drv.pc.popped,
      x = (y.drv.dmaBdPbuf e.1.toNat, slotBit e.1) := by
    intro x hx
    rw [o.entries] at hx
    obtain ⟨e, he, rfl⟩ := List.mem_map.1 hx
    exact ⟨e, List.mem_of_mem_take he, rfl⟩
  refine ⟨fun x hx => ?_, ?_, fun p hp a ha => ?_⟩
  · obtain ⟨e, he, rfl⟩ := mem_drop hx
    obtain ⟨p, hb, ha, -⟩ := w.recorded he
    refine ⟨e.1, p, by rw [hb], ?_, hb, ha⟩
    rw [o.ring.sta]
    exact decide_eq_true (List.mem_map_of_mem (List.mem_of_mem_drop he))
  · have hnd : (((y.hist.pend.drop y.drv.pc.popped).take y.drv.recvQ.len).map Prod.fst).Nodup :=
      o.ring.nodup.sublist (((List.take_sublist ..).trans (List.drop_sublist ..)).map _)
    have hmap : y.drv.recvQ.toList.map Prod.fst =
        (((y.hist.pend.drop y.drv.pc.popped).take y.drv.recvQ.len).map Prod.fst).map fun k =>
          y.drv.dmaBdPbuf k.toNat := by
      rw [o.entries, List.map_map, List.map_map]; rfl
    rw [hmap]
    refine hnd.map_on fun k hk k' hk' h => ?_
    obtain ⟨e, he, rfl⟩ := List.mem_map.1 hk
    obtain ⟨x, hx, rfl⟩ := List.mem_map.1 hk'
    by_contra hne
    exact w.dmaBdPbuf_ne (List.mem_of_mem_take he) (List.mem_of_mem_take hx) hne h
  · obtain ⟨k, hk, ⟨q, hq, -, haq⟩, rfl⟩ := w.armed_of_mayWrite ha
    rw [haq]
    intro h
    obtain rfl := pool.injective h
    rcases hp with hp | hp
    · obtain ⟨x, hx, hxp⟩ := List.mem_map.1 hp
      obtain ⟨e, he, rfl⟩ := mem_drop hx
      obtain ⟨p, hb, -, hne⟩ := w.recorded he
      obtain rfl : p = q := Option.some.inj (hb.symm.trans hxp)
      exact hne k (fun h => hk (h ▸ List.mem_map_of_mem (List.mem_of_mem_drop he))) hq
    · exact o.handed q hp (o.own k q hq)

end Inv

/-! ### Runs -/

theorem inv_init [DecidableEq P] (hps : Function.Injective ps) : Inv pool (fun k => some (ps k)) (init pool ps) where
  loc := trivial
  owns := {
    wf := Pqueue.wf_create
    mask := ⟨0, rfl, rfl⟩
    ring := Dmac.Ring.holds_reset
    target := nofun
    given_le := le_rfl
    le := le_rfl
    entries := rfl
    armed := fun k _ => ⟨ps k, rfl, by
      show (if k.toNat < 8 then some (ps (BitVec.ofNat 3 k.toNat)) else none) = _
      rw [if_pos k.isLt, BitVec.ofNat_toNat, BitVec.setWidth_eq], rfl⟩
    own := fun k p h => if_pos ⟨k, Option.some.inj h⟩
    inj := fun k k' p h h' => hps (Option.some.inj (h.trans h'.symm))
    contents := nofun
    history := ⟨[], rfl, rfl⟩
    passed := rfl
    handed := nofun }

theorem inv_of_reach [DecidableEq P] (hps : Function.Injective ps)
    (r : Steps.Reach (step pool) Clean (init pool ps) y) : ∃ hold, Inv pool hold y :=
  r.inv (P := fun y => ∃ hold, Inv pool hold y) ⟨_, inv_init hps⟩ fun _ _ _ ⟨_, w⟩ hc hs => w.step hc hs

/-! ### A pool of sixteen pbufs -/

/-- Sixteen pbufs, with buffers of 1700 bytes. -/
def pool16 : Pool (Fin 16) where
  payload := fun i => 0x00010000 + 1700 * BitVec.ofNat 32 i.val
  injective := by
    intro i j
    revert i j
    decide

/-- `dma_init` has been given the first eight of them. -/
def boot : RxPath (Fin 16) := init pool16 fun k => Fin.ofNat 16 k.toNat

theorem boot_injective : Function.Injective fun k : BitVec 3 => Fin.ofNat 16 k.toNat := by
  intro k k'
  revert k k'
  decide

/-- A broadcast frame of 60 bytes; the low half of `w` holds the type field. -/
def frameOfType (w : BitVec 32) : Frame :=
  .ofWords ([0xffffffff, 0x0000ffff, 0, w] ++ List.replicate 10 0) 0

def ipFrame : Frame := frameOfType 0x00000008

def arpFrame : Frame := frameOfType 0x00000608

/-- Type `0x86dd`, which lwIP is not given. -/
def ip6Frame : Frame := frameOfType 0x0000dd86

/-- A frame arrives. -/
def receive (f : Frame) : List (Act (Fin 16)) := [.rxStart, .rxPublish f]

/-- `n` statements of `ethernetif_input`, with `p` for the next packet. -/
def input (p : Fin 16) (n : Nat) : List (Act (Fin 16)) := List.replicate n (.main true (some p))

/-- Every run in which `pbuf_alloc` succeeds. -/
def Any (a : Act P) (y : RxPath P) : Prop := a.allocates y.drv = true

instance (a : Act P) (y : RxPath P) : Decidable (Any a y) := inferInstanceAs (Decidable (_ = _))

/-- **Frames are delivered in order, each once.** -/
theorem delivers_of_reach [DecidableEq P] (hps : Function.Injective ps)
    (r : Steps.Reach (step pool) Clean (init pool ps) y) : y.Delivers := by
  obtain ⟨hold, w⟩ := inv_of_reach hps r
  exact w.delivers

/-- Three frames; the third arrives while the first is being handled. -/
def threeFrames : List (Act (Fin 16)) :=
  receive ip6Frame ++ receive ipFrame ++ [.irq] ++ input 8 3 ++ receive arpFrame ++ input 8 4 ++ input 9 7 ++
    [.irq] ++ input 10 7

theorem delivers_of_reach_threeFrames :
    ∃ y, Steps.Reach (step pool16) Clean boot y ∧ y.hist.published = [ip6Frame, ipFrame, arpFrame] ∧
      y.hist.passed = [ipFrame, arpFrame] ∧ y.Delivers := by
  have hrun : (Steps.exec (step pool16) Clean threeFrames boot).map (fun y => (y.hist.published, y.hist.passed)) =
      some ([ip6Frame, ipFrame, arpFrame], [ipFrame, arpFrame]) := by decide +kernel
  obtain ⟨y, r, hy⟩ := Steps.Reach.of_map_exec _ _ hrun
  obtain ⟨hpub, hpas⟩ := Prod.mk.inj hy
  exact ⟨y, r, hpub, hpas, delivers_of_reach boot_injective r⟩

/-- A frame of another type, and an IP frame. -/
def skipping : List (Act (Fin 16)) := receive ip6Frame ++ receive ipFrame ++ [.irq] ++ input 8 7 ++ input 9 7

/-- One frame, and two interrupts before it is handled. -/
def twoInterrupts : List (Act (Fin 16)) := receive ipFrame ++ [.irq, .irq] ++ input 8 7 ++ input 9 7

/-- An IPv6 frame is not passed up, the IP frame behind it is. And an interrupt between the
publication of a frame and its `rx_BD_clr` passes it up twice. -/
theorem frame_skipped_and_frame_twice :
    (∃ y, Steps.Reach (step pool16) Any boot y ∧ y.hist.published = [ip6Frame, ipFrame] ∧
      y.hist.passed = [ipFrame] ∧ ¬ y.hist.passed <+: y.hist.published) ∧
    ∃ y, Steps.Reach (step pool16) Any boot y ∧ y.hist.published = [ipFrame] ∧
      y.hist.passed = [ipFrame, ipFrame] ∧ ¬ y.hist.passed <+: y.hist.published := by
  constructor
  · have hrun : (Steps.exec (step pool16) Any skipping boot).map (fun y => (y.hist.published, y.hist.passed)) =
        some ([ip6Frame, ipFrame], [ipFrame]) := by decide +kernel
    obtain ⟨y, r, hy⟩ := Steps.Reach.of_map_exec _ _ hrun
    obtain ⟨hpub, hpas⟩ := Prod.mk.inj hy
    exact ⟨y, r, hpub, hpas, by rw [hpub, hpas]; decide⟩
  · have hrun : (Steps.exec (step pool16) Any twoInterrupts boot).map (fun y => (y.hist.published, y.hist.passed)) =
        some ([ipFrame], [ipFrame, ipFrame]) := by decide +kernel
    obtain ⟨y, r, hy⟩ := Steps.Reach.of_map_exec _ _ hrun
    obtain ⟨hpub, hpas⟩ := Prod.mk.inj hy
    exact ⟨y, r, hpub, hpas, by rw [hpub, hpas]; decide⟩

/-- **No buffer has two users.** -/
theorem owned_of_reach [DecidableEq P] (hps : Function.Injective ps)
    (r : Steps.Reach (step pool) Clean (init pool ps) y) : y.Owned pool := by
  obtain ⟨hold, w⟩ := inv_of_reach hps r
  exact w.owned

/-- Two packets are queued, the first is with lwIP, and a third frame is on its way. -/
theorem owned_of_reach_given :
    ∃ y, Steps.Reach (step pool16) Clean boot y ∧ y.drv.recvQ.toList = [(some 0, 1), (some 1, 2)] ∧
      y.hist.handed = [0] ∧ y.drv.target = some (pool16.payload 2) ∧ y.Owned pool16 := by
  have hrun : (Steps.exec (step pool16) Clean
      (receive ipFrame ++ receive arpFrame ++ [.irq] ++ input 8 3 ++ [.rxStart]) boot).map
        (fun y => (y.drv.recvQ.toList, y.hist.handed, y.drv.target)) =
      some ([(some 0, 1), (some 1, 2)], [0], some (pool16.payload 2)) := by decide +kernel
  obtain ⟨y, r, hy⟩ := Steps.Reach.of_map_exec _ _ hrun
  obtain ⟨hq, hy⟩ := Prod.mk.inj hy
  obtain ⟨hh, ht⟩ := Prod.mk.inj hy
  exact ⟨y, r, hq, hh, ht, owned_of_reach boot_injective r⟩

/-- Two interrupts in a row enqueue the only packet twice. -/
theorem pbuf_queued_twice :
    ∃ y, Steps.Reach (step pool16) Any boot y ∧ y.drv.recvQ.toList = [(some 0, 1), (some 0, 1)] ∧
      ¬ y.Owned pool16 := by
  have hrun : (Steps.exec (step pool16) Any (receive ipFrame ++ [.irq, .irq]) boot).map
      (fun y => y.drv.recvQ.toList) = some [(some 0, 1), (some 0, 1)] := by decide +kernel
  obtain ⟨y, r, hq⟩ := Steps.Reach.of_map_exec _ _ hrun
  refine ⟨y, r, hq, fun w => ?_⟩
  have := w.nodup
  rw [hq] at this
  exact absurd this (by decide)

end RxPath

end Picorv32Soc
