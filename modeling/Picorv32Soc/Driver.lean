import Picorv32Soc.Pqueue
import Picorv32Soc.RxRing
import Picorv32Soc.Steps

/-!
# The receive driver

The receive path of the firmware (`riscvdma.c`, `riscvnetif.c`) beside the receive ring of `DMAC`, as a
step system: the controller starts, publishes or drops a reception, `dma_rx_irq` runs as one step, and
the main loop takes one statement of `ethernetif_input` at a time. lwIP is the environment: what
`pbuf_alloc` and `netif->input` return is part of the action, and a packet handed to it may be freed
at any later time.

Of the packet memory only what the receive path looks at is kept: for each buffer address the frame
that was received into it last, and for each pbuf its owner and its `tot_len`.
-/

namespace Picorv32Soc
open Bits

/-- `htons(ethhdr->type)` of a received frame. -/
def Frame.etherType (f : Frame) : BitVec 16 := f.byte 12 ++ f.byte 13

/-- `ETHTYPE_IP` or `ETHTYPE_ARP`. -/
def Frame.passesUp (f : Frame) : Bool := f.etherType == 0x0800 || f.etherType == 0x0806

/-- The pbufs of lwIP's pool. No two of them share a payload buffer. -/
structure Pool (P : Type*) where
  payload : P → BitVec 32
  injective : Function.Injective payload

/-- Who may use a pbuf. -/
inductive Owner
  | free | driver | stack
deriving DecidableEq, Repr

/-- The next statement of `ethernetif_input`, with the live local variables. -/
inductive Pc (P : Type*)
  /-- `p = low_level_input(netif)` -/
  | fetch
  /-- `switch (htons(ethhdr->type))` -/
  | dispatch (p : P)
  /-- `p = pbuf_alloc(PBUF_RAW, 1500, PBUF_POOL)` -/
  | alloc
  /-- `k = pq_qindex(mymac_s->recv_q)` -/
  | pop (p : P)
  /-- `dma_bd_pbuf[i] = p`, after the loop that looks for `i` -/
  | setPbuf (p : P) (j : BitVec 32)
  /-- `rx_BD_adr[i] = p->payload` -/
  | setAdr (p : P) (j : BitVec 32)
  /-- `rx_BD_clr = j` -/
  | clr (j : BitVec 32)

/-- The state of the receive path. -/
structure Driver (P : Type*) where
  ring : Dmac.Ring
  rxBdAdr : BitVec 3 → BitVec 32
  /-- `heap_addr` of the reception in progress -/
  target : Option (BitVec 32)
  buf : BitVec 32 → Option Frame
  owner : P → Owner
  totLen : P → Nat
  recvQ : Pqueue P
  dmaBdPbuf : Nat → Option P
  mask : BitVec 32
  maskIdx : Nat
  pc : Pc P

/-- What happens next. -/
inductive Act (P : Type*)
  /-- `DMAC` starts a reception -/
  | rxStart
  /-- the reception is over and `f` was for this board -/
  | rxPublish (f : Frame)
  /-- the reception is over and `f` was not -/
  | rxDrop (f : Frame)
  /-- `dma_rx_irq` runs -/
  | irq
  /-- lwIP frees a pbuf it was handed -/
  | stackFree (p : P)
  /-- the next statement of `ethernetif_input`: `inputOk` is whether `netif->input` returns `ERR_OK`,
  `new` what `pbuf_alloc` returns -/
  | main (inputOk : Bool) (new : Option P)

namespace Driver
variable {P : Type*} [DecidableEq P] (pool : Pool P)

/-! ### Initialisation -/

/-- `dma_init` with `pbuf_alloc` returning the pbufs `ps`, on a controller after reset. -/
def dmaInit (ps : BitVec 3 → P) : Driver P where
  ring := Dmac.Ring.reset
  rxBdAdr := fun k => pool.payload (ps k)
  target := none
  buf := fun _ => none
  owner := fun p => if ∃ k, ps k = p then .driver else .free
  totLen := fun _ => 1500
  recvQ := .create
  dmaBdPbuf := fun i => if i < 8 then some (ps (BitVec.ofNat 3 i)) else none
  mask := 1
  maskIdx := 0
  pc := .fetch

/-! ### The controller -/

/-- A reception starts when a slot is free: `heap_addr` is loaded, the slot is taken. -/
def rxStart (s : Driver P) : Option (Driver P) :=
  if s.ring.rxBdStaR ≠ 0xff ∧ s.target = none then
    some { s with target := some (s.rxBdAdr s.ring.rxBdIdx), ring := s.ring.reserve }
  else none

/-- The frame has landed in the buffer. It does so whether it is dropped or not. -/
def land (s : Driver P) (f : Frame) (a : BitVec 32) : Driver P :=
  { s with target := none, buf := Function.update s.buf a (some f) }

def rxPublish (s : Driver P) (f : Frame) : Option (Driver P) :=
  s.target.map fun a => { s.land f a with ring := s.ring.publish (BitVec.ofNat 32 f.nbytes) }

def rxDrop (s : Driver P) (f : Frame) : Option (Driver P) :=
  s.target.map fun a => { s.land f a with ring := s.ring.drop }

/-! ### `dma_rx_irq` -/

/-- `pbuf_realloc`: shrinks a packet, and never extends it. -/
def pbufRealloc (totLen : P → Nat) (p : Option P) (newLen : Nat) : P → Nat :=
  match p with
  | none => totLen
  | some p => Function.update totLen p (min newLen (totLen p))

/-- `MASK` and `MASK_idx` move on to the next slot. -/
def rotate (s : Driver P) : Driver P :=
  if s.mask = 0x80 then { s with mask := 1, maskIdx := 0 }
  else { s with mask := s.mask <<< 1, maskIdx := s.maskIdx + 1 }

/-- The body of the loop. The pbuf is looked up by the loop variable, the status bit by `MASK`; the
length handed on is the *address* of the length register, cut to 16 bits. -/
def irqBody (bdState : BitVec 32) (i : Nat) (s : Driver P) : Driver P :=
  let s :=
    if bdState &&& s.mask = s.mask then
      let p := s.dmaBdPbuf i
      { s with
        totLen := pbufRealloc s.totLen p ((0x80000060 + 4 * s.maskIdx) % 2 ^ 16)
        recvQ := (s.recvQ.enqueue p s.mask).2 }
    else s
  s.rotate

/-- The first `n` rounds of the loop. -/
def irqLoop (bdState : BitVec 32) : Nat → Driver P → Driver P
  | 0, s => s
  | i + 1, s => irqBody bdState i (irqLoop bdState i s)

def dmaRxIrq (s : Driver P) : Driver P :=
  irqLoop (s.ring.rxBdSta.setWidth 32) (8 - s.recvQ.qlength) s

/-! ### `ethernetif_input` -/

def lowLevelInput (s : Driver P) : Option P := if s.recvQ.qlength = 0 then none else s.recvQ.dequeue

/-- The loop that looks for the slot of a mask, with `n` rounds left; `8` when it finds none. -/
def findSlot (k : BitVec 32) : Nat → Nat
  | 0 => 8
  | n + 1 => if k &&& 1 = 1 then 8 - (n + 1) else findSlot (k >>> 1) n

/-- The frame at `p->payload` is handed to `netif->input`: its type is IP or ARP. -/
def handsUp (s : Driver P) (p : P) : Bool := (s.buf (pool.payload p)).any Frame.passesUp

/-- The next statement of `ethernetif_input`. `pbuf_alloc` returns a pbuf nobody uses. -/
def main (inputOk : Bool) (new : Option P) (s : Driver P) : Option (Driver P) :=
  match s.pc with
  | .fetch =>
    match s.lowLevelInput with
    | none => some s
    | some p => some { s with pc := .dispatch p }
  | .dispatch p =>
    -- a packet that is not handed up, or is refused, is freed
    let next := if s.handsUp pool p && inputOk then Owner.stack else Owner.free
    some { s with owner := Function.update s.owner p next, pc := .alloc }
  | .alloc =>
    match new with
    | none => some { s with pc := .fetch }
    | some p =>
      if s.owner p = .free then
        some { s with
          owner := Function.update s.owner p .driver
          totLen := Function.update s.totLen p 1500
          pc := .pop p }
      else none
  | .pop p => some { s with recvQ := s.recvQ.qindex.2, pc := .setPbuf p s.recvQ.qindex.1 }
  | .setPbuf p j => some { s with dmaBdPbuf := Function.update s.dmaBdPbuf (findSlot j 8) (some p), pc := .setAdr p j }
  | .setAdr p j =>
    -- behind `rx_BD_adr_7` lies `rx_BD_len_0`, which ignores stores
    let adr :=
      if findSlot j 8 < 8 then Function.update s.rxBdAdr (BitVec.ofNat 3 (findSlot j 8)) (pool.payload p)
      else s.rxBdAdr
    some { s with rxBdAdr := adr, pc := .clr j }
  | .clr j => some { s with ring := s.ring.clear (j.setWidth 8), pc := .fetch }

/-! ### Steps -/

def step (a : Act P) (s : Driver P) : Option (Driver P) :=
  match a with
  | .rxStart => s.rxStart
  | .rxPublish f => s.rxPublish f
  | .rxDrop f => s.rxDrop f
  | .irq => if s.ring.rxBdSta ≠ 0 then some s.dmaRxIrq else none
  | .stackFree p => if s.owner p = .stack then some { s with owner := Function.update s.owner p .free } else none
  | .main inputOk new => s.main pool inputOk new

/-! What an action that is taken needs, and does. -/

section
variable {pool} {s s' : Driver P} {p : P}

omit [DecidableEq P] in
theorem of_rxStart (h : s.rxStart = some s') :
    (s.ring.rxBdStaR ≠ 0xff ∧ s.target = none) ∧
      s' = { s with target := some (s.rxBdAdr s.ring.rxBdIdx), ring := s.ring.reserve } := by
  obtain ⟨hc, h⟩ := Option.ite_none_right_eq_some.1 h
  exact ⟨hc, (Option.some.inj h).symm⟩

theorem of_irq (h : s.step pool .irq = some s') : s' = s.dmaRxIrq := by
  obtain ⟨-, h⟩ := Option.ite_none_right_eq_some.1 h
  exact (Option.some.inj h).symm

theorem of_stackFree (h : s.step pool (.stackFree p) = some s') :
    s.owner p = .stack ∧ s' = { s with owner := Function.update s.owner p .free } := by
  obtain ⟨hc, h⟩ := Option.ite_none_right_eq_some.1 h
  exact ⟨hc, (Option.some.inj h).symm⟩

end

end Driver

/-- What an observer of the receive path has seen. -/
structure RxHistory (P : Type*) where
  /-- the frames published, in order -/
  published : List Frame
  /-- the slots published and not yet cleared -/
  pend : SlotQueue
  /-- the frames that reached the `switch` of `ethernetif_input`, in order -/
  handled : List Frame
  /-- the frames passed to `netif->input`, in order -/
  passed : List Frame
  /-- the pbufs passed to `netif->input` and not returned by `pbuf_alloc` since -/
  handed : List P

namespace RxHistory
variable {P : Type*} [DecidableEq P] (pool : Pool P)

def empty : RxHistory P := ⟨[], [], [], [], []⟩

def observe (a : Act P) (s : Driver P) (y : RxHistory P) : RxHistory P :=
  match a with
  | .rxPublish f => { y with published := y.published ++ [f], pend := y.pend ++ [(s.ring.rxBdIdx, f)] }
  | .main _ new =>
    match s.pc, new with
    | .dispatch p, _ =>
      let f := (s.buf (pool.payload p)).toList
      { y with
        handled := y.handled ++ f
        passed := y.passed ++ f.filter Frame.passesUp
        handed := if s.handsUp pool p then p :: y.handed else y.handed }
    | .alloc, some p => { y with handed := y.handed.filter (· ≠ p) }
    | .clr j, _ => { y with pend := y.pend.filter fun e => !(j.setWidth 8).getLsbD e.1.toNat }
    | _, _ => y
  | _ => y

end RxHistory

/-- The receive path with its observer. -/
structure RxPath (P : Type*) where
  drv : Driver P
  hist : RxHistory P

namespace RxPath
variable {P : Type*} [DecidableEq P] (pool : Pool P)

def init (ps : BitVec 3 → P) : RxPath P := ⟨.dmaInit pool ps, .empty⟩

def step (a : Act P) (y : RxPath P) : Option (RxPath P) :=
  (y.drv.step pool a).map fun s => ⟨s, y.hist.observe pool a y.drv⟩

end RxPath

/-- Not a `pbuf_alloc` that fails. -/
def Act.allocates {P : Type*} (a : Act P) (s : Driver P) : Bool :=
  match a, s.pc with
  | .main _ none, .alloc => false
  | _, _ => true

def Act.isIrq {P : Type*} : Act P → Bool
  | .irq => true
  | _ => false

end Picorv32Soc
