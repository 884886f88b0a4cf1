import Picorv32Soc.Heap

/-!
# Phases of the heap subsystem

What the registers hold in each phase of the controller, as long as consecutive frames of the stream
are two idle cycles apart (`RxSource.Spaced`) and software does not withdraw a transmit request
(`Heap.KeepsRequest`). A reception of a frame of `n` beats runs through `Writing f a 1`, ...,
`Writing f a (n + 3)`: every register is a function of the phase number, and the numbers that appear
in the fields are the depths of the pipelines. `Stage.Next` lists where an edge leads; with `Ctl.step`
every state after reset is in one of the phases.
-/

namespace Picorv32Soc

/-- Consecutive frames are at least two idle cycles apart. While a frame is on the outputs that is
what `pending` says; between frames the first entry is already counting down. -/
structure RxSource.Spaced (s : RxSource) : Prop where
  queued : s.tvalid = true → ∀ p ∈ s.pending, 2 ≤ p.1
  later : ∀ p ∈ s.pending.tail, 2 ≤ p.1

/-- The frame on the outputs, if there is one, has not been touched. -/
def RxSource.Fresh (s : RxSource) : Prop := s.tvalid = true → s.pos = 0

/-- No copy of `rx_axis_tready` is set. -/
structure Dmac.RxQuiet (d : Dmac) : Prop where
  tready : d.out.rxAxisTready = false
  treadyM : d.pipe.rxAxisTreadyM = false
  treadyM2 : d.pipe.rxAxisTreadyM2 = false
  treadyM3 : d.pipe.rxAxisTreadyM3 = false

namespace Heap

/-- The edge does not withdraw a pending transmit request: `tx_BD_sta` is not set back to 0 by a store. -/
def KeepsRequest (i : HeapIn) (h : Heap) : Prop :=
  h.dmac.txStaValid = true → h.dmac.regs.store i.mem = true → Dmac.Regs.sel i.mem = 0x33 →
    i.mem.wdata.setWidth 8 ≠ 0#8

/-- `STATE_IDLE` or `STATE_WAIT`: nothing is going on. -/
structure Resting (h : Heap) : Prop where
  cur : h.dmac.cur = .idle ∨ h.dmac.cur = .wait
  out : h.dmac.out = Dmac.Out.quiet
  rx : h.dmac.RxQuiet
  fresh : h.src.Fresh

/-- The head frame has been on the outputs long enough for the delayed copies to show its first beat:
one cycle when the bus is asked for, two when it is granted. -/
structure FrameWaiting (h : Heap) : Prop where
  tvalid : h.src.tvalid = true
  pos : h.src.pos = 0
  tlastM : h.dmac.pipe.rxAxisTlastM = (h.src.cur.beat 0).tlast
  tdataM : h.dmac.pipe.rxAxisTdataM = (h.src.cur.beat 0).tdata
  tkeepM : h.dmac.pipe.rxAxisTkeepM = (h.src.cur.beat 0).tkeep
  tlastM2 : h.mux.busReady = true → h.dmac.pipe.rxAxisTlastM2 = (h.src.cur.beat 0).tlast
  tdataM2 : h.mux.busReady = true → h.dmac.pipe.rxAxisTdataM2 = (h.src.cur.beat 0).tdata

/-- `STATE_ABUS`: the bus is asked for, for a transmission or for the frame at the head of the stream. -/
structure Asking (h : Heap) : Prop where
  cur : h.dmac.cur = .abus
  heapValid : h.dmac.out.heapValid = false
  heapWstrb : h.dmac.out.heapWstrb = 0
  busValid : h.dmac.out.busValid = true
  txStaReady : h.dmac.out.txStaReady = false
  rtxTvalid : h.dmac.out.rtxAxisTvalid = false
  rx : h.dmac.RxQuiet
  fresh : h.src.Fresh
  goal : h.dmac.txStaValid = true ∨ h.FrameWaiting

/-- `STATE_READ` or `STATE_KEEP`: a transmission owns the bus. -/
structure Sending (h : Heap) : Prop where
  cur : h.dmac.cur = .read ∨ h.dmac.cur = .keep
  busReady : h.mux.busReady = true
  heapValid : h.dmac.out.heapValid = true
  heapWstrb : h.dmac.out.heapWstrb = 0
  busValid : h.dmac.out.busValid = true
  rx : h.dmac.RxQuiet
  fresh : h.src.Fresh

/-- The position of the stream in phase `k` of the reception of `f`. -/
structure SrcAt (f : Frame) (k : Nat) (s : RxSource) : Prop where
  -- beat `k - 1` is on the outputs
  during : k ≤ f.beats → s.tvalid = true ∧ s.cur = f ∧ s.pos = k - 1
  -- two idle cycles, in which the last beat stays on the outputs
  after : f.beats < k → k ≤ f.beats + 2 → s.tvalid = false ∧ s.cur = f ∧ s.out = f.beat (f.beats - 1)
  gap : k = f.beats + 1 → ∀ p ∈ s.pending.head?, 1 ≤ p.1
  -- in the last cycle the next frame may be there already
  done : k = f.beats + 3 → (s.tvalid = false ∧ s.cur = f) ∨ (s.tvalid = true ∧ s.pos = 0)

/-- `STATE_WRITE`, `k` cycles after the bus was granted for the frame `f` with `heap_addr = a`. -/
structure Writing (f : Frame) (a : BitVec 32) (k : Nat) (h : Heap) : Prop where
  two : 2 ≤ f.beats
  pos : 1 ≤ k
  le : k ≤ f.beats + 3
  cur : h.dmac.cur = .write
  busReady : h.mux.busReady = true
  src : SrcAt f k h.src
  heapValid : h.dmac.out.heapValid = true
  busValid : h.dmac.out.busValid = true
  tready : h.dmac.out.rxAxisTready = decide (k ≤ f.beats)
  treadyM : h.dmac.pipe.rxAxisTreadyM = decide (2 ≤ k ∧ k ≤ f.beats + 1)
  treadyM2 : h.dmac.pipe.rxAxisTreadyM2 = decide (3 ≤ k ∧ k ≤ f.beats + 2)
  treadyM3 : h.dmac.pipe.rxAxisTreadyM3 = decide (4 ≤ k)
  tlastM : h.dmac.pipe.rxAxisTlastM = decide (f.beats + 1 ≤ k)
  tlastM2 : h.dmac.pipe.rxAxisTlastM2 = decide (f.beats + 2 ≤ k)
  tlastM3 : h.dmac.pipe.rxAxisTlastM3 = decide (f.beats + 3 ≤ k)
  tdataM : h.dmac.pipe.rxAxisTdataM = (f.beat (k - 2)).tdata
  tdataM2 : h.dmac.pipe.rxAxisTdataM2 = (f.beat (k - 3)).tdata
  tkeepM : h.dmac.pipe.rxAxisTkeepM = (f.beat (k - 2)).tkeep
  heapAddr : h.dmac.out.heapAddr = a + BitVec.ofNat 32 (4 * (k - 4))
  heapWdata : h.dmac.out.heapWdata = (f.beat (k - 4)).tdata
  heapWstrb : h.dmac.out.heapWstrb = if 3 ≤ k ∧ k ≤ f.beats + 1 then (f.beat (k - 2)).tkeep else 0
  bdFrameLen : h.dmac.out.bdFrameLen =
    if k ≤ f.beats + 2 then BitVec.ofNat 32 (f.bytesBefore (k - 2)) else 0
  txStaReady : h.dmac.out.txStaReady = false

/-- `STATE_WRITE` for a frame of one beat: `tready` was never set, the frame stays where it is and
the state is left at once. -/
structure Runt (h : Heap) : Prop where
  cur : h.dmac.cur = .write
  busReady : h.mux.busReady = true
  one : h.src.cur.beats = 1
  tvalid : h.src.tvalid = true
  pos : h.src.pos = 0
  heapValid : h.dmac.out.heapValid = true
  heapWstrb : h.dmac.out.heapWstrb = 0
  busValid : h.dmac.out.busValid = true
  txStaReady : h.dmac.out.txStaReady = false
  rx : h.dmac.RxQuiet
  tlastM3 : h.dmac.pipe.rxAxisTlastM3 = true

/-- The phases by name. -/
inductive Stage
  | resting
  | asking
  | writing (f : Frame) (a : BitVec 32) (k : Nat)
  | runt
  | sending

namespace Stage

/-- The registers are those of the phase. -/
def At : Stage → Heap → Prop
  | resting, h => Resting h
  | asking, h => Asking h
  | writing f a k, h => Writing f a k h
  | runt, h => Runt h
  | sending, h => Sending h

/-- Where an edge leads from the state `h`. -/
inductive Next (h : Heap) : Stage → Stage → Prop
  | rest : Next h resting resting
  | ask (hg : h.dmac.ring.rxBdStaR ≠ 0xff ∨ h.dmac.txStaValid = true) : Next h resting asking
  | wait : Next h asking asking
  | first (w : FrameWaiting h) (hv : h.dmac.txStaValid = false) (htwo : 2 ≤ h.src.cur.beats) :
    Next h asking (writing h.src.cur h.dmac.out.heapAddr 1)
  | refuse (w : FrameWaiting h) (hv : h.dmac.txStaValid = false) (hone : h.src.cur.beats = 1) :
    Next h asking runt
  | send (hv : h.dmac.txStaValid = true) : Next h asking sending
  | beat {f : Frame} {a : BitVec 32} {k : Nat} (hk : k ≤ f.beats + 2) :
    Next h (writing f a k) (writing f a (k + 1))
  | last {f : Frame} {a : BitVec 32} : Next h (writing f a (f.beats + 3)) resting
  | refused : Next h runt resting
  | more : Next h sending sending
  | sent : Next h sending resting

end Stage

/-- The subsystem is in the phase `st`. -/
structure Ctl (st : Stage) (h : Heap) : Prop where
  spaced : h.src.Spaced
  phase : st.At h

end Heap

end Picorv32Soc
