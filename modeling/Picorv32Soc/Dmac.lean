import Picorv32Soc.Ram

/-!
# `DMAC`

The DMA controller of `DMAC.v`, one structure per clocked block: the register file on the CPU port,
the receive ring, the destination filter, the delayed copies of the stream signals, the registered
outputs of the state machine and the transmit pipeline. Every block reads the register values from
before the edge. `step` is an edge with `resetn` high, `resetStep` one with `resetn` low.

Registers that are written and never read (`rtx_axis_tdata`, `tx_axis_tdata_m1..3`) or are constant
(`tuser`) are left out.
-/

namespace Picorv32Soc
open Bits

/-- `DMArx_cur_state`, one-hot in the source. -/
inductive DmaState
  | idle | wait | abus | write | read | keep
deriving DecidableEq, Repr

namespace Dmac

/-- The registers behind the CPU port. -/
structure Regs where
  rxBdAdr : BitVec 3 → BitVec 32
  txBdAdr : BitVec 3 → BitVec 32
  txBdLen : BitVec 3 → BitVec 32
  rxBdClr : BitVec 8
  txBdSta : BitVec 8
  enableDma : Bool
  memReady : Bool
  memRdata : BitVec 32
  memValidReg : Bool

/-- The receive descriptors the hardware maintains. -/
structure Ring where
  rxBdLen : BitVec 3 → BitVec 32
  rxBdIdx : BitVec 3
  rxBdStaR : BitVec 8
  rxBdSta : BitVec 8
  txBdIdx : BitVec 3

/-- The outputs of the state machine, registered. -/
structure Out where
  heapValid : Bool
  heapAddr : BitVec 32
  heapWdata : BitVec 32
  heapWstrb : BitVec 4
  busValid : Bool
  bdFrameLen : BitVec 32
  rxAxisTready : Bool
  txStaReady : Bool
  rtxAxisTkeep : BitVec 4
  rtxAxisTvalid : Bool
  rtxAxisTlast : Bool

/-- The delayed copies of the stream signals. -/
structure Pipe where
  rxAxisTreadyM : Bool
  rxAxisTreadyM2 : Bool
  rxAxisTreadyM3 : Bool
  rxAxisTlastM : Bool
  rxAxisTlastM2 : Bool
  rxAxisTlastM3 : Bool
  rtxAxisTvalidM : Bool
  rxAxisTdataM : BitVec 32
  rxAxisTdataM2 : BitVec 32
  rxAxisTkeepM : BitVec 4

/-- The transmit pipeline; the last stage is the `tx_axis` port. -/
structure TxPipe where
  tkeepM1 : BitVec 4
  tkeepM2 : BitVec 4
  tkeepM3 : BitVec 4
  tvalidM1 : Bool
  tvalidM2 : Bool
  tvalidM3 : Bool
  tlastM1 : Bool
  tlastM2 : Bool
  tlastM3 : Bool
  txAxisTdata : BitVec 32
  txAxisTkeep : BitVec 4
  txAxisTvalid : Bool
  txAxisTlast : Bool

/-- The destination address of the frame being received and the verdict on it. -/
structure Filter where
  dstMac : BitVec 48
  dropFrame : Bool

end Dmac

/-- `DMAC`. -/
structure Dmac where
  regs : Dmac.Regs
  cur : DmaState
  out : Dmac.Out
  filter : Dmac.Filter
  pipe : Dmac.Pipe
  tx : Dmac.TxPipe
  ring : Dmac.Ring
  heapAddrM : BitVec 32

/-- The inputs of `DMAC`. It looks at neither `rx_axis_tuser` nor `tx_axis_tready`. -/
structure DmacIn where
  mem : MemPort
  busReady : Bool
  heapReady : Bool
  heapRdata : BitVec 32
  rxAxisTdata : BitVec 32
  rxAxisTkeep : BitVec 4
  rxAxisTvalid : Bool
  rxAxisTlast : Bool

namespace Dmac

/-! ### The register file -/

namespace Regs

/-- The first cycle of a request on the CPU port: the only one in which the registers look at it. -/
def access (r : Regs) (p : MemPort) : Bool := p.valid && !r.memValidReg

/-- A full-word store in its first cycle. -/
def store (r : Regs) (p : MemPort) : Bool := r.access p && (p.wstrb == 0xf)

/-- `mem_addr[7:2]`: the register an access names. -/
def sel (p : MemPort) : BitVec 6 := p.addr.extractLsb' 2 6

/-- The eight registers of a group differ in `mem_addr[4:2]`, the groups in `mem_addr[7:5]`: `0x10`
is `rx_BD_adr[0]`, `0x18` is `rx_BD_len[0]`, `0x20` is `tx_BD_adr[0]` and `0x28` is `tx_BD_len[0]`. -/
def group (p : MemPort) : BitVec 3 := p.addr.extractLsb' 5 3

def slot (p : MemPort) : BitVec 3 := p.addr.extractLsb' 2 3

/-- What a request loads into `mem_rdata`; an address that names no register leaves it. -/
def readData (r : Regs) (g : Ring) (p : MemPort) : BitVec 32 :=
  if group p = 2 then r.rxBdAdr (slot p)
  else if group p = 3 then g.rxBdLen (slot p)
  else if group p = 4 then r.txBdAdr (slot p)
  else if group p = 5 then r.txBdLen (slot p)
  else if sel p = 0x30 then (BitVec.ofBool r.enableDma).setWidth 32
  else if sel p = 0x31 then g.rxBdSta.setWidth 32
  else if sel p = 0x32 then r.rxBdClr.setWidth 32
  else if sel p = 0x33 then r.txBdSta.setWidth 32
  else r.memRdata

def stepGroup (r : Regs) (p : MemPort) (g : BitVec 3) (v : BitVec 3 → BitVec 32) : BitVec 3 → BitVec 32 :=
  if r.store p && group p == g then Function.update v (slot p) p.wdata else v

def step (r : Regs) (g : Ring) (txStaReady : Bool) (p : MemPort) : Regs where
  rxBdAdr := r.stepGroup p 2 r.rxBdAdr
  txBdAdr := r.stepGroup p 4 r.txBdAdr
  txBdLen := r.stepGroup p 5 r.txBdLen
  enableDma := if r.store p && sel p == 0x30 then p.wdata.getLsbD 0 else r.enableDma
  -- a pending clear is dropped after one cycle, even when a store would set the next one
  rxBdClr :=
    if r.rxBdClr ≠ 0 then 0
    else if r.store p && sel p == 0x32 then p.wdata.setWidth 8 else r.rxBdClr
  -- the end of a transmission wins over a store
  txBdSta :=
    if txStaReady then 0
    else if r.store p && sel p == 0x33 then p.wdata.setWidth 8 else r.txBdSta
  memReady := if r.memReady then false else if r.access p then true else r.memReady
  memRdata := if r.access p then r.readData g p else r.memRdata
  memValidReg := p.valid

def reset : Regs where
  rxBdAdr := fun _ => 0
  txBdAdr := fun _ => 0
  txBdLen := fun _ => 0
  rxBdClr := 0
  txBdSta := 0
  enableDma := false
  memReady := false
  memRdata := 0
  memValidReg := false

end Regs

/-! ### Combinational functions -/

def keep2bytes (tkeep : BitVec 4) : BitVec 3 :=
  if tkeep = 0xf then 4 else if tkeep = 0x7 then 3 else if tkeep = 0x3 then 2
  else if tkeep = 0x1 then 1 else 0

def bytes2keep (len : BitVec 32) : BitVec 4 :=
  match (len.extractLsb' 0 2).toNat with
  | 3 => 0x7
  | 2 => 0x3
  | 1 => 0x1
  | _ => 0xf

def addr2keep (addr : BitVec 32) : BitVec 4 :=
  match (addr.extractLsb' 0 2).toNat with
  | 3 => 0x1
  | 2 => 0x3
  | 1 => 0x7
  | _ => 0xf

def addr2len (addr : BitVec 32) : BitVec 3 :=
  match (addr.extractLsb' 0 2).toNat with
  | 3 => 1
  | 2 => 2
  | 1 => 3
  | _ => 4

/-- `heap_rdata_wrap`: the word read, shifted down to the first byte of the buffer. -/
def heapRdataWrap (addrM rdata : BitVec 32) : BitVec 32 :=
  match (addrM.extractLsb' 0 2).toNat with
  | 3 => (rdata.extractLsb' 24 8).setWidth 32
  | 2 => (rdata.extractLsb' 16 16).setWidth 32
  | 1 => (rdata.extractLsb' 8 24).setWidth 32
  | _ => rdata

/-- `keep_frame`: broadcast, or the address of the board. -/
def keepFrame (mac : BitVec 48) : Bool := mac == 0xffffffffffff#48 || mac == 0x000a35000102#48

end Dmac

namespace Dmac

def txStaValid (d : Dmac) : Bool := d.regs.txBdSta != 0

def rtxAxisTvalidPedge (d : Dmac) : Bool := !d.pipe.rtxAxisTvalidM && d.out.rtxAxisTvalid

def nxtState (d : Dmac) (busReady rxAxisTvalid : Bool) : DmaState :=
  match d.cur with
  | .idle => if d.regs.enableDma then .wait else .idle
  | .wait => if (d.ring.rxBdStaR != 0xff && rxAxisTvalid) || d.txStaValid then .abus else .wait
  | .abus => if busReady then (if d.txStaValid then .read else .write) else .abus
  | .write => if d.pipe.rxAxisTlastM3 then .wait else .write
  | .read => if d.out.rtxAxisTlast then .keep else .read
  | .keep => if d.out.txStaReady then .wait else .keep

/-! ### The registered outputs -/

/-- The outputs in `STATE_IDLE` and `STATE_WAIT`, and after reset. -/
def Out.quiet : Out where
  heapValid := false
  heapAddr := 0
  heapWdata := 0
  heapWstrb := 0
  busValid := false
  bdFrameLen := 0
  rxAxisTready := false
  txStaReady := false
  rtxAxisTkeep := 0
  rtxAxisTvalid := false
  rtxAxisTlast := false

def outAbus (d : Dmac) : Out :=
  { Out.quiet with
    heapAddr := if d.txStaValid then d.regs.txBdAdr d.ring.txBdIdx else d.regs.rxBdAdr d.ring.rxBdIdx
    busValid := true
    bdFrameLen := d.regs.txBdLen d.ring.txBdIdx }

def outWrite (d : Dmac) (i : DmacIn) : Out :=
  { Out.quiet with
    heapValid := true
    heapAddr := if d.pipe.rxAxisTreadyM3 then d.out.heapAddr + 4 else d.out.heapAddr
    heapWdata := d.pipe.rxAxisTdataM2
    heapWstrb := if d.pipe.rxAxisTreadyM && d.out.rxAxisTready then i.rxAxisTkeep else 0
    busValid := true
    bdFrameLen :=
      if d.pipe.rxAxisTreadyM then d.out.bdFrameLen + (keep2bytes d.pipe.rxAxisTkeepM).setWidth 32 else 0
    -- looks one beat ahead: the beat on the stream now may be the last
    rxAxisTready := if i.rxAxisTlast then false else true }

def outRead (d : Dmac) : Out :=
  { Out.quiet with
    heapValid := true
    heapAddr :=
      if d.out.rtxAxisTvalid then
        if d.rtxAxisTvalidPedge then d.out.heapAddr + (addr2len d.out.heapAddr).setWidth 32
        else d.out.heapAddr + 4
      else d.out.heapAddr
    busValid := true
    bdFrameLen :=
      if d.out.rtxAxisTvalid then
        if d.rtxAxisTvalidPedge then d.out.bdFrameLen - (addr2len d.out.heapAddr).setWidth 32
        else d.out.bdFrameLen - 4
      else d.out.bdFrameLen
    rtxAxisTvalid := true
    rtxAxisTkeep :=
      if !d.out.rtxAxisTvalid then addr2keep d.out.heapAddr
      else if d.out.bdFrameLen < 8 then bytes2keep d.out.bdFrameLen else 0xf
    rtxAxisTlast := decide (d.out.bdFrameLen ≤ 8) }

def outKeep (d : Dmac) : Out :=
  { Out.quiet with
    heapValid := true
    busValid := true
    txStaReady := if d.out.rtxAxisTvalid then false else true }

/-- The registered outputs: `case (DMArx_nxt_state)`. -/
def stepOut (d : Dmac) (i : DmacIn) : Out :=
  match d.nxtState i.busReady i.rxAxisTvalid with
  | .idle => Out.quiet
  | .wait => Out.quiet
  | .abus => d.outAbus
  | .write => d.outWrite i
  | .read => d.outRead
  | .keep => d.outKeep

/-! ### The other clocked blocks -/

def stepFilter (d : Dmac) (i : DmacIn) : Filter :=
  let t := d.pipe.rxAxisTdataM
  if d.nxtState i.busReady i.rxAxisTvalid = .write then
    -- `case (BD_frame_len[31:2])`: the word of the frame that is in `rx_axis_tdata_m`
    if d.out.bdFrameLen.extractLsb' 2 30 = 0 then
      { dstMac := byteLane t 0 ++ byteLane t 1 ++ byteLane t 2 ++ byteLane t 3 ++ 0#16, dropFrame := false }
    else if d.out.bdFrameLen.extractLsb' 2 30 = 1 then
      { dstMac := d.filter.dstMac.extractLsb' 16 32 ++ byteLane t 0 ++ byteLane t 1, dropFrame := false }
    else if d.out.bdFrameLen.extractLsb' 2 30 = 2 then
      { d.filter with dropFrame := if keepFrame d.filter.dstMac then d.filter.dropFrame else true }
    else d.filter
  else d.filter

def stepPipe (d : Dmac) (i : DmacIn) : Pipe where
  rxAxisTreadyM := d.out.rxAxisTready
  rxAxisTreadyM2 := d.pipe.rxAxisTreadyM
  rxAxisTreadyM3 := d.pipe.rxAxisTreadyM2
  rxAxisTlastM := i.rxAxisTlast
  rxAxisTlastM2 := d.pipe.rxAxisTlastM
  rxAxisTlastM3 := d.pipe.rxAxisTlastM2
  rtxAxisTvalidM := d.out.rtxAxisTvalid
  rxAxisTdataM := i.rxAxisTdata
  rxAxisTdataM2 := d.pipe.rxAxisTdataM
  rxAxisTkeepM := i.rxAxisTkeep

def Pipe.reset : Pipe where
  rxAxisTreadyM := false
  rxAxisTreadyM2 := false
  rxAxisTreadyM3 := false
  rxAxisTlastM := false
  rxAxisTlastM2 := false
  rxAxisTlastM3 := false
  rtxAxisTvalidM := false
  rxAxisTdataM := 0
  rxAxisTdataM2 := 0
  rxAxisTkeepM := 0

/-- The transmit pipeline has no reset. -/
def stepTx (d : Dmac) (i : DmacIn) : TxPipe where
  tkeepM1 := d.out.rtxAxisTkeep
  tkeepM2 := d.tx.tkeepM1
  tkeepM3 := d.tx.tkeepM2
  tvalidM1 := d.out.rtxAxisTvalid
  tvalidM2 := d.tx.tvalidM1
  tvalidM3 := d.tx.tvalidM2
  tlastM1 := d.out.rtxAxisTlast
  tlastM2 := d.tx.tlastM1
  tlastM3 := d.tx.tlastM2
  txAxisTdata := if i.heapReady then heapRdataWrap d.heapAddrM i.heapRdata else i.heapRdata
  txAxisTkeep := d.tx.tkeepM3
  txAxisTvalid := d.tx.tvalidM3
  txAxisTlast := d.tx.tlastM3

/-! ### The receive ring -/

namespace Ring

/-- A reception has begun: its slot is taken. -/
def reserve (g : Ring) : Ring := { g with rxBdStaR := setBit g.rxBdStaR g.rxBdIdx.toNat true }

/-- The frame was not for this board: the slot is given back. -/
def drop (g : Ring) : Ring :=
  { g with
    rxBdLen := Function.update g.rxBdLen g.rxBdIdx 0
    rxBdStaR := setBit g.rxBdStaR g.rxBdIdx.toNat false }

/-- The frame is in memory: the slot is published with its length. -/
def publish (g : Ring) (len : BitVec 32) : Ring :=
  { g with
    rxBdLen := Function.update g.rxBdLen g.rxBdIdx len
    rxBdSta := setBit g.rxBdSta g.rxBdIdx.toNat true
    rxBdIdx := g.rxBdIdx + 1 }

/-- The slots in `clr` are given back by software. -/
def clear (g : Ring) (clr : BitVec 8) : Ring :=
  { g with
    rxBdLen := fun k => if clr.getLsbD k.toNat then 0 else g.rxBdLen k
    rxBdSta := g.rxBdSta &&& ~~~ clr
    rxBdStaR := g.rxBdStaR &&& ~~~ clr }

def reset : Ring where
  rxBdLen := fun _ => 0
  rxBdIdx := 0
  rxBdStaR := 0
  rxBdSta := 0
  txBdIdx := 0

end Ring

/-- `{rx_axis_tready_m, rx_axis_tready} == 2'b01`: the reception starts. -/
def rxStart (d : Dmac) : Bool := !d.pipe.rxAxisTreadyM && d.out.rxAxisTready

/-- `{rx_axis_tready_m2, rx_axis_tready_m} == 2'b10`: the reception is over. -/
def rxEnd (d : Dmac) : Bool := d.pipe.rxAxisTreadyM2 && !d.pipe.rxAxisTreadyM

/-- The ring after an edge: the three edge detectors assign in this order, the last one wins. -/
def stepRing (d : Dmac) : Ring :=
  let g := { d.ring with txBdIdx := 0 }
  let g := if d.rxStart then g.reserve else g
  let g := if d.rxEnd then (if d.filter.dropFrame then g.drop else g.publish d.out.bdFrameLen) else g
  g.clear d.regs.rxBdClr

theorem Ring.getLsbD_setBit_slot (x : BitVec 8) (k j : BitVec 3) (b : Bool) :
    (setBit x k.toNat b).getLsbD j.toNat = if j = k then b else x.getLsbD j.toNat := by
  rw [getLsbD_setBit _ _ _ _ (by omega : k.toNat < 8)]
  simp only [BitVec.toNat_inj, eq_comm]

theorem stepRing_rxBdSta (d : Dmac) (k : BitVec 3) :
    d.stepRing.rxBdSta.getLsbD k.toNat =
      ((if d.rxEnd && !d.filter.dropFrame && k == d.ring.rxBdIdx then true else d.ring.rxBdSta.getLsbD k.toNat) &&
        !d.regs.rxBdClr.getLsbD k.toNat) := by
  have hk : k.toNat < 8 := k.isLt
  simp only [stepRing, Ring.clear, BitVec.getLsbD_and, BitVec.getLsbD_not, hk, decide_true, Bool.true_and]
  congr 1
  cases d.rxStart <;> cases d.rxEnd <;> cases d.filter.dropFrame <;>
    simp [Ring.reserve, Ring.drop, Ring.publish, Ring.getLsbD_setBit_slot]

theorem stepRing_rxBdStaR (d : Dmac) (k : BitVec 3) :
    d.stepRing.rxBdStaR.getLsbD k.toNat =
      ((if d.rxEnd && d.filter.dropFrame && k == d.ring.rxBdIdx then false
        else (d.rxStart && k == d.ring.rxBdIdx) || d.ring.rxBdStaR.getLsbD k.toNat) &&
        !d.regs.rxBdClr.getLsbD k.toNat) := by
  have hk : k.toNat < 8 := k.isLt
  simp only [stepRing, Ring.clear, BitVec.getLsbD_and, BitVec.getLsbD_not, hk, decide_true, Bool.true_and]
  congr 1
  by_cases hi : k = d.ring.rxBdIdx <;> cases d.rxStart <;> cases d.rxEnd <;> cases d.filter.dropFrame <;>
    simp [Ring.reserve, Ring.drop, Ring.publish, Ring.getLsbD_setBit_slot, hi]

theorem stepRing_rxBdLen (d : Dmac) (k : BitVec 3) :
    d.stepRing.rxBdLen k =
      if d.regs.rxBdClr.getLsbD k.toNat then 0
      else if d.rxEnd && k == d.ring.rxBdIdx then (if d.filter.dropFrame then 0 else d.out.bdFrameLen)
      else d.ring.rxBdLen k := by
  simp only [stepRing, Ring.clear]
  congr 1
  by_cases hi : k = d.ring.rxBdIdx <;> cases d.rxStart <;> cases d.rxEnd <;> cases d.filter.dropFrame <;>
    simp [Ring.reserve, Ring.drop, Ring.publish, Function.update, hi]

theorem stepRing_rxBdIdx (d : Dmac) :
    d.stepRing.rxBdIdx = if d.rxEnd && !d.filter.dropFrame then d.ring.rxBdIdx + 1 else d.ring.rxBdIdx := by
  simp only [stepRing, Ring.clear]
  cases d.rxStart <;> cases d.rxEnd <;> cases d.filter.dropFrame <;> rfl

theorem stepRing_txBdIdx (d : Dmac) : d.stepRing.txBdIdx = 0 := by
  simp only [stepRing, Ring.clear]
  cases d.rxStart <;> cases d.rxEnd <;> cases d.filter.dropFrame <;> rfl

/-! ### The controller -/

def step (d : Dmac) (i : DmacIn) : Dmac where
  regs := d.regs.step d.ring d.out.txStaReady i.mem
  cur := d.nxtState i.busReady i.rxAxisTvalid
  out := d.stepOut i
  filter := d.stepFilter i
  pipe := d.stepPipe i
  tx := d.stepTx i
  ring := d.stepRing
  heapAddrM := if d.rtxAxisTvalidPedge then d.out.heapAddr else d.heapAddrM

def resetStep (d : Dmac) (i : DmacIn) : Dmac where
  regs := Regs.reset
  cur := .idle
  out := Out.quiet
  filter := ⟨0, false⟩
  pipe := Pipe.reset
  tx := d.stepTx i
  ring := Ring.reset
  heapAddrM := 0

/-- The registers after a reset, with an empty transmit pipeline. -/
def blank : Dmac where
  regs := Regs.reset
  cur := .idle
  out := Out.quiet
  filter := ⟨0, false⟩
  pipe := Pipe.reset
  tx := ⟨0, 0, 0, false, false, false, false, false, false, 0, 0, false, false⟩
  ring := Ring.reset
  heapAddrM := 0

end Dmac

end Picorv32Soc
