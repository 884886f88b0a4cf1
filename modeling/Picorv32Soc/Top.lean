import Picorv32Soc.Heap
import Picorv32Soc.RamBytes
import Picorv32Soc.Uart

/-!
# `top`

The CPU's memory port as `top.v` wires it: every request goes through a register per peripheral, with
the address decoded on the way, and the answers come back through `mem_ready` and `mem_rdata`. The
peripherals are the two memories (the heap one behind `mux_heap`), the DMA controller's registers, the
output port and the UART; what is left open is the CPU itself and the far side of the UART.
-/

namespace Picorv32Soc

/-- `IO`. -/
structure Io where
  ioInt : BitVec 4
  memReady : Bool
  memRdata : BitVec 32
  memValidReg : Bool

namespace Io

def access (o : Io) (p : MemPort) : Bool := p.valid && !o.memValidReg

def sel (p : MemPort) : BitVec 6 := p.addr.extractLsb' 2 6

def step (p : MemPort) (o : Io) : Io where
  memReady := if o.memReady then false else if o.access p then true else o.memReady
  memValidReg := p.valid
  memRdata := if o.access p && sel p == 0x10 then o.ioInt.setWidth 32 else o.memRdata
  ioInt := if o.access p && sel p == 0x10 && p.wstrb == 0xf then p.wdata.setWidth 4 else o.ioInt

def reset : Io := ⟨0, false, 0, false⟩

end Io

/-- `mem_addr[31:16]`: the peripheral an address belongs to. -/
def region (a : BitVec 32) : BitVec 16 := a.extractLsb' 16 16

/-- What the peripheral at `hi` is shown of a request. -/
def MemPort.select (p : MemPort) (hi : BitVec 16) : MemPort := { p with valid := p.valid && region p.addr == hi }

/-- `top`: the decode registers (`text_*`, `heap_*`, `io_*`, `DMA_*`, `uart_*`), the peripherals, and
the registered answer. -/
structure Top where
  text : MemPort
  heap : MemPort
  io : MemPort
  dma : MemPort
  uart : MemPort
  textRam : Ram64KB
  sys : Heap
  gpio : Io
  uartTop : UartTop
  memRdata : BitVec 32
  memReady : Bool

/-- The CPU's port, and what the FIFOs of the UART show. -/
structure TopIn where
  mem : MemPort
  txFifoFull : Bool
  rxByte : BitVec 8

namespace Top

def heapIn (s : Top) : HeapIn := ⟨s.heap, s.dma⟩

def muxHeapValid (s : Top) : Bool := (s.sys.ramPort s.heapIn).valid

/-- `mem_rdata_o`. The output port is not on it. -/
def memRdataO (s : Top) : BitVec 32 :=
  if s.uart.valid then s.uartTop.memRdata
  else if s.text.valid then s.textRam.memRdata
  else if !s.sys.mux.busReady && s.muxHeapValid then s.sys.ram.memRdata
  else if s.dma.valid then s.sys.dmac.regs.memRdata
  else 0

def memReadyO (s : Top) : Bool :=
  (s.text.valid && s.textRam.memReady) || (!s.sys.mux.busReady && s.muxHeapValid && s.sys.ram.memReady) ||
    (s.io.valid && s.gpio.memReady) || (s.uart.valid && s.uartTop.memReady) ||
    (s.dma.valid && s.sys.dmac.regs.memReady)

def step (i : TopIn) (s : Top) : Top where
  text := i.mem.select 0x0000
  heap := i.mem.select 0x0001
  io := i.mem.select 0x8001
  dma := i.mem.select 0x8000
  uart := i.mem.select 0x8002
  textRam := s.textRam.step s.text
  sys := Heap.step s.heapIn s.sys
  gpio := s.gpio.step s.io
  uartTop := UartTop.step ⟨s.uart, i.txFifoFull, i.rxByte⟩ s.uartTop
  memRdata := s.memRdataO
  memReady := s.memReadyO

/-- An edge with `resetn` low; the decode registers and the answer have no reset. -/
def resetStep (i : TopIn) (s : Top) : Top :=
  { step i s with
    textRam := s.textRam.resetStep s.text
    sys := Heap.resetStep s.heapIn s.sys
    gpio := Io.reset
    uartTop := UartTop.reset }

def run (inp : Nat → TopIn) (s : Top) : Nat → Top := Clocked.run step inp s

/-- Reset, held for five edges or more, with the CPU in reset as well; the memories keep what they
hold, and the stream is about to deliver `sched`. -/
def AfterReset (sched : List (Nat × Frame)) (s : Top) : Prop :=
  ∃ (inp : Nat → TopIn) (s₀ : Top), (∀ t, (inp t).mem.valid = false) ∧ s₀.sys.src.tvalid = false ∧
    s₀.sys.src.pending = sched ∧ s = Clocked.run resetStep inp s₀ 5

/-- Nothing is asked of the CPU's port. -/
def still : TopIn := ⟨.idle, false, 0⟩

def start (sched : List (Nat × Frame)) : Top :=
  Clocked.run resetStep (fun _ => still)
    { text := .idle, heap := .idle, io := .idle, dma := .idle, uart := .idle, textRam := .blank
      sys := ⟨⟨Dmac.blank, ⟨false⟩, Ram64KB.blank⟩, .before sched⟩
      gpio := Io.reset, uartTop := UartTop.reset, memRdata := 0, memReady := false } 5

theorem start_afterReset (sched : List (Nat × Frame)) : (start sched).AfterReset sched :=
  ⟨_, _, fun _ => rfl, rfl, rfl, rfl⟩

end Top

/-! ### The CPU's side of its port -/

/-- Where the CPU is with its requests. -/
inductive Cpu
  /-- no request is pending; the next one may start -/
  | free
  /-- `p` has been on the port and is not answered yet -/
  | busy (p : MemPort)
  /-- `p` was answered in the last cycle -/
  | done (p : MemPort)
  /-- the second cycle after a store -/
  | gap
deriving DecidableEq

namespace Cpu

/-- The rules of the port: a request stays as it is until it is answered, then `mem_valid` is low for
one cycle after a load and two after a store. -/
def Allows : Cpu → MemPort → Prop
  | .free, _ => True
  | .busy p, m => m = p
  | .done _, m => m.valid = false
  | .gap, m => m.valid = false

instance (c : Cpu) (m : MemPort) : Decidable (c.Allows m) :=
  match c with
  | .free => inferInstanceAs (Decidable True)
  | .busy p => inferInstanceAs (Decidable (m = p))
  | .done _ => inferInstanceAs (Decidable (m.valid = false))
  | .gap => inferInstanceAs (Decidable (m.valid = false))

def next (c : Cpu) (m : MemPort) (memReady : Bool) : Cpu :=
  match c with
  | .free => if m.valid then (if memReady then .done m else .busy m) else .free
  | .busy p => if memReady then .done p else .busy p
  | .done p => if p.wstrb ≠ 0 then .gap else .free
  | .gap => .free

end Cpu

/-- The byte lies in the word the request addresses. -/
def MemPort.sameWord (p : MemPort) (x : BitVec 32) : Bool := p.addr.extractLsb' 2 30 == x.extractLsb' 2 30

def MemPort.writes (p : MemPort) (x : BitVec 32) : Bool := p.sameWord x && p.wstrb.getLsbD (laneOf x).toNat

/-- What the CPU knows: where it is, and what every byte is by the stores that were answered. -/
structure CpuView where
  cpu : Cpu
  mem : BitVec 32 → BitVec 8

namespace CpuView

def observe (i : TopIn) (s : Top) (g : CpuView) : CpuView where
  cpu := g.cpu.next i.mem s.memReady
  mem := if i.mem.valid && s.memReady then
      fun x => if i.mem.writes x then Bits.byteLane i.mem.wdata (laneOf x) else g.mem x
    else g.mem

end CpuView

namespace Top

/-- The byte of the memories at an address below `0x00020000`. -/
def ramByte (s : Top) (x : BitVec 32) : BitVec 8 := if region x = 0 then s.textRam.byte x else s.sys.ram.byte x

/-- The CPU's view along a run; it starts from what the memories hold. -/
def view (inp : Nat → TopIn) (s : Top) : Nat → CpuView :=
  Clocked.watch CpuView.observe step inp s ⟨.free, s.ramByte⟩

end Top

end Picorv32Soc
