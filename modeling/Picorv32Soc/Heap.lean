import Picorv32Soc.Axis
import Picorv32Soc.Clocked
import Picorv32Soc.Dmac

/-!
# The heap subsystem

`mux_heap` arbitrates the heap RAM between the CPU and the DMA controller. `Heap` puts the
controller, the arbiter, the heap RAM and the receive stream together as `top.v` wires them; what is
left open is what the CPU does on the heap port and on the register port of the controller.
-/

namespace Picorv32Soc

/-- `mux_heap`: `BUS_ready` is its only register. -/
structure MuxHeap where
  busReady : Bool

namespace MuxHeap

/-- The port of the RAM: the owner's. -/
def port (m : MuxHeap) (dma cpu : MemPort) : MemPort := if m.busReady then dma else cpu

def dmaHeapReady (m : MuxHeap) (muxHeapReady : Bool) : Bool := if m.busReady then muxHeapReady else false

def dmaHeapRdata (m : MuxHeap) (muxHeapRdata : BitVec 32) : BitVec 32 :=
  if m.busReady then muxHeapRdata else 0

/-- The bus is granted in a cycle in which the CPU does not use it and kept until given back. -/
def step (_m : MuxHeap) (busValid cpuValid : Bool) : MuxHeap :=
  if busValid && !cpuValid then ⟨true⟩ else if !busValid then ⟨false⟩ else _m

end MuxHeap

/-- What the CPU drives: its heap port (`CPU_heap_*`) and the register port of the controller. -/
structure HeapIn where
  cpu : MemPort
  mem : MemPort
deriving DecidableEq, Repr

/-- `DMAC`, `mux_heap` and the heap `RAM_64KB`. -/
structure DmaHeap where
  dmac : Dmac
  mux : MuxHeap
  ram : Ram64KB

namespace DmaHeap

def dmaPort (x : DmaHeap) : MemPort :=
  ⟨x.dmac.out.heapValid, x.dmac.out.heapAddr, x.dmac.out.heapWdata, x.dmac.out.heapWstrb⟩

def ramPort (x : DmaHeap) (i : HeapIn) : MemPort := x.mux.port x.dmaPort i.cpu

/-- The inputs of the controller, with `tvalid` and `b` on the receive stream. -/
def dmacIn (x : DmaHeap) (tvalid : Bool) (b : Beat) (i : HeapIn) : DmacIn where
  mem := i.mem
  busReady := x.mux.busReady
  heapReady := x.mux.dmaHeapReady x.ram.memReady
  heapRdata := x.mux.dmaHeapRdata x.ram.memRdata
  rxAxisTdata := b.tdata
  rxAxisTkeep := b.tkeep
  rxAxisTvalid := tvalid
  rxAxisTlast := b.tlast

def step (tvalid : Bool) (b : Beat) (i : HeapIn) (x : DmaHeap) : DmaHeap where
  dmac := x.dmac.step (x.dmacIn tvalid b i)
  mux := x.mux.step x.dmac.out.busValid i.cpu.valid
  ram := x.ram.step (x.ramPort i)

/-- An edge with `resetn` low. -/
def resetStep (tvalid : Bool) (b : Beat) (i : HeapIn) (x : DmaHeap) : DmaHeap where
  dmac := x.dmac.resetStep (x.dmacIn tvalid b i)
  mux := ⟨false⟩
  ram := x.ram.resetStep (x.ramPort i)

end DmaHeap

/-- The same behind the receive stream. -/
structure Heap extends DmaHeap where
  src : RxSource

namespace Heap

def dmaPort (h : Heap) : MemPort := h.toDmaHeap.dmaPort

def ramPort (h : Heap) (i : HeapIn) : MemPort := h.toDmaHeap.ramPort i

def dmacIn (h : Heap) (i : HeapIn) : DmacIn := h.toDmaHeap.dmacIn h.src.tvalid h.src.out i

def nxtState (h : Heap) : DmaState := h.dmac.nxtState h.mux.busReady h.src.tvalid

def step (i : HeapIn) (h : Heap) : Heap where
  toDmaHeap := h.toDmaHeap.step h.src.tvalid h.src.out i
  src := h.src.step h.dmac.out.rxAxisTready

/-- The stream has its own reset; it stays idle. -/
def resetStep (i : HeapIn) (h : Heap) : Heap where
  toDmaHeap := h.toDmaHeap.resetStep h.src.tvalid h.src.out i
  src := h.src

def run (inp : Nat → HeapIn) (h : Heap) : Nat → Heap := Clocked.run step inp h

theorem run_succ (inp : Nat → HeapIn) (h : Heap) (t : Nat) :
    run inp h (t + 1) = step (inp t) (run inp h t) := rfl

theorem run_add (inp : Nat → HeapIn) (h : Heap) (t k : Nat) :
    run inp h (t + k) = run (fun j => inp (t + j)) (run inp h t) k := Clocked.run_add t k

/-- Reset, held for five edges or more (`reset_gen` holds it for eight), over a stream that is about
to deliver `sched`; before it the registers may hold anything. -/
def AfterReset (sched : List (Nat × Frame)) (h : Heap) : Prop :=
  ∃ (inp : Nat → HeapIn) (h₀ : Heap), h₀.src.tvalid = false ∧ h₀.src.pending = sched ∧
    h = Clocked.run resetStep inp h₀ 5

/-- The state after a reset over a memory of zeros. -/
def start (sched : List (Nat × Frame)) : Heap :=
  Clocked.run resetStep (fun _ => ⟨.idle, .idle⟩)
    ⟨⟨Dmac.blank, ⟨false⟩, Ram64KB.blank⟩, .before sched⟩ 5

theorem start_afterReset (sched : List (Nat × Frame)) : (start sched).AfterReset sched :=
  ⟨_, _, rfl, rfl, rfl⟩

/-! ### One edge -/

variable (h : Heap) (i : HeapIn)

theorem step_cur : (step i h).dmac.cur = h.nxtState := rfl

theorem step_src : (step i h).src = h.src.step h.dmac.out.rxAxisTready := rfl

theorem step_out :
    (step i h).dmac.out =
      match h.nxtState with
      | .idle => Dmac.Out.quiet
      | .wait => Dmac.Out.quiet
      | .abus => h.dmac.outAbus
      | .write => h.dmac.outWrite (h.dmacIn i)
      | .read => h.dmac.outRead
      | .keep => h.dmac.outKeep := rfl

theorem step_out_quiet (hn : h.nxtState = .idle ∨ h.nxtState = .wait) :
    (step i h).dmac.out = Dmac.Out.quiet := by
  rw [step_out]
  rcases hn with hn | hn <;> rw [hn]

theorem step_out_abus (hn : h.nxtState = .abus) : (step i h).dmac.out = h.dmac.outAbus := by
  rw [step_out, hn]

theorem step_out_write (hn : h.nxtState = .write) :
    (step i h).dmac.out = h.dmac.outWrite (h.dmacIn i) := by
  rw [step_out, hn]

theorem step_out_read (hn : h.nxtState = .read) : (step i h).dmac.out = h.dmac.outRead := by
  rw [step_out, hn]

theorem step_out_keep (hn : h.nxtState = .keep) : (step i h).dmac.out = h.dmac.outKeep := by
  rw [step_out, hn]

/-! ### Where a state can come from -/

section
variable {h : Heap}

theorem of_nxtState_idle (hn : h.nxtState = .idle) : h.dmac.cur = .idle := by
  cases hc : h.dmac.cur <;> simp only [nxtState, Dmac.nxtState, hc] at hn <;> split_ifs at hn; rfl

theorem of_nxtState_wait (hn : h.nxtState = .wait) :
    h.dmac.cur = .idle ∨ h.dmac.cur = .wait ∨ h.dmac.cur = .write ∨
      (h.dmac.cur = .keep ∧ h.dmac.out.txStaReady = true) := by
  cases hc : h.dmac.cur <;> simp only [nxtState, Dmac.nxtState, hc] at hn <;> split_ifs at hn <;> simp_all

theorem of_nxtState_abus (hn : h.nxtState = .abus) :
    (h.dmac.cur = .wait ∧ ((h.dmac.ring.rxBdStaR ≠ 0xff ∧ h.src.tvalid = true) ∨ h.dmac.txStaValid = true)) ∨
      (h.dmac.cur = .abus ∧ h.mux.busReady = false) := by
  cases hc : h.dmac.cur <;> simp only [nxtState, Dmac.nxtState, hc] at hn <;> split_ifs at hn <;> simp_all

theorem of_nxtState_write (hn : h.nxtState = .write) :
    (h.dmac.cur = .abus ∧ h.mux.busReady = true ∧ h.dmac.txStaValid = false) ∨
      (h.dmac.cur = .write ∧ h.dmac.pipe.rxAxisTlastM3 = false) := by
  cases hc : h.dmac.cur <;> simp only [nxtState, Dmac.nxtState, hc] at hn <;> split_ifs at hn <;> simp_all

theorem of_nxtState_read (hn : h.nxtState = .read) :
    (h.dmac.cur = .abus ∧ h.mux.busReady = true ∧ h.dmac.txStaValid = true) ∨
      (h.dmac.cur = .read ∧ h.dmac.out.rtxAxisTlast = false) := by
  cases hc : h.dmac.cur <;> simp only [nxtState, Dmac.nxtState, hc] at hn <;> split_ifs at hn <;> simp_all

theorem of_nxtState_keep (hn : h.nxtState = .keep) :
    (h.dmac.cur = .read ∧ h.dmac.out.rtxAxisTlast = true) ∨
      (h.dmac.cur = .keep ∧ h.dmac.out.txStaReady = false) := by
  cases hc : h.dmac.cur <;> simp only [nxtState, Dmac.nxtState, hc] at hn <;> split_ifs at hn <;> simp_all

end

/-! ### The arbiter -/

theorem step_busReady_held (hb : h.dmac.out.busValid = true) (hr : h.mux.busReady = true) :
    (step i h).mux.busReady = true := by
  show (h.mux.step _ _).busReady = true
  unfold MuxHeap.step
  rw [hb]
  cases i.cpu.valid <;> simp [hr]

theorem step_busReady_released (hb : h.dmac.out.busValid = false) : (step i h).mux.busReady = false := by
  show (h.mux.step _ _).busReady = false
  unfold MuxHeap.step
  rw [hb]; rfl

theorem step_busReady_granted (hr : h.mux.busReady = false) (hr' : (step i h).mux.busReady = true) :
    h.dmac.out.busValid = true ∧ i.cpu.valid = false := by
  change (h.mux.step _ _).busReady = true at hr'
  unfold MuxHeap.step at hr'
  cases hb : h.dmac.out.busValid <;> cases hc : i.cpu.valid <;> simp_all

end Heap

end Picorv32Soc
