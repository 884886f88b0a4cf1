import Picorv32Soc.Bits

/-!
# `RAM_64KB`

The 64 KB memory of `top.v`: four banks of 4096 words, each made of four byte-wide block RAMs. The
bank of a write strobe is decoded when the strobe arrives and takes effect two edges later, with the
address and data that are on the port by then; a read goes through three registers.
-/

namespace Picorv32Soc
open Bits

/-- The native memory interface of the CPU, as a peripheral sees it. -/
structure MemPort where
  valid : Bool
  addr : BitVec 32
  wdata : BitVec 32
  wstrb : BitVec 4
deriving DecidableEq, Repr

namespace MemPort

def idle : MemPort := ⟨false, 0, 0, 0⟩

def store (addr wdata : BitVec 32) : MemPort := ⟨true, addr, wdata, 0xf⟩

def load (addr : BitVec 32) : MemPort := ⟨true, addr, 0, 0⟩

end MemPort

/-- `bram_4k_8`: one byte lane of a bank. -/
structure Bram4k8 where
  mem : BitVec 12 → BitVec 8
  dout : BitVec 8

def Bram4k8.step (b : Bram4k8) (addr : BitVec 12) (din : BitVec 8) (we en : Bool) : Bram4k8 :=
  if en then
    if we then { mem := Function.update b.mem addr din, dout := din }
    else { b with dout := b.mem addr }
  else b

/-- `ram_4k_32`: one bank. -/
structure Ram4k32 where
  bram : BitVec 2 → Bram4k8

namespace Ram4k32

def dout (r : Ram4k32) : BitVec 32 := joinLanes fun l => (r.bram l).dout

def step (r : Ram4k32) (addr : BitVec 12) (din : BitVec 32) (we : BitVec 4) (en : Bool) : Ram4k32 :=
  ⟨fun l => (r.bram l).step addr (byteLane din l) (we.getLsbD l.toNat) en⟩

end Ram4k32

/-- `mem_addr[15:14]`: the bank of an address. -/
def bankOf (a : BitVec 32) : BitVec 2 := a.extractLsb' 14 2

/-- `mem_addr[13:2]`: the word of an address within its bank. -/
def offsetOf (a : BitVec 32) : BitVec 12 := a.extractLsb' 2 12

/-- `RAM_64KB`. -/
structure Ram64KB where
  bank : BitVec 2 → Ram4k32
  ramWstrb : BitVec 2 → BitVec 4
  ramWstrbR : BitVec 2 → BitVec 4
  ramReady1 : Bool
  ramReady2 : Bool
  memValidReg : Bool
  memAddrReg0 : BitVec 32
  memAddrReg1 : BitVec 32
  ramRdataReg0 : BitVec 2 → BitVec 32
  memReady : Bool
  memRdata : BitVec 32

namespace Ram64KB

/-- `ram_wstrb0_w` .. `ram_wstrb3_w`. -/
def ramWstrbW (p : MemPort) (b : BitVec 2) : BitVec 4 := if bankOf p.addr = b then p.wstrb else 0

def memReadyW (r : Ram64KB) (p : MemPort) : Bool := if p.wstrb ≠ 0 then r.ramReady1 else r.ramReady2

def memRdataW (r : Ram64KB) : BitVec 32 := r.ramRdataReg0 (bankOf r.memAddrReg1)

/-- The registers and block RAMs that `resetn` does not touch, after one edge. -/
def stepData (r : Ram64KB) (p : MemPort) : Ram64KB :=
  { r with
    bank := fun b => (r.bank b).step (offsetOf p.addr) p.wdata (r.ramWstrb b) p.valid
    ramWstrbR := ramWstrbW p
    ramWstrb := fun b => if r.memValidReg then r.ramWstrbR b else 0
    ramRdataReg0 := fun b => (r.bank b).dout
    memRdata := r.memRdataW
    memReady := r.memReadyW p }

def step (r : Ram64KB) (p : MemPort) : Ram64KB :=
  { r.stepData p with
    -- the one-shot: set at the start of a request, and cleared after one cycle whatever else
    ramReady1 := if r.ramReady1 then false else if p.valid && !r.memValidReg then true else r.ramReady1
    memValidReg := p.valid
    ramReady2 := r.ramReady1
    memAddrReg0 := p.addr
    memAddrReg1 := r.memAddrReg0 }

def resetStep (r : Ram64KB) (p : MemPort) : Ram64KB :=
  { r.stepData p with
    ramReady2 := false
    ramReady1 := false
    memValidReg := false
    memAddrReg0 := 0
    memAddrReg1 := 0 }

def blank : Ram64KB where
  bank := fun _ => ⟨fun _ => ⟨fun _ => 0, 0⟩⟩
  ramWstrb := fun _ => 0
  ramWstrbR := fun _ => 0
  ramReady1 := false
  ramReady2 := false
  memValidReg := false
  memAddrReg0 := 0
  memAddrReg1 := 0
  ramRdataReg0 := fun _ => 0
  memReady := false
  memRdata := 0

end Ram64KB

end Picorv32Soc
