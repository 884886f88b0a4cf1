import Picorv32Soc.CpuMemory

/-!
# Registers as the CPU sees them

The registers that keep what the CPU stores in them (`Reg`), at the addresses `riscvdma.h` gives: the
descriptors and the enable bit of the DMA controller, and the output port. A load should find what was
stored last, and a store should change no other register (`Registers.Consistent`). It is so for all of
them but one: the output port has no leg in the multiplexer of `mem_rdata`, so its loads find 0
(`registers_consistent_iff`).

The peripherals follow the CPU as in `Picorv32Soc.CpuMemory`. Here the heap memory is left alone, so
nothing is asked of the DMA traffic.
-/

namespace Picorv32Soc

/-- The registers that keep what is stored in them. -/
inductive Reg
  | rxBdAdr (k : BitVec 3)
  | txBdAdr (k : BitVec 3)
  | txBdLen (k : BitVec 3)
  | enableDma
  | ioInt
deriving DecidableEq, Repr

namespace Reg

def addr : Reg → BitVec 32
  | .rxBdAdr k => 0x80000040 + 4 * k.setWidth 32
  | .txBdAdr k => 0x80000080 + 4 * k.setWidth 32
  | .txBdLen k => 0x800000a0 + 4 * k.setWidth 32
  | .enableDma => 0x800000c0
  | .ioInt => 0x80010040

/-- The peripheral. -/
def home : Reg → BitVec 16
  | .ioInt => 0x8001
  | _ => 0x8000

/-- `addr[7:2]`. -/
def sel : Reg → BitVec 6
  | .rxBdAdr k => 2#3 ++ k
  | .txBdAdr k => 4#3 ++ k
  | .txBdLen k => 5#3 ++ k
  | .enableDma => 0x30
  | .ioInt => 0x10

/-- What the register keeps of a word. -/
def cut (r : Reg) (v : BitVec 32) : BitVec 32 :=
  match r with
  | .enableDma => v &&& 1
  | .ioInt => v &&& 0xf
  | _ => v

theorem low_four (v : BitVec 32) : (v.setWidth 4).setWidth 32 = v &&& 0xf := by
  apply BitVec.eq_of_toNat_eq
  rw [BitVec.toNat_setWidth, BitVec.toNat_setWidth, BitVec.toNat_and]
  show _ = v.toNat &&& (2 ^ 4 - 1)
  rw [Nat.and_two_pow_sub_one_eq_mod]
  omega

/-- Which register has the place `sel` in the window `hi`. -/
def decode (hi : BitVec 16) (sel : BitVec 6) : Option Reg :=
  if hi = 0x8001 then some .ioInt
  else if sel.extractLsb' 3 3 = 2 then some (.rxBdAdr (sel.extractLsb' 0 3))
  else if sel.extractLsb' 3 3 = 4 then some (.txBdAdr (sel.extractLsb' 0 3))
  else if sel.extractLsb' 3 3 = 5 then some (.txBdLen (sel.extractLsb' 0 3))
  else some .enableDma

theorem decode_sel (r : Reg) : decode r.home r.sel = some r := by
  cases r with
  | rxBdAdr k | txBdAdr k | txBdLen k => revert k; decide
  | enableDma | ioInt => decide

theorem decode_addr (r : Reg) : region r.addr = r.home ∧ r.addr.extractLsb' 2 6 = r.sel := by
  cases r with
  | rxBdAdr k | txBdAdr k | txBdLen k => revert k; decide
  | enableDma | ioInt => decide

end Reg

namespace MemPort
open Dmac.Regs
variable {p : MemPort} {r : Reg}

/-- The request names the register; the peripherals look at the address bits 31 to 16 and 7 to 2. -/
def names (p : MemPort) (r : Reg) : Bool :=
  region p.addr == region r.addr && p.addr.extractLsb' 2 6 == r.addr.extractLsb' 2 6

/-- The register after a request, `v` before it. -/
def put (p : MemPort) (r : Reg) (v : BitVec 32) : BitVec 32 := if p.names r && p.wstrb == 0xf then r.cut p.wdata else v

theorem names_eq : p.names r = (region p.addr == r.home && sel p == r.sel) := by
  rw [names, r.decode_addr.1, r.decode_addr.2]
  rfl

theorem region_of_names (h : p.names r = true) : region p.addr = r.home := by
  rw [names_eq, Bool.and_eq_true, beq_iff_eq] at h
  exact h.1

theorem region_of_select {hi : BitVec 16} (h : (p.select hi).valid = true) : region (p.select hi).addr = hi := by
  rw [select, Bool.and_eq_true, beq_iff_eq] at h
  exact h.2

theorem put_of_region_ne (h : region p.addr ≠ r.home) (v : BitVec 32) : p.put r v = v := by
  rw [put, names_eq, beq_eq_false_iff_ne.2 h]
  rfl

theorem group_eq (p : MemPort) : group p = (sel p).extractLsb' 3 3 := by
  unfold group sel
  ext i hi
  simp [← Nat.add_assoc]
  omega

theorem slot_eq (p : MemPort) : slot p = (sel p).extractLsb' 0 3 := by
  unfold slot sel
  ext i hi
  simp
  omega

/-- The decode entries of `DMAC` agree with the addresses of the registers. -/
theorem names_dmac (hp : region p.addr = 0x8000) :
    (∀ k, p.names (.rxBdAdr k) = (group p == 2 && slot p == k)) ∧
      (∀ k, p.names (.txBdAdr k) = (group p == 4 && slot p == k)) ∧
      (∀ k, p.names (.txBdLen k) = (group p == 5 && slot p == k)) ∧
      p.names .enableDma = (sel p == 0x30) := by
  have split (g x : BitVec 3) (y : BitVec 6) : (y == g ++ x) = (y.extractLsb' 3 3 == g && y.extractLsb' 0 3 == x) := by
    revert g x y; decide +kernel
  have names (r : Reg) (hr : r.home = 0x8000) : p.names r = (sel p == r.sel) := by
    rw [names_eq, hp, hr]
    rfl
  refine ⟨fun k => ?_, fun k => ?_, fun k => ?_, names .enableDma rfl⟩
  all_goals
    rw [group_eq, slot_eq, ← split]
    exact names _ rfl

/-- A request names one register. -/
theorem names_inj {r' : Reg} (h : p.names r = true) (h' : p.names r' = true) : r = r' := by
  rw [names_eq, Bool.and_eq_true, beq_iff_eq, beq_iff_eq] at h h'
  apply Option.some.inj
  rw [← r.decode_sel, ← r'.decode_sel, ← h.1, ← h'.1, ← h.2, ← h'.2]

end MemPort

/-! ### A peripheral with registers -/

/-- An edge of the peripheral at `hi` with `q` on the port: `V` are its registers, `flag` says that the
request was there in the last cycle. -/
structure RegEdge (hi : BitVec 16) (q : MemPort) (flag : Bool) (V V' : Reg → BitVec 32) (rdata' : BitVec 32) :
    Prop where
  quiet : q.valid = false ∨ flag = true → ∀ r, r.home = hi → V' r = V r
  access : q.valid = true → flag = false → ∀ r, r.home = hi → V' r = q.put r (V r)
  rdata : q.valid = true → flag = false → ∀ r, r.home = hi → q.names r = true → rdata' = V r

/-- What the registers at `hi` hold in each mode, when the CPU's view of them is `G`. -/
def Mode.values (m : Mode) (flag : Bool) (G : Reg → BitVec 32) (r : Reg) : BitVec 32 :=
  match m with
  | .asked p => if flag then p.put r (G r) else G r
  | .answered p => p.put r (G r)
  | _ => G r

/-- The view after an edge: a store counts from the cycle on in which the CPU sees the answer. -/
def Mode.viewed (m : Mode) (G : Reg → BitVec 32) (r : Reg) : BitVec 32 :=
  match m with
  | .answered p => p.put r (G r)
  | _ => G r

/-- The registers agree with the CPU's view, and a load that is about to be answered has its answer. -/
structure Serves (hi : BitVec 16) (G : Reg → BitVec 32) (m : Mode) (flag ready : Bool) (V : Reg → BitVec 32)
    (rdata : BitVec 32) : Prop where
  values : ∀ r, r.home = hi → V r = m.values flag G r
  rdata : ∀ p, m = .asked p → ready = true → ∀ r, r.home = hi → p.names r = true → rdata = G r

namespace Serves
variable {hi : BitVec 16} {G G' V V' : Reg → BitVec 32} {m m' : Mode} {q : MemPort} {flag flag' ready ready' : Bool}
  {rdata rdata' : BitVec 32}

theorem step (w : Serves hi G m flag ready V rdata) (o : OneShot.In m flag ready) (o' : OneShot.In m' flag' ready')
    (e : RegEdge hi q flag V V' rdata') (hf : flag' = q.valid) (hn : Mode.Step q ready m m')
    (hG : ∀ r, r.home = hi → G' r = m.viewed G r) : Serves hi G' m' flag' ready' V' rdata' := by
  cases hn with
  | rest hq | pause hq | resume hq =>
    refine ⟨fun r hr => ?_, nofun⟩
    rw [e.quiet (.inl hq) r hr, w.values r hr]
    exact (hG r hr).symm
  | ask hq p =>
    rw [hq] at hf
    refine ⟨fun r hr => ?_, fun _ _ hready => ?_⟩
    · rw [e.quiet (.inl hq) r hr, w.values r hr, hf]
      exact (hG r hr).symm
    · rw [show ready' = flag' from o', hf] at hready
      cases hready
  | hold hq hr =>
    have hflag : flag = false := (show ready = flag from o).symm.trans hr
    have hV (r : Reg) (hr : r.home = hi) : V r = G r := by rw [w.values r hr, hflag]; rfl
    have hG (r : Reg) (hr : r.home = hi) : G' r = G r := hG r hr
    refine ⟨fun r hr => ?_, fun p hp _ r hr hname => ?_⟩
    · rw [e.access hq hflag r hr, hV r hr, hf, hq]
      show _ = q.put r (G' r)
      rw [hG r hr]
    · cases hp
      rw [e.rdata hq hflag r hr hname, hV r hr, hG r hr]
  | answer hq hr =>
    have hflag : flag = true := (show ready = flag from o).symm.trans hr
    refine ⟨fun r hr => ?_, nofun⟩
    rw [e.quiet (.inr hflag) r hr, w.values r hr, hflag]
    show q.put r (G r) = q.put r (G' r)
    rw [hG r hr]
    rfl
  | close hq | stored hq | loaded hq =>
    refine ⟨fun r hr => ?_, nofun⟩
    rw [e.quiet (.inr o.1) r hr, w.values r hr]
    exact (hG r hr).symm

theorem value_eq (w : Serves hi G m flag ready V rdata) {r : Reg} (hr : r.home = hi)
    (h : ∀ q, m = .asked q ∨ m = .answered q → q.put r (G r) = G r) : V r = G r := by
  rw [w.values r hr]
  cases m with
  | idle | gap | closed => rfl
  | asked q =>
    show (if flag then _ else _) = _
    rw [h q (.inl rfl), ite_self]
  | answered q => exact h q (.inr rfl)

end Serves

namespace Dmac.Regs
variable {r : Dmac.Regs} {q : MemPort}

def value (r : Dmac.Regs) : Reg → BitVec 32
  | .rxBdAdr k => r.rxBdAdr k
  | .txBdAdr k => r.txBdAdr k
  | .txBdLen k => r.txBdLen k
  | .enableDma => (BitVec.ofBool r.enableDma).setWidth 32
  | .ioInt => 0

/-- One of the eight registers of a group. -/
theorem stepGroup_apply {g k : BitVec 3} {v : BitVec 3 → BitVec 32} {x : Reg} (ha : r.access q = true)
    (hname : q.names x = (group q == g && slot q == k)) (hcut : x.cut q.wdata = q.wdata) :
    r.stepGroup q g v k = q.put x (v k) := by
  rw [stepGroup, store, ha, MemPort.put, hname, hcut, Bool.true_and, Bool.and_comm, Bool.and_right_comm]
  cases (group q == g) && (q.wstrb == 0xf) with
  | false => rfl
  | true =>
    by_cases hs : slot q = k
    · subst hs
      simp
    · simp [hs, Function.update_of_ne (Ne.symm hs)]

theorem value_of_access (g : Ring) (b : Bool) (ha : r.access q = true) (hq : region q.addr = 0x8000) (x : Reg)
    (hx : x.home = 0x8000) : (r.step g b q).value x = q.put x (r.value x) := by
  obtain ⟨hrx, htx, hlen, hen⟩ := MemPort.names_dmac hq
  cases x with
  | rxBdAdr k => exact stepGroup_apply ha (hrx k) rfl
  | txBdAdr k => exact stepGroup_apply ha (htx k) rfl
  | txBdLen k => exact stepGroup_apply ha (hlen k) rfl
  | enableDma =>
    show (BitVec.ofBool (if r.store q && sel q == 0x30 then q.wdata.getLsbD 0 else r.enableDma)).setWidth 32 = _
    rw [store, ha, MemPort.put, hen, Bool.true_and, Bool.and_comm]
    split_ifs
    · exact BitVec.and_one_eq_setWidth_ofBool_getLsbD.symm
    · rfl
  | ioInt => cases hx

theorem value_of_quiet (g : Ring) (b : Bool) (ha : r.access q = false) (x : Reg) :
    (r.step g b q).value x = r.value x := by
  have hs : r.store q = false := by rw [store, ha]; rfl
  have hgroup (n : BitVec 3) (v : BitVec 3 → BitVec 32) : r.stepGroup q n v = v := by
    rw [stepGroup, hs]
    rfl
  cases x with
  | rxBdAdr k => exact congrFun (hgroup 2 _) k
  | txBdAdr k => exact congrFun (hgroup 4 _) k
  | txBdLen k => exact congrFun (hgroup 5 _) k
  | enableDma =>
    show (BitVec.ofBool (if r.store q && sel q == 0x30 then _ else r.enableDma)).setWidth 32 = _
    rw [hs]
    rfl
  | ioInt => rfl

theorem readData_eq (g : Ring) (hq : region q.addr = 0x8000) {x : Reg} (hx : x.home = 0x8000) (hn : q.names x = true) :
    r.readData g q = r.value x := by
  obtain ⟨hrx, htx, hlen, hen⟩ := MemPort.names_dmac hq
  cases x with
  | rxBdAdr k =>
    rw [hrx, Bool.and_eq_true, beq_iff_eq, beq_iff_eq] at hn
    simp [readData, hn.1, hn.2, value]
  | txBdAdr k =>
    rw [htx, Bool.and_eq_true, beq_iff_eq, beq_iff_eq] at hn
    simp [readData, hn.1, hn.2, value]
  | txBdLen k =>
    rw [hlen, Bool.and_eq_true, beq_iff_eq, beq_iff_eq] at hn
    simp [readData, hn.1, hn.2, value]
  | enableDma =>
    rw [hen, beq_iff_eq] at hn
    simp [readData, MemPort.group_eq, hn, value]
  | ioInt => cases hx

theorem regEdge (r : Dmac.Regs) (g : Ring) (b : Bool) (hq : q.valid = true → region q.addr = 0x8000) :
    RegEdge 0x8000 q r.memValidReg r.value (r.step g b q).value (r.step g b q).memRdata where
  quiet := fun h x _ => value_of_quiet g b (by rcases h with h | h <;> simp [access, h]) x
  access := fun hv hf x hx => value_of_access g b (by simp [access, hv, hf]) (hq hv) x hx
  rdata := fun hv hf x hx hn => by
    show (if r.access q then r.readData g q else r.memRdata) = _
    rw [show r.access q = true by simp [access, hv, hf], if_pos rfl, readData_eq g (hq hv) hx hn]

end Dmac.Regs

namespace Io

def value (o : Io) : Reg → BitVec 32
  | .ioInt => o.ioInt.setWidth 32
  | _ => 0

theorem regEdge (o : Io) {q : MemPort} (hq : q.valid = true → region q.addr = 0x8001) :
    RegEdge 0x8001 q o.memValidReg o.value (o.step q).value (o.step q).memRdata := by
  have home {x : Reg} (hx : x.home = 0x8001) : x = .ioInt := by
    cases x with
    | ioInt => rfl
    | rxBdAdr | txBdAdr | txBdLen | enableDma => cases hx
  have hname (hv : q.valid = true) : q.names .ioInt = (sel q == 0x10) := by
    rw [MemPort.names_eq, hq hv]
    rfl
  refine ⟨fun h x hx => ?_, fun hv hf x hx => ?_, fun hv hf x hx hn => ?_⟩
  · obtain rfl := home hx
    have ha : o.access q = false := by rcases h with h | h <;> simp [access, h]
    show (if o.access q && sel q == 0x10 && q.wstrb == 0xf then _ else o.ioInt).setWidth 32 = _
    rw [ha]
    rfl
  · obtain rfl := home hx
    show (if o.access q && sel q == 0x10 && q.wstrb == 0xf then q.wdata.setWidth 4 else o.ioInt).setWidth 32 = _
    rw [show o.access q = true by simp [access, hv, hf], MemPort.put, hname hv, Bool.true_and]
    split_ifs
    · exact Reg.low_four q.wdata
    · rfl
  · obtain rfl := home hx
    show (if o.access q && sel q == 0x10 then o.ioInt.setWidth 32 else o.memRdata) = _
    rw [show o.access q = true by simp [access, hv, hf], ← hname hv, hn]
    rfl

end Io

/-! ### The CPU's view -/

/-- What the CPU knows: where it is, and what every register is by the stores that were answered. -/
structure RegView where
  cpu : Cpu
  regs : Reg → BitVec 32

namespace RegView

def observe (i : TopIn) (s : Top) (g : RegView) : RegView where
  cpu := g.cpu.next i.mem s.memReady
  regs := if i.mem.valid && s.memReady then fun r => i.mem.put r (g.regs r) else g.regs

theorem observe_viewed {i : TopIn} {s : Top} {g : RegView} {p : MemPort} (wd : g.cpu.Drives p)
    (ha : g.cpu.Allows i.mem) (once : s.memReady = true → ∃ q, g.cpu = .busy q) {hi : BitVec 16} (r : Reg)
    (hr : r.home = hi) : (g.observe i s).regs r = (g.cpu.mode s.memReady hi).viewed g.regs r := by
  cases hready : s.memReady with
  | false =>
    have hm : (g.observe i s).regs = g.regs := by simp [observe, hready]
    rw [hm]
    cases hmode : g.cpu.mode false hi with
    | answered q => cases Cpu.mode_answered hmode
    | idle | gap | asked | closed => rfl
  | true =>
    obtain ⟨q, hq⟩ := once hready
    rw [hq] at wd ha ⊢
    obtain ⟨rfl, hv⟩ := wd
    have ha : i.mem = p := ha
    have hm : (g.observe i s).regs r = p.put r (g.regs r) := by simp [observe, hready, ha, hv]
    rw [hm, Cpu.mode]
    by_cases hp : region p.addr = hi
    · rw [if_pos hp]
      rfl
    · rw [if_neg hp, MemPort.put_of_region_ne (hr ▸ hp)]
      rfl

/-- A request for one register leaves the others. -/
theorem observe_of_ne {i : TopIn} {s : Top} {g : RegView} {r r' : Reg} (hne : r ≠ r') (hn : i.mem.names r = true) :
    (g.observe i s).regs r' = g.regs r' := by
  have hn' : i.mem.names r' = false := by
    rw [← Bool.not_eq_true]
    exact fun h => hne (MemPort.names_inj hn h)
  have hput : i.mem.put r' (g.regs r') = g.regs r' := by
    rw [MemPort.put, hn']
    rfl
  show (if i.mem.valid && s.memReady then fun r => i.mem.put r (g.regs r) else g.regs) r' = _
  split_ifs
  exacts [hput, rfl]

end RegView

namespace Top
variable {s : Top} {g : RegView} {i : TopIn} {p : MemPort}

/-- What a register holds. -/
def regValue (s : Top) (r : Reg) : BitVec 32 := if r.home = 0x8001 then s.gpio.value r else s.sys.dmac.regs.value r

/-- The CPU's view along a run; every register is 0 at first. -/
def regView (inp : Nat → TopIn) (s : Top) : Nat → RegView :=
  Clocked.watch RegView.observe step inp s ⟨.free, fun _ => 0⟩

/-- What the CPU may rely on in a cycle. -/
structure RegConsistent (i : TopIn) (s : Top) (g : RegView) : Prop where
  /-- a load is answered with what was stored last -/
  load : s.memReady = true → i.mem.valid = true → i.mem.wstrb = 0 → ∀ r, i.mem.names r = true → s.memRdata = g.regs r
  /-- a register holds what was stored in it last, but for a store to it that is not answered yet -/
  store : ∀ r, (∀ p, g.cpu = .busy p → p.names r = false) → s.regValue r = g.regs r

/-- The heap's leg of the multiplexer is not taken for another region. -/
theorem muxHeapValid_away (w : s.Ports p) (hr : region p.addr ≠ 0x0001) :
    (!s.sys.mux.busReady && s.muxHeapValid) = false := by
  cases hb : s.sys.mux.busReady with
  | true => rfl
  | false => rw [muxHeapValid_eq hb, w.heap, MemPort.select_ne hr]; rfl

theorem memRdataO_dma (w : s.Ports p) (hv : p.valid = true) (hr : region p.addr = 0x8000) :
    s.memRdataO = s.sys.dmac.regs.memRdata := by
  have hheap := muxHeapValid_away w (by rw [hr]; decide)
  simp [memRdataO, w.text, w.uart, w.dma, hheap, MemPort.select, hv, hr]

/-- The output port has no leg in the multiplexer. -/
theorem memRdataO_io (w : s.Ports p) (hv : p.valid = true) (hr : region p.addr = 0x8001) : s.memRdataO = 0 := by
  have hheap := muxHeapValid_away w (by rw [hr]; decide)
  simp [memRdataO, w.text, w.uart, w.dma, hheap, MemPort.select, hv, hr]

/-- The peripheral of the register had a request in the last cycle. -/
def flagOf (s : Top) (r : Reg) : Bool := if r.home = 0x8001 then s.gpio.memValidReg else s.sys.dmac.regs.memValidReg

theorem flagOf_step (w : s.Ports p) (i : TopIn) (r : Reg) : (Top.step i s).flagOf r = (p.select r.home).valid := by
  cases r with
  | ioInt => exact congrArg MemPort.valid w.io
  | rxBdAdr | txBdAdr | txBdLen | enableDma => exact congrArg MemPort.valid w.dma

/-- Every peripheral is in the mode the CPU's view says, the heap memory without a request. -/
structure RegInv (p : MemPort) (s : Top) (g : RegView) : Prop where
  ports : s.Ports p
  drives : g.cpu.Drives p
  away : p.valid = true → region p.addr ≠ 0x0001
  once : s.memReady = true → ∃ q, g.cpu = .busy q
  text : s.textRam.In (fun _ => False) (fun _ => 0) (g.cpu.mode s.memReady 0x0000)
  uart : OneShot.In (g.cpu.mode s.memReady 0x8002) s.uartTop.memReadyR s.uartTop.memReady
  io : OneShot.In (g.cpu.mode s.memReady 0x8001) s.gpio.memValidReg s.gpio.memReady
  dma : OneShot.In (g.cpu.mode s.memReady 0x8000) s.sys.dmac.regs.memValidReg s.sys.dmac.regs.memReady
  ioRegs : Serves 0x8001 g.regs (g.cpu.mode s.memReady 0x8001) s.gpio.memValidReg s.gpio.memReady s.gpio.value
    s.gpio.memRdata
  dmaRegs : Serves 0x8000 g.regs (g.cpu.mode s.memReady 0x8000) s.sys.dmac.regs.memValidReg
    s.sys.dmac.regs.memReady s.sys.dmac.regs.value s.sys.dmac.regs.memRdata
  rdata : s.memReady = true → ∀ q, g.cpu = .busy q → q.wstrb = 0 → ∀ r, q.names r = true →
    s.memRdata = if r = .ioInt then 0 else g.regs r

namespace RegInv

theorem readyOf_of_answered (w : RegInv p s g) {hi : BitVec 16} (hm : (g.cpu.mode s.memReady hi).Answered) :
    s.readyOf hi = false := by
  unfold readyOf
  split_ifs with h0 h1 h2 h3 h4
  · subst h0; exact w.text.memReady_of_answered hm
  · subst h1
    -- the CPU has made no request of the heap memory
    have hd := w.drives
    cases hc : g.cpu with
    | free | gap => rw [hc] at hm; exact hm.elim
    | busy q | done q =>
      rw [hc] at hd hm
      obtain ⟨rfl, hv⟩ := hd
      rw [Cpu.mode, if_neg (w.away hv)] at hm
      exact hm.elim
  · subst h2; exact w.io.ready_of_answered hm
  · subst h3; exact w.dma.ready_of_answered hm
  · subst h4; exact w.uart.ready_of_answered hm
  · rfl

theorem pending (w : RegInv p s g) (hr : s.memReadyO = true) :
    g.cpu = .busy p ∧ p.valid = true ∧ s.memReady = false ∧ s.readyOf (region p.addr) = true :=
  w.ports.pending w.drives (fun _ hm => w.readyOf_of_answered hm) hr

/-- What a load is about to be answered with. -/
theorem memRdataO (w : RegInv p s g) (hr : s.memReadyO = true) {r : Reg} (hn : p.names r = true) :
    s.memRdataO = if r = .ioInt then 0 else g.regs r := by
  obtain ⟨hc, hv, hnr, hready⟩ := w.pending hr
  have hreg := MemPort.region_of_names hn
  by_cases hio : r = .ioInt
  · subst hio
    rw [memRdataO_io w.ports hv hreg, if_pos rfl]
  · have hhome : r.home = 0x8000 := by
      cases r with
      | ioInt => exact absurd rfl hio
      | rxBdAdr | txBdAdr | txBdLen | enableDma => rfl
    rw [hhome] at hreg
    rw [memRdataO_dma w.ports hv hreg, if_neg hio]
    have hask : g.cpu.mode s.memReady 0x8000 = .asked p := by
      rw [hc, hnr, Cpu.mode, if_pos hreg]
      rfl
    rw [hreg] at hready
    exact w.dmaRegs.rdata p hask hready r hhome hn

theorem step (w : RegInv p s g) (ha : g.cpu.Allows i.mem) (haway : i.mem.valid = true → region i.mem.addr ≠ 0x0001) :
    RegInv i.mem (Top.step i s) (g.observe i s) := by
  have hn (hi : BitVec 16) : Mode.Step (p.select hi) (s.readyOf hi) (g.cpu.mode s.memReady hi)
      ((g.observe i s).cpu.mode (Top.step i s).memReady hi) := by
    show Mode.Step _ _ _ (Cpu.mode _ s.memReadyO hi)
    rw [memReadyO_eq w.ports]
    exact Cpu.mode_step w.drives w.once s.readyOf hi
  have hG (hi : BitVec 16) (r : Reg) (hr : r.home = hi) :
      (g.observe i s).regs r = (g.cpu.mode s.memReady hi).viewed g.regs r :=
    RegView.observe_viewed w.drives ha w.once r hr
  have htext := hn 0x0000
  have hio := hn 0x8001
  have hdma := hn 0x8000
  have huart := hn 0x8002
  rw [← w.ports.text] at htext
  rw [← w.ports.io] at hio
  rw [← w.ports.dma] at hdma
  rw [← w.ports.uart] at huart
  have hioAddr : s.io.valid = true → region s.io.addr = 0x8001 := by
    rw [w.ports.io]
    exact MemPort.region_of_select
  have hdmaAddr : s.dma.valid = true → region s.dma.addr = 0x8000 := by
    rw [w.ports.dma]
    exact MemPort.region_of_select
  have wio := w.io.step (Io.edge _ _) hio
  have wdma := w.dma.step (Dmac.Regs.edge s.dma s.sys.dmac.regs s.sys.dmac.ring s.sys.dmac.out.txStaReady) hdma
  exact {
    ports := ⟨rfl, rfl, rfl, rfl, rfl⟩
    drives := w.drives.next ha w.once
    away := haway
    once := fun hr => by
      obtain ⟨hc, -, hnr, -⟩ := w.pending hr
      exact ⟨p, by rw [RegView.observe, hc, hnr]; rfl⟩
    text := w.text.step htext fun x hx => hx.elim
    uart := w.uart.step (UartTop.edge ⟨s.uart, i.txFifoFull, i.rxByte⟩ _) huart
    io := wio
    dma := wdma
    ioRegs := w.ioRegs.step w.io wio (s.gpio.regEdge hioAddr) rfl hio (hG 0x8001)
    dmaRegs := w.dmaRegs.step w.dma wdma (s.sys.dmac.regs.regEdge _ _ hdmaAddr) rfl hdma (hG 0x8000)
    rdata := fun hr q hq _ r hname => by
      obtain ⟨hc, -, hnr, -⟩ := w.pending hr
      obtain rfl : p = q := by
        rw [RegView.observe, hc, hnr] at hq
        cases hq; rfl
      have hregs : (g.observe i s).regs = g.regs := by simp [RegView.observe, hnr]
      rw [hregs]
      exact w.memRdataO hr hname }

theorem regValue (w : RegInv p s g) {r : Reg} (hq : ∀ q, g.cpu = .busy q → q.names r = false) :
    s.regValue r = g.regs r := by
  have hput {hi : BitVec 16} (q : MemPort)
      (hm : g.cpu.mode s.memReady hi = .asked q ∨ g.cpu.mode s.memReady hi = .answered q) :
      q.put r (g.regs r) = g.regs r := by
    rw [MemPort.put, hq q (Cpu.busy_of_mode hm).1]
    rfl
  unfold Top.regValue
  split_ifs with hio
  · exact w.ioRegs.value_eq hio hput
  · refine w.dmaRegs.value_eq ?_ hput
    cases r with
    | ioInt => exact absurd rfl hio
    | rxBdAdr | txBdAdr | txBdLen | enableDma => rfl

/-- The loads of the output port are the only ones that go wrong. -/
theorem consistent_iff (w : RegInv p s g) (ha : g.cpu.Allows i.mem) :
    RegConsistent i s g ↔
      (s.memReady = true → i.mem.valid = true → i.mem.wstrb = 0 → i.mem.names .ioInt = true → g.regs .ioInt = 0) := by
  have hbusy : s.memReady = true → g.cpu = .busy i.mem := fun hr => by
    obtain ⟨q, hq⟩ := w.once hr
    rw [hq] at ha ⊢
    rw [show i.mem = q from ha]
  constructor
  · intro c hr hv hw hn
    rw [← c.load hr hv hw .ioInt hn]
    exact w.rdata hr i.mem (hbusy hr) hw .ioInt hn
  · refine fun h => ⟨fun hr hv hw r hn => ?_, fun r hq => w.regValue hq⟩
    rw [w.rdata hr i.mem (hbusy hr) hw r hn]
    split_ifs with hio
    · subst hio
      exact (h hr hv hw hn).symm
    · rfl

theorem oneShot (w : RegInv p s g) (r : Reg) :
    OneShot.In (g.cpu.mode s.memReady r.home) (s.flagOf r) (s.readyOf r.home) := by
  cases r with
  | ioInt => exact w.io
  | rxBdAdr | txBdAdr | txBdLen | enableDma => exact w.dma

/-- A request that is on the port is answered with the next edge if the peripheral has seen it. -/
theorem memReadyO_of_busy (w : RegInv p s g) (hc : g.cpu = .busy p) (hnr : s.memReady = false) {r : Reg}
    (hn : p.names r = true) : s.memReadyO = s.flagOf r := by
  have hd := w.drives
  rw [hc] at hd
  have hreg := MemPort.region_of_names hn
  have ho := w.oneShot r
  rw [hc, hnr, Cpu.mode, if_pos hreg] at ho
  rw [memReadyO_eq w.ports, hd.2, hreg]
  exact ho

end RegInv

theorem AfterReset.regInv {sched : List (Nat × Frame)} (hr : s.AfterReset sched) :
    ∃ p, RegInv p s ⟨.free, fun _ => 0⟩ := by
  have hready := hr.memReady
  obtain ⟨inp, s₀, hv, -, -, rfl⟩ := hr
  refine ⟨(inp 4).mem, {
    ports := ⟨rfl, rfl, rfl, rfl, rfl⟩
    drives := hv 4
    away := fun h => by rw [hv 4] at h; cases h
    once := fun e => by rw [hready] at e; cases e
    text := ⟨⟨rfl, rfl, fun x hx => hx.elim⟩, .inl rfl⟩
    uart := rfl
    io := rfl
    dma := rfl
    ioRegs := ⟨fun r _ => ?_, nofun⟩
    dmaRegs := ⟨fun r _ => ?_, nofun⟩
    rdata := fun e => by rw [hready] at e; cases e }⟩
  · cases r <;> rfl
  · cases r <;> rfl

section
variable {sched : List (Nat × Frame)} {inp : Nat → TopIn} {n t : Nat}

theorem run_regInv (hr : s.AfterReset sched) (hcpu : ∀ k ≤ n, (regView inp s k).cpu.Allows (inp k).mem)
    (haway : ∀ k ≤ n, (inp k).mem.valid = true → region (inp k).mem.addr ≠ 0x0001) :
    ∀ k ≤ n, ∃ p, RegInv p (run inp s k) (regView inp s k) :=
  Clocked.watch_inv_le (P := fun s g => ∃ p, RegInv p s g) hr.regInv fun k hk ⟨_, w⟩ =>
    ⟨_, w.step (hcpu k hk.le) (haway k hk.le)⟩

/-- A request to one of the registers is answered in the third cycle. -/
theorem answered_in_three (hr : s.AfterReset sched) (hcpu : ∀ k ≤ n, (regView inp s k).cpu.Allows (inp k).mem)
    (haway : ∀ k ≤ n, (inp k).mem.valid = true → region (inp k).mem.addr ≠ 0x0001) (ht : t + 3 ≤ n)
    (hfree : (regView inp s t).cpu = .free) (hv : (inp t).mem.valid = true) {r : Reg}
    (hn : (inp t).mem.names r = true) :
    (inp (t + 3)).mem = (inp t).mem ∧ (run inp s (t + 3)).memReady = true := by
  obtain ⟨p₀, w₀⟩ := run_regInv hr hcpu haway t (by omega)
  have w₁ : RegInv (inp t).mem (run inp s (t + 1)) (regView inp s (t + 1)) :=
    w₀.step (hcpu t (by omega)) (haway t (by omega))
  have w₂ : RegInv (inp (t + 1)).mem (run inp s (t + 2)) (regView inp s (t + 2)) :=
    w₁.step (hcpu (t + 1) (by omega)) (haway (t + 1) (by omega))
  have hquiet : p₀.valid = false := by
    have hd := w₀.drives
    rwa [hfree] at hd
  -- the request reaches the decode registers
  have hready₁ : (run inp s (t + 1)).memReady = false := by
    show (run inp s t).memReadyO = false
    rw [memReadyO_eq w₀.ports, hquiet]
    rfl
  have hcpu₁ : (regView inp s (t + 1)).cpu = .busy (inp t).mem := by
    have hready := Cpu.memReady_free (hfree ▸ w₀.once)
    show (regView inp s t).cpu.next (inp t).mem (run inp s t).memReady = _
    rw [hfree, hready, Cpu.next, hv]
    rfl
  have hsame₁ : (inp (t + 1)).mem = (inp t).mem := by
    have ha := hcpu (t + 1) (by omega)
    rwa [hcpu₁] at ha
  -- the peripheral sees it
  have hready₂ : (run inp s (t + 2)).memReady = false := by
    show (run inp s (t + 1)).memReadyO = false
    rw [w₁.memReadyO_of_busy hcpu₁ hready₁ hn]
    exact (flagOf_step w₀.ports _ r).trans (MemPort.select_invalid hquiet _)
  have hcpu₂ : (regView inp s (t + 2)).cpu = .busy (inp (t + 1)).mem := by
    show (regView inp s (t + 1)).cpu.next (inp (t + 1)).mem (run inp s (t + 1)).memReady = _
    rw [hcpu₁, hready₁, hsame₁]
    rfl
  -- and answers
  have hready₃ : (run inp s (t + 3)).memReady = true := by
    show (run inp s (t + 2)).memReadyO = true
    rw [w₂.memReadyO_of_busy hcpu₂ hready₂ (by rwa [hsame₁])]
    refine (flagOf_step w₁.ports _ r).trans ?_
    rw [MemPort.select, hv, MemPort.region_of_names hn, beq_self_eq_true]
    rfl
  have hcpu₃ : (regView inp s (t + 3)).cpu = .busy (inp (t + 1)).mem := by
    show (regView inp s (t + 2)).cpu.next (inp (t + 2)).mem (run inp s (t + 2)).memReady = _
    rw [hcpu₂, hready₂]
    rfl
  have ha := hcpu (t + 3) ht
  rw [hcpu₃] at ha
  exact ⟨(show (inp (t + 3)).mem = _ from ha).trans hsame₁, hready₃⟩

/-- **When the registers are as the CPU stored them.** The CPU keeps to the rules of its port up to cycle
`n` and leaves the heap memory alone; frames come and go. Every request to a register is answered, and
the answers are right but for a load of the output port that should find something else than 0; a
request for one register leaves the others. -/
theorem registers_consistent_iff (hr : s.AfterReset sched)
    (hcpu : ∀ k ≤ n, (regView inp s k).cpu.Allows (inp k).mem)
    (haway : ∀ k ≤ n, (inp k).mem.valid = true → region (inp k).mem.addr ≠ 0x0001) (ht : t ≤ n) :
    (RegConsistent (inp t) (run inp s t) (regView inp s t) ↔
      ((run inp s t).memReady = true → (inp t).mem.valid = true → (inp t).mem.wstrb = 0 →
        (inp t).mem.names .ioInt = true → (regView inp s t).regs .ioInt = 0)) ∧
    (t + 3 ≤ n → (regView inp s t).cpu = .free → (inp t).mem.valid = true → ∀ r, (inp t).mem.names r = true →
      (inp (t + 3)).mem = (inp t).mem ∧ (run inp s (t + 3)).memReady = true) ∧
    (∀ r r', r ≠ r' → (inp t).mem.names r = true → (regView inp s (t + 1)).regs r' = (regView inp s t).regs r') := by
  obtain ⟨p, w⟩ := run_regInv hr hcpu haway t ht
  exact ⟨w.consistent_iff (hcpu t ht), fun h3 hfree hv r hn => answered_in_three hr hcpu haway h3 hfree hv hn,
    fun r r' hne hn => RegView.observe_of_ne hne hn⟩

/-- The CPU stores to `rx_BD_adr_3` and to the output port, and loads both again. -/
def storeLoadRegs (t : Nat) : TopIn :=
  { still with
    mem :=
      if t ≤ 3 then .store 0x8000004c 0x00018000
      else if 6 ≤ t ∧ t ≤ 9 then .store 0x80010040 0xa5
      else if 12 ≤ t ∧ t ≤ 15 then .load 0x8000004c
      else if 17 ≤ t ∧ t ≤ 20 then .load 0x80010040
      else .idle }

theorem registers_consistent_iff_rxBdAdr :
    (RegConsistent (storeLoadRegs 15) (run storeLoadRegs (start []) 15) (regView storeLoadRegs (start []) 15) ↔
      ((run storeLoadRegs (start []) 15).memReady = true → (storeLoadRegs 15).mem.valid = true →
        (storeLoadRegs 15).mem.wstrb = 0 → (storeLoadRegs 15).mem.names .ioInt = true →
          (regView storeLoadRegs (start []) 15).regs .ioInt = 0)) ∧
    (run storeLoadRegs (start []) 15).memRdata = 0x00018000 :=
  ⟨(registers_consistent_iff (n := 15) (start_afterReset []) (by decide +kernel) (by decide +kernel) le_rfl).1,
    by decide +kernel⟩

/-- The load of the output port finds 0 instead of 5. -/
theorem output_port_reads_zero :
    (∀ k ≤ 20, (regView storeLoadRegs (start []) k).cpu.Allows (storeLoadRegs k).mem) ∧
    (storeLoadRegs 20).mem = .load 0x80010040 ∧ (run storeLoadRegs (start []) 20).memReady = true ∧
    (run storeLoadRegs (start []) 20).memRdata = 0 ∧ (regView storeLoadRegs (start []) 20).regs .ioInt = 5 ∧
    ¬ RegConsistent (storeLoadRegs 20) (run storeLoadRegs (start []) 20) (regView storeLoadRegs (start []) 20) := by
  refine ⟨by decide +kernel, by decide +kernel, by decide +kernel, by decide +kernel, by decide +kernel, fun c => ?_⟩
  have hload := c.load (by decide +kernel) (by decide +kernel) (by decide +kernel) .ioInt (by decide +kernel)
  revert hload
  decide +kernel

end

end Top

end Picorv32Soc
