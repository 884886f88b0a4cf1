import Picorv32Soc.PortModes

/-!
# Memory as the CPU sees it

Every request the CPU makes through `top` is answered once, a load finds what was stored last, and a
store changes the bytes it is meant for: `Top.memory_consistent`. It holds on every run on which each
received frame has two beats or more; a frame of one beat makes the memory answer too early
(`Top.early_answer`).

The state of the CPU's side of the port and the answer register say in which `Mode` each peripheral is
(`Cpu.mode`); an edge of `top` is then an edge of every peripheral (`Cpu.mode_step`).
-/

namespace Picorv32Soc
open Bits

/-! ### Addresses -/

theorem region_toNat (a : BitVec 32) : (region a).toNat = a.toNat / 65536 := by
  have := a.isLt
  simp [region, BitVec.extractLsb'_toNat, Nat.shiftRight_eq_div_pow]
  omega

theorem MemPort.sameWord_iff {p : MemPort} {x : BitVec 32} :
    p.sameWord x = true ↔ region p.addr = region x ∧ p.covers x = true := by
  have hword (a : BitVec 32) : (a.extractLsb' 2 30).toNat = a.toNat / 4 := by
    have := a.isLt
    simp [BitVec.extractLsb'_toNat, Nat.shiftRight_eq_div_pow]
    omega
  rw [sameWord, covers, Bool.and_eq_true, beq_iff_eq, beq_iff_eq, beq_iff_eq, bankOf_eq_iff, offsetOf_eq_iff,
    ← BitVec.toNat_inj, hword, hword, ← BitVec.toNat_inj, region_toNat, region_toNat]
  omega

theorem MemPort.stored_eq {p : MemPort} {x : BitVec 32} (hr : region p.addr = region x) (v : BitVec 8) :
    p.stored x v = if p.writes x then byteLane p.wdata (laneOf x) else v := by
  have : p.sameWord x = p.covers x := by
    rw [Bool.eq_iff_iff, sameWord_iff]
    exact and_iff_right hr
  rw [stored, writes, this]

theorem MemPort.select_self {p : MemPort} : p.select (region p.addr) = p := by
  cases p; simp [select]

theorem MemPort.select_ne {p : MemPort} {hi : BitVec 16} (h : region p.addr ≠ hi) : (p.select hi).valid = false := by
  simp [select, h]

theorem MemPort.select_invalid {p : MemPort} (h : p.valid = false) (hi : BitVec 16) : (p.select hi).valid = false := by
  simp [select, h]

/-! ### The modes of the peripherals -/

namespace Cpu
variable {c : Cpu} {i p : MemPort} {memReady : Bool}

def mode (c : Cpu) (memReady : Bool) (hi : BitVec 16) : Mode :=
  match c with
  | .free => .idle
  | .gap => .gap
  | .busy p => if region p.addr = hi then (if memReady then .answered p else .asked p) else .idle
  | .done p => if region p.addr = hi then .closed p else .idle

theorem mode_answered {hi : BitVec 16} (hm : c.mode memReady hi = .answered p) : memReady = true := by
  cases c with
  | free | gap => cases hm
  | busy q =>
    simp only [mode] at hm
    split_ifs at hm
    assumption
  | done q =>
    simp only [mode] at hm
    split_ifs at hm

theorem busy_of_mode {hi : BitVec 16} (hm : c.mode memReady hi = .asked p ∨ c.mode memReady hi = .answered p) :
    c = .busy p ∧ region p.addr = hi := by
  cases c with
  | free | gap => rcases hm with hm | hm <;> cases hm
  | done q =>
    simp only [mode] at hm
    split_ifs at hm <;> rcases hm with hm | hm <;> cases hm
  | busy q =>
    simp only [mode] at hm
    split_ifs at hm with hr <;> rcases hm with hm | hm <;> cases hm
    · exact ⟨rfl, hr⟩
    · exact ⟨rfl, hr⟩

/-- `p` is what the decode registers hold. -/
def Drives : Cpu → MemPort → Prop
  | .free, p | .gap, p => p.valid = false
  | .busy q, p | .done q, p => p = q ∧ q.valid = true

theorem memReady_free (once : memReady = true → ∃ q, free = .busy q) : memReady = false := by
  cases memReady with
  | false => rfl
  | true => obtain ⟨q, e⟩ := once rfl; cases e

theorem Drives.next (w : c.Drives p) (ha : c.Allows i) (once : memReady = true → ∃ q, c = .busy q) :
    (c.next i memReady).Drives i := by
  cases c with
  | free =>
    have hr := memReady_free once
    rw [next, hr]
    cases hv : i.valid with
    | false => exact hv
    | true => exact ⟨rfl, hv⟩
  | busy q =>
    obtain rfl : i = q := ha
    cases memReady with
    | false => exact ⟨rfl, w.2⟩
    | true => exact ⟨rfl, w.2⟩
  | done q =>
    have hv : i.valid = false := ha
    show (if q.wstrb ≠ 0 then gap else free).Drives i
    split_ifs
    · exact hv
    · exact hv
  | gap => exact ha

/-- An edge of `top` is an edge of every peripheral. -/
theorem mode_step (w : c.Drives p) (once : memReady = true → ∃ q, c = .busy q) (ready : BitVec 16 → Bool)
    (hi : BitVec 16) :
    Mode.Step (p.select hi) (ready hi) (c.mode memReady hi)
      ((c.next i memReady).mode (p.valid && ready (region p.addr)) hi) := by
  cases c with
  | free =>
    have hp : p.valid = false := w
    have hq := MemPort.select_invalid hp hi
    have hr := memReady_free once
    rw [next, hr, hp]
    cases i.valid with
    | false => exact .rest hq
    | true =>
      show Mode.Step _ _ .idle (if region i.addr = hi then .asked i else .idle)
      split_ifs
      · exact .ask hq i
      · exact .rest hq
  | busy q =>
    obtain ⟨rfl, hp⟩ := w
    by_cases hr : region p.addr = hi
    · subst hr
      rw [MemPort.select_self, hp, Bool.true_and]
      cases memReady with
      | true =>
        show Mode.Step _ _ (if _ then .answered p else .idle) (if _ then .closed p else .idle)
        rw [if_pos rfl, if_pos rfl]
        exact .close hp
      | false =>
        show Mode.Step _ _ (if _ then .asked p else .idle) (if _ then (if _ then .answered p else .asked p) else .idle)
        rw [if_pos rfl, if_pos rfl]
        cases he : ready (region p.addr) with
        | true => exact .answer hp rfl
        | false => exact .hold hp rfl
    · have hq := MemPort.select_ne hr
      cases memReady <;> simp only [mode, next, hr, if_false, Bool.false_eq_true, if_true] <;> exact .rest hq
  | done q =>
    obtain ⟨rfl, hp⟩ := w
    by_cases hr : region p.addr = hi
    · subst hr
      rw [MemPort.select_self, next, mode, if_pos rfl]
      by_cases hw : p.wstrb = 0
      · rw [if_neg (not_not.2 hw)]; exact .loaded hp hw
      · rw [if_pos hw]; exact .stored hp
    · have hq := MemPort.select_ne hr
      rw [next, mode, if_neg hr]
      split_ifs
      · exact .pause hq
      · exact .rest hq
  | gap => exact .resume (MemPort.select_invalid w hi)

end Cpu

theorem CpuView.observe_updates {U : BitVec 32 → Prop} {i : TopIn} {s : Top} {g : CpuView} {p : MemPort}
    (wd : g.cpu.Drives p) (ha : g.cpu.Allows i.mem) (once : s.memReady = true → ∃ q, g.cpu = .busy q) (hi : BitVec 16)
    (hU : ∀ x, U x → region x = hi) :
    (g.cpu.mode s.memReady hi).Updates U g.mem (g.observe i s).mem := by
  cases hr : s.memReady with
  | false =>
    have hm : (g.observe i s).mem = g.mem := by simp [observe, hr]
    rw [hm, Mode.updates_iff]
    · exact fun _ _ => rfl
    · intro q hq
      cases Cpu.mode_answered hq
  | true =>
    obtain ⟨q, hq⟩ := once hr
    rw [hq] at wd ha ⊢
    obtain ⟨rfl, hv⟩ := wd
    have ha : i.mem = p := ha
    have hm (x) : (g.observe i s).mem x = if p.writes x then byteLane p.wdata (laneOf x) else g.mem x := by
      simp [observe, hr, ha, hv]
    by_cases hp : region p.addr = hi
    · rw [Cpu.mode, if_pos hp, if_pos rfl]
      intro x hx
      rw [hm]
      exact (MemPort.stored_eq (hp.trans (hU x hx).symm) _).symm
    · rw [Cpu.mode, if_neg hp, Mode.updates_iff (by simp)]
      intro x hx
      have hw : p.sameWord x = false := by
        rw [← Bool.not_eq_true, MemPort.sameWord_iff]
        exact fun e => hp (e.1.trans (hU x hx))
      rw [hm, MemPort.writes, hw]; rfl

/-! ### `top` -/

namespace Top
variable {U : BitVec 32 → Prop} {s : Top} {g : CpuView} {i : TopIn} {p : MemPort}

/-- The decode registers hold `p`. -/
structure Ports (p : MemPort) (s : Top) : Prop where
  text : s.text = p.select 0x0000
  heap : s.heap = p.select 0x0001
  io : s.io = p.select 0x8001
  dma : s.dma = p.select 0x8000
  uart : s.uart = p.select 0x8002

def readyOf (s : Top) (hi : BitVec 16) : Bool :=
  if hi = 0x0000 then s.textRam.memReady
  else if hi = 0x0001 then s.sys.cpuReady
  else if hi = 0x8001 then s.gpio.memReady
  else if hi = 0x8000 then s.sys.dmac.regs.memReady
  else if hi = 0x8002 then s.uartTop.memReady
  else false

theorem muxHeapValid_eq (hb : s.sys.mux.busReady = false) : s.muxHeapValid = s.heap.valid := by
  rw [muxHeapValid, Heap.ramPort_cpu hb]; rfl

theorem memReadyO_eq (w : s.Ports p) : s.memReadyO = (p.valid && s.readyOf (region p.addr)) := by
  have hheap : (!s.sys.mux.busReady && s.muxHeapValid && s.sys.ram.memReady) = (s.heap.valid && s.sys.cpuReady) := by
    cases hb : s.sys.mux.busReady with
    | true => simp [Heap.cpuReady, hb]
    | false => simp [Heap.cpuReady, hb, muxHeapValid_eq hb]
  rw [memReadyO, hheap, w.text, w.heap, w.io, w.dma, w.uart]
  simp only [MemPort.select, readyOf]
  generalize region p.addr = hi
  cases p.valid
  · rfl
  · simp only [Bool.true_and]
    split_ifs with h0 h1 h2 h3 h4
    · subst h0; simp
    · subst h1; simp
    · subst h2; simp
    · subst h3; simp
    · subst h4; simp
    · rw [beq_eq_false_iff_ne.2 h0, beq_eq_false_iff_ne.2 h1, beq_eq_false_iff_ne.2 h2, beq_eq_false_iff_ne.2 h3,
        beq_eq_false_iff_ne.2 h4]
      rfl

/-- An answer is on its way: it is the one to the request that is pending, and the first. -/
theorem Ports.pending {c : Cpu} (w : s.Ports p) (hd : c.Drives p)
    (hquiet : ∀ hi, (c.mode s.memReady hi).Answered → s.readyOf hi = false) (hr : s.memReadyO = true) :
    c = .busy p ∧ p.valid = true ∧ s.memReady = false ∧ s.readyOf (region p.addr) = true := by
  rw [memReadyO_eq w, Bool.and_eq_true] at hr
  obtain ⟨hv, hr⟩ := hr
  have hm : ¬ (c.mode s.memReady (region p.addr)).Answered := fun e => by
    rw [hquiet _ e] at hr; cases hr
  cases c with
  | free | gap =>
    rw [show p.valid = false from hd] at hv
    cases hv
  | done q =>
    obtain ⟨rfl, -⟩ := hd
    rw [Cpu.mode, if_pos rfl] at hm
    exact absurd trivial hm
  | busy q =>
    obtain ⟨rfl, -⟩ := hd
    refine ⟨rfl, hv, ?_, hr⟩
    cases h : s.memReady with
    | false => rfl
    | true =>
      rw [Cpu.mode, if_pos rfl, if_pos h] at hm
      exact absurd trivial hm

theorem memRdataO_text (w : s.Ports p) (hv : p.valid = true) (hr : region p.addr = 0x0000) :
    s.memRdataO = s.textRam.memRdata := by
  simp [memRdataO, w.text, w.uart, MemPort.select, hv, hr]

theorem memRdataO_heap (w : s.Ports p) (hv : p.valid = true) (hr : region p.addr = 0x0001)
    (hb : s.sys.mux.busReady = false) : s.memRdataO = s.sys.ram.memRdata := by
  simp [memRdataO, w.text, w.uart, w.heap, muxHeapValid_eq hb, MemPort.select, hv, hr, hb]

/-! ### The invariant -/

def Within (U : BitVec 32 → Prop) (hi : BitVec 16) (x : BitVec 32) : Prop := U x ∧ region x = hi

/-- Every peripheral is in the mode the CPU's view says. -/
structure Inv (U : BitVec 32 → Prop) (p : MemPort) (s : Top) (g : CpuView) : Prop where
  ports : s.Ports p
  drives : g.cpu.Drives p
  once : s.memReady = true → ∃ q, g.cpu = .busy q
  text : s.textRam.In (Within U 0x0000) g.mem (g.cpu.mode s.memReady 0x0000)
  heap : s.sys.Service (Within U 0x0001) g.mem (Ram64KB.In (Within U 0x0001) g.mem (g.cpu.mode s.memReady 0x0001))
  owned : (g.cpu.mode s.memReady 0x0001).Answered → s.sys.mux.busReady = false
  io : OneShot.In (g.cpu.mode s.memReady 0x8001) s.gpio.memValidReg s.gpio.memReady
  dma : OneShot.In (g.cpu.mode s.memReady 0x8000) s.sys.dmac.regs.memValidReg s.sys.dmac.regs.memReady
  uart : OneShot.In (g.cpu.mode s.memReady 0x8002) s.uartTop.memReadyR s.uartTop.memReady
  rdata : s.memReady = true → ∀ q, g.cpu = .busy q → q.wstrb = 0 → ∀ x, U x → q.sameWord x = true →
    byteLane s.memRdata (laneOf x) = g.mem x

namespace Inv

theorem readyOf_of_answered (w : Inv U p s g) {hi : BitVec 16} (hm : (g.cpu.mode s.memReady hi).Answered) :
    s.readyOf hi = false := by
  unfold readyOf
  split_ifs with h0 h1 h2 h3 h4
  · subst h0; exact w.text.memReady_of_answered hm
  · subst h1
    have hb := w.owned hm
    rw [Heap.cpuReady, (w.heap.cpu hb).memReady_of_answered hm, Bool.and_false]
  · subst h2; exact w.io.ready_of_answered hm
  · subst h3; exact w.dma.ready_of_answered hm
  · subst h4; exact w.uart.ready_of_answered hm
  · rfl

theorem pending (w : Inv U p s g) (hr : s.memReadyO = true) :
    g.cpu = .busy p ∧ p.valid = true ∧ s.memReady = false ∧ s.readyOf (region p.addr) = true :=
  w.ports.pending w.drives (fun _ hm => w.readyOf_of_answered hm) hr

theorem memRdataO (w : Inv U p s g) (hU : ∀ x, U x → x.toNat < 0x20000) (hr : s.memReadyO = true)
    (hp : p.wstrb = 0) {x : BitVec 32} (hx : U x) (hw : p.sameWord x = true) :
    byteLane s.memRdataO (laneOf x) = g.mem x := by
  obtain ⟨hc, hv, hnr, hready⟩ := w.pending hr
  obtain ⟨hreg, hcov⟩ := MemPort.sameWord_iff.1 hw
  have hask {hi : BitVec 16} (h : region p.addr = hi) : g.cpu.mode s.memReady hi = .asked p := by
    rw [hc, hnr, Cpu.mode, if_pos h]; rfl
  have hlt := hU x hx
  have hx01 : region x = 0 ∨ region x = 1 := by
    rw [← BitVec.toNat_inj, ← BitVec.toNat_inj, region_toNat]
    show _ = 0 ∨ _ = 1
    omega
  rcases hx01 with h0 | h1
  · have h0' := hreg.trans h0
    have wt := w.text
    rw [hask h0'] at wt
    rw [h0'] at hready
    rw [memRdataO_text w.ports hv h0']
    exact wt.memRdata hready hp ⟨hx, h0⟩ hcov
  · have h1' := hreg.trans h1
    rw [h1'] at hready
    obtain ⟨hb, hram⟩ : s.sys.mux.busReady = false ∧ s.sys.ram.memReady = true := by
      have : (!s.sys.mux.busReady && s.sys.ram.memReady) = true := hready
      simpa using this
    have wh := w.heap.cpu hb
    rw [hask h1'] at wh
    rw [memRdataO_heap w.ports hv h1' hb]
    exact wh.memRdata hram hp ⟨hx, h1⟩ hcov

theorem step (w : Inv U p s g) (hU : ∀ x, U x → x.toNat < 0x20000) (ha : g.cpu.Allows i.mem)
    (hreq : s.sys.KeepsRequest s.heapIn) (hbuf : s.sys.BufferApart U) :
    Inv U i.mem (Top.step i s) (g.observe i s) := by
  have hn (hi : BitVec 16) : Mode.Step (p.select hi) (s.readyOf hi) (g.cpu.mode s.memReady hi)
      ((g.observe i s).cpu.mode (Top.step i s).memReady hi) := by
    show Mode.Step _ _ _ (Cpu.mode _ s.memReadyO hi)
    rw [memReadyO_eq w.ports]
    exact Cpu.mode_step w.drives w.once s.readyOf hi
  have hup (hi : BitVec 16) : (g.cpu.mode s.memReady hi).Updates (Within U hi) g.mem (g.observe i s).mem :=
    CpuView.observe_updates w.drives ha w.once hi fun x hx => hx.2
  have htext := hn 0x0000
  have hheap := hn 0x0001
  have hio := hn 0x8001
  have hdma := hn 0x8000
  have huart := hn 0x8002
  rw [← w.ports.text] at htext
  rw [← w.ports.heap] at hheap
  rw [← w.ports.io] at hio
  rw [← w.ports.dma] at hdma
  rw [← w.ports.uart] at huart
  have hbuf' : s.sys.BufferApart (Within U 0x0001) := fun hc hw => by
    obtain ⟨h1, h2, h3⟩ := hbuf hc hw
    exact ⟨h1, h2, fun x hx => h3 x hx.1⟩
  obtain ⟨wh, wo⟩ := w.heap.step_in w.owned (i := s.heapIn) hreq hbuf'
    (fun x hx => by rw [← region_toNat, hx.2]; rfl) hheap (hup 0x0001)
  exact {
    ports := ⟨rfl, rfl, rfl, rfl, rfl⟩
    drives := w.drives.next ha w.once
    once := fun hr => by
      obtain ⟨hc, -, hnr, -⟩ := w.pending hr
      exact ⟨p, by rw [CpuView.observe, hc, hnr]; rfl⟩
    text := w.text.step htext (hup 0x0000)
    heap := wh
    owned := wo
    io := w.io.step (Io.edge _ _) hio
    dma := w.dma.step (Dmac.Regs.edge _ _ _ _) hdma
    uart := w.uart.step (UartTop.edge ⟨s.uart, i.txFifoFull, i.rxByte⟩ _) huart
    rdata := fun hr q hq hp x hx hw => by
      obtain ⟨hc, -, hnr, -⟩ := w.pending hr
      obtain rfl : p = q := by
        rw [CpuView.observe, hc, hnr] at hq
        cases hq; rfl
      have hm : (g.observe i s).mem = g.mem := by simp [CpuView.observe, hnr]
      rw [hm]
      exact w.memRdataO hU hr hp hx hw }

theorem ramByte (w : Inv U p s g) {x : BitVec 32} (hU : ∀ x, U x → x.toNat < 0x20000) (hx : U x)
    (hq : ∀ q, g.cpu = .busy q → q.writes x = false) : s.ramByte x = g.mem x := by
  have hst {hi : BitVec 16} (hxi : region x = hi) (q : MemPort)
      (hm : g.cpu.mode s.memReady hi = .asked q ∨ g.cpu.mode s.memReady hi = .answered q) :
      q.stored x (g.mem x) = g.mem x := by
    obtain ⟨hc, hr⟩ := Cpu.busy_of_mode hm
    rw [MemPort.stored_eq (hr.trans hxi.symm), hq q hc]; rfl
  have hlt := hU x hx
  unfold Top.ramByte
  split_ifs with h0
  · exact w.text.byte ⟨hx, h0⟩ (hst h0)
  · have h1 : region x = 1 := by
      rw [← BitVec.toNat_inj, region_toNat] at h0 ⊢
      change ¬ _ = 0 at h0
      show _ = 1
      omega
    cases hb : s.sys.mux.busReady with
    | true => exact w.heap.dma hb x ⟨hx, h1⟩
    | false => exact (w.heap.cpu hb).byte ⟨hx, h1⟩ (hst h1)

end Inv

/-- No request has been on the port during the reset, so no answer is left over. -/
theorem AfterReset.memReady {sched : List (Nat × Frame)} (hr : s.AfterReset sched) : s.memReady = false := by
  obtain ⟨inp, s₀, hv, -, -, rfl⟩ := hr
  have hp : (Clocked.run resetStep inp s₀ 4).Ports (inp 3).mem := ⟨rfl, rfl, rfl, rfl, rfl⟩
  show (Clocked.run resetStep inp s₀ 4).memReadyO = false
  rw [memReadyO_eq hp, hv 3]; rfl

theorem AfterReset.inv {sched : List (Nat × Frame)} (hr : s.AfterReset sched) (hgap : ∀ p ∈ sched.tail, 2 ≤ p.1)
    (hlong : ∀ p ∈ sched, 2 ≤ p.2.beats) : ∃ p, Inv U p s ⟨.free, s.ramByte⟩ := by
  have hready := hr.memReady
  obtain ⟨inp, s₀, hv, hsrc, hpend, rfl⟩ := hr
  have hsys : (Clocked.run resetStep inp s₀ 5).sys.AfterReset sched :=
    ⟨fun t => (Clocked.run resetStep inp s₀ t).heapIn, s₀.sys, hsrc, hpend, rfl⟩
  refine ⟨(inp 4).mem, {
    ports := ⟨rfl, rfl, rfl, rfl, rfl⟩
    drives := hv 4
    once := fun e => by rw [hready] at e; cases e
    text := ⟨⟨rfl, rfl, fun x hx => (if_pos hx.2).symm⟩, .inl rfl⟩
    heap := {
      ctl := ⟨.resting, hsys.ctl hgap, fun e => by cases e⟩
      long := fun f hf => ?_
      dma := fun e => by cases e
      cpu := fun _ => ⟨⟨rfl, rfl, fun x hx => (if_neg (by rw [hx.2]; decide)).symm⟩, .inl rfl⟩ }
    owned := fun e => e.elim
    io := rfl
    dma := rfl
    uart := rfl
    rdata := fun e => by rw [hready] at e; cases e }⟩
  rw [RxSource.todo, hsys.src.1, hsys.src.2] at hf
  obtain ⟨q, hq, rfl⟩ := List.mem_map.1 (show f ∈ sched.map Prod.snd from hf)
  exact hlong q hq

/-! ### Every run -/

/-- What the CPU may rely on in a cycle. -/
structure Consistent (U : BitVec 32 → Prop) (i : TopIn) (s : Top) (g : CpuView) : Prop where
  /-- an answer is one to a request that is on the port and was not answered before -/
  once : s.memReady = true → g.cpu = .busy i.mem
  /-- a load is answered with what was stored last -/
  load : s.memReady = true → i.mem.wstrb = 0 → ∀ x, U x → i.mem.sameWord x = true →
    byteLane s.memRdata (laneOf x) = g.mem x
  /-- the memories hold what was stored last, but for the bytes of a store that is not answered yet -/
  store : ∀ x, U x → (∀ p, g.cpu = .busy p → p.writes x = false) → s.ramByte x = g.mem x

theorem Inv.consistent (w : Inv U p s g) (hU : ∀ x, U x → x.toNat < 0x20000) (ha : g.cpu.Allows i.mem) :
    Consistent U i s g := by
  have hreq : s.memReady = true → g.cpu = .busy i.mem := fun hr => by
    obtain ⟨q, hq⟩ := w.once hr
    rw [hq] at ha ⊢
    rw [show i.mem = q from ha]
  exact ⟨hreq, fun hr => w.rdata hr i.mem (hreq hr), fun x hx => w.ramByte hU hx⟩

/-- Memory consistency. `U` are the bytes the CPU uses: no frame is received into them. Up to cycle `t`
the CPU keeps to the rules of its port and no transmit request is withdrawn. -/
theorem memory_consistent {sched : List (Nat × Frame)} {inp : Nat → TopIn} (hr : s.AfterReset sched)
    (hgap : ∀ p ∈ sched.tail, 2 ≤ p.1) (hlong : ∀ p ∈ sched, 2 ≤ p.2.beats) (hU : ∀ x, U x → x.toNat < 0x20000)
    (t : Nat) (hcpu : ∀ k ≤ t, (view inp s k).cpu.Allows (inp k).mem)
    (hreq : ∀ k < t, (run inp s k).sys.KeepsRequest (run inp s k).heapIn)
    (hbuf : ∀ k < t, (run inp s k).sys.BufferApart U) :
    Consistent U (inp t) (run inp s t) (view inp s t) := by
  have hinv : ∀ k ≤ t, ∃ p, Inv U p (run inp s k) (view inp s k) :=
    Clocked.watch_inv_le (P := fun s g => ∃ p, Inv U p s g) (hr.inv hgap hlong) fun k hk ⟨p, w⟩ =>
      ⟨_, w.step hU (hcpu k hk.le) (hreq k hk) (hbuf k hk)⟩
  obtain ⟨p, w⟩ := hinv t le_rfl
  exact w.consistent hU (hcpu t le_rfl)

/-- The CPU stores a word to the heap memory, gives the controller a buffer, switches it on, and loads
the word again; the load is on the port up to cycle `n`. -/
def storeLoad (n t : Nat) : TopIn :=
  { still with
    mem :=
      if t ≤ 4 then .store 0x00010000 0x55555555
      else if 7 ≤ t ∧ t ≤ 10 then .store 0x80000040 0x00018000
      else if 13 ≤ t ∧ t ≤ 16 then .store 0x800000c0 1
      else if 19 ≤ t ∧ t ≤ n then .load 0x00010000
      else .idle }

theorem bufferApart_of_eq {h : Heap} (hg : h.dmac.cur = .abus → h.nxtState = .write →
    h.dmac.out.heapAddr = 0x00018000 ∧ h.src.cur.nbytes ≤ 60) : h.BufferApart fun x => x.toNat < 0x18000 := by
  intro hc hw
  obtain ⟨ha, hn⟩ := hg hc hw
  have hpos := h.src.cur.nbytes_pos
  rw [ha]
  show (_ ≤ 0x18000 ∧ 0x18000 + _ ≤ _) ∧ 0x18000 / 16384 = (0x18000 + _ - 1) / 16384 ∧
    ∀ x : BitVec 32, x.toNat < 0x18000 → x.toNat < 0x18000 ∨ _
  exact ⟨by omega, by omega, fun x hx => .inl hx⟩

/-- A frame of 60 bytes arrives just before the load. -/
theorem memory_consistent_storeLoad :
    Consistent (fun x => x.toNat < 0x18000) (storeLoad 42 42) (run (storeLoad 42) (start [(0, RxLog.broadcast)]) 42)
      (view (storeLoad 42) (start [(0, RxLog.broadcast)]) 42) ∧
    (run (storeLoad 42) (start [(0, RxLog.broadcast)]) 42).memReady = true ∧
    (run (storeLoad 42) (start [(0, RxLog.broadcast)]) 42).memRdata = 0x55555555 := by
  refine ⟨memory_consistent (start_afterReset _) (by decide) (by decide) (fun x hx => by omega) 42
    (by decide +kernel) ?_ ?_, by decide +kernel, by decide +kernel⟩
  · unfold Heap.KeepsRequest; decide +kernel
  · exact fun k hk => bufferApart_of_eq (by revert k; decide +kernel)

/-- A frame of four bytes. -/
def shortFrame : List (Nat × Frame) := [(0, .ofWords [] 0xffffffff)]

/-- It arrives just before the load: the load is answered with the old contents of the word, and once
more two cycles later, when there is no request. -/
theorem early_answer :
    (start shortFrame).AfterReset shortFrame ∧
    (∀ k ≤ 25, (view (storeLoad 23) (start shortFrame) k).cpu.Allows (storeLoad 23 k).mem) ∧
    (∀ k < 25, (run (storeLoad 23) (start shortFrame) k).sys.KeepsRequest (run (storeLoad 23) (start shortFrame) k).heapIn) ∧
    (∀ k < 25, (run (storeLoad 23) (start shortFrame) k).sys.BufferApart fun x => x.toNat < 0x18000) ∧
    ¬ Consistent (fun x => x.toNat < 0x18000) (storeLoad 23 23) (run (storeLoad 23) (start shortFrame) 23)
      (view (storeLoad 23) (start shortFrame) 23) ∧
    ¬ Consistent (fun x => x.toNat < 0x18000) (storeLoad 23 25) (run (storeLoad 23) (start shortFrame) 25)
      (view (storeLoad 23) (start shortFrame) 25) := by
  refine ⟨start_afterReset _, by decide +kernel, ?_, fun k hk => bufferApart_of_eq (by revert k; decide +kernel),
    fun w => ?_, fun w => ?_⟩
  · unfold Heap.KeepsRequest; decide +kernel
  · have e := w.load (by decide +kernel) (by decide) 0x00010000 (by decide) (by decide)
    revert e; decide +kernel
  · have e := w.once (by decide +kernel)
    revert e; decide +kernel

end Top

end Picorv32Soc
