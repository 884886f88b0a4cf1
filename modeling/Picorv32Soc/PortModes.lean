import Picorv32Soc.HeapService
import Picorv32Soc.Top

/-!
# One request at a time

A peripheral behind the decode registers of `top` sees one request after the other, each of them for
as long as the CPU needs to get the answer. `Mode` is where it is with the request, `Mode.Step` how an
edge moves it on, depending on what is on its port and on whether it answers in this cycle. For each
kind of peripheral there is a predicate by mode, and a lemma that an edge follows `Mode.Step`: the
memory (`Ram64KB.In`), the heap memory behind the arbiter (`Heap.Service` of it), and the registers
that answer a request once (`OneShot`).
-/

namespace Picorv32Soc
open Bits

/-- Where a peripheral is with the CPU's requests. -/
inductive Mode
  /-- no request, and none in the last cycle that would matter -/
  | idle
  /-- no request; the last one was a store and has just ended -/
  | gap
  /-- `p` is on the port -/
  | asked (p : MemPort)
  /-- `p` is still on the port; the CPU sees the answer in this cycle -/
  | answered (p : MemPort)
  /-- `p` is on the port for the last cycle -/
  | closed (p : MemPort)

/-- How an edge moves a peripheral on that has `q` on its port and answers if `ready`. -/
inductive Mode.Step (q : MemPort) (ready : Bool) : Mode → Mode → Prop
  | rest (hq : q.valid = false) : Step q ready .idle .idle
  | ask (hq : q.valid = false) (p : MemPort) : Step q ready .idle (.asked p)
  | pause (hq : q.valid = false) : Step q ready .idle .gap
  | resume (hq : q.valid = false) : Step q ready .gap .idle
  | hold (hq : q.valid = true) (hr : ready = false) : Step q ready (.asked q) (.asked q)
  | answer (hq : q.valid = true) (hr : ready = true) : Step q ready (.asked q) (.answered q)
  | close (hq : q.valid = true) : Step q ready (.answered q) (.closed q)
  | stored (hq : q.valid = true) : Step q ready (.closed q) .gap
  | loaded (hq : q.valid = true) (hw : q.wstrb = 0) : Step q ready (.closed q) .idle

/-- The CPU has the answer, or is about to. -/
def Mode.Answered : Mode → Prop
  | .answered _ | .closed _ => True
  | _ => False

theorem Mode.ne_answered {m : Mode} (hm : ¬ m.Answered) (p : MemPort) : m ≠ .answered p := by
  rintro rfl
  exact hm trivial

namespace Mode.Step
variable {q : MemPort} {ready : Bool} {m m' : Mode}

theorem not_answered_of_idle (hn : Step q ready m m') (hq : q.valid = false) : ¬ m.Answered := by
  cases hn with
  | rest | ask | pause | resume => exact id
  | hold hv | answer hv | close hv | stored hv | loaded hv => rw [hq] at hv; cases hv

theorem not_answered (hn : Step q ready m m') (hm : ¬ m.Answered) (hr : q.valid = false ∨ ready = false) :
    ¬ m'.Answered := by
  cases hn with
  | rest | ask | pause | resume | hold | stored | loaded => exact id
  | answer hq ha =>
    rcases hr with e | e
    · rw [e] at hq; cases hq
    · rw [e] at ha; cases ha
  | close => exact absurd trivial hm

end Mode.Step

/-- The bytes in `U` before and after an edge in the mode `m`: the CPU's store counts from the cycle on
in which it sees the answer. -/
def Mode.Updates (U : BitVec 32 → Prop) (m : Mode) (M M' : BitVec 32 → BitVec 8) : Prop :=
  ∀ x, U x → M' x = match m with | .answered p => p.stored x (M x) | _ => M x

theorem Mode.updates_iff {U : BitVec 32 → Prop} {m : Mode} {M M' : BitVec 32 → BitVec 8} (hm : ∀ p, m ≠ .answered p) :
    m.Updates U M M' ↔ ∀ x, U x → M' x = M x := by
  cases m with
  | idle | gap | asked | closed => exact Iff.rfl
  | answered p => exact absurd rfl (hm p)

/-! ### Memories -/

namespace Ram64KB
variable {U : BitVec 32 → Prop} {M M' : BitVec 32 → BitVec 8} {p q : MemPort} {m m' : Mode} {k : Nat} {r : Ram64KB}

def In (U : BitVec 32 → Prop) (M : BitVec 32 → BitVec 8) : Mode → Ram64KB → Prop
  | .idle, r => r.Idle U M
  | .gap, r => r.Settled U M
  | .asked p, r => ∃ k, k ≤ p.latency ∧ r.Serving U M p k
  | .answered p, r => r.Serving U M p (p.latency + 1)
  | .closed p, r => r.Serving U M p (p.latency + 2) ∧ ∀ x, U x → M x = p.stored x (M x)

theorem Shows.congr (w : r.Shows U M) (h : ∀ x, U x → M' x = M x) : r.Shows U M' := fun x hx =>
  (w x hx).trans (h x hx).symm

theorem Serving.congr (w : r.Serving U M p k) (h : ∀ x, U x → M' x = M x) : r.Serving U M' p k :=
  { w with
    bytes := fun x hx => by rw [w.bytes x hx, h x hx]
    dout := fun hp hk x hx hc => (w.dout hp hk x hx hc).trans (h x hx).symm
    ramRdataReg0 := fun hp hk x hx hc => (w.ramRdataReg0 hp hk x hx hc).trans (h x hx).symm
    memRdata := fun hp hk x hx hc => (w.memRdata hp hk x hx hc).trans (h x hx).symm }

theorem In.congr (w : r.In U M m) (h : ∀ x, U x → M' x = M x) : r.In U M' m := by
  cases m with
  | idle => exact { (show r.Idle U M from w) with bytes := Shows.congr (show r.Idle U M from w).bytes h }
  | gap => exact { (show r.Settled U M from w) with bytes := Shows.congr (show r.Settled U M from w).bytes h }
  | asked p =>
    obtain ⟨k, hk, w⟩ := w
    exact ⟨k, hk, w.congr h⟩
  | answered p => exact Serving.congr w h
  | closed p =>
    refine ⟨w.1.congr h, fun x hx => ?_⟩
    rw [h x hx]; exact w.2 x hx

theorem Fresh.in (w : r.Fresh U M) (hm : ¬ m.Answered) : r.In U M m := by
  cases m with
  | idle => exact w.idle
  | gap => exact w.toSettled
  | asked p => exact ⟨0, Nat.zero_le _, w.serving p⟩
  | answered | closed => exact absurd trivial hm

theorem In.memReady_of_answered (w : r.In U M m) (hm : m.Answered) : r.memReady = false := by
  cases m with
  | idle | gap | asked => exact hm.elim
  | answered p => exact (show r.Serving U M p _ from w).memReady.trans (decide_eq_false (by omega))
  | closed p => exact w.1.memReady.trans (decide_eq_false (by omega))

theorem In.memRdata (w : r.In U M (.asked p)) (hr : r.memReady = true) (hp : p.wstrb = 0) {x : BitVec 32} (hx : U x)
    (hc : p.covers x = true) : byteLane r.memRdata (laneOf x) = M x := by
  obtain ⟨k, -, w⟩ := w
  have hk : k = p.latency := of_decide_eq_true (w.memReady.symm.trans hr)
  exact w.memRdata hp (by rw [hk, MemPort.latency_load hp]) x hx hc

theorem In.byte (w : r.In U M m) {x : BitVec 32} (hx : U x)
    (hq : ∀ q, m = .asked q ∨ m = .answered q → q.stored x (M x) = M x) : r.byte x = M x := by
  cases m with
  | idle => exact (show r.Idle U M from w).bytes x hx
  | gap => exact (show r.Settled U M from w).bytes x hx
  | asked p =>
    obtain ⟨k, -, w⟩ := w
    rw [w.bytes x hx, hq p (.inl rfl), ite_self]
  | answered p => rw [(show r.Serving U M p _ from w).bytes x hx, hq p (.inr rfl), ite_self]
  | closed p => rw [w.1.bytes x hx, ← w.2 x hx, ite_self]

theorem In.settled (w : r.In U M m) (hn : Mode.Step q r.memReady m m') (hq : q.valid = false) :
    r.Settled U M := by
  cases hn with
  | rest | ask | pause => exact (show r.Idle U M from w).toSettled
  | resume => exact w
  | hold hv | answer hv | close hv | stored hv | loaded hv => rw [hq] at hv; cases hv

theorem In.step (w : r.In U M m) (hn : Mode.Step q r.memReady m m') (hM : m.Updates U M M') :
    (r.step q).In U M' m' := by
  cases hn with
  | rest hq => exact In.congr (m := .idle) ((show r.Idle U M from w).step hq).idle hM
  | ask hq p => exact In.congr (((show r.Idle U M from w).step hq).in (m := .asked p) id) hM
  | pause hq => exact In.congr (m := .gap) ((show r.Idle U M from w).step hq).toSettled hM
  | resume hq => exact In.congr (m := .idle) ((show r.Settled U M from w).step hq) hM
  | hold hq hr =>
    obtain ⟨k, hk, w⟩ := w
    have hne : k ≠ q.latency := fun e => by
      rw [w.memReady, decide_eq_true e] at hr; cases hr
    exact In.congr (m := .asked q) ⟨k + 1, by omega, w.step hq⟩ hM
  | answer hq hr =>
    obtain ⟨k, hk, w⟩ := w
    obtain rfl : k = q.latency := by
      rw [w.memReady] at hr; exact of_decide_eq_true hr
    exact In.congr (m := .answered q) (w.step hq) hM
  | close hq =>
    have hlat := q.two_le_latency
    have w : r.Serving U M q (q.latency + 1) := w
    refine ⟨(w.step hq).commit (by omega) hM, fun x hx => ?_⟩
    rw [hM x hx]
    exact (MemPort.stored_stored (M x)).symm
  | stored hq =>
    have hlat := q.two_le_latency
    exact In.congr (m := .gap) (w.1.close (by omega) hq w.2) hM
  | loaded hq hw =>
    have hlat := q.two_le_latency
    exact In.congr (m := .idle) (w.1.close_load (by omega) hq hw) hM

end Ram64KB

/-! ### The heap memory -/

namespace Heap
variable {U : BitVec 32 → Prop} {M M' : BitVec 32 → BitVec 8} {m m' : Mode} {h : Heap} {i : HeapIn}

def cpuReady (h : Heap) : Bool := !h.mux.busReady && h.ram.memReady

theorem Service.congr (w : Service U M (Ram64KB.In U M m) h) (hM : ∀ x, U x → M' x = M x) :
    Service U M' (Ram64KB.In U M' m) h :=
  { w with
    dma := fun hb => (w.dma hb).congr hM
    cpu := fun hb => (w.cpu hb).congr hM }

/-- An edge; the CPU has the bus from the answer on. -/
theorem Service.step_in (w : Service U M (Ram64KB.In U M m) h) (wo : m.Answered → h.mux.busReady = false)
    (hreq : KeepsRequest i h) (hbuf : BufferApart U h) (hU : ∀ x, U x → x.toNat / 65536 = 1)
    (hn : Mode.Step i.cpu h.cpuReady m m') (hM : m.Updates U M M') :
    Service U M' (Ram64KB.In U M' m') (Heap.step i h) ∧ (m'.Answered → (Heap.step i h).mux.busReady = false) := by
  cases hb : h.mux.busReady with
  | true =>
    -- the answer is held back, and the CPU finds a fresh memory when the bus is given back
    have hm : ¬ m.Answered := fun e => by rw [wo e] at hb; cases hb
    have hm' := hn.not_answered hm (.inr (by rw [cpuReady, hb]; rfl))
    have w' : Service U M (fun _ => False) h := w.mono fun e => by rw [hb] at e; cases e
    exact ⟨(w'.step hreq hbuf hU False.elim (fun r wf => wf.in hm') fun _ => False.elim).congr
      ((Mode.updates_iff (Mode.ne_answered hm)).1 hM), fun e => absurd e hm'⟩
  | false =>
    have hn' : Mode.Step i.cpu h.ram.memReady m m' := by rwa [cpuReady, hb] at hn
    cases hv : i.cpu.valid with
    | true =>
      obtain ⟨hb', w'⟩ := w.step_owned hreq hb hv fun wr => wr.step hn' hM
      exact ⟨w', fun _ => hb'⟩
    | false =>
      have hm := hn.not_answered_of_idle hv
      have hm' := hn.not_answered hm (.inl hv)
      have hup {M₁ M₂ : BitVec 32 → BitVec 8} : m.Updates U M₁ M₂ ↔ ∀ x, U x → M₂ x = M₁ x :=
        Mode.updates_iff (Mode.ne_answered hm)
      exact ⟨(w.step hreq hbuf hU (fun wr => wr.step hn' (hup.2 fun _ _ => rfl)) (fun r wf => wf.in hm')
        fun hq wr => wr.settled hn' hq).congr (hup.1 hM), fun e => absurd e hm'⟩

end Heap

/-! ### Registers that answer once -/

namespace OneShot
variable {q : MemPort} {m m' : Mode} {flag ready flag' ready' : Bool}

def In : Mode → Bool → Bool → Prop
  | .idle, _, ready | .gap, _, ready => ready = false
  | .asked _, flag, ready => ready = flag
  | .answered _, flag, ready | .closed _, flag, ready => flag = true ∧ ready = false

theorem In.ready_of_answered (w : In m flag ready) (hm : m.Answered) : ready = false := by
  cases m with
  | idle | gap | asked => exact hm.elim
  | answered | closed => exact w.2

/-- An edge with `q` on the port. -/
structure Edge (q : MemPort) (flag ready flag' ready' : Bool) : Prop where
  clear : q.valid = false → flag' = false ∧ ready' = false
  first : q.valid = true → flag = false → ready = false → ready' = flag'
  once : q.valid = true → flag = true → flag' = true ∧ ready' = false

theorem In.step (w : In m flag ready) (e : Edge q flag ready flag' ready') (hn : Mode.Step q ready m m') :
    In m' flag' ready' := by
  cases hn with
  | rest hq | pause hq | resume hq => exact (e.clear hq).2
  | ask hq => exact (e.clear hq).2.trans (e.clear hq).1.symm
  | hold hq hr => exact e.first hq ((show ready = flag from w).symm.trans hr) hr
  | answer hq hr => exact e.once hq ((show ready = flag from w).symm.trans hr)
  | close hq => exact e.once hq (show flag = true ∧ ready = false from w).1
  | stored hq | loaded hq => exact (e.once hq (show flag = true ∧ ready = false from w).1).2

end OneShot

theorem Io.edge (p : MemPort) (o : Io) :
    OneShot.Edge p o.memValidReg o.memReady (o.step p).memValidReg (o.step p).memReady := by
  have hr : (o.step p).memReady = if o.memReady then false else if p.valid && !o.memValidReg then true else o.memReady := rfl
  have hf : (o.step p).memValidReg = p.valid := rfl
  rw [hr, hf]
  refine ⟨?_, ?_, ?_⟩ <;> cases p.valid <;> cases o.memValidReg <;> cases o.memReady <;> decide

theorem Dmac.Regs.edge (p : MemPort) (r : Dmac.Regs) (g : Dmac.Ring) (b : Bool) :
    OneShot.Edge p r.memValidReg r.memReady (r.step g b p).memValidReg (r.step g b p).memReady := by
  have hr : (r.step g b p).memReady = if r.memReady then false else if p.valid && !r.memValidReg then true else r.memReady := rfl
  have hf : (r.step g b p).memValidReg = p.valid := rfl
  rw [hr, hf]
  refine ⟨?_, ?_, ?_⟩ <;> cases p.valid <;> cases r.memValidReg <;> cases r.memReady <;> decide

theorem UartTop.edge (i : UartIn) (u : UartTop) :
    OneShot.Edge i.mem u.memReadyR u.memReady (u.step i).memReadyR (u.step i).memReady := by
  have hr : (u.step i).memReady = if u.memReady then false
    else if i.mem.valid && !i.txFifoFull && !u.memReadyR then true else u.memReady := rfl
  have hf : (u.step i).memReadyR = if !i.mem.valid then false
    else if i.mem.valid && !i.txFifoFull && !u.memReadyR then true else u.memReadyR := rfl
  rw [hr, hf]
  refine ⟨?_, ?_, ?_⟩ <;> cases i.mem.valid <;> cases i.txFifoFull <;> cases u.memReadyR <;>
    cases u.memReady <;> decide

end Picorv32Soc
