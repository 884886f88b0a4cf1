import Picorv32Soc.RamBytes

/-!
# One request to `RAM_64KB`

What the registers of the memory hold `k` cycles into a request that stays on the port (`Serving`): a
store is answered after two cycles and a load after three (`MemPort.latency`), the strobed bytes are
written from the third cycle on, and a load finds its word on `mem_rdata` when it is answered.

Before a request the memory must have been left alone for a while. `Settled` says that no answer is
under way, `Idle` that no strobe is left over either once this cycle has gone by without a request,
and `Fresh` that a request may come now. The bytes of the memory are followed where `U` holds; `M` is
what they are.
-/

namespace Picorv32Soc
open Bits

namespace MemPort
variable (p : MemPort) (x : BitVec 32)

/-- The byte lies in the word the request addresses, as far as the memory looks at addresses. -/
def covers : Bool := bankOf p.addr == bankOf x && offsetOf p.addr == offsetOf x

/-- The byte after the request, if it was `v` before. -/
def stored (v : BitVec 8) : BitVec 8 :=
  if p.covers x && p.wstrb.getLsbD (laneOf x).toNat then byteLane p.wdata (laneOf x) else v

/-- The cycle of a request in which the memory answers it. -/
def latency : Nat := if p.wstrb ≠ 0 then 2 else 3

variable {p x}

theorem stored_stored (v : BitVec 8) : p.stored x (p.stored x v) = p.stored x v := by
  unfold stored; split_ifs <;> rfl

theorem stored_load (hp : p.wstrb = 0) (v : BitVec 8) : p.stored x v = v := by
  simp [stored, hp]

theorem two_le_latency : 2 ≤ p.latency := by unfold latency; split_ifs <;> omega

theorem latency_load (hp : p.wstrb = 0) : p.latency = 3 := if_neg (by simpa using hp)

end MemPort

namespace Ram64KB
variable {U : BitVec 32 → Prop} {M : BitVec 32 → BitVec 8} {p : MemPort} {k : Nat} {r : Ram64KB}

/-- The bytes in `U` are those of `M`. -/
def Shows (U : BitVec 32 → Prop) (M : BitVec 32 → BitVec 8) (r : Ram64KB) : Prop := ∀ x, U x → r.byte x = M x

/-- No answer is under way. -/
structure Settled (U : BitVec 32 → Prop) (M : BitVec 32 → BitVec 8) (r : Ram64KB) : Prop where
  ready1 : r.ramReady1 = false
  ready2 : r.ramReady2 = false
  bytes : r.Shows U M

/-- After a cycle without a request, no strobe is left. -/
structure Idle (U : BitVec 32 → Prop) (M : BitVec 32 → BitVec 8) (r : Ram64KB) : Prop extends Settled U M r where
  strobes : r.memValidReg = false ∨ ∀ b, r.ramWstrbR b = 0

/-- A request may come. -/
structure Fresh (U : BitVec 32 → Prop) (M : BitVec 32 → BitVec 8) (r : Ram64KB) : Prop extends Settled U M r where
  memValidReg : r.memValidReg = false
  memReady : r.memReady = false
  ramWstrb : ∀ b, r.ramWstrb b = 0

/-- The one-shot that answers a request, `k` cycles into it. -/
structure Aged (k : Nat) (r : Ram64KB) : Prop where
  memValidReg : r.memValidReg = decide (1 ≤ k)
  ready1 : r.ramReady1 = decide (k = 1)
  ready2 : r.ramReady2 = decide (k = 2)

/-- `k` cycles into the request `p`. -/
structure Serving (U : BitVec 32 → Prop) (M : BitVec 32 → BitVec 8) (p : MemPort) (k : Nat) (r : Ram64KB) : Prop
    extends Aged k r where
  memReady : r.memReady = decide (k = p.latency)
  ramWstrbR : 1 ≤ k → r.ramWstrbR = ramWstrbW p
  ramWstrb : ∀ b, r.ramWstrb b = if 2 ≤ k then ramWstrbW p b else 0
  bytes : ∀ x, U x → r.byte x = if 3 ≤ k then p.stored x (M x) else M x
  -- the read pipeline
  memAddrReg0 : 1 ≤ k → r.memAddrReg0 = p.addr
  memAddrReg1 : 2 ≤ k → r.memAddrReg1 = p.addr
  dout : p.wstrb = 0 → 1 ≤ k → ∀ x, U x → p.covers x = true →
    ((r.bank (bankOf x)).bram (laneOf x)).dout = M x
  ramRdataReg0 : p.wstrb = 0 → 2 ≤ k → ∀ x, U x → p.covers x = true →
    byteLane (r.ramRdataReg0 (bankOf x)) (laneOf x) = M x
  memRdata : p.wstrb = 0 → 3 ≤ k → ∀ x, U x → p.covers x = true → byteLane r.memRdata (laneOf x) = M x

/-! ### Without a request -/

theorem ready1_step_idle (hv : p.valid = false) (h1 : r.ramReady1 = false) : (r.step p).ramReady1 = false := by
  show (if r.ramReady1 then false else if p.valid && !r.memValidReg then true else r.ramReady1) = false
  rw [h1, hv]; rfl

theorem memReady_step_settled (h1 : r.ramReady1 = false) (h2 : r.ramReady2 = false) :
    (r.step p).memReady = false := by
  show (if p.wstrb ≠ 0 then r.ramReady1 else r.ramReady2) = false
  rw [h1, h2, ite_self]

theorem byte_step_idle (hv : p.valid = false) (x : BitVec 32) : (r.step p).byte x = r.byte x := by
  rw [byte_step, strobed, hv]; rfl

theorem Settled.step (w : r.Settled U M) (hv : p.valid = false) : (r.step p).Idle U M :=
  ⟨⟨ready1_step_idle hv w.ready1, w.ready1, fun x hx => (byte_step_idle hv x).trans (w.bytes x hx)⟩, .inl hv⟩

theorem Idle.step (w : r.Idle U M) (hv : p.valid = false) : (r.step p).Fresh U M := by
  refine ⟨(w.toSettled.step hv).toSettled, hv, memReady_step_settled w.ready1 w.ready2, fun b => ?_⟩
  show (if r.memValidReg then r.ramWstrbR b else 0) = 0
  rcases w.strobes with e | e
  · rw [e]; rfl
  · rw [e b, ite_self]

theorem Fresh.idle (w : r.Fresh U M) : r.Idle U M := ⟨w.toSettled, .inl w.memValidReg⟩

/-! ### During a request -/

theorem Aged.step (w : r.Aged k) (hv : p.valid = true) : (r.step p).Aged (k + 1) := by
  refine ⟨hv.trans (decide_eq_true (by omega)).symm, ?_, ?_⟩
  · show (if r.ramReady1 then false else if p.valid && !r.memValidReg then true else r.ramReady1) = _
    rw [w.ready1, w.memValidReg, hv]
    rcases Nat.lt_trichotomy k 1 with h1 | h1 | h1
    · obtain rfl : k = 0 := by omega
      rfl
    · subst h1; rfl
    · rw [decide_eq_false (by omega), decide_eq_true (by omega), decide_eq_false (by omega)]; rfl
  · show r.ramReady1 = _
    rw [w.ready1]; simp only [Nat.reduceEqDiff]

theorem Fresh.serving (w : r.Fresh U M) (p : MemPort) : r.Serving U M p 0 := by
  have hlat : p.latency ≠ 0 := by have := p.two_le_latency; omega
  exact {
    toAged := ⟨w.memValidReg, w.ready1, w.ready2⟩
    memReady := w.memReady.trans (decide_eq_false (Ne.symm hlat)).symm
    ramWstrbR := by omega
    ramWstrb := w.ramWstrb
    bytes := w.bytes
    memAddrReg0 := by omega
    memAddrReg1 := by omega
    dout := by omega
    ramRdataReg0 := by omega
    memRdata := by omega }

theorem Serving.strobed (w : r.Serving U M p k) (hv : p.valid = true) (x : BitVec 32) :
    r.strobed p x = (decide (2 ≤ k) && (p.covers x && p.wstrb.getLsbD (laneOf x).toNat)) := by
  rw [Ram64KB.strobed, hv, w.ramWstrb, MemPort.covers, Bool.true_and]
  by_cases hk : 2 ≤ k
  · rw [if_pos hk, decide_eq_true hk, ramWstrbW]
    by_cases hb : bankOf p.addr = bankOf x
    · rw [if_pos hb, beq_iff_eq.2 hb, Bool.true_and, Bool.true_and, Bool.and_comm]
    · rw [if_neg hb, beq_eq_false_iff_ne.2 hb]; simp
  · rw [if_neg hk, decide_eq_false hk]; simp

theorem Serving.step (w : r.Serving U M p k) (hv : p.valid = true) : (r.step p).Serving U M p (k + 1) := by
  have hload : p.wstrb = 0 → ∀ b, r.ramWstrb b = 0 := by
    intro hp b
    rw [w.ramWstrb b, ramWstrbW, hp, ite_self, ite_self]
  have hbytes : ∀ x, U x → (r.step p).byte x = if 3 ≤ k + 1 then p.stored x (M x) else M x := by
    intro x hx
    rw [byte_step, w.strobed hv, w.bytes x hx]
    rcases Nat.lt_trichotomy k 2 with h2 | h2 | h2
    · rw [decide_eq_false (by omega), if_neg (by omega : ¬ 3 ≤ k), if_neg (by omega : ¬ 3 ≤ k + 1)]; rfl
    · subst h2; rfl
    · rw [decide_eq_true (by omega), Bool.true_and, if_pos (by omega : 3 ≤ k), if_pos (by omega : 3 ≤ k + 1)]
      exact MemPort.stored_stored (M x)
  refine {
    toAged := w.toAged.step hv
    memReady := ?_
    ramWstrbR := fun _ => rfl
    ramWstrb := fun b => ?_
    bytes := hbytes
    memAddrReg0 := fun _ => rfl
    memAddrReg1 := fun hk => w.memAddrReg0 (by omega)
    dout := fun hp _ x hx hc => ?_
    ramRdataReg0 := fun hp hk x hx hc => ?_
    memRdata := fun hp hk x hx hc => ?_ }
  · show (if p.wstrb ≠ 0 then r.ramReady1 else r.ramReady2) = _
    rw [w.ready1, w.ready2, MemPort.latency]
    split_ifs <;> simp only [Nat.reduceEqDiff]
  · show (if r.memValidReg then r.ramWstrbR b else 0) = _
    rw [w.memValidReg]
    by_cases hk : 1 ≤ k
    · rw [decide_eq_true hk, if_pos rfl, w.ramWstrbR hk, if_pos (by omega)]
    · rw [decide_eq_false hk, if_neg (by decide), if_neg (by omega)]
  · -- nothing is strobed, so the block RAM shows its contents
    have hc' := hc
    rw [MemPort.covers, Bool.and_eq_true, beq_iff_eq, beq_iff_eq] at hc'
    show (((r.bank (bankOf x)).bram (laneOf x)).step (offsetOf p.addr) _ ((r.ramWstrb (bankOf x)).getLsbD _) p.valid).dout = _
    rw [hload hp, hv, hc'.2]
    simp only [BitVec.ofNat_eq_ofNat, BitVec.getLsbD_zero]
    show r.byte x = _
    rw [w.bytes x hx, MemPort.stored_load hp, ite_self]
  · show byteLane (joinLanes fun l => ((r.bank (bankOf x)).bram l).dout) (laneOf x) = _
    rw [byteLane_joinLanes]
    exact w.dout hp (by omega) x hx hc
  · have hc' := hc
    rw [MemPort.covers, Bool.and_eq_true, beq_iff_eq, beq_iff_eq] at hc'
    show byteLane (r.ramRdataReg0 (bankOf r.memAddrReg1)) (laneOf x) = _
    rw [w.memAddrReg1 (by omega), hc'.1]
    exact w.ramRdataReg0 hp (by omega) x hx hc

/-- The store has been made: `M` may be taken to include it. -/
theorem Serving.commit (w : r.Serving U M p k) (hk : 3 ≤ k) {M' : BitVec 32 → BitVec 8}
    (hM : ∀ x, U x → M' x = p.stored x (M x)) : r.Serving U M' p k := by
  have hload : p.wstrb = 0 → ∀ x, U x → M' x = M x := fun hp x hx => by
    rw [hM x hx, MemPort.stored_load hp]
  refine { w with
    bytes := fun x hx => ?_
    dout := fun hp h x hx hc => (w.dout hp h x hx hc).trans (hload hp x hx).symm
    ramRdataReg0 := fun hp h x hx hc => (w.ramRdataReg0 hp h x hx hc).trans (hload hp x hx).symm
    memRdata := fun hp h x hx hc => (w.memRdata hp h x hx hc).trans (hload hp x hx).symm }
  rw [w.bytes x hx, if_pos hk, if_pos hk, hM x hx, MemPort.stored_stored]

theorem Serving.close (w : r.Serving U M p k) (hk : 3 ≤ k) (hv : p.valid = true)
    (hM : ∀ x, U x → M x = p.stored x (M x)) : (r.step p).Settled U M := by
  have w' := w.step hv
  refine ⟨w'.ready1.trans (decide_eq_false (by omega)), w'.ready2.trans (decide_eq_false (by omega)), fun x hx => ?_⟩
  rw [w'.bytes x hx, if_pos (by omega), ← hM x hx]

theorem Serving.close_load (w : r.Serving U M p k) (hk : 3 ≤ k) (hv : p.valid = true) (hp : p.wstrb = 0) :
    (r.step p).Idle U M := by
  refine ⟨w.close hk hv fun x _ => (MemPort.stored_load hp (M x)).symm, .inr fun b => ?_⟩
  rw [(w.step hv).ramWstrbR (by omega), ramWstrbW, hp, ite_self]

end Ram64KB

end Picorv32Soc
