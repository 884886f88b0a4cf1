import Picorv32Soc.RamService
import Picorv32Soc.RxMemory

/-!
# The heap memory with two owners

What the CPU can rely on at its side of `mux_heap`. While the controller owns the bus the memory is in
a state of its own (`DmaRam`), in which no byte outside the receive buffers is written, and it is left
`Fresh` when the bus is given back: an ownership lasts at least three cycles (`DmaRam.step`), which is
what the one-shot of the memory needs. A frame of one beat would break this; it is left out here.

`Service U M C` says that the controller keeps to its phases, that the bytes in `U` are those of `M`,
and that the memory satisfies `C` whenever it is the CPU's turn.
-/

namespace Picorv32Soc
open Bits

namespace RxSource
variable {s : RxSource}

theorem todo_step_subset (b : Bool) : (s.step b).todo ⊆ s.todo := by
  cases hv : s.tvalid with
  | false => rw [todo_step_idle hv]; exact List.Subset.refl _
  | true =>
    cases b with
    | false => rw [todo_step_false]; exact List.Subset.refl _
    | true =>
      cases hl : s.out.tlast with
      | false => rw [todo_step_next hv hl]; exact List.Subset.refl _
      | true => rw [todo_step_last hv hl]; exact List.subset_cons_self ..

end RxSource

namespace Heap
variable {h : Heap} {i : HeapIn} {f : Frame} {a : BitVec 32} {k : Nat} {st st' : Stage}
  {U : BitVec 32 → Prop} {M : BitVec 32 → BitVec 8} {C D : Ram64KB → Prop}

/-! ### Receive buffers -/

/-- A reception that starts now goes to a buffer inside the heap memory and inside one bank, without a
byte in `U`. -/
def BufferApart (U : BitVec 32 → Prop) (h : Heap) : Prop :=
  h.dmac.cur = .abus → h.nxtState = .write →
    (0x10000 ≤ h.dmac.out.heapAddr.toNat ∧ h.dmac.out.heapAddr.toNat + h.src.cur.nbytes ≤ 0x20000) ∧
    h.dmac.out.heapAddr.toNat / 16384 = (h.dmac.out.heapAddr.toNat + h.src.cur.nbytes - 1) / 16384 ∧
    ∀ x, U x → x.toNat < h.dmac.out.heapAddr.toNat ∨ h.dmac.out.heapAddr.toNat + h.src.cur.nbytes ≤ x.toNat

/-- An address of the heap is its bank and its word in the bank. -/
theorem word_eq {m n : Nat} (hm : m / 65536 = 1) (hn : n / 65536 = 1) (hbank : m / 16384 % 4 = n / 16384 % 4)
    (hword : m / 4 % 4096 = n / 4 % 4096) : m / 4 = n / 4 := by
  have : m / 16384 = n / 16384 := by omega
  omega

theorem lands_apart {x : BitVec 32} {j : Nat} (hheap : 0x10000 ≤ a.toNat ∧ a.toNat + f.nbytes ≤ 0x20000)
    (hbank : a.toNat / 16384 = (a.toNat + f.nbytes - 1) / 16384) (hx : x.toNat / 65536 = 1)
    (hout : x.toNat < a.toNat ∨ a.toNat + f.nbytes ≤ x.toNat) (h1 : 1 ≤ j) (hj : j < f.beats) :
    f.lands a j x = false := by
  have hb := f.beats_eq
  have hwords : a.toNat + 4 * j < a.toNat + f.nbytes := by omega
  have hheapj : (a.toNat + 4 * j) / 65536 = 1 := Nat.div_eq_of_lt_le (by omega) (by omega)
  -- all words are in the bank of the first
  have hsame : ∀ m, m ≤ j → (a.toNat + 4 * m) / 16384 = a.toNat / 16384 := fun m hm =>
    Nat.le_antisymm ((Nat.div_le_div_right (by omega)).trans hbank.ge) (Nat.div_le_div_right (by omega))
  rw [← Bool.not_eq_true, Frame.lands_iff hj (by omega)]
  rintro ⟨hxbank, hlen, hxword⟩
  rw [hsame (j - 2) (Nat.sub_le ..), ← hsame j le_rfl] at hxbank
  have hin := word_eq hheapj hx hxbank hxword
  clear hxbank hxword hbank
  omega

/-! ### The controller as owner -/

/-- `k` cycles into a transmission. -/
structure SendAt (k : Nat) (h : Heap) : Prop where
  age : h.ram.Aged k
  ramWstrb : ∀ b, h.ram.ramWstrb b = 0
  ramWstrbR : ∀ b, h.ram.ramWstrbR b = 0
  read : h.dmac.cur = .read → h.dmac.out.rtxAxisTvalid = true
  -- one cycle of `STATE_READ` at least, and two of `STATE_KEEP`
  keep : h.dmac.cur = .keep → 1 ≤ k
  ready : h.dmac.out.txStaReady = true → 2 ≤ k

/-- The memory while the controller owns the bus. -/
def DmaRam (U : BitVec 32 → Prop) : Stage → Heap → Prop
  | .asking, h => h.ram.Aged 0
  | .writing f a k, h => RamAt f a k h.ram ∧ h.ram.Aged (k - 1) ∧
      ∀ x, U x → ∀ j, 1 ≤ j → j < f.beats → f.lands a j x = false
  | .runt, _ => False
  | .sending, h => ∃ k, SendAt k h
  | .resting, h => (∀ b, h.ram.ramWstrbR b = 0) ∧ h.ram.ramReady1 = false ∧ h.ram.ramReady2 = false

theorem ramWstrbR_step (hb : h.mux.busReady = true) (hw : h.dmac.out.heapWstrb = 0) (b : BitVec 2) :
    (Heap.step i h).ram.ramWstrbR b = 0 := by
  show Ram64KB.ramWstrbW (h.ramPort i) b = 0
  rw [ramPort_granted hb, Ram64KB.ramWstrbW]
  show (if _ then h.dmac.out.heapWstrb else 0) = 0
  rw [hw, ite_self]

theorem aged_step (hb : h.mux.busReady = true) (hv : h.dmac.out.heapValid = true) (w : h.ram.Aged k) :
    (Heap.step i h).ram.Aged (k + 1) :=
  w.step (p := h.ramPort i) (by rw [ramPort_granted hb]; exact hv)

theorem aged_zero_step (hb : h.mux.busReady = true) (hv : h.dmac.out.heapValid = false) (w : h.ram.Aged 0) :
    (Heap.step i h).ram.Aged 0 := by
  have hv' : (h.ramPort i).valid = false := by rw [ramPort_granted hb]; exact hv
  exact ⟨hv', Ram64KB.ready1_step_idle hv' w.ready1, w.ready1⟩

theorem SendAt.step (r : Sending h) (w : SendAt k h) (r' : Sending (Heap.step i h)) :
    SendAt (k + 1) (Heap.step i h) := by
  have hn : h.nxtState = .read ∨ h.nxtState = .keep := r'.cur
  refine ⟨aged_step r.busReady r.heapValid w.age, fun b => ?_, ramWstrbR_step r.busReady r.heapWstrb,
    fun hc => ?_, fun _ => by omega, fun hready => ?_⟩
  · show (if h.ram.memValidReg then h.ram.ramWstrbR b else 0) = 0
    rw [w.ramWstrbR, ite_self]
  · rw [step_out_read h i hc]; rfl
  · rcases hn with hn | hn
    · rw [step_out_read h i hn] at hready; cases hready
    · -- the first cycle of `STATE_KEEP` does not end it yet
      have : 1 ≤ k := by
        rcases r.cur with hc | hc
        · rw [step_out_keep h i hn, Dmac.outKeep, w.read hc] at hready
          cases hready
        · exact w.keep hc
      omega

theorem DmaRam.step (c : Ctl st h) (w : DmaRam U st h) (hb : h.mux.busReady = true)
    (hn : Stage.Next h st st') (c' : Ctl st' (Heap.step i h)) (hb' : (Heap.step i h).mux.busReady = true)
    (hlong : ∀ f ∈ h.src.todo, 2 ≤ f.beats) (hU : ∀ x, U x → x.toNat / 65536 = 1) (hbuf : BufferApart U h) :
    DmaRam U st' (Heap.step i h) := by
  cases hn with
  | rest | ask =>
    -- the bus is not asked for
    have r : Resting h := c.phase
    rw [step_busReady_released h i (by rw [r.out]; rfl)] at hb'
    cases hb'
  | wait =>
    have r : Asking h := c.phase
    have r' : Asking (Heap.step i h) := c'.phase
    rw [(abus_busReady r.cur).1 r'.cur] at hb
    cases hb
  | first wt hv htwo =>
    have r : Asking h := c.phase
    have r' : Writing h.src.cur h.dmac.out.heapAddr 1 (Heap.step i h) := c'.phase
    have w : h.ram.Aged 0 := w
    obtain ⟨hheap, hbank, hout⟩ := hbuf r.cur r'.cur
    exact ⟨RamAt.first r hb w.memValidReg, aged_zero_step hb r.heapValid w,
      fun x hx j h1 hj => lands_apart hheap hbank (hU x hx) (hout x hx) h1 hj⟩
  | refuse wt hv hone =>
    have := hlong h.src.cur (by simp [RxSource.todo, wt.tvalid])
    omega
  | send hv =>
    have r : Asking h := c.phase
    have r' : Sending (Heap.step i h) := c'.phase
    have w : h.ram.Aged 0 := w
    have hrd : h.nxtState = .read := by rw [nxtState_abus r.cur, hb, hv]; rfl
    have hout := step_out_read h i hrd
    refine ⟨0, aged_zero_step hb r.heapValid w, ramWstrb_step w.memValidReg, ramWstrbR_step hb r.heapWstrb,
      fun _ => by rw [hout]; rfl, fun hk => ?_, fun hk => ?_⟩
    · rw [step_cur, hrd] at hk; cases hk
    · rw [hout] at hk; cases hk
  | @beat f a k hk =>
    have r : Writing f a k h := c.phase
    obtain ⟨wr, wa, hap⟩ := w
    have hpos := r.pos
    refine ⟨wr.step r hk, ?_, hap⟩
    have := aged_step hb r.heapValid wa (i := i)
    rwa [show k - 1 + 1 = k + 1 - 1 by omega] at this
  | @last f a =>
    have r : Writing f a (f.beats + 3) h := c.phase
    obtain ⟨-, wa, -⟩ := w
    have wa' := aged_step hb r.heapValid wa (i := i)
    have hw : h.dmac.out.heapWstrb = 0 := by rw [r.heapWstrb, if_neg (by omega)]
    exact ⟨ramWstrbR_step hb hw, wa'.ready1.trans (decide_eq_false (by omega)),
      wa'.ready2.trans (decide_eq_false (by have := r.two; omega))⟩
  | refused => exact w.elim
  | more =>
    obtain ⟨k, w⟩ := w
    exact ⟨k + 1, w.step c.phase c'.phase⟩
  | sent =>
    have r : Sending h := c.phase
    obtain ⟨k, w⟩ := w
    have r' : Resting (Heap.step i h) := c'.phase
    have hready : h.dmac.out.txStaReady = true := by
      have hcur := r.cur
      rcases r'.cur with hn | hn
      · rw [of_nxtState_idle hn] at hcur; simp at hcur
      · rcases of_nxtState_wait hn with e | e | e | ⟨-, e⟩
        · rw [e] at hcur; simp at hcur
        · rw [e] at hcur; simp at hcur
        · rw [e] at hcur; simp at hcur
        · exact e
    have hk : 2 ≤ k := w.ready hready
    have wa' := aged_step hb r.heapValid w.age (i := i)
    exact ⟨ramWstrbR_step hb r.heapWstrb, wa'.ready1.trans (decide_eq_false (by omega)),
      wa'.ready2.trans (decide_eq_false (by omega))⟩

theorem DmaRam.byte (c : Ctl st h) (w : DmaRam U st h) (hb : h.mux.busReady = true) {x : BitVec 32} (hx : U x) :
    (Heap.step i h).ram.byte x = h.ram.byte x := by
  have quiet : h.dmac.out.heapValid = false → (Heap.step i h).ram.byte x = h.ram.byte x := fun hv =>
    Ram64KB.byte_step_idle (p := h.ramPort i) (by rw [ramPort_granted hb]; exact hv) x
  cases st with
  | resting => exact quiet (by rw [(show Resting h from c.phase).out]; rfl)
  | asking => exact quiet (show Asking h from c.phase).heapValid
  | writing f a k =>
    have r : Writing f a k h := c.phase
    have hle := r.le
    rw [step_byte, w.1.strobed r]
    by_cases hk : 5 ≤ k
    · rw [w.2.2 x hx (k - 4) (by omega) (by omega)]; simp
    · rw [decide_eq_false hk]; rfl
  | runt => exact w.elim
  | sending =>
    obtain ⟨k, w⟩ := w
    rw [step_byte, Ram64KB.strobed, w.ramWstrb]
    simp

theorem dmaRam_granted (c : Ctl st h) (hb : h.mux.busReady = false) (hv : h.dmac.out.busValid = true)
    (hn : Stage.Next h st st') (c' : Ctl st' (Heap.step i h)) (w : (Heap.step i h).ram.Aged 0) :
    DmaRam U st' (Heap.step i h) := by
  have ask : st = .asking → (Heap.step i h).dmac.cur = .abus := by
    rintro rfl
    rw [step_cur, nxtState_abus (show Asking h from c.phase).cur, hb]; rfl
  cases hn with
  | rest | ask =>
    rw [(show Resting h from c.phase).out] at hv
    cases hv
  | wait => exact w
  | first => exact absurd (ask rfl) (by rw [(show Writing _ _ _ _ from c'.phase).cur]; decide)
  | refuse => exact absurd (ask rfl) (by rw [(show Runt _ from c'.phase).cur]; decide)
  | send =>
    have hcur := (show Sending _ from c'.phase).cur
    rw [ask rfl] at hcur
    simp at hcur
  | beat | last => rw [(show Writing _ _ _ h from c.phase).busReady] at hb; cases hb
  | refused => rw [(show Runt h from c.phase).busReady] at hb; cases hb
  | more | sent => rw [(show Sending h from c.phase).busReady] at hb; cases hb

/-- The bus is given back: the memory is ready for the CPU. -/
theorem DmaRam.release (c : Ctl st h) (w : DmaRam U st h) (hb : h.mux.busReady = true)
    (hb' : (Heap.step i h).mux.busReady = false) (hM : h.ram.Shows U M) : (Heap.step i h).ram.Fresh U M := by
  have kept : h.dmac.out.busValid = true → False := fun hv => by
    rw [step_busReady_held h i hv hb] at hb'; cases hb'
  have hbytes : (Heap.step i h).ram.Shows U M := fun x hx => (w.byte c hb hx).trans (hM x hx)
  cases st with
  | resting =>
    have r : Resting h := c.phase
    have hv : (h.ramPort i).valid = false := by
      rw [ramPort_granted hb]
      show h.dmac.out.heapValid = false
      rw [r.out]; rfl
    obtain ⟨wR, w1, w2⟩ := w
    refine ⟨⟨Ram64KB.ready1_step_idle hv w1, w1, hbytes⟩, hv, Ram64KB.memReady_step_settled w1 w2, fun b => ?_⟩
    show (if h.ram.memValidReg then h.ram.ramWstrbR b else 0) = 0
    rw [wR, ite_self]
  | asking => exact (kept (show Asking h from c.phase).busValid).elim
  | writing f a k => exact (kept (show Writing f a k h from c.phase).busValid).elim
  | runt => exact w.elim
  | sending => exact (kept (show Sending h from c.phase).busValid).elim

/-! ### The CPU's turn -/

/-- The controller keeps to its phases, and whenever it is the CPU's turn the memory satisfies `C`. -/
structure Service (U : BitVec 32 → Prop) (M : BitVec 32 → BitVec 8) (C : Ram64KB → Prop) (h : Heap) : Prop where
  ctl : ∃ st, Ctl st h ∧ (h.mux.busReady = true → DmaRam U st h)
  long : ∀ f ∈ h.src.todo, 2 ≤ f.beats
  dma : h.mux.busReady = true → h.ram.Shows U M
  cpu : h.mux.busReady = false → C h.ram

namespace Service

theorem mono (w : Service U M C h) (hD : h.mux.busReady = false → C h.ram → D h.ram) : Service U M D h :=
  { w with cpu := fun hb => hD hb (w.cpu hb) }

theorem step_owned (w : Service U M C h) (hreq : KeepsRequest i h) (hb : h.mux.busReady = false)
    (hv : i.cpu.valid = true) {M' : BitVec 32 → BitVec 8} (hD : C h.ram → D (h.ram.step i.cpu)) :
    (Heap.step i h).mux.busReady = false ∧ Service U M' D (Heap.step i h) := by
  have hb' : (Heap.step i h).mux.busReady = false := by
    cases hb' : (Heap.step i h).mux.busReady with
    | false => rfl
    | true =>
      have := (step_busReady_granted h i hb hb').2
      rw [hv] at this; cases this
  obtain ⟨st, c, -⟩ := w.ctl
  obtain ⟨st', -, c'⟩ := c.step hreq
  have hram : (Heap.step i h).ram = h.ram.step i.cpu := by
    show h.ram.step (h.ramPort i) = _
    rw [ramPort_cpu hb]
  refine ⟨hb', ⟨st', c', fun e => ?_⟩, fun f hf => w.long f (RxSource.todo_step_subset _ hf), fun e => ?_, fun _ => ?_⟩
  · rw [hb'] at e; cases e
  · rw [hb'] at e; cases e
  · rw [hram]; exact hD (w.cpu hb)

/-- An edge. The CPU's next state `D` must follow from its state `C`, from a `Fresh` memory, and `C`
must leave the memory settled when the CPU does not use it: the controller may be granted the bus. -/
theorem step (w : Service U M C h) (hreq : KeepsRequest i h) (hbuf : BufferApart U h)
    (hU : ∀ x, U x → x.toNat / 65536 = 1) (hD : C h.ram → D (h.ram.step i.cpu))
    (hF : ∀ r, r.Fresh U M → D r) (hS : i.cpu.valid = false → C h.ram → h.ram.Settled U M) :
    Service U M D (Heap.step i h) := by
  obtain ⟨st, c, wd⟩ := w.ctl
  obtain ⟨st', hn, c'⟩ := c.step hreq
  have hlong : ∀ f ∈ (Heap.step i h).src.todo, 2 ≤ f.beats := fun f hf =>
    w.long f (RxSource.todo_step_subset _ hf)
  cases hb : h.mux.busReady with
  | true =>
    have wd := wd hb
    refine ⟨⟨st', c', fun hb' => wd.step c hb hn c' hb' w.long hU hbuf⟩, hlong, fun _ x hx => ?_, fun hb' => ?_⟩
    · exact (wd.byte c hb hx).trans (w.dma hb x hx)
    · exact hF _ (wd.release c hb hb' (w.dma hb))
  | false =>
    have hram : (Heap.step i h).ram = h.ram.step i.cpu := by
      show h.ram.step (h.ramPort i) = _
      rw [ramPort_cpu hb]
    have hC := w.cpu hb
    -- a grant falls into a cycle the CPU leaves alone
    have granted : (Heap.step i h).mux.busReady = true →
        i.cpu.valid = false ∧ (h.ram.step i.cpu).Idle U M ∧ h.dmac.out.busValid = true := by
      intro hb'
      obtain ⟨hbv, hv⟩ := step_busReady_granted h i hb hb'
      exact ⟨hv, (hS hv hC).step hv, hbv⟩
    refine ⟨⟨st', c', fun hb' => ?_⟩, hlong, fun hb' x hx => ?_, fun _ => ?_⟩
    · obtain ⟨hv, wi, hbv⟩ := granted hb'
      exact dmaRam_granted c hb hbv hn c' (by rw [hram]; exact ⟨hv, wi.ready1, wi.ready2⟩)
    · rw [hram]; exact (granted hb').2.1.bytes x hx
    · rw [hram]; exact hD hC

end Service

end Heap

end Picorv32Soc
