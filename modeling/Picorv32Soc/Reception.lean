import Picorv32Soc.Proofs.PhaseStep
import Picorv32Soc.RamBytes

/-!
# A reception, from the grant to the release of the bus

What the RAM registers and the destination filter hold in phase `k` of a reception, and from it what
the whole reception does to the memory. The strobe of word `i` reaches the banks two cycles after its
address decoded the bank, together with address and data of word `i`: word `i` lands at its own offset
but in the bank of word `i - 2`, and word 0, whose strobe is never formed, does not land at all
(`landed`).
-/

namespace Picorv32Soc
open Bits

namespace Frame
variable (f : Frame)

/-- The destination address of a frame: its first six bytes. -/
def dstMac : BitVec 48 :=
  byteLane (f.beat 0).tdata 0 ++ byteLane (f.beat 0).tdata 1 ++ byteLane (f.beat 0).tdata 2 ++
    byteLane (f.beat 0).tdata 3 ++ byteLane (f.beat 1).tdata 0 ++ byteLane (f.beat 1).tdata 1

/-! ### Where the words land -/

/-- Byte `x` of the memory is strobed for word `i` of the frame, received at `a`. -/
def lands (a : BitVec 32) (i : Nat) (x : BitVec 32) : Bool :=
  bankOf (a + BitVec.ofNat 32 (4 * (i - 2))) == bankOf x && (f.beat i).tkeep.getLsbD (laneOf x).toNat &&
    offsetOf (a + BitVec.ofNat 32 (4 * i)) == offsetOf x

/-- Byte `x` of the memory `mem` after words 1 to `m` have landed. -/
def landed (a : BitVec 32) (mem : BitVec 32 → BitVec 8) (x : BitVec 32) : Nat → BitVec 8
  | 0 => mem x
  | m + 1 => if f.lands a (m + 1) x then byteLane (f.beat (m + 1)).tdata (laneOf x) else landed a mem x m

variable {f} {a x : BitVec 32} {m : Nat} {mem : BitVec 32 → BitVec 8}

theorem landed_of_not_lands (hx : ∀ i, 1 ≤ i → i ≤ m → f.lands a i x = false) :
    f.landed a mem x m = mem x := by
  induction m with
  | zero => rfl
  | succ m ih =>
    rw [landed, hx (m + 1) (by omega) (Nat.le_refl _)]
    exact ih fun i h1 hm => hx i h1 (by omega)

theorem landed_of_lands {i : Nat} (hi : i ≤ m) (h1 : 1 ≤ i) (hx : f.lands a i x = true)
    (hlast : ∀ j, i < j → j ≤ m → f.lands a j x = false) :
    f.landed a mem x m = byteLane (f.beat i).tdata (laneOf x) := by
  induction m with
  | zero => omega
  | succ m ih =>
    rcases Nat.lt_or_ge i (m + 1) with hlt | hge
    · rw [landed, hlast (m + 1) hlt (Nat.le_refl _)]
      exact ih (by omega) fun j h1 hm => hlast j h1 (by omega)
    · obtain rfl : i = m + 1 := Nat.le_antisymm hi hge
      rw [landed, hx]; rfl

end Frame

namespace Heap
variable {h : Heap} {i : HeapIn} {f : Frame} {a : BitVec 32} {k : Nat} {st st' : Stage}

/-! ### The RAM registers -/

/-- The strobe registers of the RAM in phase `k` of the reception of `f` at `a`. -/
structure RamAt (f : Frame) (a : BitVec 32) (k : Nat) (r : Ram64KB) : Prop where
  memValidReg : r.memValidReg = decide (2 ≤ k)
  ramWstrbR : ∀ b, r.ramWstrbR b =
    if 4 ≤ k ∧ k ≤ f.beats + 2 then
      (if bankOf (a + BitVec.ofNat 32 (4 * (k - 5))) = b then (f.beat (k - 3)).tkeep else 0)
    else 0
  ramWstrb : ∀ b, r.ramWstrb b =
    if 5 ≤ k ∧ k ≤ f.beats + 3 then
      (if bankOf (a + BitVec.ofNat 32 (4 * (k - 6))) = b then (f.beat (k - 4)).tkeep else 0)
    else 0

theorem abus_busReady (hc : h.dmac.cur = .abus) :
    (h.nxtState = .abus → h.mux.busReady = false) ∧ (h.nxtState = .write → h.mux.busReady = true) := by
  rw [nxtState_abus hc]
  cases h.mux.busReady <;> cases h.dmac.txStaValid <;> decide

theorem ramPort_granted (hb : h.mux.busReady = true) : h.ramPort i = h.dmaPort := by
  rw [ramPort, DmaHeap.ramPort, MuxHeap.port, hb]; rfl

theorem ramPort_cpu (hb : h.mux.busReady = false) : h.ramPort i = i.cpu := by
  rw [ramPort, DmaHeap.ramPort, MuxHeap.port, hb]; rfl

theorem step_byte (x : BitVec 32) : (Heap.step i h).ram.byte x =
    if h.ram.strobed (h.ramPort i) x then byteLane (h.ramPort i).wdata (laneOf x) else h.ram.byte x :=
  h.ram.byte_step (h.ramPort i) x

theorem RamAt.step (r : Writing f a k h) (w : RamAt f a k h.ram) (hk : k ≤ f.beats + 2) :
    RamAt f a (k + 1) (Heap.step i h).ram := by
  have hpos := r.pos
  have hport : h.ramPort i = h.dmaPort := ramPort_granted r.busReady
  refine ⟨?_, fun b => ?_, fun b => ?_⟩
  · show (h.ramPort i).valid = _
    rw [hport]
    exact r.heapValid.trans (decide_eq_true (by omega)).symm
  · show Ram64KB.ramWstrbW (h.ramPort i) b = _
    rw [hport]
    show (if bankOf h.dmac.out.heapAddr = b then h.dmac.out.heapWstrb else 0) = _
    rw [r.heapAddr, r.heapWstrb, show k + 1 - 5 = k - 4 by omega, show k + 1 - 3 = k - 2 by omega]
    by_cases hc : 3 ≤ k ∧ k ≤ f.beats + 1
    · rw [if_pos hc, if_pos (show 4 ≤ k + 1 ∧ k + 1 ≤ f.beats + 2 by omega)]
    · rw [if_neg hc, if_neg (show ¬ (4 ≤ k + 1 ∧ k + 1 ≤ f.beats + 2) by omega), ite_self]
  · show (if h.ram.memValidReg then h.ram.ramWstrbR b else 0) = _
    rw [w.memValidReg, w.ramWstrbR, show k + 1 - 6 = k - 5 by omega, show k + 1 - 4 = k - 3 by omega]
    by_cases hc : 4 ≤ k ∧ k ≤ f.beats + 2
    · rw [if_pos (by simp; omega), if_pos hc, if_pos (show 5 ≤ k + 1 ∧ k + 1 ≤ f.beats + 3 by omega)]
    · rw [if_neg hc, if_neg (by omega : ¬ (5 ≤ k + 1 ∧ k + 1 ≤ f.beats + 3)), ite_self]

/-- The strobes that the CPU left behind do not reach the controller's first cycle. -/
theorem ramWstrb_step (hv : h.ram.memValidReg = false) (b : BitVec 2) : (Heap.step i h).ram.ramWstrb b = 0 := by
  show (if h.ram.memValidReg then h.ram.ramWstrbR b else 0) = 0
  rw [hv]; rfl

/-- The bus is granted in a cycle that the CPU leaves alone. -/
theorem memValidReg_step : (Heap.step i h).ram.memValidReg = (h.ramPort i).valid := rfl

theorem memValidReg_granted (hb : h.mux.busReady = false) (hb' : (Heap.step i h).mux.busReady = true) :
    (Heap.step i h).ram.memValidReg = false := by
  rw [memValidReg_step, ramPort_cpu hb]
  exact (step_busReady_granted h i hb hb').2

theorem RamAt.first (r : Asking h) (hb : h.mux.busReady = true) (hm : h.ram.memValidReg = false) :
    RamAt f a 1 (Heap.step i h).ram := by
  refine ⟨?_, fun b => ?_, fun b => ?_⟩
  · show (h.ramPort i).valid = _
    rw [ramPort_granted hb]; exact r.heapValid
  · show Ram64KB.ramWstrbW (h.ramPort i) b = _
    rw [ramPort_granted hb]
    show (if bankOf h.dmac.out.heapAddr = b then h.dmac.out.heapWstrb else 0) = _
    rw [r.heapWstrb, ite_self, if_neg (by omega)]
  · rw [ramWstrb_step hm, if_neg (by omega)]

/-- The bytes strobed in phase `k`: those of word `k - 4`. -/
theorem RamAt.strobed (r : Writing f a k h) (w : RamAt f a k h.ram) (x : BitVec 32) :
    h.ram.strobed (h.ramPort i) x = (decide (5 ≤ k) && f.lands a (k - 4) x) := by
  have hle := r.le
  rw [ramPort_granted r.busReady]
  show (h.dmac.out.heapValid && (h.ram.ramWstrb (bankOf x)).getLsbD (laneOf x).toNat &&
    (offsetOf h.dmac.out.heapAddr == offsetOf x)) = _
  rw [r.heapValid, w.ramWstrb, r.heapAddr, Bool.true_and]
  rcases Nat.lt_or_ge k 5 with hk | hk
  · rw [if_neg (by omega), decide_eq_false (by omega)]; simp
  · rw [if_pos ⟨hk, hle⟩, decide_eq_true hk, Bool.true_and, Frame.lands, show k - 4 - 2 = k - 6 by omega]
    by_cases hb : bankOf (a + BitVec.ofNat 32 (4 * (k - 6))) = bankOf x
    · rw [if_pos hb, beq_iff_eq.2 hb, Bool.true_and]
    · rw [if_neg hb, beq_eq_false_iff_ne.2 hb]; simp

/-! ### The destination filter -/

/-- `dst_mac` and `drop_frame` in phase `k` of the reception of a frame of three beats or more. -/
structure FilterAt (f : Frame) (k : Nat) (flt : Dmac.Filter) : Prop where
  head : 2 ≤ k → k ≤ 3 → flt = ⟨byteLane (f.beat 0).tdata 0 ++ byteLane (f.beat 0).tdata 1 ++
    byteLane (f.beat 0).tdata 2 ++ byteLane (f.beat 0).tdata 3 ++ 0#16, false⟩
  full : k = 4 → flt = ⟨f.dstMac, false⟩
  verdict : 5 ≤ k → flt = ⟨f.dstMac, !Dmac.keepFrame f.dstMac⟩

/-- `BD_frame_len[31:2]`: the number of full words counted so far. -/
theorem words_ofNat {m c : Nat} (hm : m < 2 ^ 32) (hc : c < 2 ^ 30) :
    (BitVec.ofNat 32 m).extractLsb' 2 30 = BitVec.ofNat 30 c ↔ m / 4 = c := by
  rw [← BitVec.toNat_inj, BitVec.extractLsb'_toNat, BitVec.toNat_ofNat, BitVec.toNat_ofNat,
    Nat.shiftRight_eq_div_pow]
  omega

theorem append_zero_extract (x : BitVec 32) : (x ++ 0#16).extractLsb' 16 32 = x := by
  apply BitVec.eq_of_getLsbD_eq
  intro j hj
  rw [BitVec.getLsbD_extractLsb', BitVec.getLsbD_append]
  simp [hj]

/-- The filter looks at a word by the number of full words before it. -/
theorem Writing.filter_step (r : Writing f a k h) (hlen : f.nbytes < 2 ^ 32) (hk : k ≤ f.beats + 2) :
    (Heap.step i h).dmac.filter =
      if f.bytesBefore (k - 2) / 4 = 0 then
        ⟨byteLane (f.beat (k - 2)).tdata 0 ++ byteLane (f.beat (k - 2)).tdata 1 ++
          byteLane (f.beat (k - 2)).tdata 2 ++ byteLane (f.beat (k - 2)).tdata 3 ++ 0#16, false⟩
      else if f.bytesBefore (k - 2) / 4 = 1 then
        ⟨h.dmac.filter.dstMac.extractLsb' 16 32 ++ byteLane (f.beat (k - 2)).tdata 0 ++
          byteLane (f.beat (k - 2)).tdata 1, false⟩
      else if f.bytesBefore (k - 2) / 4 = 2 then
        { h.dmac.filter with dropFrame := if Dmac.keepFrame h.dmac.filter.dstMac then h.dmac.filter.dropFrame
                                          else true }
      else h.dmac.filter := by
  have hpos := r.pos
  have hn : h.nxtState = .write := by rw [r.nxtState_eq, if_neg (by omega)]
  have hbb : f.bytesBefore (k - 2) < 2 ^ 32 := Nat.lt_of_le_of_lt (Nat.min_le_right ..) hlen
  have hword : ∀ c, c < 2 ^ 30 → (h.dmac.out.bdFrameLen.extractLsb' 2 30 = BitVec.ofNat 30 c ↔
      f.bytesBefore (k - 2) / 4 = c) := by
    intro c hc
    rw [r.bdFrameLen, if_pos hk]; exact words_ofNat hbb hc
  have h0 : h.dmac.out.bdFrameLen.extractLsb' 2 30 = 0 ↔ f.bytesBefore (k - 2) / 4 = 0 := hword 0 (by decide)
  have h1 : h.dmac.out.bdFrameLen.extractLsb' 2 30 = 1 ↔ f.bytesBefore (k - 2) / 4 = 1 := hword 1 (by decide)
  have h2 : h.dmac.out.bdFrameLen.extractLsb' 2 30 = 2 ↔ f.bytesBefore (k - 2) / 4 = 2 := hword 2 (by decide)
  simp only [← h0, ← h1, ← h2]
  show (if h.nxtState = .write then _ else _) = _
  rw [if_pos hn, r.tdataM]

theorem FilterAt.step (r : Writing f a k h) (w : FilterAt f k h.dmac.filter) (hthree : 3 ≤ f.beats)
    (hlen : f.nbytes < 2 ^ 32) (hk : k ≤ f.beats + 2) : FilterAt f (k + 1) (Heap.step i h).dmac.filter := by
  have hnb : 9 ≤ f.nbytes := by rw [f.beats_eq] at hthree; omega
  have hbdef : f.bytesBefore (k - 2) = min (4 * (k - 2)) f.nbytes := rfl
  rw [r.filter_step hlen hk]
  refine ⟨fun hk1 hk2 => ?_, fun hk1 => ?_, fun hk1 => ?_⟩
  · -- the first word is latched twice
    rw [if_pos (by omega), show k - 2 = 0 by omega]
  · obtain rfl : k = 3 := by omega
    rw [if_neg (by omega), if_pos (by omega), w.head (by omega) (by omega), append_zero_extract]
    rfl
  · rw [if_neg (by omega), if_neg (by omega)]
    rcases Nat.lt_or_ge k 5 with hlt | hge
    · obtain rfl : k = 4 := by omega
      rw [if_pos (by omega), w.full rfl]
      cases Dmac.keepFrame f.dstMac <;> rfl
    · -- the third word may be looked at again, with the same verdict
      rw [w.verdict hge]
      by_cases hagain : f.bytesBefore (k - 2) / 4 = 2
      · rw [if_pos hagain]
        cases Dmac.keepFrame f.dstMac <;> rfl
      · rw [if_neg hagain]

/-! ### The whole reception -/

/-- The bus has been granted for the frame `f` with `heap_addr = a`: the last cycle of `STATE_ABUS`. Behind the frame
there are two idle cycles or more. -/
structure Granted (f : Frame) (a : BitVec 32) (h : Heap) : Prop where
  asking : Asking h
  waiting : FrameWaiting h
  nxt : h.nxtState = .write
  frame : h.src.cur = f
  addr : h.dmac.out.heapAddr = a
  next : ∀ p ∈ h.src.pending.head?, 2 ≤ p.1
  memValidReg : h.ram.memValidReg = false

namespace Granted
variable {inp : Nat → HeapIn}

theorem busReady (g : Granted f a h) : h.mux.busReady = true := (abus_busReady g.asking.cur).2 g.nxt

variable (inp) in
theorem writing (g : Granted f a h) (htwo : 2 ≤ f.beats) : ∀ k, k ≤ f.beats + 2 →
    Writing f a (k + 1) (run inp h (k + 1)) ∧
      (k + 1 ≤ f.beats → (run inp h (k + 1)).src.pending = h.src.pending) := by
  intro k
  induction k with
  | zero =>
    intro _
    have w : Writing h.src.cur h.dmac.out.heapAddr 1 (run inp h 1) :=
      g.waiting.writing g.asking g.nxt g.busReady (by rwa [g.frame])
    rw [g.frame, g.addr] at w
    refine ⟨w, fun _ => ?_⟩
    rw [run_succ, step_src]
    show (h.src.step h.dmac.out.rxAxisTready).pending = _
    rw [g.asking.rx.tready, RxSource.step_held g.waiting.tvalid]
  | succ k ih =>
    intro hk
    obtain ⟨r, hp⟩ := ih (by omega)
    refine ⟨r.step (fun hv => ?_) (by omega), fun hle => ?_⟩
    · -- beyond the last beat the stream is idle
      rcases Nat.lt_or_ge f.beats (k + 1) with hlt | hge
      · rw [(r.src.after hlt (by omega)).1] at hv; cases hv
      · rw [hp hge]; exact g.next
    · obtain ⟨hv, hcur, hpos⟩ := r.src.during (by omega)
      have hl : (run inp h (k + 1)).src.out.tlast = false := by
        rw [RxSource.out_of_tvalid hv, hcur, hpos, Frame.beat_tlast]; exact decide_eq_false (by omega)
      rw [run_succ, step_src, r.tready, decide_eq_true (by omega), RxSource.step_next hv hl]
      exact hp (by omega)

variable (inp) in
theorem ramAt (g : Granted f a h) (htwo : 2 ≤ f.beats) : ∀ k, k ≤ f.beats + 2 →
    RamAt f a (k + 1) (run inp h (k + 1)).ram := by
  intro k
  induction k with
  | zero => exact fun _ => RamAt.first g.asking g.busReady g.memValidReg
  | succ k ih => exact fun hk => (ih (by omega)).step (g.writing inp htwo k (by omega)).1 (by omega)

theorem byte (g : Granted f a h) (htwo : 2 ≤ f.beats) (x : BitVec 32) : ∀ k, k ≤ f.beats + 4 →
    (run inp h k).ram.byte x = f.landed a h.ram.byte x (k - 5) := by
  intro k
  induction k with
  | zero => exact fun _ => rfl
  | succ k ih =>
    intro hk
    rw [run_succ, step_byte, ih (by omega)]
    cases k with
    | zero =>
      -- the controller does not use the bus yet
      have hst : h.ram.strobed (h.ramPort (inp 0)) x = false := by
        rw [ramPort_granted g.busReady, Ram64KB.strobed]
        show (h.dmac.out.heapValid && _ && _) = false
        rw [g.asking.heapValid]; rfl
      show (if h.ram.strobed (h.ramPort (inp 0)) x then _ else _) = _
      rw [hst]; rfl
    | succ k =>
      have r := (g.writing inp htwo k (by omega)).1
      have hd : ((run inp h (k + 1)).ramPort (inp (k + 1))).wdata = (f.beat (k - 3)).tdata := by
        rw [ramPort_granted r.busReady]; exact r.heapWdata
      rw [(g.ramAt inp htwo k (by omega)).strobed r, hd]
      rcases Nat.lt_or_ge k 4 with h4 | h4
      · rw [decide_eq_false (by omega), show k + 1 + 1 - 5 = 0 by omega, show k + 1 - 5 = 0 by omega]; rfl
      · obtain ⟨m, rfl⟩ : ∃ m, k = m + 4 := ⟨k - 4, by omega⟩
        rw [decide_eq_true (by omega), Bool.true_and]
        rfl

variable (inp) in
theorem released (g : Granted f a h) (htwo : 2 ≤ f.beats) :
    Resting (run inp h (f.beats + 4)) ∧ (run inp h (f.beats + 5)).mux.busReady = false := by
  have hrest : Resting (run inp h (f.beats + 4)) := (g.writing inp htwo _ (Nat.le_refl _)).1.finish
  exact ⟨hrest, step_busReady_released _ _ (congrArg Dmac.Out.busValid hrest.out)⟩

theorem byte_released (g : Granted f a h) (htwo : 2 ≤ f.beats) (x : BitVec 32) :
    (run inp h (f.beats + 5)).ram.byte x = f.landed a h.ram.byte x (f.beats - 1) := by
  have hrest := (g.released inp htwo).1
  have r := (g.writing inp htwo _ (Nat.le_refl _)).1
  have hb : (run inp h (f.beats + 4)).mux.busReady = true := step_busReady_held _ _ r.busValid r.busReady
  have hst : (run inp h (f.beats + 4)).ram.strobed
      ((run inp h (f.beats + 4)).ramPort (inp (f.beats + 4))) x = false := by
    rw [ramPort_granted hb, Ram64KB.strobed]
    show ((run inp h (f.beats + 4)).dmac.out.heapValid && _ && _) = false
    rw [hrest.out]; rfl
  rw [run_succ, step_byte, hst, if_neg Bool.false_ne_true, g.byte htwo x _ (Nat.le_refl _),
    show f.beats + 4 - 5 = f.beats - 1 by omega]

end Granted

end Heap

end Picorv32Soc
