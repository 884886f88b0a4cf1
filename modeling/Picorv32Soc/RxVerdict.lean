import Picorv32Soc.Episodes
import Picorv32Soc.Reception

/-!
# The verdict on a frame

What one frame does to the ring when the traffic before it may have been anything: frames too close to
each other, transmit requests made and withdrawn, slots cleared in any order. It is enough that this
frame has two idle cycles in front of it and behind it and that the controller is in `STATE_WAIT` with
the frame untouched (`Offers`). The copies of `rx_axis_tready` that matter have run out by then
(`Offers.drained`), the reception goes through the phases of `Writing`, and the ring changes once, by
the verdict of the destination filter.
-/

namespace Picorv32Soc
open Bits

namespace RxSource
variable {s : RxSource} {b : Bool}

/-- An idle stream shows what it showed a cycle ago, and that was no beat in the middle of a frame. -/
theorem step_out_of_idle (hv : (s.step b).tvalid = false) :
    (s.step b).out = s.out ∧ (s.tvalid = true → s.out.tlast = true) := by
  have hload : s.load.tvalid = false → s.load.out = s.out := fun hl => by
    rcases load_cases s with ⟨-, -, ho⟩ | ⟨e, -⟩
    · exact ho
    · rw [e] at hl; cases hl
  cases hs : s.tvalid with
  | false =>
    rw [step_idle hs] at hv ⊢
    exact ⟨hload hv, fun e => by cases e⟩
  | true =>
    cases b with
    | false => rw [step_held hs, hs] at hv; cases hv
    | true =>
      cases hl : s.out.tlast with
      | false =>
        rw [step_next hs hl] at hv
        exact absurd (hs.symm.trans hv) (by decide)
      | true =>
        rw [step_last hs hl] at hv ⊢
        exact ⟨hload hv, fun _ => rfl⟩

theorem spaced_of_single {f : Frame} (ht : s.todo = [f]) : s.Spaced := by
  rw [todo] at ht
  cases hp : s.pending with
  | nil => exact ⟨by simp [hp], by simp [hp]⟩
  | cons p ps =>
    rw [hp] at ht
    cases hv : s.tvalid with
    | true => simp [hv] at ht
    | false =>
      have hps : ps = [] := by simpa [hv] using congrArg List.tail ht
      exact ⟨fun e => by simp [hv] at e, by simp [hp, hps]⟩

end RxSource

namespace Heap
variable {h : Heap} {i : HeapIn} {inp : Nat → HeapIn} {f : Frame} {a : BitVec 32}

/-! ### Whatever stream and software do -/

/-- What holds in every state after reset. -/
structure Always (h : Heap) : Prop where
  quiet : h.dmac.cur = .wait → h.dmac.out = Dmac.Out.quiet
  tready : h.dmac.out.rxAxisTready = true → h.dmac.cur = .write
  idle : h.src.tvalid = false → h.dmac.out.rxAxisTready = true → h.src.out.tlast = false
  /-- The stream shows a beat that is not the last of a frame: it has shown nothing else since reset. -/
  none : h.src.tvalid = false → h.src.out.tlast = false → h.dmac.pipe.rxAxisTlastM = false ∧
    h.dmac.pipe.rxAxisTlastM2 = false ∧ h.dmac.pipe.rxAxisTlastM3 = false

theorem step_tready (ht : (Heap.step i h).dmac.out.rxAxisTready = true) :
    h.nxtState = .write ∧ h.src.out.tlast = false := by
  rw [step_out] at ht
  cases hn : h.nxtState <;> rw [hn] at ht <;> first | cases ht | refine ⟨rfl, ?_⟩
  have ht : (if h.src.out.tlast then false else true) = true := ht
  cases hl : h.src.out.tlast
  · rfl
  · rw [hl] at ht; cases ht

theorem Always.step (w : Always h) : Always (Heap.step i h) := by
  refine ⟨fun hc => step_out_quiet h i (.inr hc), fun ht => (step_tready ht).1, fun hv ht => ?_, fun hv hl => ?_⟩
  · rw [step_src] at hv ⊢
    rw [(RxSource.step_out_of_idle hv).1]
    exact (step_tready ht).2
  · rw [step_src] at hv hl
    obtain ⟨ho, hlast⟩ := RxSource.step_out_of_idle hv
    rw [ho] at hl
    have hs : h.src.tvalid = false := by
      by_contra hs
      rw [hlast (by simpa using hs)] at hl
      cases hl
    obtain ⟨m, m2, -⟩ := w.none hs hl
    exact ⟨hl, m, m2⟩

theorem AfterReset.always {sched : List (Nat × Frame)} (hr : h.AfterReset sched) (t : Nat) :
    Always (run inp h t) := by
  refine Clocked.run_inv (P := Always) ?_ (fun t w => w.step) t
  obtain ⟨hc, ho, hp, -⟩ := hr.quiet
  refine ⟨fun _ => ho, fun ht => ?_, fun _ ht => ?_, fun _ _ => ?_⟩
  · rw [ho] at ht; cases ht
  · rw [ho] at ht; cases ht
  · rw [hp]; exact ⟨rfl, rfl, rfl⟩

/-- A reception that began without a frame does not end before the first one has come, and not within two cycles
of that either. -/
theorem Always.stuck (w : Always h) (hv : h.src.tvalid = false) (hn : h.nxtState = .write)
    (hl : h.src.out.tlast = false) (j : HeapIn) :
    (Heap.step i h).nxtState = .write ∧ (Heap.step j (Heap.step i h)).nxtState = .write := by
  obtain ⟨hm, hm2, hm3⟩ := w.none hv hl
  have h1 : (Heap.step i h).nxtState = .write := by
    rw [nxtState_write hn, show (Heap.step i h).dmac.pipe.rxAxisTlastM3 = false from hm2]; rfl
  refine ⟨h1, ?_⟩
  rw [nxtState_write h1, show (Heap.step j (Heap.step i h)).dmac.pipe.rxAxisTlastM3 = false from hm]; rfl

/-- `rx_axis_tready` is set only by the cycle before. -/
theorem tready_succ {j : Nat} (ht : (run inp h (j + 1)).dmac.out.rxAxisTready = true) :
    (run inp h j).nxtState = .write ∧ (run inp h j).src.out.tlast = false := step_tready ht

/-! ### A frame with idle cycles around it -/

/-- The stream offers `f` from cycle `s` on, after two idle cycles; in cycle `w` the frame is still
whole, and two idle cycles or more follow it. -/
structure Offers (inp : Nat → HeapIn) (h : Heap) (f : Frame) (s w : Nat) : Prop where
  le : s ≤ w
  idle : ∀ j, j < s → s ≤ j + 2 → (run inp h j).src.tvalid = false
  head : ∀ j, s ≤ j → j ≤ w →
    (run inp h j).src.tvalid = true ∧ (run inp h j).src.cur = f ∧ (run inp h j).src.pos = 0
  next : ∀ p ∈ (run inp h w).src.pending.head?, 2 ≤ p.1

namespace Offers
variable {sched : List (Nat × Frame)} {s w : Nat}

/-- In the two cycles before `w` the controller took nothing from the stream. Else it would have been receiving when
the frame came, without one, and would be in `STATE_WRITE` still. -/
theorem tready_before (hr : h.AfterReset sched) (o : Offers inp h f s w) (hc : (run inp h w).dmac.cur = .wait) {j : Nat}
    (hj : j < w) (hw : w ≤ j + 2) : (run inp h j).dmac.out.rxAxisTready = false := by
  -- no reception without a frame up to cycle `s`
  have hidle : ∀ m, m < s → s ≤ m + 2 → w = m + 1 ∨ w = m + 2 ∨ w = m + 3 → (run inp h m).nxtState = .write →
      (run inp h m).src.out.tlast = false → False := by
    intro m hm hs hw hn hl
    have hv := o.idle m hm hs
    obtain ⟨h1, h2⟩ := (hr.always m).stuck (i := inp m) hv hn hl (inp (m + 1))
    have hcur : (run inp h w).dmac.cur = .write := by
      rcases hw with rfl | rfl | rfl
      · exact hn
      · exact h1
      · exact h2
    exact absurd (hc.symm.trans hcur) (by decide)
  have hle := o.le
  by_contra ht
  rw [Bool.not_eq_false] at ht
  rcases Nat.lt_trichotomy j s with hlt | rfl | hgt
  · have hv := o.idle j hlt (by omega)
    have hl := (hr.always j).idle hv ht
    have hcur := (hr.always j).tready ht
    have hn : (run inp h j).nxtState = .write := by
      rw [nxtState_write hcur, ((hr.always j).none hv hl).2.2]; rfl
    exact hidle j hlt (by omega) (by omega) hn hl
  · cases j with
    | zero =>
      have := (hr.always 0 : Always (run inp h 0)).tready ht
      exact absurd (hr.quiet.1.symm.trans this) (by decide)
    | succ j =>
      obtain ⟨hn, hl⟩ := tready_succ ht
      exact hidle j (by omega) (by omega) (by omega) hn hl
  · obtain ⟨m, rfl⟩ : ∃ m, j = m + 1 := ⟨j - 1, by omega⟩
    obtain ⟨hv, hcur, hpos⟩ := o.head (m + 1) (by omega) (by omega)
    have hl := (tready_succ ht).2
    obtain ⟨hv', hcur', hpos'⟩ := o.head m (by omega) (by omega)
    have hl' : (run inp h (m + 1)).src.out.tlast = false := by
      rw [RxSource.out_of_tvalid hv', hcur', hpos'] at hl
      rw [RxSource.out_of_tvalid hv, hcur, hpos, hl]
    -- the first beat would be gone
    have hnext := (o.head (m + 1 + 1) (by omega) (by omega)).2.2
    rw [run_succ, step_src, ht, RxSource.step_next hv hl', hpos] at hnext
    cases hnext

theorem drained (hr : h.AfterReset sched) (o : Offers inp h f s w) (hc : (run inp h w).dmac.cur = .wait) :
    (run inp h w).dmac.pipe.rxAxisTreadyM = false ∧ (run inp h w).dmac.pipe.rxAxisTreadyM2 = false := by
  match w, o, hc with
  | 0, _, hc => exact absurd (hr.quiet.1.symm.trans hc) (by decide)
  | 1, o, hc =>
    have h0 := o.tready_before hr hc (j := 0) (by omega) (by omega)
    refine ⟨h0, ?_⟩
    show h.dmac.pipe.rxAxisTreadyM = false
    rw [hr.quiet.2.2.1]; rfl
  | w + 2, o, hc =>
    exact ⟨o.tready_before hr hc (j := w + 1) (by omega) (by omega),
      o.tready_before hr hc (j := w) (by omega) (by omega)⟩

end Offers

/-! ### The reception -/

namespace Offers
variable {sched : List (Nat × Frame)} {s w d : Nat}

/-- The controller waits for the bus with the frame on the outputs. -/
theorem asking (hr : h.AfterReset sched) (o : Offers inp h f s w) (hc : (run inp h w).dmac.cur = .wait) :
    ∀ k, (∀ j, j ≤ k → (run inp h (w + (j + 1))).dmac.cur = .abus) →
      Asking (run inp h (w + (k + 1))) ∧ FrameWaiting (run inp h (w + (k + 1))) ∧
        (run inp h (w + (k + 1))).src = (run inp h w).src ∧
        ((run inp h (w + (k + 1))).mux.busReady = true → (run inp h (w + (k + 1))).ram.memValidReg = false) := by
  intro k
  induction k with
  | zero =>
    intro ha
    have hq := (hr.always w).quiet hc
    obtain ⟨hv, hcur, hpos⟩ := o.head w o.le (Nat.le_refl _)
    have h0 : (run inp h w).dmac.out.rxAxisTready = false := by rw [hq]; rfl
    have hbus : (run inp h w).dmac.out.busValid = false := congrArg Dmac.Out.busValid hq
    have hw : FrameWaiting (run inp h (w + 1)) := frameWaiting_first hv hpos h0 hbus
    obtain ⟨h1, h2⟩ := o.drained hr hc
    refine ⟨asking_step (ha 0 (Nat.le_refl _)) h0 h1 h2 (fun _ => hpos) (.inr hw), hw, ?_, fun hb => ?_⟩
    · rw [Nat.zero_add, run_succ, step_src, h0, RxSource.step_held hv]
    · exact absurd (hb.symm.trans (step_busReady_released _ _ hbus)) (by decide)
  | succ k ih =>
    intro ha
    obtain ⟨r, hw, hsrc, -⟩ := ih fun j hj => ha j (by omega)
    have hcur := ha (k + 1) (Nat.le_refl _)
    have hw' : FrameWaiting (run inp h (w + (k + 1 + 1))) := hw.step r.rx.tready
    refine ⟨asking_step hcur r.rx.tready r.rx.treadyM r.rx.treadyM2 r.fresh (.inr hw'), hw', ?_,
      fun hb => memValidReg_granted ((abus_busReady r.cur).1 hcur) hb⟩
    rw [← hsrc, ← Nat.add_assoc, run_succ, step_src, r.rx.tready, RxSource.step_held hw.tvalid]

end Offers

namespace Granted

theorem filter (g : Granted f a h) (hthree : 3 ≤ f.beats) (hlen : f.nbytes < 2 ^ 32) :
    ∀ k, k ≤ f.beats + 2 → FilterAt f (k + 1) (run inp h (k + 1)).dmac.filter := by
  intro k
  induction k with
  | zero => exact fun _ => ⟨by omega, by omega, by omega⟩
  | succ k ih =>
    intro hk
    exact (ih (by omega)).step (g.writing inp (by omega) k (by omega)).1 hthree hlen (by omega)

theorem dropFrame (g : Granted f a h) (hthree : 3 ≤ f.beats) (hlen : f.nbytes < 2 ^ 32) :
    (run inp h (f.beats + 2)).dmac.filter.dropFrame = !Dmac.keepFrame f.dstMac := by
  rw [(g.filter hthree hlen (f.beats + 1) (by omega)).verdict (by omega)]

theorem bdFrameLen (g : Granted f a h) (htwo : 2 ≤ f.beats) :
    (run inp h (f.beats + 2)).dmac.out.bdFrameLen = BitVec.ofNat 32 f.nbytes := by
  rw [(g.writing inp htwo (f.beats + 1) (by omega)).1.bdFrameLen, if_pos (by omega),
    show f.beats + 1 + 1 - 2 = f.beats by omega, f.bytesBefore_beats]

theorem rxEnd (g : Granted f a h) (htwo : 2 ≤ f.beats) {k : Nat} (hk : k ≤ f.beats + 4) :
    (run inp h k).dmac.rxEnd = decide (k = f.beats + 2) := by
  rcases Nat.eq_zero_or_pos k with rfl | hpos
  · rw [decide_eq_false (by omega)]; exact Stage.rxEnd_of_quiet g.asking.rx
  · rcases Nat.lt_or_ge k (f.beats + 4) with hlt | hge
    · obtain ⟨m, rfl⟩ : ∃ m, k = m + 1 := ⟨k - 1, by omega⟩
      have w : (Stage.writing f a (m + 1)).At (run inp h (m + 1)) := (g.writing inp htwo m (by omega)).1
      exact w.rxEnd
    · obtain rfl : k = f.beats + 4 := Nat.le_antisymm hk hge
      rw [decide_eq_false (by omega)]
      exact Stage.rxEnd_of_quiet (g.released inp htwo).1.rx

end Granted

/-! ### The ring -/

/-- The slots that software clears in the first `n` cycles. -/
def cleared (inp : Nat → HeapIn) (h : Heap) : Nat → BitVec 8
  | 0 => 0
  | n + 1 => cleared inp h n ||| (run inp h n).dmac.regs.rxBdClr

theorem getLsbD_cleared_succ (n j : Nat) : (cleared inp h (n + 1)).getLsbD j =
    ((cleared inp h n).getLsbD j || (run inp h n).dmac.regs.rxBdClr.getLsbD j) := by
  rw [cleared, BitVec.getLsbD_or]

theorem rxBdClr_of_cleared {n j : Nat} (hc : (cleared inp h n).getLsbD j = false) :
    ∀ k, k < n → (run inp h k).dmac.regs.rxBdClr.getLsbD j = false := by
  induction n with
  | zero => intro k hk; omega
  | succ n ih =>
    rw [getLsbD_cleared_succ, Bool.or_eq_false_iff] at hc
    intro k hk
    rcases Nat.lt_or_ge k n with hlt | hge
    · exact ih hc.1 k hlt
    · obtain rfl : k = n := by omega
      exact hc.2

/-- As long as nothing is published, only software changes what the ring says about the other slots. -/
theorem ring_of_unpublished {n : Nat}
    (hno : ∀ k, k < n → ((run inp h k).dmac.rxEnd && !(run inp h k).dmac.filter.dropFrame) = false) :
    (run inp h n).dmac.ring.rxBdIdx = h.dmac.ring.rxBdIdx ∧
      (∀ j : BitVec 3, (run inp h n).dmac.ring.rxBdSta.getLsbD j.toNat =
        (h.dmac.ring.rxBdSta.getLsbD j.toNat && !(cleared inp h n).getLsbD j.toNat)) ∧
      ∀ j : BitVec 3, j ≠ h.dmac.ring.rxBdIdx → (run inp h n).dmac.ring.rxBdStaR.getLsbD j.toNat =
        (h.dmac.ring.rxBdStaR.getLsbD j.toNat && !(cleared inp h n).getLsbD j.toNat) := by
  induction n with
  | zero =>
    have hnone : ∀ b j, b = (b && !(cleared inp h 0).getLsbD j) := fun b j => by simp [cleared]
    exact ⟨rfl, fun j => hnone _ _, fun j _ => hnone _ _⟩
  | succ n ih =>
    obtain ⟨hidx, hsta, hstaR⟩ := ih fun k hk => hno k (by omega)
    have hn := hno n (by omega)
    refine ⟨?_, fun j => ?_, fun j hj => ?_⟩
    · show (run inp h n).dmac.stepRing.rxBdIdx = _
      rw [Dmac.stepRing_rxBdIdx, hn]
      exact hidx
    · show (run inp h n).dmac.stepRing.rxBdSta.getLsbD _ = _
      rw [Dmac.stepRing_rxBdSta, hn, hsta, getLsbD_cleared_succ, Bool.not_or, ← Bool.and_assoc]
      rfl
    · show (run inp h n).dmac.stepRing.rxBdStaR.getLsbD _ = _
      have hne : (j == (run inp h n).dmac.ring.rxBdIdx) = false := by rw [hidx]; exact beq_eq_false_iff_ne.2 hj
      rw [Dmac.stepRing_rxBdStaR, hne, Bool.and_false, Bool.and_false, hstaR j hj, getLsbD_cleared_succ, Bool.not_or,
        ← Bool.and_assoc]
      rfl

/-- The frame at the head is the one published in cycle `n`. -/
theorem ring_of_publish {n : Nat} {len : BitVec 32} (hend : (run inp h n).dmac.rxEnd = true)
    (hkeep : (run inp h n).dmac.filter.dropFrame = false) (hlen : (run inp h n).dmac.out.bdFrameLen = len)
    (hafter : (run inp h (n + 1)).dmac.rxEnd = false)
    (hclr : ∀ k, k < n + 2 → (run inp h k).dmac.regs.rxBdClr.getLsbD (run inp h n).dmac.ring.rxBdIdx.toNat = false) :
    (run inp h (n + 2)).dmac.ring.rxBdSta.getLsbD (run inp h n).dmac.ring.rxBdIdx.toNat = true ∧
      (run inp h (n + 2)).dmac.ring.rxBdLen (run inp h n).dmac.ring.rxBdIdx = len ∧
      (run inp h (n + 2)).dmac.ring.rxBdIdx = (run inp h n).dmac.ring.rxBdIdx + 1 := by
  have h1 : (run inp h (n + 1)).dmac.ring.rxBdSta.getLsbD (run inp h n).dmac.ring.rxBdIdx.toNat = true ∧
      (run inp h (n + 1)).dmac.ring.rxBdLen (run inp h n).dmac.ring.rxBdIdx = len ∧
      (run inp h (n + 1)).dmac.ring.rxBdIdx = (run inp h n).dmac.ring.rxBdIdx + 1 := by
    show (run inp h n).dmac.stepRing.rxBdSta.getLsbD _ = true ∧ (run inp h n).dmac.stepRing.rxBdLen _ = len ∧
      (run inp h n).dmac.stepRing.rxBdIdx = _
    rw [Dmac.stepRing_rxBdSta, Dmac.stepRing_rxBdLen, Dmac.stepRing_rxBdIdx, hend, hkeep, hclr n (by omega), hlen]
    simp
  show (run inp h (n + 1)).dmac.stepRing.rxBdSta.getLsbD _ = true ∧ (run inp h (n + 1)).dmac.stepRing.rxBdLen _ = len ∧
    (run inp h (n + 1)).dmac.stepRing.rxBdIdx = _
  rw [Dmac.stepRing_rxBdSta, Dmac.stepRing_rxBdLen, Dmac.stepRing_rxBdIdx, hafter, hclr (n + 1) (by omega), h1.1,
    h1.2.1, h1.2.2]
  simp

/-- The frame at the head is dropped in cycle `n`, and its slot given back. -/
theorem ring_of_drop {n : Nat} (hend : (run inp h n).dmac.rxEnd = true)
    (hdrop : (run inp h n).dmac.filter.dropFrame = true) (hstart : (run inp h (n + 1)).dmac.rxStart = false) :
    (run inp h (n + 2)).dmac.ring.rxBdStaR.getLsbD (run inp h n).dmac.ring.rxBdIdx.toNat = false := by
  have h1 : (run inp h (n + 1)).dmac.ring.rxBdStaR.getLsbD (run inp h n).dmac.ring.rxBdIdx.toNat = false := by
    show (run inp h n).dmac.stepRing.rxBdStaR.getLsbD _ = false
    rw [Dmac.stepRing_rxBdStaR, hend, hdrop]
    simp
  show (run inp h (n + 1)).dmac.stepRing.rxBdStaR.getLsbD _ = false
  rw [Dmac.stepRing_rxBdStaR, hstart, h1]
  simp

theorem Granted.rxBdIdx (g : Granted f a h) (htwo : 2 ≤ f.beats) :
    (run inp h (f.beats + 2)).dmac.ring.rxBdIdx = h.dmac.ring.rxBdIdx :=
  (ring_of_unpublished fun k hk => by rw [g.rxEnd htwo (by omega), decide_eq_false (by omega)]; rfl).1

variable (inp) in
theorem Granted.publishes (g : Granted f a h) (hthree : 3 ≤ f.beats) (hlen : f.nbytes < 2 ^ 32)
    (hkeep : Dmac.keepFrame f.dstMac = true)
    (hclr : ∀ k, k < f.beats + 4 → (run inp h k).dmac.regs.rxBdClr.getLsbD h.dmac.ring.rxBdIdx.toNat = false) :
    (run inp h (f.beats + 4)).dmac.ring.rxBdSta.getLsbD h.dmac.ring.rxBdIdx.toNat = true ∧
      (run inp h (f.beats + 4)).dmac.ring.rxBdLen h.dmac.ring.rxBdIdx = BitVec.ofNat 32 f.nbytes ∧
      (run inp h (f.beats + 4)).dmac.ring.rxBdIdx = h.dmac.ring.rxBdIdx + 1 := by
  have htwo : 2 ≤ f.beats := by omega
  have hend : ∀ k, k ≤ f.beats + 4 → (run inp h k).dmac.rxEnd = decide (k = f.beats + 2) := fun k hk =>
    g.rxEnd htwo hk
  have hdrop : (run inp h (f.beats + 2)).dmac.filter.dropFrame = false := by
    rw [g.dropFrame hthree hlen, hkeep]; rfl
  have hidx : (run inp h (f.beats + 2)).dmac.ring.rxBdIdx = h.dmac.ring.rxBdIdx := g.rxBdIdx htwo
  have hpub := ring_of_publish ((hend _ (by omega)).trans (decide_eq_true rfl)) hdrop (g.bdFrameLen htwo)
    ((hend _ (by omega)).trans (decide_eq_false (by omega))) (by rw [hidx]; exact hclr)
  rwa [hidx] at hpub

theorem getLsbD_and_not (x clr : BitVec 8) (j : BitVec 3) :
    (x &&& ~~~ clr).getLsbD j.toNat = (x.getLsbD j.toNat && !clr.getLsbD j.toNat) := by
  rw [BitVec.getLsbD_and, BitVec.getLsbD_not, decide_eq_true (by omega : j.toNat < 8), Bool.true_and]

namespace Offers
variable {sched : List (Nat × Frame)} {s w d : Nat}

/-- The reception seen from cycle `w`. -/
theorem run_begins (d m : Nat) : run (fun j => inp (w + j)) (run inp h w) (d + m) =
    run (fun j => inp (w + d + j)) (run inp h (w + d)) m := by
  rw [← run_add, ← run_add, Nat.add_assoc]

section
-- the controller is in `STATE_WAIT` in cycle `w`, and the bus is granted `d` cycles later
variable (hr : h.AfterReset sched) (o : Offers inp h f s w) (hc : (run inp h w).dmac.cur = .wait)
  (hask : ∀ k, 1 ≤ k → k ≤ d → (run inp h (w + k)).dmac.cur = .abus) (hn : (run inp h (w + d)).nxtState = .write)
include hr o hc hask hn

theorem granted : Granted f (run inp h (w + d)).dmac.out.heapAddr (run inp h (w + d)) := by
  cases d with
  | zero =>
    rcases of_nxtState_write hn with ⟨ha, -⟩ | ⟨ha, -⟩
    all_goals exact absurd (hc.symm.trans ha) (by decide)
  | succ d =>
    obtain ⟨r, hw, hsrc, hm⟩ := o.asking hr hc d fun j hj => hask (j + 1) (by omega) (by omega)
    exact ⟨r, hw, hn, by rw [hsrc]; exact (o.head w o.le (Nat.le_refl _)).2.1, rfl, by rw [hsrc]; exact o.next,
      hm ((abus_busReady r.cur).2 hn)⟩

theorem rxEnd (htwo : 2 ≤ f.beats) {k : Nat} (hk : k ≤ d + (f.beats + 4)) :
    (run inp h (w + k)).dmac.rxEnd = decide (k = d + (f.beats + 2)) := by
  rcases Nat.lt_or_ge k d with hlt | hge
  · rw [decide_eq_false (by omega)]
    cases k with
    | zero =>
      show ((run inp h w).dmac.pipe.rxAxisTreadyM2 && _) = false
      rw [(o.drained hr hc).2]; rfl
    | succ k =>
      exact Stage.rxEnd_of_quiet (o.asking hr hc k fun j hj => hask (j + 1) (by omega) (by omega)).1.rx
  · obtain ⟨m, rfl⟩ : ∃ m, k = d + m := ⟨k - d, by omega⟩
    rw [← Nat.add_assoc, run_add inp h (w + d), (o.granted hr hc hask hn).rxEnd htwo (by omega)]
    congr 1
    simp only [eq_iff_iff]
    omega

theorem published (hthree : 3 ≤ f.beats) (hlen : f.nbytes < 2 ^ 32)
    (hclr : (cleared (fun j => inp (w + j)) (run inp h w) (d + (f.beats + 4))).getLsbD
      (run inp h w).dmac.ring.rxBdIdx.toNat = false) (hkeep : Dmac.keepFrame f.dstMac = true) :
    (run inp h (w + (d + (f.beats + 4)))).dmac.ring.rxBdSta.getLsbD (run inp h w).dmac.ring.rxBdIdx.toNat = true ∧
      (run inp h (w + (d + (f.beats + 4)))).dmac.ring.rxBdLen (run inp h w).dmac.ring.rxBdIdx =
        BitVec.ofNat 32 f.nbytes ∧
      (run inp h (w + (d + (f.beats + 4)))).dmac.ring.rxBdIdx = (run inp h w).dmac.ring.rxBdIdx + 1 := by
  have g := o.granted hr hc hask hn
  have hidx : (run inp h (w + d)).dmac.ring.rxBdIdx = (run inp h w).dmac.ring.rxBdIdx := by
    rw [run_add inp h w]
    refine (ring_of_unpublished fun k hk => ?_).1
    rw [← run_add, o.rxEnd hr hc hask hn (by omega) (by omega), decide_eq_false (by omega)]; rfl
  have hpub := g.publishes (fun j => inp (w + d + j)) hthree hlen hkeep fun k hk => by
    rw [hidx, ← run_begins]; exact rxBdClr_of_cleared hclr _ (by omega)
  rwa [hidx, ← run_begins, ← run_add] at hpub

theorem dropped (hthree : 3 ≤ f.beats) (hlen : f.nbytes < 2 ^ 32) (hkeep : Dmac.keepFrame f.dstMac = false) :
    (run inp h (w + (d + (f.beats + 4)))).dmac.ring.rxBdIdx = (run inp h w).dmac.ring.rxBdIdx ∧
      (∀ j : BitVec 3, (run inp h (w + (d + (f.beats + 4)))).dmac.ring.rxBdSta.getLsbD j.toNat =
        ((run inp h w).dmac.ring.rxBdSta &&& ~~~ cleared (fun j => inp (w + j)) (run inp h w)
          (d + (f.beats + 4))).getLsbD j.toNat) ∧
      (∀ j : BitVec 3, j ≠ (run inp h w).dmac.ring.rxBdIdx →
        (run inp h (w + (d + (f.beats + 4)))).dmac.ring.rxBdStaR.getLsbD j.toNat =
          ((run inp h w).dmac.ring.rxBdStaR &&& ~~~ cleared (fun j => inp (w + j)) (run inp h w)
            (d + (f.beats + 4))).getLsbD j.toNat) ∧
      (run inp h (w + (d + (f.beats + 4)))).dmac.ring.rxBdStaR.getLsbD
        (run inp h w).dmac.ring.rxBdIdx.toNat = false := by
  have g := o.granted hr hc hask hn
  have hend : ∀ k, k ≤ d + (f.beats + 4) → _ := fun k hk => o.rxEnd hr hc hask hn (by omega) hk
  simp only [run_add inp h w, getLsbD_and_not] at hend ⊢
  have hdrop : (run (fun j => inp (w + j)) (run inp h w) (d + (f.beats + 2))).dmac.filter.dropFrame = true := by
    rw [run_begins, g.dropFrame hthree hlen, hkeep]; rfl
  -- no cycle publishes
  have hno : ∀ k, k < d + (f.beats + 4) → ((run (fun j => inp (w + j)) (run inp h w) k).dmac.rxEnd &&
      !(run (fun j => inp (w + j)) (run inp h w) k).dmac.filter.dropFrame) = false := by
    intro k hk
    by_cases he : k = d + (f.beats + 2)
    · rw [he, hdrop]; simp
    · rw [hend k (by omega), decide_eq_false he]; rfl
  obtain ⟨hidx, hsta, hstaR⟩ := ring_of_unpublished hno
  refine ⟨hidx, hsta, hstaR, ?_⟩
  have hnow := hend (d + (f.beats + 2)) (by omega)
  rw [decide_eq_true rfl] at hnow
  have hstart : (run (fun j => inp (w + j)) (run inp h w) (d + (f.beats + 2) + 1)).dmac.rxStart = false := by
    have wr : (Stage.writing f _ (f.beats + 2 + 1)).At (run (fun j => inp (w + d + j)) _ (f.beats + 2 + 1)) :=
      (g.writing _ (by omega) (f.beats + 2) (by omega)).1
    rw [Nat.add_assoc d, run_begins, wr.rxStart]
    exact decide_eq_false (show ¬ f.beats + 2 + 1 = 1 by omega)
  have hback := ring_of_drop hnow hdrop hstart
  rwa [(ring_of_unpublished fun k hk => hno k (by omega)).1] at hback

end

end Offers

/-- A frame of 12 bytes for another station. -/
def nobody : Frame := .ofWords [0, 0] 0

/-- The last frame of the stream, `f`, comes in cycle `w`, and the bus is granted to the controller `d` cycles later. -/
structure GrantAfter (inp : Nat → HeapIn) (h : Heap) (f : Frame) (w d : Nat) : Prop where
  idle : ∀ j, j < w → w ≤ j + 2 → (run inp h j).src.tvalid = false
  head : (run inp h w).src.tvalid = true ∧ (run inp h w).src.cur = f ∧ (run inp h w).src.pos = 0
  last : (run inp h w).src.pending = []
  wait : (run inp h w).dmac.cur = .wait
  abus : ∀ k, 1 ≤ k → k ≤ d → (run inp h (w + k)).dmac.cur = .abus
  write : (run inp h (w + d)).nxtState = .write

instance (inp : Nat → HeapIn) (h : Heap) (f : Frame) (w d : Nat) : Decidable (GrantAfter inp h f w d) :=
  decidable_of_iff
    ((∀ j, j < w → w ≤ j + 2 → (run inp h j).src.tvalid = false) ∧
      ((run inp h w).src.tvalid = true ∧ (run inp h w).src.cur = f ∧ (run inp h w).src.pos = 0) ∧
      (run inp h w).src.pending = [] ∧ (run inp h w).dmac.cur = .wait ∧
      (∀ k, k ≤ d → 1 ≤ k → (run inp h (w + k)).dmac.cur = .abus) ∧ (run inp h (w + d)).nxtState = .write)
    ⟨fun ⟨hidle, hhead, hlast, hwait, habus, hwrite⟩ => ⟨hidle, hhead, hlast, hwait, fun k h1 h2 => habus k h2 h1, hwrite⟩,
      fun g => ⟨g.idle, g.head, g.last, g.wait, fun k h2 h1 => g.abus k h1 h2, g.write⟩⟩

theorem GrantAfter.offers {w d : Nat} (g : GrantAfter inp h f w d) : Offers inp h f w w := by
  refine ⟨Nat.le_refl _, g.idle, fun j h1 h2 => ?_, by simp [g.last]⟩
  obtain rfl : j = w := Nat.le_antisymm h2 h1
  exact g.head

/-- What is left of a single frame in each phase. -/
def Left (f : Frame) : Stage → Heap → Prop
  | .writing f' _ k, h => f' = f ∧ h.src.todo = if k ≤ f.beats then [f] else []
  | .runt, h => h.src.todo = [f]
  | _, h => h.src.todo = [f] ∨ h.src.todo = []

theorem todo_kept (ht : h.dmac.out.rxAxisTready = false) : (Heap.step i h).src.todo = h.src.todo := by
  rw [step_src, ht, RxSource.todo_step_false]

/-- A frame that waits on the outputs is the single one. -/
theorem cur_of_todo (hv : h.src.tvalid = true) (ht : h.src.todo = [f] ∨ h.src.todo = []) :
    h.src.cur = f ∧ h.src.todo = [f] := by
  have hcons : h.src.todo = h.src.cur :: h.src.pending.map Prod.snd := by simp [RxSource.todo, hv]
  rcases ht with ht | ht
  · exact ⟨(List.cons.inj (hcons.symm.trans ht)).1, ht⟩
  · cases hcons.symm.trans ht

theorem Left.beat {k : Nat} (r : Writing f a k h) (hk : k ≤ f.beats + 2)
    (ht : h.src.todo = if k ≤ f.beats then [f] else []) :
    (Heap.step i h).src.todo = if k + 1 ≤ f.beats then [f] else [] := by
  have hpos := r.pos
  have hl : h.src.out.tlast = decide (f.beats ≤ k) := by
    rw [r.src.out hpos hk, Frame.beat_tlast, Nat.sub_add_cancel hpos]
  rw [step_src, r.tready]
  rcases Nat.lt_trichotomy k f.beats with hlt | heq | hgt
  · rw [if_pos (by omega)] at ht
    obtain ⟨hv, -, -⟩ := r.src.during (by omega)
    rw [if_pos (by omega), decide_eq_true (by omega),
      RxSource.todo_step_next hv (by rw [hl]; exact decide_eq_false (by omega)), ht]
  · rw [if_pos (by omega)] at ht
    obtain ⟨hv, -, -⟩ := r.src.during (by omega)
    have hlast := RxSource.todo_step_last hv (by rw [hl]; exact decide_eq_true (by omega))
    rw [if_neg (by omega), decide_eq_true (by omega)]
    exact (List.cons.inj (hlast.symm.trans ht)).2
  · rw [if_neg (by omega)] at ht
    obtain ⟨hv, -, -⟩ := r.src.after hgt hk
    rw [if_neg (by omega), RxSource.todo_step_idle hv, ht]

theorem Left.step {st st' : Stage} (r : st.At h) (l : Left f st h) (hn : Stage.Next h st st') :
    Left f st' (Heap.step i h) := by
  cases hn with
  | rest | ask | wait | send | more | sent =>
    have hkept : (Heap.step i h).src.todo = h.src.todo := todo_kept (by rw [r.tready]; rfl)
    show _ ∨ _
    rw [hkept]
    exact l
  | first w _ htwo =>
    obtain ⟨hcur, ht⟩ := cur_of_todo w.tvalid l
    refine ⟨hcur, ?_⟩
    rw [todo_kept (by rw [r.tready]; rfl), ht, if_pos (by rw [hcur] at htwo; omega)]
  | refuse w =>
    obtain ⟨-, ht⟩ := cur_of_todo w.tvalid l
    exact (todo_kept (by rw [r.tready]; rfl)).trans ht
  | beat hk =>
    obtain ⟨rfl, ht⟩ := l
    exact ⟨rfl, Left.beat r hk ht⟩
  | last =>
    obtain ⟨rfl, ht⟩ := l
    rw [if_neg (by omega)] at ht
    refine .inr ((todo_kept ?_).trans ht)
    rw [r.tready]
    exact decide_eq_false (by omega)
  | refused => exact .inl ((todo_kept (by rw [r.tready]; rfl)).trans l)

/-- **When a reception takes its frame.** A controller at rest is offered a single frame: whenever it
returns from `STATE_WRITE` to `STATE_WAIT` the frame is gone from the stream, if and only if the frame
has two beats or more. -/
theorem frame_taken_iff (hrest : Resting h) (hone : h.src.todo = [f])
    (hreq : ∀ t, KeepsRequest (inp t) (run inp h t)) {t : Nat} (hc : (run inp h t).dmac.cur = .write)
    (hn : (run inp h t).nxtState = .wait) : (run inp h (t + 1)).src.todo = [] ↔ 2 ≤ f.beats := by
  have key : ∀ t, ∃ st, Ctl st (run inp h t) ∧ Left f st (run inp h t) :=
    Clocked.run_inv (P := fun h => ∃ st, Ctl st h ∧ Left f st h) 
      ⟨.resting, ⟨RxSource.spaced_of_single hone, hrest⟩, .inl hone⟩
      fun t ⟨st, c, l⟩ => by
        obtain ⟨st', hn, c'⟩ := c.step (hreq t)
        exact ⟨st', c', l.step c.phase hn⟩
  obtain ⟨st, c, l⟩ := key t
  rcases c.phase.of_write hc with ⟨f', a, k, rfl⟩ | rfl
  · have r : Writing f' a k (run inp h t) := c.phase
    obtain ⟨rfl, ht⟩ := l
    have hk : k = f'.beats + 3 := by
      by_contra hk
      rw [r.nxtState_eq, if_neg hk] at hn
      cases hn
    rw [if_neg (by omega)] at ht
    have htr : (run inp h t).dmac.out.rxAxisTready = false := by rw [r.tready]; simp [hk]
    have hgone : (run inp h (t + 1)).src.todo = [] := (todo_kept htr).trans ht
    exact ⟨fun _ => r.two, fun _ => hgone⟩
  · have r : Runt (run inp h t) := c.phase
    have hbeats : f.beats = 1 := (cur_of_todo r.tvalid (.inl l)).1 ▸ r.one
    have hthere : (run inp h (t + 1)).src.todo = [f] := (todo_kept r.rx.tready).trans l
    rw [hthere, hbeats]
    simp

theorem frame_taken_iff_nobody :
    (run RxLog.switchOn (start [(6, nobody)]) 16).src.todo = [] ↔ 2 ≤ nobody.beats :=
  frame_taken_iff (t := 15) ((start_afterReset [(6, nobody)]).ctl (by decide)).phase rfl
    (fun t => RxLog.keepsRequest_switchOn t _) (by decide +kernel) (by decide +kernel)

/-- A frame of one beat. -/
def oneBeat : Frame := .ofWords [] 0xffffffff

/-- The controller is back in `STATE_WAIT` and the frame is still there, all of it; it asks for the bus
again at once. -/
theorem one_beat_not_taken :
    (run RxLog.switchOn (start [(6, oneBeat)]) 10).dmac.cur = .write ∧
      (run RxLog.switchOn (start [(6, oneBeat)]) 10).nxtState = .wait ∧
      (run RxLog.switchOn (start [(6, oneBeat)]) 11).dmac.cur = .wait ∧
      (run RxLog.switchOn (start [(6, oneBeat)]) 11).src.tvalid = true ∧
      (run RxLog.switchOn (start [(6, oneBeat)]) 11).src.cur = oneBeat ∧
      (run RxLog.switchOn (start [(6, oneBeat)]) 11).src.pos = 0 ∧
      (run RxLog.switchOn (start [(6, oneBeat)]) 11).nxtState = .abus := by
  decide +kernel

end Heap

end Picorv32Soc
