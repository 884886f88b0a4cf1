import Picorv32Soc.Phase

/-!
# Every edge leads from one phase to a phase

`Writing.step` is the heart: the register values of phase `k` of a reception give those of phase
`k + 1`. The other phases only have to keep the copies of `rx_axis_tready` low and to let the head
frame of the stream wait long enough before its reception starts.
-/

namespace Picorv32Soc

/-! ### The stream -/

namespace RxSource
variable {s : RxSource}

theorem out_of_tvalid (hv : s.tvalid = true) : s.out = s.cur.beat s.pos := by rw [out, if_pos hv]

theorem load_nil (h : s.pending = []) : s.load = { s with tvalid := false, stale := s.out } := by simp [load, h]

theorem load_zero {f : Frame} {ps : List (Nat × Frame)} (h : s.pending = (0, f) :: ps) :
    s.load = { s with cur := f, pos := 0, tvalid := true, pending := ps } := by simp [load, h]

theorem load_succ {g : Nat} {f : Frame} {ps : List (Nat × Frame)} (h : s.pending = (g + 1, f) :: ps) :
    s.load = { s with tvalid := false, stale := s.out, pending := (g, f) :: ps } := by simp [load, h]

theorem load_early (h : ∀ p ∈ s.pending.head?, 1 ≤ p.1) :
    s.load.tvalid = false ∧ s.load.cur = s.cur ∧ s.load.out = s.out := by
  rcases hp : s.pending with _ | ⟨⟨g, f⟩, ps⟩
  · rw [load_nil hp]; exact ⟨rfl, rfl, rfl⟩
  · rw [hp] at h
    obtain ⟨g, rfl⟩ : ∃ m, g = m + 1 := ⟨g - 1, by have : 1 ≤ g := h _ rfl; omega⟩
    rw [load_succ hp]; exact ⟨rfl, rfl, rfl⟩

theorem load_cases (s : RxSource) :
    (s.load.tvalid = false ∧ s.load.cur = s.cur ∧ s.load.out = s.out) ∨
      (s.load.tvalid = true ∧ s.load.pos = 0) := by
  rcases hp : s.pending with _ | ⟨⟨g, f⟩, ps⟩
  · rw [load_nil hp]; exact .inl ⟨rfl, rfl, rfl⟩
  · cases g with
    | zero => rw [load_zero hp]; exact .inr ⟨rfl, rfl⟩
    | succ g => rw [load_succ hp]; exact .inl ⟨rfl, rfl, rfl⟩

theorem Spaced.load (h : ∀ p ∈ s.pending.tail, 2 ≤ p.1) : s.load.Spaced := by
  rcases hp : s.pending with _ | ⟨⟨g, f⟩, ps⟩
  · rw [load_nil hp]; exact ⟨by simp, by simp [hp]⟩
  · rw [hp] at h
    cases g with
    | zero => rw [load_zero hp]; exact ⟨fun _ => h, fun p hm => h p (List.mem_of_mem_tail hm)⟩
    | succ g => rw [load_succ hp]; exact ⟨by simp, h⟩

theorem Spaced.step (h : s.Spaced) (tready : Bool) : (s.step tready).Spaced := by
  unfold RxSource.step
  split_ifs with hv ht hl
  · exact Spaced.load h.later
  · exact ⟨fun _ => h.queued hv, h.later⟩
  · exact h
  · exact Spaced.load h.later

theorem Spaced.next (h : s.Spaced) (hv : s.tvalid = true) : ∀ p ∈ s.pending.head?, 2 ≤ p.1 :=
  fun p hm => h.queued hv p (List.mem_of_mem_head? hm)

theorem step_held (hv : s.tvalid = true) : s.step false = s := by simp [RxSource.step, hv]

theorem step_next (hv : s.tvalid = true) (hl : s.out.tlast = false) :
    s.step true = { s with pos := s.pos + 1 } := by simp [RxSource.step, hv, hl]

theorem step_last (hv : s.tvalid = true) (hl : s.out.tlast = true) : s.step true = s.load := by
  simp [RxSource.step, hv, hl]

theorem step_idle (hv : s.tvalid = false) (tready : Bool) : s.step tready = s.load := by
  simp [RxSource.step, hv]

theorem Fresh.step (h : s.Fresh) : (s.step false).Fresh := by
  intro hv'
  cases hv : s.tvalid with
  | true => rw [step_held hv]; exact h hv
  | false =>
    rw [step_idle hv] at hv' ⊢
    rcases load_cases s with ⟨e, -, -⟩ | ⟨-, e⟩
    · rw [e] at hv'; cases hv'
    · exact e

end RxSource

namespace Heap

theorem SrcAt.out {f : Frame} {k : Nat} {s : RxSource} (h : SrcAt f k s) (hk : 1 ≤ k)
    (hk' : k ≤ f.beats + 2) : s.out = f.beat (k - 1) := by
  rcases Nat.lt_or_ge f.beats k with hlt | hle
  · obtain ⟨-, -, ho⟩ := h.after hlt hk'
    rw [ho, f.beat_of_le (i := k - 1) (by omega)]
  · obtain ⟨hv, hc, hp⟩ := h.during hle
    rw [RxSource.out_of_tvalid hv, hc, hp]

theorem SrcAt.step {f : Frame} {k : Nat} {s : RxSource} (h : SrcAt f k s)
    (hs : s.tvalid = true → ∀ p ∈ s.pending.head?, 2 ≤ p.1) (hk : 1 ≤ k) (hk' : k ≤ f.beats + 2) : SrcAt f (k + 1) (s.step (decide (k ≤ f.beats))) := by
  have hl : s.out.tlast = decide (f.beats ≤ k) := by
    rw [h.out hk hk', Frame.beat_tlast]; congr 1; rw [Nat.sub_add_cancel hk]
  rcases Nat.lt_trichotomy k f.beats with hlt | heq | hgt
  · -- the next beat
    obtain ⟨hv, hc, hp⟩ := h.during (Nat.le_of_lt hlt)
    rw [decide_eq_true (Nat.le_of_lt hlt), RxSource.step_next hv (by rw [hl]; simpa using hlt)]
    refine ⟨fun _ => ⟨hv, hc, ?_⟩, fun _ _ => ?_, fun _ => ?_, fun _ => ?_⟩
    · show s.pos + 1 = k + 1 - 1; omega
    all_goals omega
  · -- the last beat goes; the next frame is at least two cycles away
    obtain ⟨hv, hc, hp⟩ := h.during (Nat.le_of_eq heq)
    rw [decide_eq_true (Nat.le_of_eq heq), RxSource.step_last hv (by rw [hl, heq]; simp)]
    have hg := hs hv
    have hearly : ∀ p ∈ s.pending.head?, 1 ≤ p.1 := fun p hm => Nat.le_of_succ_le (hg p hm)
    obtain ⟨e1, e2, e3⟩ := RxSource.load_early hearly
    have hout : s.out = f.beat (f.beats - 1) := by rw [RxSource.out_of_tvalid hv, hc, hp, heq]
    refine ⟨fun _ => ?_, fun _ _ => ⟨e1, e2.trans hc, e3.trans hout⟩, fun _ p hm => ?_, fun _ => ?_⟩
    · omega
    · rcases hp : s.pending with _ | ⟨⟨g, f'⟩, ps⟩
      · rw [RxSource.load_nil hp] at hm; simp [hp] at hm
      · have h2 : 2 ≤ g := hg (g, f') (by simp [hp])
        obtain ⟨g, rfl⟩ : ∃ m, g = m + 1 := ⟨g - 1, by omega⟩
        rw [RxSource.load_succ hp] at hm
        simp only [List.head?_cons, Option.mem_some_iff] at hm
        subst hm
        exact Nat.le_of_succ_le_succ h2
    · omega
  · obtain ⟨hv, hc, hp⟩ := h.after hgt hk'
    rw [RxSource.step_idle hv]
    rcases Nat.lt_or_ge k (f.beats + 2) with hlt | hge
    · -- first idle cycle
      obtain ⟨e1, e2, e3⟩ := RxSource.load_early (h.gap (by omega))
      refine ⟨fun _ => ?_, fun _ _ => ⟨e1, e2.trans hc, e3.trans hp⟩, fun _ => ?_, fun _ => ?_⟩ <;> omega
    · -- second idle cycle: the next frame may come
      refine ⟨fun _ => ?_, fun _ _ => ?_, fun _ => ?_, fun _ => ?_⟩
      · omega
      · omega
      · omega
      · rcases RxSource.load_cases s with ⟨e1, e2, -⟩ | e
        · exact .inl ⟨e1, e2.trans hc⟩
        · exact .inr e

end Heap

/-! ### A reception -/

namespace Frame
variable (f : Frame)

theorem bytesBefore_zero : f.bytesBefore 0 = 0 := by simp [bytesBefore]

theorem bytesBefore_beats : f.bytesBefore f.beats = f.nbytes := by
  have := f.tailKeep.isLt
  simp only [bytesBefore, beats, nbytes]; omega

/-- `keep2bytes` counts the bytes of a beat. -/
theorem bytesBefore_succ {i : Nat} (hi : i < f.beats) :
    f.bytesBefore (i + 1) = f.bytesBefore i + (Dmac.keep2bytes (f.beat i).tkeep).toNat := by
  rcases Nat.lt_or_ge (i + 1) f.beats with h | h
  · rw [beat_tkeep_full f h]
    simp only [bytesBefore, beats, nbytes] at h ⊢
    show _ = _ + 4; omega
  · rw [beat_tkeep_last f h]
    have hk : (Dmac.keep2bytes (keepMask f.tailKeep)).toNat = f.tailKeep.val + 1 := by
      generalize f.tailKeep = t; revert t; decide
    rw [hk]
    have := f.tailKeep.isLt
    simp only [bytesBefore, beats, nbytes] at hi h ⊢; omega

end Frame

namespace Heap
variable {h : Heap} {i : HeapIn} {f : Frame} {a : BitVec 32} {k : Nat}

theorem nxtState_write (hc : h.dmac.cur = .write) :
    h.nxtState = if h.dmac.pipe.rxAxisTlastM3 then .wait else .write := by
  simp [nxtState, Dmac.nxtState, hc]

theorem Writing.nxtState_eq (r : Writing f a k h) :
    h.nxtState = if k = f.beats + 3 then .wait else .write := by
  rw [nxtState_write r.cur, r.tlastM3]
  have := r.le
  rcases Nat.lt_or_ge k (f.beats + 3) with hlt | hge
  · rw [if_neg (by simpa using hlt), if_neg (by omega)]
  · rw [if_pos (by simpa using hge), if_pos (by omega)]

theorem Writing.len_step (r : Writing f a k h) (hk : k ≤ f.beats + 2) :
    (if h.dmac.pipe.rxAxisTreadyM then
        h.dmac.out.bdFrameLen + (Dmac.keep2bytes h.dmac.pipe.rxAxisTkeepM).setWidth 32 else 0) =
      if k + 1 ≤ f.beats + 2 then BitVec.ofNat 32 (f.bytesBefore (k + 1 - 2)) else 0 := by
  rw [r.treadyM, r.bdFrameLen, r.tkeepM, if_pos hk]
  have hpos := r.pos
  rcases Nat.lt_or_ge k 2 with h1 | h2
  · obtain rfl : k = 1 := by omega
    rw [if_neg (by simp), if_pos (by have := r.two; omega)]
    simp [f.bytesBefore_zero]
  · rcases Nat.lt_or_ge (f.beats + 1) k with h3 | h3
    · rw [if_neg (by simp; omega), if_neg (by omega)]
    · obtain ⟨j, rfl⟩ : ∃ j, k = j + 2 := ⟨k - 2, by omega⟩
      rw [if_pos (by simp; omega), if_pos (by omega)]
      simp only [Nat.add_sub_cancel, show j + 2 + 1 - 2 = j + 1 from rfl]
      rw [f.bytesBefore_succ (by omega), BitVec.ofNat_add]
      congr 1
      apply BitVec.eq_of_toNat_eq
      rw [BitVec.toNat_setWidth, BitVec.toNat_ofNat]

theorem Writing.step (r : Writing f a k h) (hs : h.src.tvalid = true → ∀ p ∈ h.src.pending.head?, 2 ≤ p.1)
    (hk : k ≤ f.beats + 2) : Writing f a (k + 1) (Heap.step i h) := by
  have hpos := r.pos
  have htwo := r.two
  have hn : h.nxtState = .write := by rw [r.nxtState_eq, if_neg (by omega)]
  have hout := step_out_write h i hn
  have hbeat : h.src.out = f.beat (k - 1) := r.src.out hpos hk
  have hlast : h.src.out.tlast = decide (f.beats ≤ k) := by
    rw [hbeat, Frame.beat_tlast]; congr 1; rw [Nat.sub_add_cancel hpos]
  constructor
  case two => exact htwo
  case pos => omega
  case le => omega
  case cur => exact hn
  case busReady => exact step_busReady_held h i r.busValid r.busReady
  case src => rw [step_src, r.tready]; exact r.src.step hs hpos hk
  case heapValid => rw [hout]; rfl
  case busValid => rw [hout]; rfl
  case tready =>
    rw [hout]
    show (if h.src.out.tlast then false else true) = _
    rw [hlast]
    by_cases hb : f.beats ≤ k
    · rw [decide_eq_true hb, if_pos rfl]
      exact (decide_eq_false (by omega)).symm
    · rw [decide_eq_false hb, if_neg Bool.false_ne_true]
      exact (decide_eq_true (by omega)).symm
  case treadyM =>
    show h.dmac.out.rxAxisTready = _
    rw [r.tready]; congr 1; simp only [eq_iff_iff]; omega
  case treadyM2 =>
    show h.dmac.pipe.rxAxisTreadyM = _
    rw [r.treadyM]; congr 1; simp only [eq_iff_iff]; omega
  case treadyM3 =>
    show h.dmac.pipe.rxAxisTreadyM2 = _
    rw [r.treadyM2]; congr 1; simp only [eq_iff_iff]; omega
  case tlastM =>
    show h.src.out.tlast = _
    rw [hlast]; congr 1; simp only [eq_iff_iff]; omega
  case tlastM2 =>
    show h.dmac.pipe.rxAxisTlastM = _
    rw [r.tlastM]; congr 1; simp only [eq_iff_iff]; omega
  case tlastM3 =>
    show h.dmac.pipe.rxAxisTlastM2 = _
    rw [r.tlastM2]; congr 1; simp only [eq_iff_iff]; omega
  case tdataM =>
    show h.src.out.tdata = _
    rw [hbeat]; rfl
  case tdataM2 =>
    show h.dmac.pipe.rxAxisTdataM = _
    rw [r.tdataM]; rfl
  case tkeepM =>
    show h.src.out.tkeep = _
    rw [hbeat]; rfl
  case heapAddr =>
    rw [hout]
    show (if h.dmac.pipe.rxAxisTreadyM3 then h.dmac.out.heapAddr + 4 else h.dmac.out.heapAddr) = _
    rw [r.treadyM3, r.heapAddr]
    rcases Nat.lt_or_ge k 4 with h4 | h4
    · rw [if_neg (by simpa using h4), Nat.sub_eq_zero_of_le (by omega : k ≤ 4),
        Nat.sub_eq_zero_of_le (by omega : k + 1 ≤ 4)]
    · rw [if_pos (by simpa using h4), show 4 * (k + 1 - 4) = 4 * (k - 4) + 4 by omega, BitVec.ofNat_add,
        BitVec.add_assoc]
      rfl
  case heapWdata =>
    rw [hout]
    show h.dmac.pipe.rxAxisTdataM2 = _
    rw [r.tdataM2]; rfl
  case heapWstrb =>
    rw [hout]
    show (if h.dmac.pipe.rxAxisTreadyM && h.dmac.out.rxAxisTready then h.src.out.tkeep else 0) = _
    rw [r.treadyM, r.tready, hbeat]
    by_cases hb : 2 ≤ k ∧ k ≤ f.beats
    · rw [if_pos (by simp; omega), if_pos (by omega)]; rfl
    · rw [if_neg (by simp; omega), if_neg (by omega)]
  case bdFrameLen => rw [hout]; exact r.len_step hk
  case txStaReady => rw [hout]; rfl

end Heap

/-! ### The other phases -/

namespace Heap
variable {h : Heap} {i : HeapIn} {f : Frame} {a : BitVec 32} {k : Nat}

theorem rxQuiet_step (h0 : h.dmac.out.rxAxisTready = false) (h1 : h.dmac.pipe.rxAxisTreadyM = false)
    (h2 : h.dmac.pipe.rxAxisTreadyM2 = false) (hn : h.nxtState ≠ .write) : (Heap.step i h).dmac.RxQuiet := by
  refine ⟨?_, h0, h1, h2⟩
  rw [step_out]
  cases hs : h.nxtState <;> first | rfl | exact absurd hs hn

theorem fresh_step (hf : h.src.Fresh) (hr : h.dmac.out.rxAxisTready = false) :
    (Heap.step i h).src.Fresh := by
  rw [step_src, hr]; exact hf.step

/-- Whenever the next state is `STATE_WAIT` the controller comes to rest, provided the copies of
`rx_axis_tready` have run out. -/
theorem resting_step (hn : h.nxtState = .idle ∨ h.nxtState = .wait) (hf : h.src.Fresh)
    (h0 : h.dmac.out.rxAxisTready = false) (h1 : h.dmac.pipe.rxAxisTreadyM = false)
    (h2 : h.dmac.pipe.rxAxisTreadyM2 = false) : Resting (Heap.step i h) := by
  refine ⟨hn, step_out_quiet h i hn, ⟨?_, h0, h1, h2⟩, fresh_step hf h0⟩
  rw [step_out_quiet h i hn]; rfl

theorem txStaValid_step (hi : KeepsRequest i h) (hr : h.dmac.out.txStaReady = false)
    (hv : h.dmac.txStaValid = true) : (Heap.step i h).dmac.txStaValid = true := by
  have hi := hi hv
  show ((h.dmac.regs.step h.dmac.ring h.dmac.out.txStaReady i.mem).txBdSta != 0) = true
  simp only [Dmac.Regs.step, hr, Bool.false_eq_true, if_false]
  split_ifs with hst
  · simp only [Bool.and_eq_true, beq_iff_eq] at hst
    simpa using hi hst.1 hst.2
  · exact hv

/-- A frame seen in `STATE_WAIT` has been on the outputs for one cycle when the bus is asked for. -/
theorem frameWaiting_first (hv : h.src.tvalid = true) (hp : h.src.pos = 0)
    (hr : h.dmac.out.rxAxisTready = false) (hb : h.dmac.out.busValid = false) :
    FrameWaiting (Heap.step i h) := by
  have hsrc : (Heap.step i h).src = h.src := by rw [step_src, hr, RxSource.step_held hv]
  have hout : h.src.out = (Heap.step i h).src.cur.beat 0 := by rw [hsrc, RxSource.out_of_tvalid hv, hp]
  have hbus := step_busReady_released h i hb
  refine ⟨hsrc ▸ hv, hsrc ▸ hp, ?_, ?_, ?_, fun hb' => ?_, fun hb' => ?_⟩
  · show h.src.out.tlast = _; rw [hout]
  · show h.src.out.tdata = _; rw [hout]
  · show h.src.out.tkeep = _; rw [hout]
  · rw [hbus] at hb'; cases hb'
  · rw [hbus] at hb'; cases hb'

theorem FrameWaiting.step (w : FrameWaiting h) (hr : h.dmac.out.rxAxisTready = false) :
    FrameWaiting (Heap.step i h) := by
  have hsrc : (Heap.step i h).src = h.src := by rw [step_src, hr, RxSource.step_held w.tvalid]
  have hout : h.src.out = h.src.cur.beat 0 := by rw [RxSource.out_of_tvalid w.tvalid, w.pos]
  refine ⟨hsrc ▸ w.tvalid, hsrc ▸ w.pos, ?_, ?_, ?_, fun _ => ?_, fun _ => ?_⟩ <;> rw [hsrc]
  · show h.src.out.tlast = _; rw [hout]
  · show h.src.out.tdata = _; rw [hout]
  · show h.src.out.tkeep = _; rw [hout]
  · exact w.tlastM
  · exact w.tdataM

theorem asking_step (hn : h.nxtState = .abus) (h0 : h.dmac.out.rxAxisTready = false)
    (h1 : h.dmac.pipe.rxAxisTreadyM = false) (h2 : h.dmac.pipe.rxAxisTreadyM2 = false) (hf : h.src.Fresh)
    (hg : (Heap.step i h).dmac.txStaValid = true ∨ FrameWaiting (Heap.step i h)) :
    Asking (Heap.step i h) := by
  have hout := step_out_abus h i hn
  exact ⟨hn, by rw [hout]; rfl, by rw [hout]; rfl, by rw [hout]; rfl, by rw [hout]; rfl,
    by rw [hout]; rfl, rxQuiet_step h0 h1 h2 (by rw [hn]; decide), fresh_step hf h0, hg⟩

theorem sending_step (hn : h.nxtState = .read ∨ h.nxtState = .keep) (hq : h.dmac.RxQuiet)
    (hf : h.src.Fresh) (hb : h.dmac.out.busValid = true) (hr : h.mux.busReady = true) :
    Sending (Heap.step i h) := by
  have hq' : (Heap.step i h).dmac.RxQuiet :=
    rxQuiet_step hq.tready hq.treadyM hq.treadyM2 (by rcases hn with hn | hn <;> rw [hn] <;> decide)
  have hr' := step_busReady_held h i hb hr
  have hf' : (Heap.step i h).src.Fresh := fresh_step hf hq.tready
  rcases hn with hn | hn
  · have hout := step_out_read h i hn
    exact ⟨.inl hn, hr', by rw [hout]; rfl, by rw [hout]; rfl, by rw [hout]; rfl, hq', hf'⟩
  · have hout := step_out_keep h i hn
    exact ⟨.inr hn, hr', by rw [hout]; rfl, by rw [hout]; rfl, by rw [hout]; rfl, hq', hf'⟩

theorem Resting.nxtState_abus (r : Resting h) (hn : ¬ (h.nxtState = .idle ∨ h.nxtState = .wait)) :
    h.nxtState = .abus ∧ ((h.dmac.ring.rxBdStaR ≠ 0xff ∧ h.src.tvalid = true) ∨ h.dmac.txStaValid = true) := by
  rcases r.cur with hc | hc <;> simp only [nxtState, Dmac.nxtState, hc] at hn ⊢ <;>
    split_ifs at hn ⊢ with hcond <;> simp_all

theorem Resting.step (r : Resting h) (hi : KeepsRequest i h) :
    ∃ st, Stage.Next h .resting st ∧ st.At (Heap.step i h) := by
  have h0 : h.dmac.out.busValid = false := by rw [r.out]; rfl
  have ht : h.dmac.out.txStaReady = false := by rw [r.out]; rfl
  by_cases hn : h.nxtState = .idle ∨ h.nxtState = .wait
  · exact ⟨_, .rest, resting_step hn r.fresh r.rx.tready r.rx.treadyM r.rx.treadyM2⟩
  · obtain ⟨ha, hg⟩ := r.nxtState_abus hn
    rcases hg with ⟨hr, hv⟩ | hv
    · exact ⟨_, .ask (.inl hr), asking_step ha r.rx.tready r.rx.treadyM r.rx.treadyM2 r.fresh
        (.inr (frameWaiting_first hv (r.fresh hv) r.rx.tready h0))⟩
    · exact ⟨_, .ask (.inr hv), asking_step ha r.rx.tready r.rx.treadyM r.rx.treadyM2 r.fresh
        (.inl (txStaValid_step hi ht hv))⟩

theorem nxtState_abus (hc : h.dmac.cur = .abus) :
    h.nxtState = if h.mux.busReady then (if h.dmac.txStaValid then .read else .write) else .abus := by
  simp [nxtState, Dmac.nxtState, hc]

theorem FrameWaiting.writing (w : FrameWaiting h) (r : Asking h) (hn : h.nxtState = .write)
    (hb : h.mux.busReady = true) (htwo : 2 ≤ h.src.cur.beats) :
    Writing h.src.cur h.dmac.out.heapAddr 1 (Heap.step i h) := by
  have hout := step_out_write h i hn
  have hsrc : (Heap.step i h).src = h.src := by rw [step_src, r.rx.tready, RxSource.step_held w.tvalid]
  have hbeat : h.src.out = h.src.cur.beat 0 := by rw [RxSource.out_of_tvalid w.tvalid, w.pos]
  have hlast : (h.src.cur.beat 0).tlast = false := by
    rw [Frame.beat_tlast]; exact decide_eq_false (by omega)
  have hle : 1 ≤ h.src.cur.beats := by omega
  have hf : ∀ j, j ≤ 2 → decide (h.src.cur.beats + 1 + j ≤ 1) = false :=
    fun _ _ => decide_eq_false (by omega)
  constructor
  case two => exact htwo
  case pos => exact Nat.le_refl 1
  case le => omega
  case cur => exact hn
  case busReady => exact step_busReady_held h i r.busValid hb
  case src =>
    rw [hsrc]
    exact ⟨fun _ => ⟨w.tvalid, rfl, w.pos⟩, by omega, by omega, by omega⟩
  case heapValid => rw [hout]; rfl
  case busValid => rw [hout]; rfl
  case tready =>
    rw [hout]
    show (if h.src.out.tlast then false else true) = _
    rw [hbeat, hlast]; simpa using hle
  case treadyM => exact r.rx.tready
  case treadyM2 => exact r.rx.treadyM
  case treadyM3 => exact r.rx.treadyM2
  case tlastM =>
    show h.src.out.tlast = _
    rw [hbeat, hlast]; exact (hf 0 (by omega)).symm
  case tlastM2 =>
    show h.dmac.pipe.rxAxisTlastM = _
    rw [w.tlastM, hlast]; exact (hf 1 (by omega)).symm
  case tlastM3 =>
    show h.dmac.pipe.rxAxisTlastM2 = _
    rw [w.tlastM2 hb, hlast]; exact (hf 2 (by omega)).symm
  case tdataM => show h.src.out.tdata = _; rw [hbeat]
  case tdataM2 => exact w.tdataM
  case tkeepM => show h.src.out.tkeep = _; rw [hbeat]
  case heapAddr =>
    rw [hout]
    show (if h.dmac.pipe.rxAxisTreadyM3 then h.dmac.out.heapAddr + 4 else h.dmac.out.heapAddr) = _
    rw [r.rx.treadyM3]; simp
  case heapWdata => rw [hout]; exact w.tdataM2 hb
  case heapWstrb =>
    rw [hout]
    show (if h.dmac.pipe.rxAxisTreadyM && h.dmac.out.rxAxisTready then h.src.out.tkeep else 0) = _
    rw [r.rx.treadyM]; simp
  case bdFrameLen =>
    rw [hout]
    show (if h.dmac.pipe.rxAxisTreadyM then _ else 0) = _
    rw [r.rx.treadyM]; simp [Frame.bytesBefore]
  case txStaReady => rw [hout]; rfl

theorem FrameWaiting.runt (w : FrameWaiting h) (r : Asking h) (hn : h.nxtState = .write)
    (hb : h.mux.busReady = true) (hone : h.src.cur.beats = 1) : Runt (Heap.step i h) := by
  have hout := step_out_write h i hn
  have hsrc : (Heap.step i h).src = h.src := by rw [step_src, r.rx.tready, RxSource.step_held w.tvalid]
  have hlast : (h.src.cur.beat 0).tlast = true := by rw [Frame.beat_tlast]; simp [hone]
  have hbeat : h.src.out = h.src.cur.beat 0 := by rw [RxSource.out_of_tvalid w.tvalid, w.pos]
  refine ⟨hn, step_busReady_held h i r.busValid hb, by rw [hsrc]; exact hone, by rw [hsrc]; exact w.tvalid,
    by rw [hsrc]; exact w.pos, by rw [hout]; rfl, ?_, by rw [hout]; rfl, by rw [hout]; rfl,
    ⟨?_, r.rx.tready, r.rx.treadyM, r.rx.treadyM2⟩, ?_⟩
  · rw [hout]
    show (if h.dmac.pipe.rxAxisTreadyM && h.dmac.out.rxAxisTready then h.src.out.tkeep else 0) = _
    rw [r.rx.treadyM]; rfl
  · rw [hout]
    show (if h.src.out.tlast then false else true) = _
    rw [hbeat, hlast]; rfl
  · exact (w.tlastM2 hb).trans hlast

theorem Asking.step (r : Asking h) (hi : KeepsRequest i h) :
    ∃ st, Stage.Next h .asking st ∧ st.At (Heap.step i h) := by
  have hn := nxtState_abus r.cur
  cases hb : h.mux.busReady with
  | false =>
    rw [hb] at hn
    refine ⟨_, .wait, asking_step hn r.rx.tready r.rx.treadyM r.rx.treadyM2 r.fresh ?_⟩
    rcases r.goal with hv | w
    · exact .inl (txStaValid_step hi r.txStaReady hv)
    · exact .inr (w.step r.rx.tready)
  | true =>
    rw [hb, if_pos rfl] at hn
    cases hv : h.dmac.txStaValid with
    | true =>
      rw [hv] at hn
      exact ⟨_, .send hv, sending_step (.inl hn) r.rx r.fresh r.busValid hb⟩
    | false =>
      rw [hv] at hn
      rcases r.goal with hv' | w
      · rw [hv] at hv'; cases hv'
      · rcases Nat.lt_or_ge h.src.cur.beats 2 with hlt | htwo
        · have hone : h.src.cur.beats = 1 := by have := h.src.cur.beats_pos; omega
          exact ⟨_, .refuse w hv hone, w.runt r hn hb hone⟩
        · exact ⟨_, .first w hv htwo, w.writing r hn hb htwo⟩

theorem Sending.step (r : Sending h) : Resting (Heap.step i h) ∨ Sending (Heap.step i h) := by
  by_cases hn : h.nxtState = .idle ∨ h.nxtState = .wait
  · exact .inl (resting_step hn r.fresh r.rx.tready r.rx.treadyM r.rx.treadyM2)
  · refine .inr (sending_step ?_ r.rx r.fresh r.busValid r.busReady)
    rcases r.cur with hc | hc <;> simp only [nxtState, Dmac.nxtState, hc] at hn ⊢ <;>
      split_ifs at hn ⊢ with hcond <;> simp_all

theorem Writing.finish (r : Writing f a (f.beats + 3) h) : Resting (Heap.step i h) := by
  have hn : h.nxtState = .wait := by rw [r.nxtState_eq, if_pos rfl]
  refine resting_step (.inr hn) ?_ ?_ ?_ ?_
  · intro hv
    rcases r.src.done rfl with ⟨e, -⟩ | ⟨-, e⟩
    · rw [e] at hv; cases hv
    · exact e
  · rw [r.tready]; simp
  · rw [r.treadyM]; simp
  · rw [r.treadyM2]; simp

theorem Runt.step (r : Runt h) : Resting (Heap.step i h) := by
  have hn : h.nxtState = .wait := by rw [nxtState_write r.cur, r.tlastM3]; rfl
  exact resting_step (.inr hn) (fun _ => r.pos) r.rx.tready r.rx.treadyM r.rx.treadyM2

/-! ### All phases -/

section
variable {st : Stage}

theorem Stage.At.of_abus (r : st.At h) (hc : h.dmac.cur = .abus) : st = .asking := by
  cases st with
  | asking => rfl
  | resting => rcases (show Resting h from r).cur with e | e <;> rw [e] at hc <;> cases hc
  | writing f a k => rw [(show Writing f a k h from r).cur] at hc; cases hc
  | runt => rw [(show Runt h from r).cur] at hc; cases hc
  | sending => rcases (show Sending h from r).cur with e | e <;> rw [e] at hc <;> cases hc

theorem Stage.At.of_write (r : st.At h) (hc : h.dmac.cur = .write) : (∃ f a k, st = .writing f a k) ∨ st = .runt := by
  cases st with
  | writing f a k => exact .inl ⟨f, a, k, rfl⟩
  | runt => exact .inr rfl
  | resting => rcases (show Resting h from r).cur with e | e <;> rw [e] at hc <;> cases hc
  | asking => rw [(show Asking h from r).cur] at hc; cases hc
  | sending => rcases (show Sending h from r).cur with e | e <;> rw [e] at hc <;> cases hc

end

theorem Ctl.step {st : Stage} (c : Ctl st h) (hi : KeepsRequest i h) :
    ∃ st', Stage.Next h st st' ∧ Ctl st' (Heap.step i h) := by
  have hs : (Heap.step i h).src.Spaced := c.spaced.step _
  cases st with
  | resting =>
    obtain ⟨st', hn, r⟩ := Resting.step c.phase hi
    exact ⟨st', hn, hs, r⟩
  | asking =>
    obtain ⟨st', hn, r⟩ := Asking.step c.phase hi
    exact ⟨st', hn, hs, r⟩
  | writing f a k =>
    have r : Writing f a k h := c.phase
    rcases Nat.lt_or_ge k (f.beats + 3) with hlt | hge
    · exact ⟨.writing f a (k + 1), .beat (by omega), hs, r.step c.spaced.next (by omega)⟩
    · obtain rfl : k = f.beats + 3 := Nat.le_antisymm r.le hge
      exact ⟨.resting, .last, hs, r.finish⟩
  | runt => exact ⟨.resting, .refused, hs, Runt.step c.phase⟩
  | sending =>
    rcases Sending.step c.phase with r | r
    · exact ⟨.resting, .sent, hs, r⟩
    · exact ⟨.sending, .more, hs, r⟩

/-! ### Reset -/

theorem AfterReset.quiet {sched : List (Nat × Frame)} (hr : h.AfterReset sched) :
    h.dmac.cur = .idle ∧ h.dmac.out = Dmac.Out.quiet ∧ h.dmac.pipe = Dmac.Pipe.reset ∧
      h.dmac.regs = Dmac.Regs.reset ∧ h.dmac.ring = Dmac.Ring.reset ∧ h.mux.busReady = false := by
  obtain ⟨inp, h₀, -, -, rfl⟩ := hr
  exact ⟨rfl, rfl, rfl, rfl, rfl, rfl⟩

theorem AfterReset.src {sched : List (Nat × Frame)} (hr : h.AfterReset sched) :
    h.src.tvalid = false ∧ h.src.pending = sched := by
  obtain ⟨inp, h₀, hv, hp, rfl⟩ := hr
  exact ⟨hv, hp⟩

theorem AfterReset.ctl {sched : List (Nat × Frame)} (hr : h.AfterReset sched)
    (hgap : ∀ p ∈ sched.tail, 2 ≤ p.1) : Ctl .resting h := by
  obtain ⟨hc, ho, hp, -⟩ := hr.quiet
  obtain ⟨hv, hs⟩ := hr.src
  refine ⟨⟨fun hv' => ?_, hs ▸ hgap⟩, .inl hc, ho, ?_, fun hv' => ?_⟩
  · rw [hv] at hv'; cases hv'
  · exact ⟨by rw [ho]; rfl, by rw [hp]; rfl, by rw [hp]; rfl, by rw [hp]; rfl⟩
  · rw [hv] at hv'; cases hv'

theorem run_ctl {inp : Nat → HeapIn} {sched : List (Nat × Frame)} (hr : h.AfterReset sched)
    (hgap : ∀ p ∈ sched.tail, 2 ≤ p.1) (hi : ∀ t, KeepsRequest (inp t) (run inp h t)) :
    ∀ t, ∃ st, Ctl st (run inp h t) :=
  Clocked.run_inv (P := fun h => ∃ st, Ctl st h) ⟨_, hr.ctl hgap⟩ fun t ⟨_, c⟩ => by
    obtain ⟨st, -, c'⟩ := c.step (hi t)
    exact ⟨st, c'⟩

end Heap

end Picorv32Soc
