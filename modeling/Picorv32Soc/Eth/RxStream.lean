import Picorv32Soc.Eth.Adapter
import Picorv32Soc.Eth.FifoRun
import Picorv32Soc.RxVerdict

/-!
# The FIFO as the source of the receive stream

The results about the DMA controller are about a stream source with a schedule (`RxSource`): frames and the
pauses before them. Here the controller is put behind `rx_fifo`, the width adapter and the frame FIFO, whose input side
runs on a clock of its own, and shown to go through the states it goes through behind such a source
(`FedHeap.refines_heap`): the schedule is made of frames that the FIFO has kept. They are frames in the sense of the
source because the adapter makes whole words (`FedHeap.whole_of_kept`). The pauses are known only from the run to come,
so the schedule is built from its end.
-/

namespace Picorv32Soc

variable {δ : Type} {a : Nat} {dropWhenFull : Bool}

/-! ### The output of the FIFO -/

/-- The frames that were kept. -/
def FifoLog.kept (g : FifoLog δ) : List (List (AxisWord δ)) := (g.frames.filter Prod.snd).map Prod.fst

theorem FifoLog.good_eq (g : FifoLog δ) : g.good = g.kept.flatten := by
  rw [good, kept, List.flatMap_def]

/-- The words that were taken. -/
def FifoLog.taken (g : FifoLog δ) : List (AxisWord δ) := g.frames.flatMap Prod.fst ++ g.cur

/-- The register behind the memory, when it is not valid, holds the word that was read last, or before the first one
the word `w` of the power-on state. -/
def ReadStale (w : AxisWord δ) (x : AsyncFifo δ a × FifoLog δ) : Prop :=
  x.1.m.memReadDataValid = false → x.1.m.memReadData = (x.2.out ++ x.1.m.held).getLast?.getD w

/-- The same for the output register, which follows it at the first edge of `m_clk`. -/
structure FifoStale (w : AxisWord δ) (x : AsyncFifo δ a × FifoLog δ) : Prop where
  read : ReadStale w x
  shown : x.1.m.mAxisTvalid = false → x.1.m.mAxis = x.2.out.getLast?.getD w

namespace AsyncFifo
variable {x : AsyncFifo δ a × FifoLog δ} {e : FifoEdge δ a}

theorem next_out (dropWhenFull : Bool) (e : FifoEdge δ a) (x : AsyncFifo δ a × FifoLog δ) :
    (next dropWhenFull e x).2.out = x.2.out ++ (e.m.map fun t => delivered t x.1.m).getD [] := by
  rw [next, log]
  cases e.s with
  | none => rfl
  | some i => exact congrArg (· ++ _) (logS_out dropWhenFull i x.1.s x.2)

theorem next_kept (dropWhenFull : Bool) (e : FifoEdge δ a) (x : AsyncFifo δ a × FifoLog δ) :
    x.2.kept <+: (next dropWhenFull e x).2.kept := by
  rw [next, log]
  cases e.s with
  | none => exact List.prefix_refl _
  | some i =>
    dsimp only [Option.map_some, Option.getD_some]
    rw [logS]
    split_ifs
    · exact ((List.prefix_append _ _).filter Prod.snd).map Prod.fst
    · exact List.prefix_refl _
    · exact List.prefix_refl _

theorem next_taken (dropWhenFull : Bool) (e : FifoEdge δ a) (x : AsyncFifo δ a × FifoLog δ) :
    (next dropWhenFull e x).2.taken =
      x.2.taken ++ (e.s.map fun i => if x.1.s.takes dropWhenFull i then [i.word] else []).getD [] := by
  rw [next, log]
  cases e.s with
  | none => exact (List.append_nil _).symm
  | some i =>
    dsimp only [Option.map_some, Option.getD_some]
    rw [logS]
    split_ifs <;> simp [FifoLog.taken]

theorem next_m_none (dropWhenFull : Bool) (he : e.m = none) (x : AsyncFifo δ a × FifoLog δ) :
    (next dropWhenFull e x).1.m = x.1.m ∧ (next dropWhenFull e x).2.out = x.2.out := by
  have hout := next_out dropWhenFull e x
  rw [he, Option.map_none, Option.getD_none, List.append_nil] at hout
  refine ⟨?_, hout⟩
  rw [next, step, he]; rfl

theorem next_m_some {tready : Bool} (dropWhenFull : Bool) (he : e.m = some tready) (x : AsyncFifo δ a × FifoLog δ) :
    ∃ y mem, (next dropWhenFull e x).1.m = x.1.m.step tready y mem ∧
      (next dropWhenFull e x).2.out = x.2.out ++ delivered tready x.1.m := by
  have hout := next_out dropWhenFull e x
  rw [he, Option.map_some, Option.getD_some] at hout
  have hm : (next dropWhenFull e x).1.m = x.1.m.step tready
      (pickToM e.sel x.1.s.toM (stepS dropWhenFull e.s x.1.m.toS x.1.s).toM)
      (if e.sel.mem then x.1.mem else (e.s.map fun i => x.1.s.store dropWhenFull i x.1.mem).getD x.1.mem) := by
    rw [next, step, he]; rfl
  exact ⟨_, _, hm, hout⟩

/-- In reset the read side shows nothing. -/
theorem next_reset (hok : FifoOk dropWhenFull x.1 x.2) (hr : x.1.m.mRstSync3 = true) :
    x.1.m.mAxisTvalid = false ∧ x.2.out ++ x.1.m.held = [] ∧ ∀ t, delivered t x.1.m = [] := by
  obtain ⟨k, r, r1, r2, sy, v, hinv⟩ := hok.inv
  have hc := hinv.mReset hr
  have hout := hinv.m.out
  rw [hc.r, List.take_zero] at hout
  refine ⟨hc.mAxisTvalid, hout, fun t => ?_⟩
  rw [delivered, hc.mAxisTvalid, Bool.false_and, if_neg Bool.false_ne_true]

/-- The output at an edge of `m_clk`: a word waits, or leaves with another one of its frame behind it, or leaves as
the last one of its frame, or there is none. -/
theorem output_edge (hok : FifoOk dropWhenFull x.1 x.2) {tready : Bool} (he : e.m = some tready) :
    (x.1.m.mAxisTvalid = true ∧ tready = false ∧ (next dropWhenFull e x).1.m.mAxisTvalid = true ∧
      (next dropWhenFull e x).1.m.mAxis = x.1.m.mAxis ∧ (next dropWhenFull e x).2.out = x.2.out) ∨
    (x.1.m.mAxisTvalid = true ∧ tready = true ∧ x.1.m.mAxis.tlast = false ∧
      (next dropWhenFull e x).1.m.mAxisTvalid = true ∧ (next dropWhenFull e x).2.out = x.2.out ++ [x.1.m.mAxis]) ∨
    (x.1.m.mAxisTvalid = true ∧ tready = true ∧ x.1.m.mAxis.tlast = true ∧
      (next dropWhenFull e x).2.out = x.2.out ++ [x.1.m.mAxis]) ∨
    (x.1.m.mAxisTvalid = false ∧ (next dropWhenFull e x).2.out = x.2.out) := by
  obtain ⟨y, mem, hstep, hout⟩ := next_m_some dropWhenFull he x
  rw [delivered] at hout
  cases hv : x.1.m.mAxisTvalid with
  | false =>
    rw [hv, Bool.false_and, if_neg Bool.false_ne_true, List.append_nil] at hout
    exact .inr (.inr (.inr ⟨rfl, hout⟩))
  | true =>
    have hr : x.1.m.mRstSync3 = false := by
      cases hr : x.1.m.mRstSync3 with
      | false => rfl
      | true => exact Bool.noConfusion (hv.symm.trans (next_reset hok hr).1)
    rw [FifoM.step_eq tready _ _ hr] at hstep
    rw [hv, Bool.true_and] at hout
    cases tready with
    | false =>
      rw [if_neg Bool.false_ne_true, List.append_nil] at hout
      refine .inl ⟨rfl, rfl, ?_, ?_, hout⟩ <;> rw [hstep] <;> simp [FifoM.storeOutput, hv]
    | true =>
      rw [if_pos rfl] at hout
      cases hl : x.1.m.mAxis.tlast with
      | true => exact .inr (.inr (.inl ⟨rfl, rfl, rfl, hout⟩))
      | false =>
        obtain ⟨k, r, r1, r2, sy, v, hinv⟩ := hok.inv
        refine .inr (.inl ⟨rfl, rfl, rfl, ?_, hout⟩)
        rw [hstep]
        exact hinv.m.outNext hv hl

/-- The word on the output comes after the delivered ones. -/
theorem good_of_valid (hok : FifoOk dropWhenFull x.1 x.2) (hv : x.1.m.mAxisTvalid = true) :
    x.2.good[x.2.out.length]? = some x.1.m.mAxis := by
  obtain ⟨k, r, r1, r2, sy, v, hinv⟩ := hok.inv
  obtain ⟨l, hl⟩ : x.2.out ++ x.1.m.held <+: x.2.good := hinv.m.out ▸ List.take_prefix r _
  have hget : (x.2.out ++ x.1.m.held)[x.2.out.length]? = some x.1.m.mAxis := by
    rw [List.getElem?_append_right (Nat.le_refl _), Nat.sub_self, FifoM.held, hv]
    rfl
  rw [← hl, List.getElem?_append_left (List.getElem?_eq_some_iff.1 hget).1, hget]

end AsyncFifo

section
open AsyncFifo

variable {x : AsyncFifo δ a × FifoLog δ} {w : AxisWord δ} {e : FifoEdge δ a} {tready : Bool}

/-- In reset both registers are invalid, and nothing has gone through. -/
theorem ReadStale.of_reset (hok : FifoOk dropWhenFull x.1 x.2) (h : ReadStale w x) (hr : x.1.m.mRstSync3 = true) :
    x.1.m.memReadData = w := by
  obtain ⟨k, r, r1, r2, sy, v, hinv⟩ := hok.inv
  have hread := h (hinv.mReset hr).memReadDataValid
  rwa [(next_reset hok hr).2.1] at hread

theorem ReadStale.next (hok : FifoOk dropWhenFull x.1 x.2) (h : ReadStale w x) (e : FifoEdge δ a) :
    ReadStale w (next dropWhenFull e x) := by
  cases he : e.m with
  | none =>
    obtain ⟨hm, hout⟩ := next_m_none dropWhenFull he x
    rw [ReadStale, hm, hout]
    exact h
  | some tready =>
    obtain ⟨y, mem, hm, hout⟩ := next_m_some dropWhenFull he x
    cases hr : x.1.m.mRstSync3 with
    | true =>
      obtain ⟨k, r, r1, r2, sy, v, hinv⟩ := hok.inv
      obtain ⟨hv, hnil, hdeliver⟩ := next_reset hok hr
      obtain ⟨-, -, hstep⟩ := FifoM.step_reset tready y mem hr hinv.m.toCounts (hinv.mReset hr)
      rw [ReadStale, hout, hm, hstep, hdeliver, List.append_nil, (List.append_eq_nil_iff.1 hnil).1, FifoM.held, hv,
        (hinv.mReset hr).memReadDataValid]
      exact fun _ => h.of_reset hok hr
    | false =>
      have hheld := FifoM.held_step tready y mem hr
      rw [FifoM.step_eq tready y mem hr] at hm hheld
      rw [ReadStale, hout, hm]
      dsimp only
      intro hv
      -- nothing was read
      have hread : x.1.m.read tready = false := by
        rw [FifoM.read]
        cases hs : x.1.m.storeOutput tready || !x.1.m.memReadDataValid with
        | true => rw [hs, if_pos rfl] at hv; rw [hv, Bool.and_false]
        | false => rfl
      rw [List.append_assoc, hheld, hread, if_neg Bool.false_ne_true, if_neg Bool.false_ne_true, List.append_nil]
      cases hrv : x.1.m.memReadDataValid with
      | false => exact h hrv
      | true =>
        rw [FifoM.held, hrv, if_pos rfl, ← List.append_assoc, List.getLast?_append, List.getLast?_singleton, Option.some_or]
        rfl

/-- At an edge of `m_clk` an output that is not valid afterwards has been filled from the register behind it. -/
theorem ReadStale.shown (hok : FifoOk dropWhenFull x.1 x.2) (h : ReadStale w x) (he : e.m = some tready)
    (hv : (AsyncFifo.next dropWhenFull e x).1.m.mAxisTvalid = false) :
    (AsyncFifo.next dropWhenFull e x).1.m.mAxis = (AsyncFifo.next dropWhenFull e x).2.out.getLast?.getD w := by
  obtain ⟨y, mem, hm, hout⟩ := next_m_some dropWhenFull he x
  cases hr : x.1.m.mRstSync3 with
  | true =>
    obtain ⟨k, r, r1, r2, sy, v, hinv⟩ := hok.inv
    obtain ⟨hv', hnil, hdeliver⟩ := next_reset hok hr
    obtain ⟨-, -, hstep⟩ := FifoM.step_reset tready y mem hr hinv.m.toCounts (hinv.mReset hr)
    rw [hout, hm, hstep, hdeliver, List.append_nil, (List.append_eq_nil_iff.1 hnil).1]
    dsimp only
    rw [FifoM.storeOutput, hv', Bool.not_false, Bool.or_true, if_pos rfl]
    exact h.of_reset hok hr
  | false =>
    rw [FifoM.step_eq tready y mem hr] at hm
    rw [hm] at hv
    rw [hout, hm]
    dsimp only at hv ⊢
    -- the last word of a frame has left, or there was none
    have hstore : x.1.m.storeOutput tready = true := by
      cases hs : x.1.m.storeOutput tready with
      | true => rfl
      | false =>
        rw [hs, if_neg Bool.false_ne_true] at hv
        rw [FifoM.storeOutput, hv, Bool.not_false, Bool.or_true] at hs
        exact Bool.noConfusion hs
    rw [hstore, if_pos rfl] at hv ⊢
    have hread := h hv
    rw [FifoM.held, hv, if_neg Bool.false_ne_true, List.append_nil] at hread
    rw [hread, delivered]
    rw [FifoM.storeOutput, Bool.or_eq_true, Bool.not_eq_true'] at hstore
    rcases hstore with hs | hs <;> simp [hs]

theorem FifoStale.next (e : FifoEdge δ a) (hok : FifoOk dropWhenFull x.1 x.2) (h : FifoStale w x) :
    FifoStale w (next dropWhenFull e x) := by
  refine ⟨h.read.next hok e, ?_⟩
  cases he : e.m with
  | none =>
    obtain ⟨hm, hout⟩ := next_m_none dropWhenFull he x
    rw [hm, hout]
    exact h.shown
  | some tready => exact h.read.shown hok he

/-- From power-on, whatever the two registers held. -/
theorem FifoStale.of_run (ha : 1 ≤ a) {es : List (FifoEdge δ a)} (hes : ∃ e ∈ es, e.m.isSome) (hok : FifoOk dropWhenFull x.1 x.2)
    (h : ReadStale w x) : FifoStale w (Rounds.after (AsyncFifo.next dropWhenFull) es x) := by
  induction es generalizing x with
  | nil => exact absurd hes (by simp)
  | cons e es ih =>
    cases he : e.m with
    | some tready =>
      have hrest := Rounds.keeps_after (I := fun x : AsyncFifo δ a × FifoLog δ => FifoOk dropWhenFull x.1 x.2 ∧ FifoStale w x)
        (fun e _ h => ⟨h.1.step ha e, h.2.next e h.1⟩) es ⟨hok.step ha e, h.next hok e, h.shown hok he⟩
      exact hrest.2
    | none =>
      refine ih (x := AsyncFifo.next dropWhenFull e x) ?_ (hok.step ha e) (h.next hok e)
      obtain ⟨e', he', hsome⟩ := hes
      rcases List.mem_cons.1 he' with rfl | he'
      · rw [he] at hsome; exact Bool.noConfusion hsome
      · exact ⟨e', he', hsome⟩

end

/-! ### The source -/

/-- The number of beats of the first `i` frames. -/
def beatsBefore (fs : List Frame) (i : Nat) : Nat := ((fs.take i).flatMap Frame.beatList).length

theorem beatsBefore_succ {fs : List Frame} {i : Nat} {f : Frame} (hf : fs[i]? = some f) :
    beatsBefore fs (i + 1) = beatsBefore fs i + f.beats := by
  rw [beatsBefore, List.take_add_one, hf, List.flatMap_append, List.length_append, Option.toList_some, List.flatMap_singleton,
    Frame.beatList_length]
  rfl

/-- The beats of a frame among all beats. -/
theorem beat_at {fs : List Frame} {i pos : Nat} {f : Frame} (hf : fs[i]? = some f) (hpos : pos < f.beats) :
    (fs.flatMap Frame.beatList)[beatsBefore fs i + pos]? = some (f.beat pos) := by
  obtain ⟨hi, rfl⟩ := List.getElem?_eq_some_iff.1 hf
  have hsplit : fs = fs.take i ++ fs[i] :: fs.drop (i + 1) := by
    rw [← List.drop_eq_getElem_cons hi, List.take_append_drop]
  have hlist : (fs[i]).beatList[pos]? = some (fs[i].beat pos) := by
    rw [Frame.beatList, List.getElem?_map, List.getElem?_range hpos]
    rfl
  conv_lhs => rw [hsplit]
  rw [List.flatMap_append, List.getElem?_append_right, beatsBefore]
  · rw [List.flatMap_cons, ← hsplit, Nat.add_sub_cancel_left, List.getElem?_append_left]
    · exact hlist
    · rwa [Frame.beatList_length]
  · rw [beatsBefore, ← hsplit]
    exact Nat.le_add_right _ _

/-- A frame with a beat in front of it begins before the end. -/
theorem frame_of_beat {fs : List Frame} {i : Nat} {b : Beat} (hb : (fs.flatMap Frame.beatList)[beatsBefore fs i]? = some b) :
    ∃ f, fs[i]? = some f := by
  refine ⟨_, List.getElem?_eq_getElem (i := i) ?_⟩
  by_contra hi
  have hlt := (List.getElem?_eq_some_iff.1 hb).1
  rw [beatsBefore, List.take_of_length_le (by omega)] at hlt
  exact Nat.lt_irrefl _ hlt

/-- The source shows what the FIFO shows. -/
structure ShowsSame (f : AsyncFifo (BitVec 32 × BitVec 4) a) (s : RxSource) : Prop where
  tvalid : s.tvalid = f.m.mAxisTvalid
  out : s.out = StreamWord.beat f.m.mAxis

/-- The source in step with the FIFO: `i` frames are over. -/
structure StreamAt (fs : List Frame) (i : Nat) (x : AsyncFifo (BitVec 32 × BitVec 4) a × FifoLog (BitVec 32 × BitVec 4))
    (s : RxSource) : Prop where
  tvalid : s.tvalid = x.1.m.mAxisTvalid
  sent : s.tvalid = true → fs[i]? = some s.cur ∧ x.2.out.length = beatsBefore fs i + s.pos ∧ s.pos < s.cur.beats
  idle : s.tvalid = false → x.2.out.length = beatsBefore fs i
  shown : s.tvalid = false → s.out = StreamWord.beat x.1.m.mAxis

/-- The frames that have not begun. -/
def framesLeft (fs : List Frame) (i : Nat) (s : RxSource) : List Frame := fs.drop (if s.tvalid then i + 1 else i)

/-- One pause more before the first frame. -/
def later : List (Nat × Frame) → List (Nat × Frame)
  | [] => []
  | (g, f) :: ps => (g + 1, f) :: ps

theorem later_frames (ps : List (Nat × Frame)) : (later ps).map Prod.snd = ps.map Prod.snd := by
  cases ps <;> rfl

theorem load_later (s : RxSource) (ps : List (Nat × Frame)) :
    RxSource.load { s with pending := later ps } = { s with tvalid := false, stale := s.out, pending := ps } := by
  cases ps with
  | nil => exact RxSource.load_nil rfl
  | cons p ps => exact RxSource.load_succ rfl

namespace StreamAt
open AsyncFifo

variable {x : AsyncFifo (BitVec 32 × BitVec 4) a × FifoLog (BitVec 32 × BitVec 4)} {fs : List Frame} {i : Nat} {s : RxSource}
  {e : FifoEdge (BitVec 32 × BitVec 4) a} {w : StreamWord}

theorem beat_of_valid (hok : FifoOk dropWhenFull x.1 x.2) (hv : x.1.m.mAxisTvalid = true)
    (hk : x.2.kept.map (List.map StreamWord.beat) <+: fs.map Frame.beatList) :
    (fs.flatMap Frame.beatList)[x.2.out.length]? = some (StreamWord.beat x.1.m.mAxis) := by
  obtain ⟨l, hl⟩ := hk
  have hget := good_of_valid hok hv
  rw [FifoLog.good_eq] at hget
  have hlt : x.2.out.length < (x.2.kept.flatten.map StreamWord.beat).length := by
    rw [List.length_map]
    exact (List.getElem?_eq_some_iff.1 hget).1
  rw [List.flatMap_def, ← hl, List.flatten_append, ← List.map_flatten, List.getElem?_append_left hlt, List.getElem?_map, hget]
  rfl

theorem showsSame (h : StreamAt fs i x s) (hok : FifoOk dropWhenFull x.1 x.2)
    (hk : x.2.kept.map (List.map StreamWord.beat) <+: fs.map Frame.beatList) : ShowsSame x.1 s := by
  refine ⟨h.tvalid, ?_⟩
  cases hv : s.tvalid with
  | true =>
    obtain ⟨hcur, hpos, hlt⟩ := h.sent hv
    have hb := beat_of_valid hok (h.tvalid ▸ hv) hk
    rw [hpos, beat_at hcur hlt] at hb
    rw [RxSource.out_of_tvalid hv]
    exact Option.some.inj hb
  | false => exact h.shown hv

/-- Between two frames: what the FIFO shows next decides whether the next frame begins. -/
theorem loads (hok : FifoOk dropWhenFull x.1 x.2) (hk : x.2.kept.map (List.map StreamWord.beat) <+: fs.map Frame.beatList)
    (hlen : x.2.out.length = beatsBefore fs i) (hshown : x.1.m.mAxisTvalid = false → s.out = StreamWord.beat x.1.m.mAxis) :
    ∃ s', StreamAt fs i x s' ∧ ∀ ps', ps'.map Prod.snd <+: framesLeft fs i s' →
      ∃ ps, ps.map Prod.snd <+: fs.drop i ∧ RxSource.load { s with pending := ps } = { s' with pending := ps' } := by
  cases hv : x.1.m.mAxisTvalid with
  | false =>
    refine ⟨{ s with tvalid := false, stale := s.out }, ⟨hv.symm, nofun, fun _ => hlen, fun _ => hshown hv⟩,
      fun ps' hps => ⟨later ps', ?_, ?_⟩⟩
    · rwa [later_frames]
    · exact load_later s ps'
  | true =>
    obtain ⟨f, hf⟩ := frame_of_beat (hlen ▸ beat_of_valid hok hv hk)
    refine ⟨{ s with cur := f, pos := 0, tvalid := true }, ⟨hv.symm, fun _ => ⟨hf, hlen, f.beats_pos⟩, nofun, nofun⟩,
      fun ps' hps => ⟨(0, f) :: ps', ?_, ?_⟩⟩
    · obtain ⟨hi, rfl⟩ := List.getElem?_eq_some_iff.1 hf
      rw [List.drop_eq_getElem_cons hi]
      exact (List.prefix_cons_inj _).2 hps
    · exact RxSource.load_zero rfl

/-- An edge, with what the source has to do for it: whatever it sends afterwards, it could have sent from here. -/
theorem next (h : StreamAt fs i x s) (hok : FifoOk dropWhenFull x.1 x.2) (hok' : FifoOk dropWhenFull (next dropWhenFull e x).1
      (next dropWhenFull e x).2) (hst : FifoStale w x)
    (hk : (next dropWhenFull e x).2.kept.map (List.map StreamWord.beat) <+: fs.map Frame.beatList) :
    ∃ i' s', StreamAt fs i' (next dropWhenFull e x) s' ∧ ∀ ps', ps'.map Prod.snd <+: framesLeft fs i' s' →
      ∃ ps, ps.map Prod.snd <+: framesLeft fs i s ∧
        (e.m.map (RxSource.step { s with pending := ps })).getD { s with pending := ps } = { s' with pending := ps' } := by
  have hk₀ := ((next_kept dropWhenFull e x).map (List.map StreamWord.beat)).trans hk
  have hsame := h.showsSame hok hk₀
  have hst' := hst.next e hok
  cases he : e.m with
  | none =>
    obtain ⟨hm, hout⟩ := next_m_none dropWhenFull he x
    refine ⟨i, s, ⟨?_, ?_, ?_, ?_⟩, fun ps' hps => ⟨ps', hps, rfl⟩⟩
    · rw [hm]; exact h.tvalid
    · rw [hout]; exact h.sent
    · rw [hout]; exact h.idle
    · rw [hm]; exact h.shown
  | some tready =>
    rcases output_edge hok he with ⟨hv, rfl, hv', hw, hout⟩ | ⟨hv, rfl, hl, hv', hout⟩ | ⟨hv, rfl, hl, hout⟩ | ⟨hv, hout⟩
    · -- the word waits
      have hs : s.tvalid = true := h.tvalid.trans hv
      refine ⟨i, s, ⟨hs.trans hv'.symm, ?_, ?_, ?_⟩, fun ps' hps => ⟨ps', hps, RxSource.step_held hs⟩⟩
      · rw [hout]; exact h.sent
      · rw [hout]; exact h.idle
      · rw [hw]; exact h.shown
    · -- the next word of the frame
      have hs : s.tvalid = true := h.tvalid.trans hv
      have hl' : s.out.tlast = false := (congrArg Beat.tlast hsame.out).trans hl
      obtain ⟨hcur, hpos, hlt⟩ := h.sent hs
      have hmore : s.pos + 1 < s.cur.beats := by
        rw [RxSource.out_of_tvalid hs, Frame.beat_tlast] at hl'
        exact Nat.lt_of_not_le (of_decide_eq_false hl')
      refine ⟨i, { s with pos := s.pos + 1 }, ⟨hs.trans hv'.symm, fun _ => ⟨hcur, ?_, hmore⟩, ?_, ?_⟩,
        fun ps' hps => ⟨ps', hps, RxSource.step_next hs hl'⟩⟩
      · rw [hout, List.length_append, hpos]; rfl
      · exact fun hs' => Bool.noConfusion (hs.symm.trans hs')
      · exact fun hs' => Bool.noConfusion (hs.symm.trans hs')
    · -- the last word of the frame
      have hs : s.tvalid = true := h.tvalid.trans hv
      have hl' : s.out.tlast = true := (congrArg Beat.tlast hsame.out).trans hl
      obtain ⟨hcur, hpos, hlt⟩ := h.sent hs
      have hlen : (AsyncFifo.next dropWhenFull e x).2.out.length = beatsBefore fs (i + 1) := by
        rw [RxSource.out_of_tvalid hs, Frame.beat_tlast] at hl'
        have hend := of_decide_eq_true hl'
        rw [hout, List.length_append, hpos, beatsBefore_succ hcur, List.length_singleton]
        omega
      have hshown : (AsyncFifo.next dropWhenFull e x).1.m.mAxisTvalid = false →
          s.out = StreamWord.beat (AsyncFifo.next dropWhenFull e x).1.m.mAxis := by
        intro hv'
        rw [hst'.shown hv', hout, List.getLast?_append, List.getLast?_singleton, Option.some_or]
        exact hsame.out
      obtain ⟨s', hat, hnext⟩ := loads hok' hk hlen hshown
      refine ⟨i + 1, s', hat, fun ps' hps => ?_⟩
      obtain ⟨ps, hps, hload⟩ := hnext ps' hps
      refine ⟨ps, ?_, (RxSource.step_last (s := { s with pending := ps }) hs hl').trans hload⟩
      rwa [framesLeft, hs, if_pos rfl]
    · -- no word
      have hs : s.tvalid = false := h.tvalid.trans hv
      have hshown : (AsyncFifo.next dropWhenFull e x).1.m.mAxisTvalid = false →
          s.out = StreamWord.beat (AsyncFifo.next dropWhenFull e x).1.m.mAxis := by
        intro hv'
        rw [hst'.shown hv', hout, ← hst.shown hv]
        exact h.shown hs
      obtain ⟨s', hat, hnext⟩ := loads hok' hk (hout ▸ h.idle hs) hshown
      refine ⟨i, s', hat, fun ps' hps => ?_⟩
      obtain ⟨ps, hps, hload⟩ := hnext ps' hps
      refine ⟨ps, ?_, (RxSource.step_idle (s := { s with pending := ps }) hs tready).trans hload⟩
      rwa [framesLeft, hs, if_neg Bool.false_ne_true]

end StreamAt

/-! ### The controller behind the FIFO -/

/-- An edge of `s_clk` with the byte on the input, if there is one, an edge of `m_clk` with the inputs of the
controller, or both. -/
structure FedEdge (a : Nat) where
  s : Option (Option AxisByte)
  heap : Option HeapIn
  sel : FifoSel a

/-- `DMAC`, `mux_heap` and the heap `RAM_64KB` behind `rx_fifo`, with the log of the FIFO and the bytes that the adapter
has accepted. -/
structure FedHeap (a : Nat) extends DmaHeap where
  adapter : Adapter
  fifo : AsyncFifo (BitVec 32 × BitVec 4) a
  log : FifoLog (BitVec 32 × BitVec 4)
  bytes : List AxisByte

namespace FedHeap

variable (dropWhenFull : Bool)

/-- The edge as the FIFO sees it. -/
def fifoEdge (e : FedEdge a) (x : FedHeap a) : FifoEdge (BitVec 32 × BitVec 4) a :=
  ⟨e.s.map fun _ => ⟨x.adapter.out.out, x.adapter.out.valid⟩, e.heap.map fun _ => x.dmac.out.rxAxisTready, e.sel⟩

def step (e : FedEdge a) (x : FedHeap a) : FedHeap a where
  toDmaHeap := (e.heap.map fun i =>
    x.toDmaHeap.step x.fifo.m.mAxisTvalid (StreamWord.beat x.fifo.m.mAxis) i).getD x.toDmaHeap
  adapter := (e.s.map fun i => x.adapter.step (x.fifo.s.tready dropWhenFull) i).getD x.adapter
  fifo := (AsyncFifo.next dropWhenFull (x.fifoEdge e) (x.fifo, x.log)).1
  log := (AsyncFifo.next dropWhenFull (x.fifoEdge e) (x.fifo, x.log)).2
  bytes := x.bytes ++ (e.s.bind fun i => x.adapter.accepted i).toList

def run (es : List (FedEdge a)) (x : FedHeap a) : FedHeap a := Rounds.after (step dropWhenFull) es x

/-- The same in front of a source with a schedule. -/
def behind (x : FedHeap a) (s : RxSource) : Heap := ⟨x.toDmaHeap, s⟩

/-- The state is that of a controller behind a source which shows what the FIFO shows. -/
structure Same (x : FedHeap a) (h : Heap) : Prop where
  heap : x.toDmaHeap = h.toDmaHeap
  src : ShowsSame x.fifo h.src

variable {x : FedHeap a} {s : RxSource} {e : FedEdge a} {fs : List Frame} {i : Nat} {w : StreamWord}

/-- An edge, in front of a source that does at it what the FIFO does. -/
theorem after_edge {s' : RxSource} (hs : ShowsSame x.fifo s)
    (he : ((x.fifoEdge e).m.map s.step).getD s = s') (is : List HeapIn) :
    Rounds.after Heap.step (e.heap.toList ++ is) (x.behind s) =
      Rounds.after Heap.step is ((x.step dropWhenFull e).behind s') := by
  subst he
  cases hj : e.heap with
  | none => rw [fifoEdge, behind, behind, step, hj]; rfl
  | some j =>
    have hstep : Heap.step j (x.behind s) = (x.step dropWhenFull e).behind (s.step x.dmac.out.rxAxisTready) := by
      rw [Heap.step, behind, behind, step, hj, hs.out, hs.tvalid]
      rfl
    change Rounds.after Heap.step is (Heap.step j (x.behind s)) = _
    rw [hstep, fifoEdge, hj]
    rfl

/-! ### Bytes and words -/

/-- The words that the FIFO has taken are those that the adapter has delivered. -/
theorem carries_step (h : x.adapter.Carries x.bytes x.log.taken) :
    (x.step dropWhenFull e).adapter.Carries (x.step dropWhenFull e).bytes (x.step dropWhenFull e).log.taken := by
  have htaken := AsyncFifo.next_taken dropWhenFull (x.fifoEdge e) (x.fifo, x.log)
  cases hs : e.s with
  | none =>
    rw [fifoEdge, hs, Option.map_none, Option.map_none, Option.getD_none, List.append_nil] at htaken
    simp only [step, fifoEdge, hs, htaken, Option.map_none, Option.getD_none, Option.bind_none, Option.toList_none,
      List.append_nil]
    exact h
  | some i =>
    have hleft : (if (x.fifo.s.takes dropWhenFull ⟨x.adapter.out.out, x.adapter.out.valid⟩) then [x.adapter.out.out] else []) =
        x.adapter.out.left (x.fifo.s.tready dropWhenFull) := by
      rw [FifoS.takes, Bool.and_comm]; rfl
    rw [fifoEdge, hs, Option.map_some, Option.map_some, Option.getD_some, hleft] at htaken
    simp only [step, fifoEdge, hs, htaken, Option.map_some, Option.getD_some, Option.bind_some]
    exact h.step (x.fifo.s.tready dropWhenFull) i

theorem carries_run (h : x.adapter.Carries x.bytes x.log.taken) (es : List (FedEdge a)) :
    (x.run dropWhenFull es).adapter.Carries (x.run dropWhenFull es).bytes (x.run dropWhenFull es).log.taken :=
  Rounds.keeps_after (I := fun x : FedHeap a => x.adapter.Carries x.bytes x.log.taken)
    (fun _ _ h => carries_step dropWhenFull h) es h

/-- A frame that the FIFO has taken is one of the stream. -/
theorem whole_of_kept (hok : FifoOk dropWhenFull x.fifo x.log) (h : x.adapter.Carries x.bytes x.log.taken)
    {l : List StreamWord} (hl : l ∈ x.log.kept) : ∃ F : Frame, F.beatList = l.map StreamWord.beat := by
  obtain ⟨p, hp, rfl⟩ := List.mem_map.1 hl
  have hp := (List.mem_filter.1 hp).1
  obtain ⟨inside, -, hwords⟩ := h.words
  have hwhole : ∀ w ∈ p.1, Adapter.Whole w := fun w hw => (Adapter.pack_whole x.bytes).2 w <| by
    rw [← hwords]
    exact List.mem_append_left _ (List.mem_append_left _ (List.mem_append_left _ (List.mem_flatMap_of_mem hp hw)))
  obtain ⟨l, w, hf⟩ := hok.frames p hp
  rw [hf.words] at hwhole ⊢
  exact Adapter.exists_frame (fun v hv => hwhole v (List.mem_append_left _ hv)) hf.inside
    (hwhole w (List.mem_append_right _ List.mem_cons_self)) hf.last

/-! ### The schedule -/

theorem run_kept (es : List (FedEdge a)) (x : FedHeap a) : x.log.kept <+: (x.run dropWhenFull es).log.kept :=
  Rounds.keeps_after (I := fun y : FedHeap a => x.log.kept <+: y.log.kept)
    (fun e y h => h.trans (AsyncFifo.next_kept dropWhenFull (y.fifoEdge e) (y.fifo, y.log))) es (List.prefix_refl _)

theorem same_now (hok : FifoOk dropWhenFull x.fifo x.log) (h : StreamAt fs i (x.fifo, x.log) s)
    (hk : x.log.kept.map (List.map StreamWord.beat) <+: fs.map Frame.beatList) (ps : List (Nat × Frame)) :
    Same x (x.behind { s with pending := ps }) :=
  have hsame := h.showsSame hok hk
  ⟨rfl, hsame.tvalid, hsame.out⟩

theorem same_of_run (ha : 1 ≤ a) (es : List (FedEdge a)) (hok : FifoOk dropWhenFull x.fifo x.log)
    (hst : FifoStale w (x.fifo, x.log)) (h : StreamAt fs i (x.fifo, x.log) s)
    (hk : (x.run dropWhenFull es).log.kept.map (List.map StreamWord.beat) <+: fs.map Frame.beatList) :
    ∃ ps, ps.map Prod.snd <+: framesLeft fs i s ∧ ∀ es', es' <+: es →
      Same (x.run dropWhenFull es') (Rounds.after Heap.step (es'.filterMap FedEdge.heap) (x.behind { s with pending := ps })) := by
  induction es generalizing x i s with
  | nil =>
    refine ⟨[], List.nil_prefix, fun es' hes => ?_⟩
    obtain rfl := List.prefix_nil.1 hes
    exact same_now dropWhenFull hok h hk []
  | cons e es ih =>
    have hok' : FifoOk dropWhenFull (x.step dropWhenFull e).fifo (x.step dropWhenFull e).log := hok.step ha (x.fifoEdge e)
    have hst' : FifoStale w ((x.step dropWhenFull e).fifo, (x.step dropWhenFull e).log) := hst.next (x.fifoEdge e) hok
    have hk' := ((run_kept dropWhenFull es (x.step dropWhenFull e)).map (List.map StreamWord.beat)).trans hk
    have hk₀ := ((run_kept dropWhenFull (e :: es) x).map (List.map StreamWord.beat)).trans hk
    obtain ⟨i', s', hat, hback⟩ := h.next (e := x.fifoEdge e) hok hok' hst hk'
    obtain ⟨ps', hps', hrun⟩ := ih hok' hst' hat hk
    obtain ⟨ps, hps, hsrc⟩ := hback ps' hps'
    have hnow := same_now dropWhenFull hok h hk₀ ps
    refine ⟨ps, hps, fun es' hes => ?_⟩
    cases es' with
    | nil => exact hnow
    | cons e' es' =>
      obtain ⟨rfl, hes'⟩ := List.cons_prefix_cons.1 hes
      have hlist : (e' :: es').filterMap FedEdge.heap = e'.heap.toList ++ es'.filterMap FedEdge.heap := by
        rw [List.filterMap_cons]
        cases e'.heap <;> rfl
      rw [hlist, after_edge (s := { s with pending := ps }) dropWhenFull hnow.src hsrc]
      exact hrun es' hes'

end FedHeap

theorem Heap.run_eq_after (inp : Nat → HeapIn) (h : Heap) (t : Nat) :
    Heap.run inp h t = Rounds.after Heap.step ((List.range t).map inp) h := by
  induction t with
  | zero => rfl
  | succ t ih => rw [Heap.run_succ, ih, List.range_succ, List.map_append, Rounds.after_append]; rfl

theorem Heap.always_after (is : List HeapIn) {h : Heap} {sched : List (Nat × Frame)} (hr : h.AfterReset sched) :
    Heap.Always (Rounds.after Heap.step is h) := by
  have hstart : Heap.Always (Heap.run (fun _ => ⟨.idle, .idle⟩) h 0) := hr.always 0
  rw [Heap.run, Clocked.run] at hstart
  exact Rounds.keeps_after (fun _ _ h => h.step) is hstart

/-- A reset in front of a source is one with what the source shows. -/
theorem Heap.run_resetStep (inp : Nat → HeapIn) (d : DmaHeap) (s : RxSource) (n : Nat) :
    Clocked.run Heap.resetStep inp ⟨d, s⟩ n = ⟨Clocked.run (DmaHeap.resetStep s.tvalid s.out) inp d n, s⟩ := by
  induction n with
  | zero => rfl
  | succ n ih => rw [Clocked.run_succ, ih, Clocked.run_succ, Heap.resetStep]

namespace FedHeap

/-- The source before the first frame, over an output that holds `b`. -/
def sourceAt (b : Beat) (sched : List (Nat × Frame)) : RxSource := ⟨.ofWords [] 0, 0, false, b, sched⟩

/-- After reset: the FIFO has had an edge of `m_clk` or more since power-on and nothing has come in, the adapter has been
reset, and the controller has been for five edges, while the FIFO showed what it shows. Memory and data registers
hold anything. -/
structure AfterReset (dropWhenFull : Bool) (x : FedHeap a) : Prop where
  heap : ∃ inp d, x.toDmaHeap = Clocked.run (DmaHeap.resetStep false (StreamWord.beat x.fifo.m.mAxis)) inp d 5
  fifo : ∃ mem w w' es, (∃ e ∈ es, e.m.isSome) ∧
    AsyncFifo.run dropWhenFull es (AsyncFifo.init mem w w') ⟨[], [], []⟩ = (x.fifo, ⟨[], [], []⟩)
  log : x.log = ⟨[], [], []⟩
  adapter : x.adapter.AfterReset
  bytes : x.bytes = []

variable {x : FedHeap a} {dropWhenFull : Bool}

theorem AfterReset.behind (hr : x.AfterReset dropWhenFull) (sched : List (Nat × Frame)) :
    (x.behind (sourceAt (StreamWord.beat x.fifo.m.mAxis) sched)).AfterReset sched := by
  obtain ⟨inp, d, hx⟩ := hr.heap
  refine ⟨inp, ⟨d, sourceAt (StreamWord.beat x.fifo.m.mAxis) sched⟩, rfl, rfl, ?_⟩
  rw [Heap.run_resetStep, FedHeap.behind, hx]
  rfl

theorem AfterReset.fifoOk (ha : 1 ≤ a) (hr : x.AfterReset dropWhenFull) :
    FifoOk dropWhenFull x.fifo x.log ∧ ∃ w, FifoStale w (x.fifo, x.log) := by
  obtain ⟨mem, w, w', es, hes, hrun⟩ := hr.fifo
  have hok := FifoOk.init dropWhenFull mem w w'
  have hst := FifoStale.of_run ha hes hok (fun _ => rfl : ReadStale w (AsyncFifo.init mem w w', ⟨[], [], []⟩))
  have hok' := hok.run ha es
  rw [hrun] at hok'
  rw [hr.log]
  refine ⟨hok', w, ?_⟩
  rw [← hrun]
  exact hst

/-- Nothing has come in, so nothing is shown. -/
theorem AfterReset.tvalid (ha : 1 ≤ a) (hr : x.AfterReset dropWhenFull) : x.fifo.m.mAxisTvalid = false := by
  obtain ⟨k, r, r1, r2, sy, v, hinv⟩ := (hr.fifoOk ha).1.inv
  have hout := hinv.m.out
  rw [hr.log] at hout
  by_contra hv
  rw [Bool.not_eq_false] at hv
  have hnil : x.fifo.m.held = [] := (List.append_eq_nil_iff.1 (hout.trans List.take_nil)).2
  rw [FifoM.held, hv] at hnil
  cases hnil

theorem AfterReset.run_ok (ha : 1 ≤ a) (hr : x.AfterReset dropWhenFull) (es : List (FedEdge a)) :
    FifoOk dropWhenFull (x.run dropWhenFull es).fifo (x.run dropWhenFull es).log ∧
      ∃ w, FifoStale w ((x.run dropWhenFull es).fifo, (x.run dropWhenFull es).log) := by
  obtain ⟨hok, w, hst⟩ := hr.fifoOk ha
  have hrun : FifoOk dropWhenFull (x.run dropWhenFull es).fifo (x.run dropWhenFull es).log ∧
      FifoStale w ((x.run dropWhenFull es).fifo, (x.run dropWhenFull es).log) :=
    Rounds.keeps_after (I := fun x : FedHeap a => FifoOk dropWhenFull x.fifo x.log ∧ FifoStale w (x.fifo, x.log))
      (fun e x h => ⟨h.1.step ha (x.fifoEdge e), h.2.next (x.fifoEdge e) h.1⟩) es ⟨hok, hst⟩
  exact ⟨hrun.1, w, hrun.2⟩

theorem AfterReset.carries (hr : x.AfterReset dropWhenFull) (es : List (FedEdge a)) :
    (x.run dropWhenFull es).adapter.Carries (x.run dropWhenFull es).bytes (x.run dropWhenFull es).log.taken := by
  refine carries_run dropWhenFull ?_ es
  rw [hr.bytes, hr.log]
  exact hr.adapter.carries

section
variable (ha : 1 ≤ a) (hr : x.AfterReset dropWhenFull) (es : List (FedEdge a))
include ha hr

theorem AfterReset.exists_sched :
    ∃ sched : List (Nat × Frame),
      sched.map (fun q => q.2.beatList) <+: (x.run dropWhenFull es).log.kept.map (List.map StreamWord.beat) ∧
      ∀ es', es' <+: es → Same (x.run dropWhenFull es') (Rounds.after Heap.step (es'.filterMap FedEdge.heap)
        (x.behind (sourceAt (StreamWord.beat x.fifo.m.mAxis) sched))) := by
  have hwhole : ∀ l ∈ (x.run dropWhenFull es).log.kept, ∃ F : Frame, F.beatList = l.map StreamWord.beat := fun l hl =>
    whole_of_kept dropWhenFull (hr.run_ok ha es).1 (hr.carries es) hl
  have : Nonempty Frame := ⟨.ofWords [] 0⟩
  choose! F hF using hwhole
  have hfs : (x.run dropWhenFull es).log.kept.map (List.map StreamWord.beat) =
      ((x.run dropWhenFull es).log.kept.map F).map Frame.beatList := by
    rw [List.map_map]
    exact List.map_congr_left fun l hl => (hF l hl).symm
  obtain ⟨hok, w, hst⟩ := hr.fifoOk ha
  have hat : StreamAt ((x.run dropWhenFull es).log.kept.map F) 0 (x.fifo, x.log)
      (sourceAt (StreamWord.beat x.fifo.m.mAxis) []) := by
    refine ⟨(hr.tvalid ha).symm, nofun, fun _ => ?_, fun _ => rfl⟩
    rw [hr.log]
    rfl
  obtain ⟨sched, hsched, hrun⟩ := same_of_run dropWhenFull ha es hok hst hat (hfs ▸ List.prefix_refl _)
  refine ⟨sched, ?_, hrun⟩
  rw [hfs]
  have := hsched.map Frame.beatList
  rwa [List.map_map] at this

end

section
variable (ha : 2 ≤ a) (hr : x.AfterReset dropWhenFull) (es : List (FedEdge a))
include ha hr

/-- Behind the FIFO the controller goes through the states it goes through behind a source, after reset, that sends
frames which the FIFO has kept, in their order; and what the FIFO has taken is made of the bytes that the adapter
accepted. -/
theorem refines_heap :
    ∃ (sched : List (Nat × Frame)) (h : Heap), h.AfterReset sched ∧
      sched.map (fun q => q.2.beatList) <+: (x.run dropWhenFull es).log.kept.map (List.map StreamWord.beat) ∧
      (x.run dropWhenFull es).log.taken <+: (Adapter.pack (x.run dropWhenFull es).bytes).1 ∧
      ∀ es', es' <+: es → ∀ inp t, es'.filterMap FedEdge.heap = (List.range t).map inp →
        Same (x.run dropWhenFull es') (Heap.run inp h t) := by
  obtain ⟨sched, hsched, hrun⟩ := hr.exists_sched (Nat.le_of_succ_le ha) es
  obtain ⟨inside, -, hwords⟩ := (hr.carries es).words
  refine ⟨sched, _, hr.behind sched, hsched, ?_, fun es' hes inp t hinp => ?_⟩
  · rw [← hwords, List.append_assoc]
    exact List.prefix_append _ _
  · rw [Heap.run_eq_after, ← hinp]
    exact hrun es' hes

/-- A controller that is ready has a word in front of it, or the FIFO has not delivered any so far. -/
theorem valid_of_ready (hready : (x.run dropWhenFull es).dmac.out.rxAxisTready = true)
    (hout : (x.run dropWhenFull es).log.out ≠ []) : (x.run dropWhenFull es).fifo.m.mAxisTvalid = true := by
  have ha' : 1 ≤ a := Nat.le_of_succ_le ha
  obtain ⟨sched, -, hrun⟩ := hr.exists_sched ha' es
  obtain ⟨hok, w, hst⟩ := hr.run_ok ha' es
  have hsame := hrun es (List.prefix_refl _)
  have halways := Heap.always_after (es.filterMap FedEdge.heap) (hr.behind sched)
  by_contra hv
  rw [Bool.not_eq_true] at hv
  have hlast := List.getLast?_eq_some_getLast hout
  have hl := halways.idle (hsame.src.tvalid.trans hv) (by rw [← hsame.heap]; exact hready)
  rw [hsame.src.out, hst.shown hv, hlast] at hl
  exact Bool.noConfusion (hv.symm.trans (hok.steady _ hlast hl))

end

/-! ### A frame of nine bytes -/

/-- After a reset over a memory of zeros, with other words in the two registers of the FIFO. -/
def blank : FedHeap 2 where
  toDmaHeap := Clocked.run (DmaHeap.resetStep false ⟨7, 0, true⟩) (fun _ => ⟨.idle, .idle⟩) (Heap.start []).toDmaHeap 5
  adapter := ⟨.idle, 0, ⟨(0, 0), false, false⟩, false, ⟨⟨(0, 0), false, false⟩, false, ⟨(0, 0), false, false⟩, false, false⟩⟩
  fifo := (AsyncFifo.run true [⟨none, some false, ⟨0, false, false, 0, false, false, false⟩⟩]
    (AsyncFifo.init (fun _ => ⟨(0, 0), false, false⟩) ⟨(7, 0), true, false⟩ ⟨(0, 0), false, false⟩) ⟨[], [], []⟩).1
  log := ⟨[], [], []⟩
  bytes := []

theorem afterReset_blank : blank.AfterReset true :=
  ⟨⟨_, _, rfl⟩, ⟨_, _, _, _, ⟨_, List.mem_cons_self, rfl⟩, rfl⟩, rfl, ⟨rfl, rfl, rfl, rfl, rfl⟩, rfl⟩

/-- Twenty-four edges of both clocks; the controller is switched on at the first one, the bytes come from the sixth on. -/
def nineBytes : List (FedEdge 2) :=
  (List.range 24).map fun t =>
    ⟨some (if 5 ≤ t ∧ t ≤ 13 then some ⟨BitVec.ofNat 8 t, t == 13, false⟩ else none), some (RxLog.switchOn t),
      ⟨0, false, false, 0, false, false, false⟩⟩

theorem refines_heap_nineBytes :
    ∃ (sched : List (Nat × Frame)) (h : Heap), h.AfterReset sched ∧
      sched.map (fun q => q.2.beatList) <+: (blank.run true nineBytes).log.kept.map (List.map StreamWord.beat) ∧
      (blank.run true nineBytes).log.taken <+: (Adapter.pack (blank.run true nineBytes).bytes).1 ∧
      ∀ es', es' <+: nineBytes → ∀ inp t, es'.filterMap FedEdge.heap = (List.range t).map inp →
        Same (blank.run true es') (Heap.run inp h t) :=
  refines_heap (by decide) afterReset_blank nineBytes

theorem valid_of_ready_nineBytes :
    (blank.run true nineBytes).log.out = [⟨(0x08070605, 0xf), false, false⟩] ∧
      (blank.run true nineBytes).fifo.m.mAxisTvalid = true :=
  have hout : (blank.run true nineBytes).log.out = [⟨(0x08070605, 0xf), false, false⟩] := by decide +kernel
  ⟨hout, valid_of_ready (by decide) afterReset_blank nineBytes (by decide +kernel) (hout ▸ List.cons_ne_nil _ _)⟩

end FedHeap

end Picorv32Soc
