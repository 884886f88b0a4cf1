import Picorv32Soc.Proofs.PhaseStep

/-!
# Episodes and frames

An observer of the heap subsystem writes down which beats each `STATE_WRITE` episode consumes and
what becomes of the slots. As long as consecutive frames are two idle cycles apart the episodes are
the frames of the stream, in order, and each frame gives one slot that is published with its length
or released (`RxLog.OneToOne`). A frame that follows too closely is cut: its first beats are consumed
by the episode of the frame before it.
-/

namespace Picorv32Soc

/-- The end of a reception, as the ring records it. -/
inductive SlotEvent
  | published (slot : BitVec 3) (len : BitVec 32)
  | released (slot : BitVec 3)
deriving DecidableEq, Repr

/-- What an observer has seen: the beats consumed by each finished episode, the beats consumed since,
and what became of the slots. -/
structure RxLog where
  episodes : List (List Beat)
  current : List Beat
  slots : List SlotEvent
deriving DecidableEq, Repr

namespace RxLog

def empty : RxLog := ⟨[], [], []⟩

/-- The episode ends with this edge. -/
def episodeOver (h : Heap) : Bool := h.dmac.cur == .write && h.nxtState != .write

/-- What the ring does with the slot at the end of a reception. -/
def slotEvent (d : Dmac) : SlotEvent :=
  if d.filter.dropFrame then .released d.ring.rxBdIdx else .published d.ring.rxBdIdx d.out.bdFrameLen

def observe (_i : HeapIn) (h : Heap) (l : RxLog) : RxLog :=
  let current := l.current ++ h.src.consumed h.dmac.out.rxAxisTready
  { episodes := if episodeOver h then l.episodes ++ [current] else l.episodes
    current := if episodeOver h then [] else current
    slots := if h.dmac.rxEnd then l.slots ++ [slotEvent h.dmac] else l.slots }

def ofRun (inp : Nat → HeapIn) (h : Heap) : Nat → RxLog :=
  Clocked.watch observe Heap.step inp h empty

/-- The slot events of the frames `fs`, one for each: the slots are used in cyclic order, and the next
one to be used is the last argument. -/
inductive Records : List SlotEvent → List Frame → BitVec 3 → Prop
  | nil : Records [] [] 0
  | published {es : List SlotEvent} {fs : List Frame} {k : BitVec 3} (f : Frame) (r : Records es fs k) :
    Records (es ++ [.published k (BitVec.ofNat 32 f.nbytes)]) (fs ++ [f]) (k + 1)
  | released {es : List SlotEvent} {fs : List Frame} {k : BitVec 3} (f : Frame) (r : Records es fs k) :
    Records (es ++ [.released k]) (fs ++ [f]) k

/-- The finished episodes consumed exactly the frames `done`, each all beats of its own, and the beats
consumed since are the first ones of the next frame; every frame of `done` has its slot event, and
the next frame gets its own only after its last beat. -/
def OneToOne (frames : List Frame) (l : RxLog) : Prop :=
  ∃ done rest idx, frames = done ++ rest ∧ l.episodes = done.map Frame.beatList ∧
    ((Records l.slots done idx ∧ ∃ n, l.current = (rest.flatMap Frame.beatList).take n ∧
        ∀ f ∈ rest.head?, n ≤ f.beats) ∨
      ∃ f ∈ rest.head?, Records l.slots (done ++ [f]) idx ∧ l.current = f.beatList)

end RxLog

/-! ### What is visible in each phase -/

namespace Frame

theorem beatList_length (f : Frame) : f.beatList.length = f.beats := by simp [beatList]

theorem beatList_take_succ (f : Frame) {k : Nat} (hk : k < f.beats) :
    f.beatList.take (k + 1) = f.beatList.take k ++ [f.beat k] := by
  rw [List.take_succ_eq_append_getElem (by rwa [beatList_length])]
  simp [beatList]

end Frame

namespace RxSource
variable {s : RxSource}

/-- The frames that have not been consumed completely, in order. -/
def todo (s : RxSource) : List Frame := (if s.tvalid then [s.cur] else []) ++ s.pending.map Prod.snd

theorem todo_load (s : RxSource) : s.load.todo = s.pending.map Prod.snd := by
  rcases hp : s.pending with _ | ⟨⟨g, f⟩, ps⟩
  · rw [load_nil hp]; simp [todo, hp]
  · cases g with
    | zero => rw [load_zero hp]; simp [todo]
    | succ g => rw [load_succ hp]; simp [todo]

theorem todo_of_idle (hv : s.tvalid = false) : s.todo = s.pending.map Prod.snd := by simp [todo, hv]

theorem todo_step_false : (s.step false).todo = s.todo := by
  cases hv : s.tvalid with
  | true => rw [step_held hv]
  | false => rw [step_idle hv, todo_load, todo_of_idle hv]

theorem todo_step_idle (hv : s.tvalid = false) (b : Bool) : (s.step b).todo = s.todo := by
  rw [step_idle hv, todo_load, todo_of_idle hv]

theorem todo_step_next (hv : s.tvalid = true) (hl : s.out.tlast = false) :
    (s.step true).todo = s.todo := by
  rw [step_next hv hl]; simp [todo, hv]

theorem todo_step_last (hv : s.tvalid = true) (hl : s.out.tlast = true) :
    s.todo = s.cur :: (s.step true).todo := by
  rw [step_last hv hl, todo_load]; simp [todo, hv]

end RxSource

namespace Heap
namespace Stage
variable {st : Stage} {h : Heap}

/-- Beats are being taken. -/
def taking : Stage → Bool
  | writing f _ k => decide (k ≤ f.beats)
  | _ => false

/-- The reception has just begun. -/
def starting : Stage → Bool
  | writing _ _ k => decide (k = 1)
  | _ => false

/-- The ring is about to record the end of the reception. -/
def ending : Stage → Bool
  | writing f _ k => decide (k = f.beats + 2)
  | _ => false

/-- The state machine is about to leave `STATE_WRITE`. -/
def leaving : Stage → Bool
  | writing f _ k => decide (k = f.beats + 3)
  | runt => true
  | _ => false

theorem At.tready (r : st.At h) : h.dmac.out.rxAxisTready = st.taking := by
  cases st with
  | resting => exact (show Resting h from r).rx.tready
  | asking => exact (show Asking h from r).rx.tready
  | writing f a k => exact (show Writing f a k h from r).tready
  | runt => exact (show Runt h from r).rx.tready
  | sending => exact (show Sending h from r).rx.tready

theorem rxStart_of_quiet (r : h.dmac.RxQuiet) : h.dmac.rxStart = false := by
  simp [Dmac.rxStart, r.tready]

theorem rxEnd_of_quiet (r : h.dmac.RxQuiet) : h.dmac.rxEnd = false := by
  simp [Dmac.rxEnd, r.treadyM2]

theorem At.rxStart (r : st.At h) : h.dmac.rxStart = st.starting := by
  cases st with
  | resting => exact rxStart_of_quiet (show Resting h from r).rx
  | asking => exact rxStart_of_quiet (show Asking h from r).rx
  | writing f a k =>
    have r : Writing f a k h := r
    have := r.pos
    have := r.two
    rw [Dmac.rxStart, r.tready, r.treadyM, starting, Bool.eq_iff_iff]
    simp; omega
  | runt => exact rxStart_of_quiet (show Runt h from r).rx
  | sending => exact rxStart_of_quiet (show Sending h from r).rx

theorem At.rxEnd (r : st.At h) : h.dmac.rxEnd = st.ending := by
  cases st with
  | resting => exact rxEnd_of_quiet (show Resting h from r).rx
  | asking => exact rxEnd_of_quiet (show Asking h from r).rx
  | writing f a k =>
    have r : Writing f a k h := r
    have := r.two
    rw [Dmac.rxEnd, r.treadyM, r.treadyM2, ending, Bool.eq_iff_iff]
    simp; omega
  | runt => exact rxEnd_of_quiet (show Runt h from r).rx
  | sending => exact rxEnd_of_quiet (show Sending h from r).rx

theorem episodeOver_of_cur (hc : h.dmac.cur ≠ .write) : RxLog.episodeOver h = false := by simp [RxLog.episodeOver, hc]

theorem At.episodeOver (r : st.At h) : RxLog.episodeOver h = st.leaving := by
  cases st with
  | resting => exact episodeOver_of_cur (by rcases (show Resting h from r).cur with e | e <;> rw [e] <;> decide)
  | asking => exact episodeOver_of_cur (by rw [(show Asking h from r).cur]; decide)
  | writing f a k =>
    have r : Writing f a k h := r
    rw [RxLog.episodeOver, r.cur, r.nxtState_eq, leaving]
    by_cases hk : k = f.beats + 3 <;> simp [hk]
  | runt =>
    have r : Runt h := r
    rw [RxLog.episodeOver, r.cur, nxtState_write r.cur, r.tlastM3]; rfl
  | sending => exact episodeOver_of_cur (by rcases (show Sending h from r).cur with e | e <;> rw [e] <;> decide)

end Stage
end Heap

/-! ### The log follows the frames -/

namespace RxLog
open Heap
variable {frames : List Frame} {st st' : Stage} {h : Heap} {i : HeapIn} {l : RxLog} {f : Frame}

/-- Between receptions: the frames are those of the finished episodes and those still to come. -/
structure Idle (frames done : List Frame) (h : Heap) (l : RxLog) : Prop where
  frames : frames = done ++ h.src.todo
  episodes : l.episodes = done.map Frame.beatList
  current : l.current = []
  slots : Records l.slots done h.dmac.ring.rxBdIdx

/-- In phase `k` of the reception of `f`. -/
structure Busy (frames done : List Frame) (f : Frame) (k : Nat) (h : Heap) (l : RxLog) : Prop where
  frames : frames = done ++ if k ≤ f.beats then h.src.todo else f :: h.src.todo
  episodes : l.episodes = done.map Frame.beatList
  current : l.current = f.beatList.take (k - 1)
  slots : Records l.slots (if k ≤ f.beats + 2 then done else done ++ [f]) h.dmac.ring.rxBdIdx

/-- The log in each phase. -/
def Follows (frames : List Frame) : Stage → Heap → RxLog → Prop
  | .writing f _ k, h, l => ∃ done, Busy frames done f k h l
  | _, h, l => ∃ done, Idle frames done h l

theorem Idle.step {done : List Frame} (w : Idle frames done h l) (ht : h.dmac.out.rxAxisTready = false)
    (he : h.dmac.rxEnd = false) (ho : episodeOver h = false) :
    Idle frames done (Heap.step i h) (observe i h l) := by
  have hidx : (Heap.step i h).dmac.ring.rxBdIdx = h.dmac.ring.rxBdIdx := by
    show h.dmac.stepRing.rxBdIdx = _
    rw [Dmac.stepRing_rxBdIdx, he]; rfl
  refine ⟨?_, ?_, ?_, ?_⟩
  · rw [step_src, ht, RxSource.todo_step_false]; exact w.frames
  · simpa [observe, ho] using w.episodes
  · simpa [observe, ho, ht, RxSource.consumed] using w.current
  · rw [hidx]; simpa [observe, he] using w.slots

theorem Busy.first {done : List Frame} {a : BitVec 32} (w : Idle frames done (Heap.step i h) l)
    (r : Writing f a 1 (Heap.step i h)) : Busy frames done f 1 (Heap.step i h) l := by
  have := r.two
  refine ⟨?_, w.episodes, by simpa using w.current, ?_⟩
  · rw [if_pos (by omega)]; exact w.frames
  · rw [if_pos (by omega)]; exact w.slots

theorem records_step {done : List Frame} {a : BitVec 32} {k : Nat} (r : Writing f a k h)
    (hs : Records l.slots (if k ≤ f.beats + 2 then done else done ++ [f]) h.dmac.ring.rxBdIdx)
    (hk : k ≤ f.beats + 2) :
    Records (observe i h l).slots (if k + 1 ≤ f.beats + 2 then done else done ++ [f])
      (Heap.step i h).dmac.ring.rxBdIdx := by
  have hend : h.dmac.rxEnd = decide (k = f.beats + 2) := (show (Stage.writing f a k).At h from r).rxEnd
  rw [if_pos hk] at hs
  show Records (if h.dmac.rxEnd then _ else _) _ h.dmac.stepRing.rxBdIdx
  rw [Dmac.stepRing_rxBdIdx, hend]
  rcases Nat.lt_or_ge k (f.beats + 2) with hlt | hge
  · rw [decide_eq_false (by omega), if_neg Bool.false_ne_true, if_pos (by omega)]; exact hs
  · obtain rfl : k = f.beats + 2 := Nat.le_antisymm hk hge
    have hlen : h.dmac.out.bdFrameLen = BitVec.ofNat 32 f.nbytes := by
      rw [r.bdFrameLen, if_pos hk, Nat.add_sub_cancel, f.bytesBefore_beats]
    rw [decide_eq_true rfl, if_pos rfl, if_neg (by omega), slotEvent, hlen]
    cases h.dmac.filter.dropFrame
    · exact .published f hs
    · exact .released f hs

theorem Busy.step {done : List Frame} {a : BitVec 32} {k : Nat} (w : Busy frames done f k h l)
    (r : Writing f a k h) (hk : k ≤ f.beats + 2) :
    Busy frames done f (k + 1) (Heap.step i h) (observe i h l) := by
  have hpos := r.pos
  have hends : episodeOver h = false := by
    rw [(show (Stage.writing f a k).At h from r).episodeOver]; exact decide_eq_false (by omega)
  refine ⟨?_, by simpa [observe, hends] using w.episodes, ?_, records_step r w.slots hk⟩
  · have hl : h.src.out.tlast = decide (f.beats ≤ k) := by
      rw [r.src.out hpos hk, Frame.beat_tlast, Nat.sub_add_cancel hpos]
    have hf := w.frames
    rw [step_src, r.tready]
    rcases Nat.lt_trichotomy k f.beats with hlt | heq | hgt
    · rw [if_pos (by omega)] at hf
      obtain ⟨hv, -, -⟩ := r.src.during (by omega)
      rw [if_pos (by omega), decide_eq_true (by omega),
        RxSource.todo_step_next hv (by rw [hl]; exact decide_eq_false (by omega))]
      exact hf
    · rw [if_pos (by omega)] at hf
      obtain ⟨hv, hc, -⟩ := r.src.during (by omega)
      rw [if_neg (by omega), decide_eq_true (by omega), hf, ← hc,
        ← RxSource.todo_step_last hv (by rw [hl]; exact decide_eq_true (by omega))]
    · rw [if_neg (by omega)] at hf
      obtain ⟨hv, -, -⟩ := r.src.after hgt hk
      rw [if_neg (by omega), RxSource.todo_step_idle hv]
      exact hf
  · have hcur : (observe i h l).current = l.current ++ h.src.consumed (decide (k ≤ f.beats)) := by
      simp [observe, hends, r.tready]
    rw [hcur, w.current]
    obtain ⟨j, rfl⟩ : ∃ j, k = j + 1 := ⟨k - 1, by omega⟩
    rcases Nat.lt_or_ge j f.beats with hlt | hge
    · obtain ⟨hv, -, -⟩ := r.src.during (by omega)
      rw [decide_eq_true (by omega), RxSource.consumed, hv, r.src.out hpos hk]
      exact (f.beatList_take_succ hlt).symm
    · have hlen : f.beatList.length ≤ j := by rwa [Frame.beatList_length]
      rw [decide_eq_false (by omega)]
      simp [RxSource.consumed, List.take_of_length_le hlen, List.take_of_length_le (Nat.le_succ_of_le hlen)]

theorem Busy.finish {done : List Frame} {a : BitVec 32} (w : Busy frames done f (f.beats + 3) h l)
    (r : Writing f a (f.beats + 3) h) :
    Idle frames (done ++ [f]) (Heap.step i h) (observe i h l) := by
  have hends : episodeOver h = true := by
    rw [(show (Stage.writing f a (f.beats + 3)).At h from r).episodeOver]; exact decide_eq_true rfl
  have htr : h.dmac.out.rxAxisTready = false := by rw [r.tready]; exact decide_eq_false (by omega)
  have hend : h.dmac.rxEnd = false := by
    rw [(show (Stage.writing f a (f.beats + 3)).At h from r).rxEnd]; exact decide_eq_false (by omega)
  have hf := w.frames
  have hs := w.slots
  rw [if_neg (by omega)] at hf hs
  refine ⟨?_, ?_, by simp [observe, hends], ?_⟩
  · rw [step_src, htr, RxSource.todo_step_false, hf]; simp
  · have hcur : l.current = f.beatList := by
      rw [w.current, List.take_of_length_le (by rw [Frame.beatList_length]; omega)]
    simp [observe, hends, htr, RxSource.consumed, hcur, w.episodes]
  · have hidx : (Heap.step i h).dmac.ring.rxBdIdx = h.dmac.ring.rxBdIdx := by
      show h.dmac.stepRing.rxBdIdx = _
      rw [Dmac.stepRing_rxBdIdx, hend]; rfl
    rw [hidx]; simpa [observe, hend] using hs

theorem Follows.step (hall : ∀ f ∈ frames, 2 ≤ f.beats) (r : st.At h) (w : Follows frames st h l)
    (hn : Stage.Next h st st') (r' : st'.At (Heap.step i h)) :
    Follows frames st' (Heap.step i h) (observe i h l) := by
  have idle : ∀ {st : Stage} {done : List Frame}, st.At h → Idle frames done h l → st.taking = false →
      st.ending = false → st.leaving = false → Idle frames done (Heap.step i h) (observe i h l) :=
    fun r w ht he ho => w.step (r.tready.trans ht) (r.rxEnd.trans he) (r.episodeOver.trans ho)
  cases hn with
  | rest | ask | wait | send | more | sent =>
    obtain ⟨done, w⟩ := w
    exact ⟨done, idle r w rfl rfl rfl⟩
  | first wt =>
    obtain ⟨done, w⟩ := w
    exact ⟨done, Busy.first (idle r w rfl rfl rfl) r'⟩
  | refuse wt hv hone =>
    -- frames of one beat are excluded
    obtain ⟨done, w⟩ := w
    have hmem : h.src.cur ∈ frames := by rw [w.frames]; simp [RxSource.todo, wt.tvalid]
    have := hall _ hmem
    omega
  | beat hk =>
    obtain ⟨done, w⟩ := w
    exact ⟨done, w.step r hk⟩
  | last =>
    obtain ⟨done, w⟩ := w
    exact ⟨_, w.finish r⟩
  | refused =>
    obtain ⟨done, w⟩ := w
    have rt : Runt h := r
    have hmem : h.src.cur ∈ frames := by rw [w.frames]; simp [RxSource.todo, rt.tvalid]
    have := hall _ hmem
    have := rt.one
    omega

theorem Follows.oneToOne (r : st.At h) (w : Follows frames st h l) : OneToOne frames l := by
  have idle : (∃ done, Idle frames done h l) → OneToOne frames l := fun ⟨done, w⟩ =>
    ⟨done, _, _, w.frames, w.episodes, .inl ⟨w.slots, 0, by simpa using w.current, by simp⟩⟩
  cases st with
  | resting | asking | runt | sending => exact idle w
  | writing f a k =>
    obtain ⟨done, w⟩ := w
    have r : Writing f a k h := r
    have hpos := r.pos
    have hf := w.frames
    have hs := w.slots
    have hcur := w.current
    obtain ⟨rest, hrest⟩ : ∃ rest, frames = done ++ f :: rest := by
      split_ifs at hf with hk
      · obtain ⟨hv, hc, -⟩ := r.src.during hk
        exact ⟨_, by rw [hf, RxSource.todo, if_pos hv, hc]; rfl⟩
      · exact ⟨_, hf⟩
    refine ⟨done, f :: rest, h.dmac.ring.rxBdIdx, hrest, w.episodes, ?_⟩
    split_ifs at hs with hk
    · refine .inl ⟨hs, min (k - 1) f.beats, ?_, by simp⟩
      rw [hcur, List.flatMap_cons, List.take_append_of_le_length (by rw [Frame.beatList_length]; omega),
        List.take_eq_take_min, Frame.beatList_length]
    · exact .inr ⟨f, rfl, hs, by rw [hcur, List.take_of_length_le (by rw [Frame.beatList_length]; omega)]⟩

/-- **Every episode consumes exactly one frame.** From reset on, whatever the CPU does on the heap
and register ports short of withdrawing a transmit request, as long as consecutive frames are two
idle cycles apart and no frame fits into a single beat. -/
theorem episode_per_frame {inp : Nat → HeapIn} {sched : List (Nat × Frame)} (hr : h.AfterReset sched)
    (hgap : ∀ p ∈ sched.tail, 2 ≤ p.1) (hlen : ∀ p ∈ sched, 5 ≤ p.2.nbytes)
    (hreq : ∀ t, KeepsRequest (inp t) (run inp h t)) :
    ∀ t, OneToOne (sched.map Prod.snd) (ofRun inp h t) := by
  have hall : ∀ f ∈ sched.map Prod.snd, 2 ≤ f.beats := by
    intro f hf
    obtain ⟨p, hp, rfl⟩ := List.mem_map.1 hf
    have := hlen p hp
    rw [Frame.beats_eq]; omega
  obtain ⟨hv, hp⟩ := hr.src
  have h0 : Follows (sched.map Prod.snd) .resting h empty := by
    refine ⟨[], ?_, rfl, rfl, ?_⟩
    · simp [RxSource.todo, hv, hp]
    · rw [show h.dmac.ring = Dmac.Ring.reset from hr.quiet.2.2.2.2.1]; exact .nil
  have key : ∀ t, ∃ st, Ctl st (run inp h t) ∧ Follows (sched.map Prod.snd) st (run inp h t) (ofRun inp h t) :=
    Clocked.watch_inv (P := fun h l => ∃ st, Ctl st h ∧ Follows (sched.map Prod.snd) st h l)
      ⟨_, hr.ctl hgap, h0⟩ fun t ⟨st, c, w⟩ => by
        obtain ⟨st', hn, c'⟩ := c.step (hreq t)
        exact ⟨st', c', w.step hall c.phase hn c'.phase⟩
  intro t
  obtain ⟨st, c, w⟩ := key t
  exact w.oneToOne c.phase

/-! ### Back-to-back frames -/

/-- A broadcast frame of the minimum length. -/
def broadcast : Frame := .ofWords (List.replicate 14 0xffffffff) 0xffffffff

/-- The controller is switched on and left alone. -/
def switchOn : Nat → HeapIn
  | 0 => ⟨.idle, .store 0x800000c0 1⟩
  | _ => ⟨.idle, .idle⟩

theorem keepsRequest_switchOn (t : Nat) (h : Heap) : KeepsRequest (switchOn t) h := by
  intro _ _ hsel
  cases t with
  | zero => exact absurd hsel (show ¬ Dmac.Regs.sel (.store 0x800000c0 1) = 0x33 by decide)
  | succ t => exact absurd hsel (show ¬ Dmac.Regs.sel .idle = 0x33 by decide)

theorem episode_per_frame_spaced :
    (ofRun switchOn (start [(3, broadcast), (2, broadcast)]) 60).episodes.map List.length = [15, 15] ∧
      ∀ t, OneToOne [broadcast, broadcast] (ofRun switchOn (start [(3, broadcast), (2, broadcast)]) t) :=
  ⟨by decide +kernel, episode_per_frame (start_afterReset [(3, broadcast), (2, broadcast)]) (by decide)
    (by decide) fun t => keepsRequest_switchOn t _⟩

theorem OneToOne.mem_episodes (w : OneToOne frames l) {e : List Beat} (he : e ∈ l.episodes) :
    ∃ f ∈ frames, e = f.beatList := by
  obtain ⟨done, rest, idx, hf, hep, -⟩ := w
  rw [hep] at he
  obtain ⟨f, hm, rfl⟩ := List.mem_map.1 he
  exact ⟨f, by rw [hf]; exact List.mem_append_left _ hm, rfl⟩

/-- Two frames without an idle cycle between them: the first episode takes the first two beats of the
second frame, and the second one only the thirteen that are left. -/
theorem close_frames_cut :
    (start [(3, broadcast), (0, broadcast)]).AfterReset [(3, broadcast), (0, broadcast)] ∧
      (ofRun switchOn (start [(3, broadcast), (0, broadcast)]) 60).episodes.map List.length = [17, 13] ∧
      ¬ OneToOne [broadcast, broadcast] (ofRun switchOn (start [(3, broadcast), (0, broadcast)]) 60) := by
  have hlen : (ofRun switchOn (start [(3, broadcast), (0, broadcast)]) 60).episodes.map List.length =
      [17, 13] := by decide +kernel
  refine ⟨start_afterReset _, hlen, fun w => ?_⟩
  have hmem : 17 ∈ (ofRun switchOn (start [(3, broadcast), (0, broadcast)]) 60).episodes.map List.length := by
    rw [hlen]; decide
  obtain ⟨e, he, h17⟩ := List.mem_map.1 hmem
  obtain ⟨f, hf, rfl⟩ := w.mem_episodes he
  obtain rfl : f = broadcast := by simpa using hf
  rw [Frame.beatList_length] at h17
  exact absurd h17 (by decide)

end RxLog

end Picorv32Soc
