import Picorv32Soc.Episodes
import Picorv32Soc.RxRing

/-!
# The receive ring is a queue

On a run the observer `SlotQueue.observe` keeps the queue of the slots published and not yet cleared,
and the registers represent it (`Ring.Holds`) in every state as long as software clears the slots in
the order of their publication.
-/

namespace Picorv32Soc
open Bits

namespace SlotQueue
open Heap
variable {q : SlotQueue} {st st' : Stage} {h : Heap} {i : HeapIn}

/-- A publication appends the slot with the frame whose last beat is still on the outputs; a clear
removes the slots it names. -/
def observe (_i : HeapIn) (h : Heap) (q : SlotQueue) : SlotQueue :=
  let q := if h.dmac.rxEnd && !h.dmac.filter.dropFrame then q ++ [(h.dmac.ring.rxBdIdx, h.src.cur)] else q
  q.filter fun p => !h.dmac.regs.rxBdClr.getLsbD p.1.toNat

def ofRun (inp : Nat → HeapIn) (h : Heap) : Nat → SlotQueue :=
  Clocked.watch observe Heap.step inp h []

/-- Software clears nothing but the oldest published slot. -/
def ClearsInOrder (i : HeapIn) (h : Heap) (q : SlotQueue) : Prop :=
  h.dmac.regs.store i.mem = true → Dmac.Regs.sel i.mem = 0x32 →
    i.mem.wdata.setWidth 8 = 0#8 ∨ ∃ p ∈ q.head?, i.mem.wdata.setWidth 8 = slotMask p.1

/-- The ring of the source, seen as a queue. -/
structure RingOk (h : Heap) (q : SlotQueue) : Prop where
  sta : ∀ k : BitVec 3, h.dmac.ring.rxBdSta.getLsbD k.toNat = true ↔ k ∈ q.map Prod.fst
  -- the published slots are a cyclic interval that ends just before `rx_BD_idx`
  interval : q.map Prod.fst = Cyclic.interval h.dmac.ring.rxBdIdx q.length ∧ q.length ≤ 8
  staR : ∀ k : BitVec 3, h.dmac.ring.rxBdSta.getLsbD k.toNat = true →
    h.dmac.ring.rxBdStaR.getLsbD k.toNat = true
  reserved : ∀ k : BitVec 3, h.dmac.ring.rxBdStaR.getLsbD k.toNat = true →
    h.dmac.ring.rxBdSta.getLsbD k.toNat = true ∨ (k = h.dmac.ring.rxBdIdx ∧ h.dmac.cur = .write)
  -- from the grant to the end of the reception
  target : h.nxtState = .write → h.dmac.ring.rxBdSta.getLsbD h.dmac.ring.rxBdIdx.toNat = false
  len : ∀ p ∈ q, h.dmac.ring.rxBdLen p.1 = BitVec.ofNat 32 p.2.nbytes

/-- The slot `rx_BD_idx` is reserved in this phase. -/
def resv : Stage → Bool
  | .writing f _ k => decide (2 ≤ k ∧ k ≤ f.beats + 2)
  | _ => false

/-- A phase that leads to a reception has a slot for it. -/
def Room : Stage → Heap → SlotQueue → Prop
  | .asking, h, q => h.dmac.txStaValid = true ∨ q.length < 8
  | .writing f _ k, _, q => k ≤ f.beats + 2 → q.length < 8
  | _, _, _ => True

/-- The registers represent the queue, in the phase `st`. -/
structure Inv (st : Stage) (h : Heap) (q : SlotQueue) : Prop where
  ring : h.dmac.ring.Holds q (resv st)
  clr : h.dmac.regs.rxBdClr = 0 ∨ ∃ p ∈ q.head?, h.dmac.regs.rxBdClr = slotMask p.1
  room : Room st h q

/-- The part of `stepRing` before the clear. -/
def filled (d : Dmac) : Dmac.Ring :=
  let g := { d.ring with txBdIdx := 0 }
  let g := if d.rxStart then g.reserve else g
  if d.rxEnd then (if d.filter.dropFrame then g.drop else g.publish d.out.bdFrameLen) else g

def appended (h : Heap) (q : SlotQueue) : SlotQueue :=
  if h.dmac.rxEnd && !h.dmac.filter.dropFrame then q ++ [(h.dmac.ring.rxBdIdx, h.src.cur)] else q

theorem appended_eq (h : Heap) (q : SlotQueue) (he : h.dmac.rxEnd = false) : appended h q = q := by
  simp [appended, he]

theorem head?_appended {p : BitVec 3 × Frame} (hp : p ∈ q.head?) : p ∈ (appended h q).head? := by
  unfold appended
  split_ifs
  · cases q with
    | nil => cases hp
    | cons => exact hp
  · exact hp

theorem filled_holds (r : st.At h) (w : h.dmac.ring.Holds q (resv st)) (hroom : Room st h q)
    (hn : Stage.Next h st st') : (filled h.dmac).Holds (appended h q) (resv st') := by
  have quiet : st.starting = false → st.ending = false → resv st' = resv st →
      (filled h.dmac).Holds (appended h q) (resv st') := by
    intro hs he hr
    have hs' := r.rxStart.trans hs
    have he' := r.rxEnd.trans he
    rw [appended_eq h q he', hr]
    simp only [filled, hs', he']
    exact w.txBdIdx 0
  cases hn with
  | rest | ask | wait | first | refuse | send | refused | more | sent => exact quiet rfl rfl rfl
  | @beat f a k hk =>
    have r' : Writing f a k h := r
    have hpos := r'.pos
    have htwo := r'.two
    have hs : h.dmac.rxStart = decide (k = 1) := r.rxStart
    have he : h.dmac.rxEnd = decide (k = f.beats + 2) := r.rxEnd
    rcases Nat.lt_trichotomy 1 k with h1 | h1 | h1
    · rcases Nat.lt_or_ge k (f.beats + 2) with h2 | h2
      · exact quiet (decide_eq_false (by omega)) (decide_eq_false (by omega))
          (by simp only [resv, decide_eq_decide]; omega)
      · -- the end of the reception
        obtain rfl : k = f.beats + 2 := Nat.le_antisymm hk h2
        have hw : h.dmac.ring.Holds q true := by
          rwa [show resv (.writing f a (f.beats + 2)) = true from decide_eq_true (by omega)] at w
        have hresv : resv (.writing f a (f.beats + 2 + 1)) = false := decide_eq_false (by omega)
        have hlen : h.dmac.out.bdFrameLen = BitVec.ofNat 32 f.nbytes := by
          rw [r'.bdFrameLen, if_pos hk, Nat.add_sub_cancel, f.bytesBefore_beats]
        have hsrc : h.src.cur = f := (r'.src.after (by omega) hk).2.1
        rw [decide_eq_false (by omega)] at hs
        rw [decide_eq_true rfl] at he
        simp only [filled, appended, hs, he, hlen, hsrc, hresv]
        cases h.dmac.filter.dropFrame
        · exact (hw.txBdIdx 0).publish f
        · exact (hw.txBdIdx 0).drop
    · -- the start of the reception
      subst h1
      have hw : h.dmac.ring.Holds q false := by
        rwa [show resv (.writing f a 1) = false by simp [resv]] at w
      have hresv : resv (.writing f a (1 + 1)) = true := by simp [resv]
      rw [decide_eq_false (by omega)] at he
      rw [appended_eq h q he, hresv]
      simp only [filled, hs, he]
      exact (hw.txBdIdx 0).reserve (hroom (by omega))
    · omega
  | @last f a =>
    exact quiet (by simp [Stage.starting]) (by simp [Stage.ending]) (by simp [resv])

theorem clear_holds {g : Dmac.Ring} {b : Bool} {c : BitVec 8} (w : g.Holds q b)
    (hc : c = 0 ∨ ∃ p ∈ q.head?, c = slotMask p.1) :
    (g.clear c).Holds (q.filter fun p => !c.getLsbD p.1.toNat) b := by
  rcases hc with rfl | ⟨p, hp, rfl⟩
  · rw [Dmac.Ring.clear_zero]; simpa using w
  · obtain ⟨q, rfl⟩ : ∃ q', q = p :: q' := by
      cases q with
      | nil => cases hp
      | cons x q' => exact ⟨q', by rw [Option.mem_some_iff.1 hp]⟩
    rw [w.filter_clear]; exact w.clear

theorem clr_step (hi : ClearsInOrder i h q) :
    (Heap.step i h).dmac.regs.rxBdClr = 0 ∨
      ∃ p ∈ (observe i h q).head?, (Heap.step i h).dmac.regs.rxBdClr = slotMask p.1 := by
  have hstep : (Heap.step i h).dmac.regs.rxBdClr =
      if h.dmac.regs.rxBdClr ≠ 0 then 0
      else if h.dmac.regs.store i.mem && Dmac.Regs.sel i.mem == 0x32 then i.mem.wdata.setWidth 8
      else h.dmac.regs.rxBdClr := rfl
  rw [hstep]
  split_ifs with h0 hst
  · exact .inl rfl
  · -- nothing is being cleared, so the head stays
    rw [not_not] at h0
    simp only [Bool.and_eq_true, beq_iff_eq] at hst
    have hobs : observe i h q = appended h q := by
      show (appended h q).filter _ = _
      rw [h0]; simp
    rw [hobs]
    rcases hi hst.1 hst.2 with e | ⟨p, hp, e⟩
    · exact .inl e
    · exact .inr ⟨p, head?_appended hp, e⟩
  · exact .inl (not_not.1 h0)

theorem length_observe_le (i : HeapIn) (q : SlotQueue) (he : h.dmac.rxEnd = false) :
    (observe i h q).length ≤ q.length := by
  show ((appended h q).filter _).length ≤ _
  rw [appended_eq h q he]; exact List.length_filter_le ..

theorem room_step (r : st.At h) (w : Inv st h q) (hn : Stage.Next h st st') (hi : KeepsRequest i h) :
    Room st' (Heap.step i h) (observe i h q) := by
  cases hn with
  | rest | refuse | send | last | refused | more | sent => trivial
  | ask hg =>
    have r : Resting h := r
    have he : h.dmac.rxEnd = false := Stage.rxEnd_of_quiet r.rx
    rcases hg with hr | hv
    · refine .inr (Nat.lt_of_le_of_lt (length_observe_le i q he) (Nat.lt_of_le_of_ne w.ring.le fun h8 => ?_))
      exact hr (w.ring.full h8)
    · exact .inl (txStaValid_step hi (by rw [r.out]; rfl) hv)
  | wait =>
    have r : Asking h := r
    have he : h.dmac.rxEnd = false := Stage.rxEnd_of_quiet r.rx
    rcases w.room with hv | hq
    · exact .inl (txStaValid_step hi r.txStaReady hv)
    · exact .inr (Nat.lt_of_le_of_lt (length_observe_le i q he) hq)
  | first _ hv =>
    have r : Asking h := r
    have he : h.dmac.rxEnd = false := Stage.rxEnd_of_quiet r.rx
    rcases w.room with hv' | hq
    · rw [hv] at hv'; cases hv'
    · exact fun _ => Nat.lt_of_le_of_lt (length_observe_le i q he) hq
  | @beat f a k hk =>
    intro hk'
    have he : h.dmac.rxEnd = false := by rw [r.rxEnd]; exact decide_eq_false (by omega)
    exact Nat.lt_of_le_of_lt (length_observe_le i q he) (w.room hk)

theorem Inv.step (r : st.At h) (w : Inv st h q) (hn : Stage.Next h st st') (hi : KeepsRequest i h)
    (hc : ClearsInOrder i h q) : Inv st' (Heap.step i h) (observe i h q) := by
  refine ⟨?_, clr_step hc, room_step r w hn hi⟩
  refine clear_holds (filled_holds r w.ring w.room hn) ?_
  rcases w.clr with e | ⟨p, hp, e⟩
  · exact .inl e
  · exact .inr ⟨p, head?_appended hp, e⟩

theorem Inv.length_lt (r : st.At h) (w : Inv st h q) (hn : h.nxtState = .write) : q.length < 8 := by
  rcases of_nxtState_write hn with ⟨hc, -, hv⟩ | ⟨hc, hm⟩
  · obtain rfl := r.of_abus hc
    rcases w.room with hv' | hq
    · rw [hv] at hv'; cases hv'
    · exact hq
  · rcases r.of_write hc with ⟨f, a, k, rfl⟩ | rfl
    · have r : Writing f a k h := r
      have := r.le
      rw [r.tlastM3, decide_eq_false_iff_not] at hm
      exact w.room (by omega)
    · rw [(show Runt h from r).tlastM3] at hm
      cases hm

theorem Inv.ringOk (r : st.At h) (w : Inv st h q) : RingOk h q := by
  refine ⟨fun k => by rw [w.ring.sta, decide_eq_true_iff], ⟨w.ring.slots, w.ring.le⟩, fun k hk => ?_,
    fun k hk => ?_, fun hn => ?_, w.ring.len⟩
  · rw [w.ring.sta] at hk
    rw [w.ring.staR, hk, Bool.true_or]
  · rw [w.ring.staR, Bool.or_eq_true] at hk
    rcases hk with hk | hk
    · exact .inl (by rw [w.ring.sta]; exact hk)
    · rw [Bool.and_eq_true, beq_iff_eq] at hk
      refine .inr ⟨hk.2, ?_⟩
      cases st with
      | writing f a k => exact (show Writing f a k h from r).cur
      | resting | asking | runt | sending => cases hk.1
  · rw [w.ring.sta]
    exact decide_eq_false (w.ring.idx_not_mem (w.length_lt r hn))

/-- **The ring is a queue.** From reset on, with frames two idle cycles apart, software that clears
the published slots in order and does not withdraw a transmit request. -/
theorem ring_is_queue {inp : Nat → HeapIn} {sched : List (Nat × Frame)} (hr : h.AfterReset sched)
    (hgap : ∀ p ∈ sched.tail, 2 ≤ p.1) (hreq : ∀ t, KeepsRequest (inp t) (run inp h t))
    (hclr : ∀ t, ClearsInOrder (inp t) (run inp h t) (ofRun inp h t)) :
    ∀ t, RingOk (run inp h t) (ofRun inp h t) := by
  obtain ⟨-, -, -, hregs, hring, -⟩ := hr.quiet
  have h0 : Inv .resting h [] := by
    refine ⟨?_, .inl (by rw [hregs]; rfl), trivial⟩
    rw [hring]; exact Dmac.Ring.holds_reset
  have key : ∀ t, ∃ st, Ctl st (run inp h t) ∧ Inv st (run inp h t) (ofRun inp h t) :=
    Clocked.watch_inv (P := fun h q => ∃ st, Ctl st h ∧ Inv st h q) ⟨_, hr.ctl hgap, h0⟩
      fun t ⟨st, c, w⟩ => by
        obtain ⟨st', hn, c'⟩ := c.step (hreq t)
        exact ⟨st', c', w.step c.phase hn (hreq t) (hclr t)⟩
  intro t
  obtain ⟨st, c, w⟩ := key t
  exact w.ringOk c.phase

/-- One frame is received, and its slot is cleared in cycle 40. -/
def receiveAndClear (t : Nat) : HeapIn :=
  if t = 0 then ⟨.idle, .store 0x800000c0 1⟩ else if t = 40 then ⟨.idle, .store 0x800000c8 1⟩
  else ⟨.idle, .idle⟩

theorem ring_is_queue_cleared :
    ((ofRun receiveAndClear (start [(3, RxLog.broadcast)]) 40).map Prod.fst = [0] ∧
      (ofRun receiveAndClear (start [(3, RxLog.broadcast)]) 42).map Prod.fst = []) ∧
    ∀ t, RingOk (run receiveAndClear (start [(3, RxLog.broadcast)]) t)
      (ofRun receiveAndClear (start [(3, RxLog.broadcast)]) t) := by
  refine ⟨by decide +kernel, ring_is_queue (start_afterReset [(3, RxLog.broadcast)]) (by decide) ?_ ?_⟩
  · intro t _ _ hsel
    unfold receiveAndClear at hsel
    split_ifs at hsel <;> exact absurd hsel (by decide)
  · intro t hst hsel
    by_cases ht : t = 40
    · subst ht; decide +kernel
    · unfold receiveAndClear at hsel
      split_ifs at hsel <;> exact absurd hsel (by decide)

/-- A request to send is stored in cycle 160, while the eighth frame is being received, and taken back in
cycle 171, when the controller asks for the bus. -/
def withdraw (t : Nat) : HeapIn :=
  if t = 0 then ⟨.idle, .store 0x800000c0 1⟩
  else if t = 160 ∨ t = 161 then ⟨.idle, .store 0x800000cc 1⟩
  else if t = 171 ∨ t = 172 then ⟨.idle, .store 0x800000cc 0⟩
  else ⟨.idle, .idle⟩

/-- Nine frames two cycles apart, nothing is ever cleared. The request that is taken back leaves the
controller asking for the bus with all eight slots published, and it overwrites the oldest one. -/
theorem withdrawn_request_overwrites :
    (start (List.replicate 9 (2, RxLog.broadcast))).AfterReset (List.replicate 9 (2, RxLog.broadcast)) ∧
      (∀ t h q, ClearsInOrder (withdraw t) h q) ∧
      (run withdraw (start (List.replicate 9 (2, RxLog.broadcast))) 173).nxtState = .write ∧
      (run withdraw (start (List.replicate 9 (2, RxLog.broadcast))) 173).dmac.ring.rxBdSta = 0xff ∧
      ¬ RingOk (run withdraw (start (List.replicate 9 (2, RxLog.broadcast))) 173)
        (ofRun withdraw (start (List.replicate 9 (2, RxLog.broadcast))) 173) := by
  obtain ⟨hn, hsta, hidx⟩ : (run withdraw (start (List.replicate 9 (2, RxLog.broadcast))) 173).nxtState = .write ∧
      (run withdraw (start (List.replicate 9 (2, RxLog.broadcast))) 173).dmac.ring.rxBdSta = 0xff ∧
      (run withdraw (start (List.replicate 9 (2, RxLog.broadcast))) 173).dmac.ring.rxBdIdx = 0 := by
    decide +kernel
  refine ⟨start_afterReset _, ?_, hn, hsta, fun w => ?_⟩
  · intro t h q _ hsel
    unfold withdraw at hsel
    split_ifs at hsel <;> exact absurd hsel (by decide)
  · have := w.target hn
    rw [hsta, hidx] at this
    exact absurd this (by decide)

end SlotQueue

end Picorv32Soc
