import Picorv32Soc.Eth.FifoInv

/-!
# Whole runs of the frame FIFO

From the power-on state, whatever the edges of the two clocks and the choices of the synchronisers: the words
delivered are the words of the kept frames, in order, and no frame is interrupted on the way out. Where frames
wait for room (`DROP_WHEN_FULL = 0`), only bad frames and frames longer than the memory are not kept. When no
words come in and the output is taken, all of the kept words are delivered after a bounded number of rounds of
both clocks.
-/

namespace Picorv32Soc
open Gray

variable {δ : Type} {a : Nat}

/-- A frame of the log: `tlast` on its last word only; kept if it is good; with `DROP_WHEN_FULL = 0` also only
lost for its length. -/
structure FifoFrame (a : Nat) (dropWhenFull : Bool) (p : List (AxisWord δ) × Bool) (l : List (AxisWord δ)) (w : AxisWord δ) :
    Prop where
  words : p.1 = l ++ [w]
  last : w.tlast = true
  inside : ∀ x ∈ l, x.tlast = false
  good : p.2 = true → w.tuser = false
  kept : dropWhenFull = false → p.2 = false → w.tuser = true ∨ 2 ^ a ≤ l.length

/-- What holds throughout a run. -/
structure FifoOk (dropWhenFull : Bool) (f : AsyncFifo δ a) (g : FifoLog δ) : Prop where
  inv : ∃ k r r1 r2 sy v, FifoInv f g k r r1 r2 sy v
  steady : ∀ w, g.out.getLast? = some w → w.tlast = false → f.m.mAxisTvalid = true
  frames : ∀ p ∈ g.frames, ∃ l w, FifoFrame a dropWhenFull p l w
  dropped : dropWhenFull = false → f.s.dropFrame = true → 2 ^ a ≤ g.cur.length

namespace FifoM
variable {m : FifoM δ a} {g : FifoLog δ} {r v : Nat}

/-- Inside a frame the output stays valid. -/
theorem steady_edge (e : Option Bool) (y : FifoToM a) (mem : BitVec a → AxisWord δ) (h : m.Side g r v)
    (hclear : m.mRstSync3 = true → m.Cleared r v)
    (hsteady : ∀ w, g.out.getLast? = some w → w.tlast = false → m.mAxisTvalid = true) (w : AxisWord δ)
    (hw : (g.out ++ (e.map fun t => AsyncFifo.delivered t m).getD []).getLast? = some w) (hlast : w.tlast = false) :
    (AsyncFifo.stepM e y mem m).mAxisTvalid = true := by
  cases e with
  | none =>
    rw [Option.map_none, Option.getD_none, List.append_nil] at hw
    exact hsteady w hw hlast
  | some tready =>
    change (m.step tready y mem).mAxisTvalid = true
    rw [Option.map_some, Option.getD_some] at hw
    cases hs : m.mRstSync3 with
    | true =>
      have hc := hclear hs
      obtain ⟨-, hdeliver, -⟩ := step_reset tready y mem hs h.toCounts hc
      rw [hdeliver, List.append_nil] at hw
      exact Bool.noConfusion (hc.mAxisTvalid.symm.trans (hsteady w hw hlast))
    | false =>
      rw [step_eq tready y mem hs]
      dsimp only
      rw [AsyncFifo.delivered] at hw
      by_cases hd : (m.mAxisTvalid && tready) = true
      · -- the word leaves, and the next one takes its place
        rw [if_pos hd, List.getLast?_append, List.getLast?_singleton, Option.some_or] at hw
        obtain rfl := Option.some.inj hw
        rw [Bool.and_eq_true] at hd
        rw [storeOutput, hd.2, Bool.true_or, if_pos rfl]
        exact h.outNext hd.1 hlast
      · rw [if_neg hd, List.append_nil] at hw
        have hvalid := hsteady w hw hlast
        rw [hvalid, Bool.true_and, Bool.not_eq_true] at hd
        rw [storeOutput, hd, hvalid, Bool.not_true, Bool.or_false, if_neg Bool.false_ne_true]

end FifoM

namespace FifoS
variable {s : FifoS a} {dropWhenFull : Bool} {i : FifoSIn δ} {g : FifoLog δ} {k r1 r2 sy : Nat}

/-- Where frames wait for room, a word is lost only after the frame has filled the memory. -/
theorem length_of_loses (h : s.Side g k r1 r2 sy) (hk : k ≤ 2 ^ a) (hdrop : s.dropFrame = true → 2 ^ a ≤ g.cur.length)
    (ht : s.takes false i = true) (hl : s.loses = true) : 2 ^ a ≤ g.cur.length := by
  rw [takes, tready, Bool.or_false, Bool.and_eq_true, Bool.and_eq_true, Bool.or_eq_true, Bool.not_eq_true'] at ht
  rw [loses, Bool.or_eq_true, Bool.or_eq_true] at hl
  have hfull : s.fullWr = true → 2 ^ a ≤ g.cur.length := by
    intro hf
    rw [fullWr, apart_comm, h.wrPtr, h.wrPtrCur, apart_ofNat (by omega) (by omega), decide_eq_true_iff] at hf
    have := h.stored.1
    omega
  rcases hl with (hl | hl) | hl
  · rcases ht.1.1 with hcur | hcur
    · exact Bool.noConfusion (hcur.symm.trans hl)
    · exact hfull hcur
  · exact hfull hl
  · exact hdrop hl

theorem commit_dropFrame (d : FifoS a) : d.commit.dropFrame = d.dropFrame := by
  rw [commit]
  dsimp only
  split_ifs <;> rfl

/-- The frames of the log, and the frame that is being dropped, after an edge. -/
theorem frames_edge {x : FifoToS a} (h : s.Side g k r1 r2 sy) (hk : k ≤ 2 ^ a) (hs : s.sRstSync3 = true → s.Cleared g)
    (hframes : ∀ p ∈ g.frames, ∃ l w, FifoFrame a dropWhenFull p l w)
    (hdrop : dropWhenFull = false → s.dropFrame = true → 2 ^ a ≤ g.cur.length) :
    (∀ p ∈ (AsyncFifo.logS dropWhenFull i s g).frames, ∃ l w, FifoFrame a dropWhenFull p l w) ∧
    (dropWhenFull = false → (s.step dropWhenFull i x).dropFrame = true →
      2 ^ a ≤ (AsyncFifo.logS dropWhenFull i s g).cur.length) := by
  have hlost : dropWhenFull = false → s.takes dropWhenFull i = true → s.loses = true → 2 ^ a ≤ g.cur.length := by
    rintro rfl ht hl
    exact length_of_loses h hk (hdrop rfl) ht hl
  have hend : s.takes dropWhenFull i = true → i.word.tlast = true → ∀ p ∈ (AsyncFifo.logS dropWhenFull i s g).frames,
      ∃ l w, FifoFrame a dropWhenFull p l w := by
    intro ht hlast p hp
    rw [AsyncFifo.logS, ht, if_pos rfl, hlast, if_pos rfl] at hp
    rcases List.mem_append.1 hp with hp | hp
    · exact hframes p hp
    · obtain rfl := List.mem_singleton.1 hp
      refine ⟨g.cur, i.word, rfl, hlast, h.inside, fun hg => ?_, fun hd hb => ?_⟩
      · rw [Bool.and_eq_true, Bool.not_eq_true', Bool.not_eq_true'] at hg
        exact hg.2
      · rw [Bool.and_eq_false_iff, Bool.not_eq_false', Bool.not_eq_false'] at hb
        exact hb.symm.imp_right (hlost hd ht)
  cases hr : s.sRstSync3 with
  | true =>
    obtain ⟨ht, hstep⟩ := step_reset dropWhenFull i x hr (hs hr)
    rw [AsyncFifo.logS, ht, if_neg Bool.false_ne_true, hstep]
    exact ⟨hframes, hdrop⟩
  | false =>
    have hsync : s.sync.dropFrame = s.dropFrame := (sync_ptrs s).2.2.2.2.1
    rcases next_cases dropWhenFull i s with ⟨ht, hn⟩ | ⟨ht, hl, hlast, hn⟩ | ⟨ht, hl, hlast, hn⟩ | ⟨ht, hl, hlast, hn⟩ |
      ⟨ht, hl, hlast, hu, hn⟩ | ⟨ht, hl, hlast, hu, hn⟩
    · rw [step_eq dropWhenFull i x hr, hn, AsyncFifo.logS, ht, if_neg Bool.false_ne_true]
      exact ⟨hframes, fun hd hf => hdrop hd (hsync.symm.trans hf)⟩
    · rw [AsyncFifo.logS, ht, if_pos rfl, hlast, if_neg Bool.false_ne_true]
      refine ⟨hframes, fun hd _ => ?_⟩
      rw [List.length_append]
      exact Nat.le_add_right_of_le (hlost hd ht hl)
    · refine ⟨hend ht hlast, fun _ hf => ?_⟩
      rw [step_eq dropWhenFull i x hr, hn] at hf
      exact Bool.noConfusion hf
    · rw [step_eq dropWhenFull i x hr, hn, AsyncFifo.logS, ht, if_pos rfl, hlast, if_neg Bool.false_ne_true]
      exact ⟨hframes, fun _ hf => Bool.noConfusion ((dropFrame_of_not_loses hl).symm.trans (hsync.symm.trans hf))⟩
    · refine ⟨hend ht hlast, fun _ hf => ?_⟩
      rw [step_eq dropWhenFull i x hr, hn] at hf
      exact Bool.noConfusion ((dropFrame_of_not_loses hl).symm.trans (hsync.symm.trans hf))
    · refine ⟨hend ht hlast, fun _ hf => ?_⟩
      rw [step_eq dropWhenFull i x hr, hn] at hf
      exact Bool.noConfusion ((dropFrame_of_not_loses hl).symm.trans (hsync.symm.trans ((commit_dropFrame s.sync.noStatus).symm.trans hf)))

end FifoS

theorem AsyncFifo.logS_out (dropWhenFull : Bool) (i : FifoSIn δ) (s : FifoS a) (g : FifoLog δ) :
    (logS dropWhenFull i s g).out = g.out := by
  rw [logS]
  split_ifs <;> rfl

namespace FifoOk
variable {dropWhenFull : Bool} {f : AsyncFifo δ a} {g : FifoLog δ}

theorem step (ha : 1 ≤ a) (e : FifoEdge δ a) (h : FifoOk dropWhenFull f g) :
    FifoOk dropWhenFull (f.step dropWhenFull e) (AsyncFifo.log dropWhenFull e f g) := by
  obtain ⟨k, r, r1, r2, sy, v, hinv⟩ := h.inv
  obtain ⟨o1, o2, o3, o4, o5, o6⟩ := hinv.order
  have hlog : (AsyncFifo.log dropWhenFull e f g).out = g.out ++ (e.m.map fun t => AsyncFifo.delivered t f.m).getD [] := by
    rw [AsyncFifo.log]
    cases e.s with
    | none => rfl
    | some i => exact congrArg (· ++ _) (AsyncFifo.logS_out dropWhenFull i f.s g)
  refine ⟨hinv.step ha dropWhenFull e, fun w hw hlast => ?_, ?_, ?_⟩
  · rw [hlog] at hw
    exact FifoM.steady_edge e.m _ _ hinv.m hinv.mReset h.steady w hw hlast
  · intro p hp
    rw [AsyncFifo.log] at hp
    cases he : e.s with
    | none => rw [he] at hp; exact h.frames p hp
    | some i =>
      rw [he] at hp
      exact (FifoS.frames_edge (x := f.m.toS) hinv.s (by omega) hinv.sReset h.frames h.dropped).1 p hp
  · rw [AsyncFifo.log, AsyncFifo.step]
    cases e.s with
    | none => exact h.dropped
    | some i => exact (FifoS.frames_edge hinv.s (by omega) hinv.sReset h.frames h.dropped).2

theorem init (dropWhenFull : Bool) (mem : BitVec a → AxisWord δ) (w w' : AxisWord δ) :
    FifoOk dropWhenFull (AsyncFifo.init mem w w') ⟨[], [], []⟩ := by
  have hgray : (0 : BitVec (a + 1)) = gray (BitVec.ofNat (a + 1) 0) := gray_zero.symm
  have hnone : Boundary ([] : List (AxisWord δ)) 0 := fun i hi => absurd hi (by omega)
  refine ⟨⟨0, 0, 0, 0, 0, 0,
    { s := ⟨⟨⟨rfl, hgray, rfl, hgray, hgray⟩, rfl, hgray, hgray⟩, Nat.le_refl _, fun _ => rfl, hnone, hnone,
        ⟨Nat.le_refl _, fun _ => rfl⟩, List.forall_mem_nil _⟩
      m := ⟨⟨rfl, hgray, rfl, hgray⟩, hnone, rfl, nofun, nofun⟩
      order := ⟨Nat.le_refl _, Nat.le_refl _, Nat.le_refl _, Nat.le_refl _, Nat.le_refl _, Nat.zero_le _⟩
      chain := ⟨fun h => absurd rfl h, fun h => absurd rfl h, fun h => absurd rfl h, fun h => absurd rfl h⟩
      synced := fun _ => rfl
      mem := fun j w _ hj => absurd hj (Nat.not_lt_zero j)
      reset := ⟨nofun, nofun, nofun, nofun⟩
      sReset := fun _ => ⟨rfl, rfl, rfl, rfl, rfl, rfl, rfl⟩
      mReset := fun _ => ⟨rfl, rfl, rfl, rfl, rfl, rfl, rfl⟩ }⟩, nofun, List.forall_mem_nil _, nofun⟩

theorem run (ha : 1 ≤ a) (es : List (FifoEdge δ a)) (h : FifoOk dropWhenFull f g) :
    FifoOk dropWhenFull (AsyncFifo.run dropWhenFull es f g).1 (AsyncFifo.run dropWhenFull es f g).2 :=
  Rounds.keeps_after (I := fun x : AsyncFifo δ a × FifoLog δ => FifoOk dropWhenFull x.1 x.2) (fun e _ h => h.step ha e) es h

end FifoOk

/-! ### Everything comes out -/

/-- The registers of the handshake. -/
structure Handshake where
  valid : Bool
  u : Bool
  u1 : Bool
  u2 : Bool
  u3 : Bool
  a1 : Bool
  a2 : Bool

/-- The two clocks. -/
inductive FifoClk
  | s
  | m

namespace Handshake

/-- An edge of `s_clk`, of `m_clk` or of both, without a new frame; `oldU` and `oldU3` tell what the synchronisers take. -/
def step (s m oldU oldU3 : Bool) (h : Handshake) : Handshake :=
  let starts := s && h.valid && h.u == h.a2
  let u := if starts then !h.a2 else h.u
  let u3 := if m then h.u2 else h.u3
  { valid := if starts then false else h.valid
    u := u
    u1 := if m then if oldU then h.u else u else h.u1
    u2 := if m then h.u1 else h.u2
    u3 := u3
    a1 := if s then if oldU3 then h.u3 else u3 else h.a1
    a2 := if s then h.a1 else h.a2 }

def Chain (h : Handshake) : Prop := FifoChain h.u h.u1 h.u2 h.u3 h.a1 h.a2

/-- How far the toggle has to go, and once more if another one waits. -/
def rank (h : Handshake) : Nat :=
  6 * h.valid.toNat + (h.u1 != h.u).toNat + (h.u2 != h.u).toNat + (h.u3 != h.u).toNat + (h.a1 != h.u).toNat + (h.a2 != h.u).toNat

/-- The clock that moves the toggle on. -/
def waits (n : Nat) : FifoClk := if n % 6 < 3 then .s else .m

theorem rank_le (h : Handshake) : h.rank ≤ 11 := by
  have : ∀ b : Bool, b.toNat ≤ 1 := Bool.toNat_le
  have h0 := this h.valid
  have h1 := this (h.u1 != h.u)
  have h2 := this (h.u2 != h.u)
  have h3 := this (h.u3 != h.u)
  have h4 := this (h.a1 != h.u)
  have h5 := this (h.a2 != h.u)
  rw [rank]
  omega

theorem of_rank_eq_zero {h : Handshake} (hz : h.rank = 0) : h.valid = false ∧ h.u3 = h.u := by
  rw [rank] at hz
  refine ⟨Bool.toNat_eq_zero.1 (by omega), ?_⟩
  have := Bool.toNat_eq_zero.1 (show (h.u3 != h.u).toNat = 0 by omega)
  exact bne_eq_false_iff_eq.1 this

theorem rank_step (s m oldU oldU3 : Bool) (h : Handshake) (hc : h.Chain) :
    (h.step s m oldU oldU3).rank ≤ h.rank ∧
    (0 < h.rank → (match waits h.rank with | .s => s | .m => m) = true → (h.step s m oldU oldU3).rank < h.rank) := by
  obtain ⟨valid, u, u1, u2, u3, a1, a2⟩ := h
  obtain ⟨h1, h2, h3, h4⟩ := hc
  revert s m oldU oldU3 valid u u1 u2 u3 a1 a2
  decide +kernel

end Handshake

namespace FifoEdge

def turn (c : FifoClk) (e : FifoEdge δ a) : Prop := match c with | .s => e.s.isSome = true | .m => e.m.isSome = true

/-- No word comes in, and the output is taken. -/
def Quiet (e : FifoEdge δ a) : Prop := (∀ i, e.s = some i → i.tvalid = false) ∧ ∀ t, e.m = some t → t = true

end FifoEdge

namespace AsyncFifo
variable {dropWhenFull : Bool} {f : AsyncFifo δ a} {g : FifoLog δ} {e : FifoEdge δ a}

def handshake (f : AsyncFifo δ a) : Handshake :=
  ⟨f.s.wrPtrUpdateValid, f.s.wrPtrUpdate, f.m.wrPtrUpdateSync1, f.m.wrPtrUpdateSync2, f.m.wrPtrUpdateSync3,
    f.s.wrPtrUpdateAckSync1, f.s.wrPtrUpdateAckSync2⟩

/-- The words that have not been read, and the stages the others have before them. -/
def rank (x : AsyncFifo δ a × FifoLog δ) : Nat :=
  3 * (x.2.good.length - (x.2.out.length + x.1.m.held.length)) + 2 * x.1.m.memReadDataValid.toNat + x.1.m.mAxisTvalid.toNat

/-- The invariant of the quiet time. -/
structure Running (dropWhenFull : Bool) (x : AsyncFifo δ a × FifoLog δ) : Prop extends FifoOk dropWhenFull x.1 x.2 where
  s : x.1.s.sRstSync3 = false
  m : x.1.m.mRstSync3 = false

theorem takes_quiet {i : FifoSIn δ} {s : FifoS a} (hi : i.tvalid = false) : s.takes dropWhenFull i = false := by
  rw [FifoS.takes, hi, Bool.and_false]

theorem stepS_quiet (dropWhenFull : Bool) (hs : f.s.sRstSync3 = false) (hq : e.Quiet) (x : FifoToS a) :
    (stepS dropWhenFull e.s x f.s).wrPtrUpdate =
      (if e.s.isSome && f.s.wrPtrUpdateValid && f.s.wrPtrUpdate == f.s.wrPtrUpdateAckSync2 then !f.s.wrPtrUpdateAckSync2
        else f.s.wrPtrUpdate) ∧
    (stepS dropWhenFull e.s x f.s).wrPtrUpdateValid =
      (if e.s.isSome && f.s.wrPtrUpdateValid && f.s.wrPtrUpdate == f.s.wrPtrUpdateAckSync2 then false
        else f.s.wrPtrUpdateValid) ∧
    (stepS dropWhenFull e.s x f.s).wrPtrUpdateAckSync1 = (if e.s.isSome then x.wrPtrUpdateSync3 else f.s.wrPtrUpdateAckSync1) ∧
    (stepS dropWhenFull e.s x f.s).wrPtrUpdateAckSync2 =
      (if e.s.isSome then f.s.wrPtrUpdateAckSync1 else f.s.wrPtrUpdateAckSync2) := by
  cases he : e.s with
  | none => exact ⟨rfl, rfl, rfl, rfl⟩
  | some i =>
    change (f.s.step dropWhenFull i x).wrPtrUpdate = _ ∧ (f.s.step dropWhenFull i x).wrPtrUpdateValid = _ ∧
      (f.s.step dropWhenFull i x).wrPtrUpdateAckSync1 = _ ∧ (f.s.step dropWhenFull i x).wrPtrUpdateAckSync2 = _
    have hnext : f.s.next dropWhenFull i = f.s.sync.noStatus := by
      rw [FifoS.next, takes_quiet (hq.1 i he), if_neg Bool.false_ne_true]
    rw [FifoS.step_eq dropWhenFull i x hs, hnext, FifoS.sync, Option.isSome_some, Bool.true_and]
    refine ⟨?_, ?_, rfl, rfl⟩ <;>
    cases f.s.wrPtrUpdateValid && f.s.wrPtrUpdate == f.s.wrPtrUpdateAckSync2 <;> rfl

theorem stepM_syncs (hm : f.m.mRstSync3 = false) (y : FifoToM a) (mem : BitVec a → AxisWord δ) :
    (stepM e.m y mem f.m).wrPtrUpdateSync1 = (if e.m.isSome then y.wrPtrUpdate else f.m.wrPtrUpdateSync1) ∧
    (stepM e.m y mem f.m).wrPtrUpdateSync2 = (if e.m.isSome then f.m.wrPtrUpdateSync1 else f.m.wrPtrUpdateSync2) ∧
    (stepM e.m y mem f.m).wrPtrUpdateSync3 = (if e.m.isSome then f.m.wrPtrUpdateSync2 else f.m.wrPtrUpdateSync3) := by
  cases e.m with
  | none => exact ⟨rfl, rfl, rfl⟩
  | some tready =>
    change (f.m.step tready y mem).wrPtrUpdateSync1 = _ ∧ (f.m.step tready y mem).wrPtrUpdateSync2 = _ ∧
      (f.m.step tready y mem).wrPtrUpdateSync3 = _
    rw [FifoM.step_eq tready y mem hm]
    exact ⟨rfl, rfl, rfl⟩

theorem handshake_step (hs : f.s.sRstSync3 = false) (hm : f.m.mRstSync3 = false) (hq : e.Quiet) :
    (f.step dropWhenFull e).handshake =
      f.handshake.step e.s.isSome e.m.isSome e.sel.wrPtrUpdate e.sel.wrPtrUpdateSync3 := by
  obtain ⟨hu, hv, h1, h2⟩ := stepS_quiet dropWhenFull hs hq
    (pickToS e.sel f.m.toS (stepM e.m f.s.toM f.mem f.m).toS)
  obtain ⟨m1, m2, m3⟩ := stepM_syncs (e := e) hm (pickToM e.sel f.s.toM (stepS dropWhenFull e.s f.m.toS f.s).toM)
    (if e.sel.mem then f.mem else (e.s.map fun i => f.s.store dropWhenFull i f.mem).getD f.mem)
  have hpickM : (pickToM e.sel f.s.toM (stepS dropWhenFull e.s f.m.toS f.s).toM).wrPtrUpdate =
      if e.sel.wrPtrUpdate then f.s.wrPtrUpdate else (stepS dropWhenFull e.s f.m.toS f.s).wrPtrUpdate := rfl
  have hpickS : (pickToS e.sel f.m.toS (stepM e.m f.s.toM f.mem f.m).toS).wrPtrUpdateSync3 =
      if e.sel.wrPtrUpdateSync3 then f.m.wrPtrUpdateSync3 else (stepM e.m f.s.toM f.mem f.m).wrPtrUpdateSync3 := rfl
  rw [hpickM, (stepS_quiet dropWhenFull hs hq f.m.toS).1] at m1
  rw [hpickS, (stepM_syncs hm f.s.toM f.mem).2.2] at h1
  rw [handshake, step, hu, hv, h1, h2, m1, m2, m3]
  rfl

theorem rank_handshake (ha : 1 ≤ a) {x : AsyncFifo δ a × FifoLog δ} (hq : e.Quiet) (h : Running dropWhenFull x) :
    Running dropWhenFull (next dropWhenFull e x) ∧
    (next dropWhenFull e x).1.handshake.rank ≤ x.1.handshake.rank ∧
    (0 < x.1.handshake.rank → e.turn (Handshake.waits x.1.handshake.rank) →
      (next dropWhenFull e x).1.handshake.rank < x.1.handshake.rank) := by
  obtain ⟨k, r, r1, r2, sy, v, hinv⟩ := h.inv
  rw [next]
  refine ⟨⟨h.toFifoOk.step ha e, ?_, ?_⟩, ?_⟩
  · rw [step]
    cases e.s with
    | none => exact h.s
    | some i =>
      change (x.1.s.step dropWhenFull i _).sRstSync3 = false
      rw [FifoS.step_eq dropWhenFull i _ h.s]
      exact hinv.reset.s3 h.s
  · rw [step]
    cases e.m with
    | none => exact h.m
    | some tready =>
      change (x.1.m.step tready _ _).mRstSync3 = false
      rw [FifoM.step_eq tready _ _ h.m]
      exact hinv.reset.m3 h.m
  · rw [handshake_step h.s h.m hq]
    obtain ⟨hle, hlt⟩ := Handshake.rank_step e.s.isSome e.m.isSome e.sel.wrPtrUpdate e.sel.wrPtrUpdateSync3 x.1.handshake hinv.chain
    refine ⟨hle, fun hpos hturn => hlt hpos ?_⟩
    cases hw : Handshake.waits x.1.handshake.rank with
    | s => rw [hw] at hturn; exact hturn
    | m => rw [hw] at hturn; exact hturn

/-- Nothing new is logged at the input. -/
theorem log_quiet (hq : e.Quiet) (f : AsyncFifo δ a) (g : FifoLog δ) :
    log dropWhenFull e f g = { g with out := g.out ++ (e.m.map fun t => delivered t f.m).getD [] } := by
  rw [log]
  cases he : e.s with
  | none => rfl
  | some i =>
    have : logS dropWhenFull i f.s g = g := by rw [logS, takes_quiet (hq.1 i he), if_neg Bool.false_ne_true]
    rw [Option.map_some, Option.getD_some, this]

/-- With the handshake at rest, every edge of `m_clk` brings the words on. -/
theorem rank_words {x : AsyncFifo δ a × FifoLog δ} (hq : e.Quiet) (h : Running dropWhenFull x) (hz : x.1.handshake.rank = 0) :
    rank (next dropWhenFull e x) ≤ rank x ∧
    (0 < rank x → e.turn .m → rank (next dropWhenFull e x) < rank x) := by
  obtain ⟨k, r, r1, r2, sy, v, hinv⟩ := h.inv
  obtain ⟨o1, o2, o3, o4, o5, o6⟩ := hinv.order
  obtain ⟨hvalid, hu⟩ := Handshake.of_rank_eq_zero hz
  have hv : v = x.2.good.length := (hinv.synced hu).trans (hinv.s.pending hvalid)
  have hr := congrArg List.length hinv.m.out
  rw [List.length_append, List.length_take, Nat.min_eq_left (by omega)] at hr
  rw [next, log_quiet hq, rank, rank, step, FifoEdge.turn]
  cases he : e.m with
  | none =>
    rw [Option.map_none, Option.getD_none, List.append_nil]
    exact ⟨Nat.le_refl _, fun _ hturn => Bool.noConfusion hturn⟩
  | some tready =>
    obtain rfl := hq.2 tready he
    dsimp only [stepM, Option.map_some, Option.getD_some]
    generalize pickToM e.sel x.1.s.toM (stepS dropWhenFull e.s x.1.m.toS x.1.s).toM = y
    generalize (if e.sel.mem then x.1.mem else (e.s.map fun i => x.1.s.store dropWhenFull i x.1.mem).getD x.1.mem) = mem
    have hempty : (!x.1.m.empty) = decide (r < v) := by
      rw [FifoM.empty_eq hinv.m.toCounts o3 (by omega), ← decide_not]
      exact decide_eq_decide.2 (by omega)
    have hread : x.1.m.read true = decide (r < v) := by
      rw [FifoM.read, FifoM.storeOutput, Bool.true_or, Bool.true_or, Bool.true_and, hempty]
    have hheld := congrArg List.length (FifoM.held_step true y mem h.m)
    rw [List.length_append, List.length_append, hread] at hheld
    have hnext : (x.1.m.step true y mem).memReadDataValid = decide (r < v) ∧
        (x.1.m.step true y mem).mAxisTvalid = x.1.m.memReadDataValid := by
      rw [FifoM.step_eq true y mem h.m]
      exact ⟨hempty, rfl⟩
    have hgood : (FifoLog.good { x.2 with out := x.2.out ++ delivered true x.1.m }).length = v := hv.symm
    rw [hnext.1, hnext.2, List.length_append, hgood, ← hv]
    by_cases hlt : r < v
    · rw [decide_eq_true hlt, if_pos rfl, List.length_singleton] at hheld
      rw [decide_eq_true hlt, Bool.toNat_true]
      omega
    · rw [decide_eq_false hlt, if_neg Bool.false_ne_true, List.length_nil] at hheld
      rw [decide_eq_false hlt, Bool.toNat_false]
      omega

end AsyncFifo

namespace FifoOk
open AsyncFifo Rounds

variable {dropWhenFull : Bool} {f : AsyncFifo δ a} {g : FifoLog δ}

/-- First the handshake comes to rest, which tells the read side of all the words; then these come out. -/
theorem drains (ha : 1 ≤ a) (h : FifoOk dropWhenFull f g) (hs : f.s.sRstSync3 = false) (hm : f.m.mRstSync3 = false)
    (rounds : List (List (FifoEdge δ a))) (hround : ∀ es ∈ rounds, Round FifoEdge.turn es ∧ ∀ e ∈ es, e.Quiet)
    (hn : 3 * 2 ^ a + 14 ≤ rounds.length) :
    (AsyncFifo.run dropWhenFull rounds.flatten f g).2.out = g.good := by
  have hgood : ∀ (e : FifoEdge δ a) (x : AsyncFifo δ a × FifoLog δ), e.Quiet → x.2.good = g.good →
      (next dropWhenFull e x).2.good = g.good := by
    intro e x hq hx
    rw [next, log_quiet hq]
    exact hx
  have hpart : ∀ {l}, l ⊆ rounds → ∀ es ∈ l, Round FifoEdge.turn es ∧ ∀ e ∈ es, e.Quiet := fun hl es hes => hround es (hl hes)
  have hrest : ∀ e x, e.Quiet → Running dropWhenFull x ∧ x.2.good = g.good →
      Running dropWhenFull (next dropWhenFull e x) ∧ (next dropWhenFull e x).2.good = g.good :=
    fun e x hq hx => ⟨(rank_handshake ha hq hx.1).1, hgood e x hq hx.2⟩
  have hstart : Running dropWhenFull (f, g) ∧ (f, g).2.good = g.good := ⟨⟨h, hs, hm⟩, rfl⟩
  have hlen : f.handshake.rank ≤ (rounds.take 11).length := by
    rw [List.length_take, Nat.min_eq_left (by omega)]
    exact Handshake.rank_le _
  rw [AsyncFifo.run, ← List.take_append_drop 11 rounds, List.flatten_append, after_append]
  obtain ⟨⟨hrun, hg⟩, hz⟩ := rank_eq_zero (next dropWhenFull) (fun x => Running dropWhenFull x ∧ x.2.good = g.good)
    (fun x => x.1.handshake.rank) Handshake.waits hrest (fun e x hq hx => (rank_handshake ha hq hx.1).2.1)
    (fun e x hq hx => (rank_handshake ha hq hx.1).2.2) (rounds.take 11) (hpart (List.take_subset 11 rounds)) hstart hlen
  generalize after (next dropWhenFull) (rounds.take 11).flatten (f, g) = x at hrun hg hz
  obtain ⟨k, r, r1, r2, sy, v, hinv⟩ := hrun.inv
  have hlen' : rank x ≤ (rounds.drop 11).length := by
    have hr := congrArg List.length hinv.m.out
    have ho := hinv.order
    rw [List.length_append, List.length_take, Nat.min_eq_left (by omega)] at hr
    have h1 := Bool.toNat_le x.1.m.memReadDataValid
    have h2 := Bool.toNat_le x.1.m.mAxisTvalid
    rw [rank, List.length_drop]
    omega
  obtain ⟨⟨⟨hrun, hg⟩, hz⟩, hempty⟩ := rank_eq_zero (next dropWhenFull)
    (fun x => (Running dropWhenFull x ∧ x.2.good = g.good) ∧ x.1.handshake.rank = 0) rank (fun _ => .m)
    (fun e x hq hx => ⟨hrest e x hq hx.1, Nat.le_zero.1 (hx.2 ▸ (rank_handshake ha hq hx.1.1).2.1)⟩)
    (fun e x hq hx => (rank_words hq hx.1.1 hx.2).1) (fun e x hq hx => (rank_words hq hx.1.1 hx.2).2) (rounds.drop 11)
    (hpart (List.drop_subset 11 rounds)) ⟨⟨hrun, hg⟩, hz⟩ hlen'
  generalize after (next dropWhenFull) (rounds.drop 11).flatten x = x at hrun hg hz hempty
  -- nothing is left on the way
  obtain ⟨k, r, r1, r2, sy, v, hinv⟩ := hrun.inv
  have ho := hinv.order
  rw [rank] at hempty
  have h1 : x.1.m.memReadDataValid = false := Bool.toNat_eq_zero.1 (by omega)
  have h2 : x.1.m.mAxisTvalid = false := Bool.toNat_eq_zero.1 (by omega)
  have hheld : x.1.m.held = [] := by rw [FifoM.held, h1, h2]; rfl
  have hout := hinv.m.out
  rw [hheld, List.append_nil] at hout
  rw [hout, ← hg, List.take_of_length_le]
  rw [hheld, hout, List.length_take, Nat.min_eq_left (by omega), List.length_nil] at hempty
  omega

end FifoOk

/-! ### From power-on -/

/-- The FIFO and its log after the edges `es` from power-on. -/
def AsyncFifo.fromReset (dropWhenFull : Bool) (mem : BitVec a → AxisWord δ) (w w' : AxisWord δ) (es : List (FifoEdge δ a)) :
    AsyncFifo δ a × FifoLog δ :=
  run dropWhenFull es (init mem w w') ⟨[], [], []⟩

/-- What has been delivered, with the words that are on the way out, are the first words of the kept frames; and
after a word that is not the last one of its frame the output is valid. -/
structure AsyncFifo.Delivers (x : AsyncFifo δ a × FifoLog δ) : Prop where
  words : x.2.out ++ x.1.m.held <+: x.2.good
  steady : ∀ y, x.2.out.getLast? = some y → y.tlast = false → x.1.m.mAxisTvalid = true

section
-- the module takes the bits `[ADDR_WIDTH-2:0]` of its pointers, so `ADDR_WIDTH` is 2 or more
variable (ha : 2 ≤ a) (dropWhenFull : Bool) (mem : BitVec a → AxisWord δ) (w w' : AxisWord δ) (es : List (FifoEdge δ a))
include ha

theorem fifoOk_fromReset : FifoOk dropWhenFull (AsyncFifo.fromReset dropWhenFull mem w w' es).1
    (AsyncFifo.fromReset dropWhenFull mem w w' es).2 :=
  (FifoOk.init dropWhenFull mem w w').run (Nat.le_of_succ_le ha) es

theorem async_fifo_delivers : AsyncFifo.Delivers (AsyncFifo.fromReset dropWhenFull mem w w' es) := by
  have h := fifoOk_fromReset ha dropWhenFull mem w w' es
  obtain ⟨k, r, r1, r2, sy, v, hinv⟩ := h.inv
  exact ⟨hinv.m.out ▸ List.take_prefix r _, h.steady⟩

/-- With `DROP_WHEN_FULL = 0` a frame that fits into the memory is kept, unless it is marked as bad. -/
theorem async_fifo_keeps (p : List (AxisWord δ) × Bool) (hp : p ∈ (AsyncFifo.fromReset false mem w w' es).2.frames)
    (hlen : p.1.length ≤ 2 ^ a) : p.2 = true ↔ ∃ y, p.1.getLast? = some y ∧ y.tuser = false := by
  obtain ⟨l, y, hf⟩ := (fifoOk_fromReset ha false mem w w' es).frames p hp
  rw [hf.words, List.length_append, List.length_singleton] at hlen
  have hlast : p.1.getLast? = some y := by rw [hf.words, List.getLast?_append, List.getLast?_singleton, Option.some_or]
  constructor
  · intro hg
    exact ⟨y, hlast, hf.good hg⟩
  · rintro ⟨y', hy', huser⟩
    obtain rfl : y = y' := Option.some.inj (hlast.symm.trans hy')
    by_contra hb
    rcases hf.kept rfl (Bool.not_eq_true _ ▸ hb) with hbad | hlong
    · exact Bool.noConfusion (huser.symm.trans hbad)
    · omega

/-- After the reset of both sides, all kept words come out within `3 * 2 ^ a + 14` rounds of both clocks in which the
output is taken and no word comes in. -/
theorem async_fifo_drains (hs : (AsyncFifo.fromReset dropWhenFull mem w w' es).1.s.sRstSync3 = false)
    (hm : (AsyncFifo.fromReset dropWhenFull mem w w' es).1.m.mRstSync3 = false) (rounds : List (List (FifoEdge δ a)))
    (hround : ∀ es ∈ rounds, Rounds.Round FifoEdge.turn es ∧ ∀ e ∈ es, e.Quiet) (hn : 3 * 2 ^ a + 14 ≤ rounds.length) :
    (AsyncFifo.fromReset dropWhenFull mem w w' (es ++ rounds.flatten)).2.out =
      (AsyncFifo.fromReset dropWhenFull mem w w' es).2.good := by
  have h := (fifoOk_fromReset ha dropWhenFull mem w w' es).drains (Nat.le_of_succ_le ha) hs hm rounds hround hn
  rw [AsyncFifo.fromReset, AsyncFifo.run, Rounds.after_append]
  exact h

end

/-- A FIFO of four words: an edge of both clocks. -/
def bothEdges (i : FifoSIn Nat) : FifoEdge Nat 2 := ⟨some i, some true, ⟨0, false, false, 0, false, false, false⟩⟩

def noWord : FifoSIn Nat := ⟨⟨0, false, false⟩, false⟩

/-- The reset, and a frame of two words. -/
def twoWords : List (FifoEdge Nat 2) :=
  List.replicate 4 (bothEdges noWord) ++ [bothEdges ⟨⟨1, false, false⟩, true⟩, bothEdges ⟨⟨2, true, false⟩, true⟩]

theorem quiet_noWord : Rounds.Round FifoEdge.turn [bothEdges noWord] ∧ ∀ e ∈ [bothEdges noWord], e.Quiet := by
  refine ⟨fun c => ⟨_, List.mem_singleton_self _, by cases c <;> rfl⟩, fun e he => ?_⟩
  obtain rfl := List.mem_singleton.1 he
  exact ⟨fun i hi => by obtain rfl := Option.some.inj hi; rfl, fun t ht => by obtain rfl := Option.some.inj ht; rfl⟩

theorem async_fifo_delivers_two :
    (AsyncFifo.fromReset true (fun _ => ⟨0, false, false⟩) ⟨0, false, false⟩ ⟨0, false, false⟩
      (twoWords ++ List.replicate 5 (bothEdges noWord))).2.out = [⟨1, false, false⟩] ∧
    AsyncFifo.Delivers (AsyncFifo.fromReset true (fun _ => ⟨0, false, false⟩) ⟨0, false, false⟩ ⟨0, false, false⟩
      (twoWords ++ List.replicate 5 (bothEdges noWord))) :=
  ⟨by decide +kernel, async_fifo_delivers (by decide) _ _ _ _ _⟩

theorem async_fifo_keeps_two :
    (AsyncFifo.fromReset false (fun _ => ⟨0, false, false⟩) ⟨0, false, false⟩ ⟨0, false, false⟩ twoWords).2.frames =
      [([⟨1, false, false⟩, ⟨2, true, false⟩], true)] ∧
    ∀ p ∈ (AsyncFifo.fromReset false (fun _ => ⟨0, false, false⟩) ⟨0, false, false⟩ ⟨0, false, false⟩ twoWords).2.frames,
      p.2 = true ↔ ∃ y, p.1.getLast? = some y ∧ y.tuser = false :=
  have hframes : (AsyncFifo.fromReset false (fun _ => ⟨0, false, false⟩) ⟨0, false, false⟩ ⟨0, false, false⟩ twoWords).2.frames =
      [([⟨1, false, false⟩, ⟨2, true, false⟩], true)] := by decide
  ⟨hframes, fun p hp => async_fifo_keeps (by decide) _ _ _ twoWords p hp
    (by rw [hframes] at hp; obtain rfl := List.mem_singleton.1 hp; decide)⟩

theorem async_fifo_drains_two :
    (AsyncFifo.fromReset false (fun _ => ⟨0, false, false⟩) ⟨0, false, false⟩ ⟨0, false, false⟩
      (twoWords ++ (List.replicate 26 [bothEdges noWord]).flatten)).2.out = [⟨1, false, false⟩, ⟨2, true, false⟩] :=
  (async_fifo_drains (by decide) false _ _ _ twoWords (by decide) (by decide) (List.replicate 26 [bothEdges noWord])
    (fun es hes => (List.eq_of_mem_replicate hes) ▸ quiet_noWord) (by decide)).trans (by decide)

end Picorv32Soc
