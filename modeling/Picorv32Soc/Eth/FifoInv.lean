import Picorv32Soc.Eth.AsyncFifo

/-!
# The invariant of the frame FIFO

The pointers are counts of words: `r` were read, the frames that were kept have `n` words, and `k` words of the
frame that is coming in are stored behind them. The other side knows older values of these counts. All of
them are in one order (`FifoInv.order`), which is what keeps a stored word until it is read, and
reading always stops at the end of a frame.
-/

namespace Picorv32Soc
open Gray

variable {δ : Type} {a : Nat}

/-- The counts of the write side. -/
structure FifoS.Ptrs (s : FifoS a) (n c sy : Nat) : Prop where
  wrPtr : s.wrPtr = BitVec.ofNat (a + 1) n
  wrPtrGray : s.wrPtrGray = gray (BitVec.ofNat (a + 1) n)
  wrPtrCur : s.wrPtrCur = BitVec.ofNat (a + 1) c
  wrPtrCurGray : s.wrPtrCurGray = gray (BitVec.ofNat (a + 1) c)
  wrPtrSyncGray : s.wrPtrSyncGray = gray (BitVec.ofNat (a + 1) sy)

/-- Counts as the write side has them, with what it knows of the other one. -/
structure FifoS.Counts (s : FifoS a) (n c r1 r2 sy : Nat) : Prop extends s.Ptrs n c sy where
  wrAddr : s.wrAddr = BitVec.ofNat (a + 1) c
  rdPtrGraySync1 : s.rdPtrGraySync1 = gray (BitVec.ofNat (a + 1) r1)
  rdPtrGraySync2 : s.rdPtrGraySync2 = gray (BitVec.ofNat (a + 1) r2)

/-- Counts as the read side has them. -/
structure FifoM.Counts (m : FifoM δ a) (r v : Nat) : Prop where
  rdPtr : m.rdPtr = BitVec.ofNat (a + 1) r
  rdPtrGray : m.rdPtrGray = gray (BitVec.ofNat (a + 1) r)
  rdAddr : m.rdAddr = BitVec.ofNat (a + 1) r
  wrPtrGraySync1 : m.wrPtrGraySync1 = gray (BitVec.ofNat (a + 1) v)

/-- A toggle goes round through the synchronisers, at most one change at a time. -/
structure FifoChain (u u1 u2 u3 a1 a2 : Bool) : Prop where
  sync1 : u1 ≠ u → u2 = u1
  sync2 : u2 ≠ u → u3 = u2
  sync3 : u3 ≠ u → a1 = u3
  ack1 : a1 ≠ u → a2 = a1

/-- The first `n` words end with a frame. -/
def Boundary (l : List (AxisWord δ)) (n : Nat) : Prop := ∀ i, i + 1 = n → ∃ w, l[i]? = some w ∧ w.tlast = true

theorem Boundary.append {l : List (AxisWord δ)} {n : Nat} (h : Boundary l n) (l' : List (AxisWord δ)) : Boundary (l ++ l') n := by
  intro i hi
  obtain ⟨w, hw, hlast⟩ := h i hi
  refine ⟨w, ?_, hlast⟩
  rw [List.getElem?_append_left (List.getElem?_eq_some_iff.1 hw).1]
  exact hw

theorem boundary_append_singleton (l : List (AxisWord δ)) {w : AxisWord δ} (hw : w.tlast = true) :
    Boundary (l ++ [w]) (l ++ [w]).length := by
  intro i hi
  rw [List.length_append, List.length_singleton] at hi
  obtain rfl : i = l.length := by omega
  exact ⟨w, by simp, hw⟩

/-- The memory holds the words of `l` from `r` to before `c`. -/
def FifoHolds (mem : BitVec a → AxisWord δ) (l : List (AxisWord δ)) (r c : Nat) : Prop :=
  ∀ j w, r ≤ j → j < c → l[j]? = some w → mem (BitVec.ofNat a j) = w

/-- The write side: `k` words of the frame that is coming in are stored, and `sy` was sent last. -/
structure FifoS.Side (s : FifoS a) (g : FifoLog δ) (k r1 r2 sy : Nat) : Prop
    extends s.Counts g.good.length (g.good.length + k) r1 r2 sy where
  sy_le : sy ≤ g.good.length
  pending : s.wrPtrUpdateValid = false → sy = g.good.length
  whole : Boundary g.good g.good.length
  syWhole : Boundary g.good sy
  stored : k ≤ g.cur.length ∧ (s.dropFrame = false → k = g.cur.length)
  inside : ∀ w ∈ g.cur, w.tlast = false

/-- The words that have been read and not delivered. -/
def FifoM.held (m : FifoM δ a) : List (AxisWord δ) :=
  (if m.mAxisTvalid then [m.mAxis] else []) ++ if m.memReadDataValid then [m.memReadData] else []

/-- The read side. A word that is not the last one of its frame always has the next one behind it. -/
structure FifoM.Side (m : FifoM δ a) (g : FifoLog δ) (r v : Nat) : Prop extends m.Counts r v where
  vWhole : Boundary g.good v
  out : g.out ++ m.held = g.good.take r
  memNext : m.memReadDataValid = true → m.memReadData.tlast = false → r < v
  outNext : m.mAxisTvalid = true → m.mAxis.tlast = false → m.memReadDataValid = true

/-- The resets of both sides end one after the other. -/
structure FifoReset (s1 s2 s3 m1 m2 m3 : Bool) : Prop where
  s3 : s3 = false → s2 = false
  s2 : s2 = false → s1 = false ∧ m1 = false
  m3 : m3 = false → m2 = false
  m2 : m2 = false → s1 = false ∧ m1 = false

/-- The write side in reset. -/
structure FifoS.Cleared (s : FifoS a) (g : FifoLog δ) : Prop where
  good : g.good = []
  cur : g.cur = []
  wrPtrUpdate : s.wrPtrUpdate = false
  wrPtrUpdateAckSync1 : s.wrPtrUpdateAckSync1 = false
  wrPtrUpdateAckSync2 : s.wrPtrUpdateAckSync2 = false
  wrPtrUpdateValid : s.wrPtrUpdateValid = false
  dropFrame : s.dropFrame = false

/-- The read side in reset. -/
structure FifoM.Cleared (m : FifoM δ a) (r v : Nat) : Prop where
  r : r = 0
  v : v = 0
  wrPtrUpdateSync1 : m.wrPtrUpdateSync1 = false
  wrPtrUpdateSync2 : m.wrPtrUpdateSync2 = false
  wrPtrUpdateSync3 : m.wrPtrUpdateSync3 = false
  memReadDataValid : m.memReadDataValid = false
  mAxisTvalid : m.mAxisTvalid = false

structure FifoInv (f : AsyncFifo δ a) (g : FifoLog δ) (k r r1 r2 sy v : Nat) : Prop where
  s : f.s.Side g k r1 r2 sy
  m : f.m.Side g r v
  order : r2 ≤ r1 ∧ r1 ≤ r ∧ r ≤ v ∧ v ≤ sy ∧ sy ≤ g.good.length ∧ g.good.length + k ≤ r2 + 2 ^ a
  chain : FifoChain f.s.wrPtrUpdate f.m.wrPtrUpdateSync1 f.m.wrPtrUpdateSync2 f.m.wrPtrUpdateSync3 f.s.wrPtrUpdateAckSync1
    f.s.wrPtrUpdateAckSync2
  synced : f.m.wrPtrUpdateSync3 = f.s.wrPtrUpdate → v = sy
  mem : FifoHolds f.mem (g.good ++ g.cur) r (g.good.length + k)
  reset : FifoReset f.s.sRstSync1 f.s.sRstSync2 f.s.sRstSync3 f.m.mRstSync1 f.m.mRstSync2 f.m.mRstSync3
  sReset : f.s.sRstSync3 = true → f.s.Cleared g
  mReset : f.m.mRstSync3 = true → f.m.Cleared r v

/-! ### An edge of the write side -/

namespace FifoS
variable {s : FifoS a} {dropWhenFull : Bool} {i : FifoSIn δ} {n c r1 r2 sy : Nat}

/-- What an input word does. -/
theorem next_cases (dropWhenFull : Bool) (i : FifoSIn δ) (s : FifoS a) :
    (s.takes dropWhenFull i = false ∧ s.next dropWhenFull i = s.sync.noStatus) ∨
    (s.takes dropWhenFull i = true ∧ s.loses = true ∧ i.word.tlast = false ∧
      s.next dropWhenFull i = { s.sync.noStatus with dropFrame := true }) ∨
    (s.takes dropWhenFull i = true ∧ s.loses = true ∧ i.word.tlast = true ∧
      s.next dropWhenFull i = { s.sync.noStatus.revert with dropFrame := false, overflow := true }) ∨
    (s.takes dropWhenFull i = true ∧ s.loses = false ∧ i.word.tlast = false ∧
      s.next dropWhenFull i = { s.sync.noStatus with wrPtrCur := s.wrPtrCur + 1, wrPtrCurGray := gray (s.wrPtrCur + 1) }) ∨
    (s.takes dropWhenFull i = true ∧ s.loses = false ∧ i.word.tlast = true ∧ i.word.tuser = true ∧
      s.next dropWhenFull i = { s.sync.noStatus.revert with badFrame := true }) ∨
    (s.takes dropWhenFull i = true ∧ s.loses = false ∧ i.word.tlast = true ∧ i.word.tuser = false ∧
      s.next dropWhenFull i = s.sync.noStatus.commit) := by
  rw [next]
  cases s.takes dropWhenFull i <;> cases s.loses <;> cases i.word.tlast <;> cases i.word.tuser <;> simp

theorem sync_cases (s : FifoS a) :
    (s.sync = s ∧ (s.wrPtrUpdateValid = true → s.wrPtrUpdate ≠ s.wrPtrUpdateAckSync2)) ∨
    (s.wrPtrUpdate = s.wrPtrUpdateAckSync2 ∧
      s.sync = { s with wrPtrUpdateValid := false, wrPtrSyncGray := s.wrPtrGray, wrPtrUpdate := !s.wrPtrUpdateAckSync2 }) := by
  rw [sync]
  cases hv : s.wrPtrUpdateValid <;> by_cases hu : s.wrPtrUpdate = s.wrPtrUpdateAckSync2 <;> simp [hu]

/-- A word that is not lost finds room. -/
theorem room_of_not_loses (ha : 1 ≤ a) (h : s.Counts n c r1 r2 sy) (hr : r2 ≤ c) (hc : c ≤ r2 + 2 ^ a) (hl : s.loses = false) :
    c < r2 + 2 ^ a := by
  have hfull : s.fullCur = false := by
    rw [loses, Bool.or_assoc, Bool.or_eq_false_iff] at hl
    exact hl.1
  rw [fullCur, h.wrPtrCurGray, h.rdPtrGraySync2, gray_apart_iff ha, apart_ofNat hr hc] at hfull
  have := of_decide_eq_false hfull
  omega

theorem dropFrame_of_not_loses (hl : s.loses = false) : s.dropFrame = false := by
  rw [loses, Bool.or_eq_false_iff] at hl
  exact hl.2

/-- What an edge does to the pointer that is sent, and to the log. -/
structure Moves (s s' : FifoS a) (g g' : FifoLog δ) (sy sy' : Nat) : Prop where
  grows : g.good <+: g'.good
  sy_mono : sy ≤ sy'
  same : s'.wrPtrUpdate = s.wrPtrUpdate → sy' = sy
  toggles : s'.wrPtrUpdate ≠ s.wrPtrUpdate → s.wrPtrUpdate = s.wrPtrUpdateAckSync2
  out : g'.out = g.out

end FifoS

theorem FifoLog.good_append (g : FifoLog δ) (f : List (AxisWord δ)) (b : Bool) (cur : List (AxisWord δ)) :
    FifoLog.good { g with frames := g.frames ++ [(f, b)], cur := cur } = g.good ++ if b then f else [] := by
  cases b <;> simp [good, List.filter_append]

/-! ### The memory -/

theorem FifoHolds.congr {mem : BitVec a → AxisWord δ} {l l' : List (AxisWord δ)} {r c c' : Nat} (h : FifoHolds mem l r c) (hc : c' ≤ c)
    (hl : ∀ j, j < c' → l'[j]? = l[j]?) : FifoHolds mem l' r c' :=
  fun j w hr hj hw => h j w hr (by omega) (hl j hj ▸ hw)

/-- A word stored at the end leaves the others, as long as they are fewer than the memory has cells. -/
theorem FifoHolds.store {mem : BitVec a → AxisWord δ} {l : List (AxisWord δ)} {r : Nat} (h : FifoHolds mem l r l.length)
    (hr : l.length < r + 2 ^ a) (w : AxisWord δ) :
    FifoHolds (Function.update mem (BitVec.ofNat a l.length) w) (l ++ [w]) r (l ++ [w]).length := by
  intro j x hj hlt hx
  rw [List.length_append, List.length_singleton] at hlt
  rcases Nat.lt_or_eq_of_le (Nat.le_of_lt_succ hlt) with hjl | rfl
  · have hne : BitVec.ofNat a j ≠ BitVec.ofNat a l.length := by
      intro heq
      have hmod := congrArg BitVec.toNat heq
      rw [BitVec.toNat_ofNat, BitVec.toNat_ofNat] at hmod
      obtain ⟨d, hd⟩ := Nat.exists_eq_add_of_le hjl.le
      rw [hd] at hmod
      have hzero : 0 ≡ d [MOD 2 ^ a] := Nat.ModEq.add_left_cancel' j hmod
      rw [Nat.ModEq, Nat.zero_mod, Nat.mod_eq_of_lt (by omega)] at hzero
      omega
    rw [Function.update_of_ne hne]
    exact h j x hj hjl (by rwa [List.getElem?_append_left hjl] at hx)
  · rw [Function.update_self]
    rw [List.getElem?_append_right (Nat.le_refl _), Nat.sub_self] at hx
    exact Option.some.inj hx

namespace FifoS
variable {s : FifoS a} {dropWhenFull : Bool} {i : FifoSIn δ} {g : FifoLog δ} {k r1 r2 sy : Nat} {x : FifoToS a} {x' : Nat}

/-- The handshake while no frame is completed. -/
theorem sync_spec (h : s.Side g k r1 r2 sy) :
    ∃ sy', s.sync.wrPtrSyncGray = gray (BitVec.ofNat (a + 1) sy') ∧ (sy ≤ sy' ∧ sy' ≤ g.good.length) ∧
    (s.sync.wrPtrUpdate = s.wrPtrUpdate → sy' = sy) ∧
    (s.sync.wrPtrUpdate ≠ s.wrPtrUpdate → s.wrPtrUpdate = s.wrPtrUpdateAckSync2) ∧
    (s.sync.wrPtrUpdateValid = false → sy' = g.good.length) ∧ Boundary g.good sy' := by
  rcases sync_cases s with ⟨he, -⟩ | ⟨hu, he⟩
  · rw [he]
    exact ⟨sy, h.wrPtrSyncGray, ⟨Nat.le_refl _, h.sy_le⟩, fun _ => rfl, fun hne => absurd rfl hne, h.pending, h.syWhole⟩
  · rw [he]
    refine ⟨g.good.length, h.wrPtrGray, ⟨h.sy_le, Nat.le_refl _⟩, fun hsame => ?_, fun _ => hu, fun _ => rfl, h.whole⟩
    rw [hu] at hsame
    exact absurd hsame (by simp)

theorem step_eq (dropWhenFull : Bool) (i : FifoSIn δ) (x : FifoToS a) (hs : s.sRstSync3 = false) :
    s.step dropWhenFull i x =
      { s.next dropWhenFull i with
        wrAddr := (s.next dropWhenFull i).wrPtrCur, rdPtrGraySync1 := x.rdPtrGray, rdPtrGraySync2 := s.rdPtrGraySync1,
        wrPtrUpdateAckSync1 := x.wrPtrUpdateSync3, wrPtrUpdateAckSync2 := s.wrPtrUpdateAckSync1,
        sRstSync1 := false, sRstSync2 := s.sRstSync1 || x.mRstSync1, sRstSync3 := s.sRstSync2 } := by
  rw [step, hs]; rfl

theorem counts_step (hs : s.sRstSync3 = false) (h1 : s.rdPtrGraySync1 = gray (BitVec.ofNat (a + 1) r1))
    (hx : x.rdPtrGray = gray (BitVec.ofNat (a + 1) x')) {n c sy : Nat} (hd : (s.next dropWhenFull i).Ptrs n c sy) :
    (s.step dropWhenFull i x).Counts n c x' r1 sy := by
  rw [step_eq dropWhenFull i x hs]
  exact ⟨⟨hd.wrPtr, hd.wrPtrGray, hd.wrPtrCur, hd.wrPtrCurGray, hd.wrPtrSyncGray⟩, hd.wrPtrCur, hx, h1⟩

theorem sync_ptrs (s : FifoS a) : s.sync.wrPtr = s.wrPtr ∧ s.sync.wrPtrGray = s.wrPtrGray ∧ s.sync.wrPtrCur = s.wrPtrCur ∧
    s.sync.wrPtrCurGray = s.wrPtrCurGray ∧ s.sync.dropFrame = s.dropFrame ∧
    s.sync.wrPtrUpdateAckSync2 = s.wrPtrUpdateAckSync2 := by
  rcases sync_cases s with ⟨he, -⟩ | ⟨-, he⟩ <;> rw [he] <;> exact ⟨rfl, rfl, rfl, rfl, rfl, rfl⟩

section
variable (hs : s.sRstSync3 = false) (h : s.Side g k r1 r2 sy) (hx : x.rdPtrGray = gray (BitVec.ofNat (a + 1) x'))
include hs h hx

/-- An edge without a completed frame: only the pointer inside the frame may move. -/
theorem moves_of_same (k' : Nat) {d : FifoS a} (hd : s.next dropWhenFull i = d) (g' : FifoLog δ) (hg : g'.good = g.good)
    (hout : g'.out = g.out) (hptr : d.wrPtr = s.wrPtr ∧ d.wrPtrGray = s.wrPtrGray)
    (hsync : d.wrPtrUpdate = s.sync.wrPtrUpdate ∧ d.wrPtrUpdateValid = s.sync.wrPtrUpdateValid ∧
      d.wrPtrSyncGray = s.sync.wrPtrSyncGray)
    (hcur : d.wrPtrCur = BitVec.ofNat (a + 1) (g.good.length + k') ∧
      d.wrPtrCurGray = gray (BitVec.ofNat (a + 1) (g.good.length + k')))
    (hstored : k' ≤ g'.cur.length ∧ (d.dropFrame = false → k' = g'.cur.length)) (hinside : ∀ w ∈ g'.cur, w.tlast = false) :
    ∃ sy', (s.step dropWhenFull i x).Side g' k' x' r1 sy' ∧ Moves s (s.step dropWhenFull i x) g g' sy sy' := by
  obtain ⟨sy', hgray, hle, hsame, htoggle, hvalid, hsyWhole⟩ := sync_spec h
  have hcounts : (s.step dropWhenFull i x).Counts g'.good.length (g'.good.length + k') x' r1 sy' := by
    refine counts_step hs h.rdPtrGraySync1 hx ?_
    rw [hd, hg]
    exact ⟨hptr.1.trans h.wrPtr, hptr.2.trans h.wrPtrGray, hcur.1, hcur.2, hsync.2.2.trans hgray⟩
  rw [step_eq dropWhenFull i x hs, hd] at hcounts ⊢
  refine ⟨sy', ⟨hcounts, ?_, ?_, ?_, ?_, hstored, hinside⟩, ⟨?_, hle.1, fun hu => ?_, fun hu => ?_, hout⟩⟩
  · rw [hg]; exact hle.2
  · intro hv
    rw [hg]; exact hvalid (hsync.2.1.symm.trans hv)
  · rw [hg]; exact h.whole
  · rw [hg]; exact hsyWhole
  · rw [hg]
  · exact hsame (hsync.1.symm.trans hu)
  · exact htoggle fun he => hu (hsync.1.trans he)

/-- The last word of a good frame. -/
theorem moves_of_commit (hd : s.next dropWhenFull i = s.sync.noStatus.commit) (hk : k = g.cur.length)
    (hlast : i.word.tlast = true) {g' : FifoLog δ} (hg : g'.good = g.good ++ (g.cur ++ [i.word])) (hout : g'.out = g.out)
    (hcur : g'.cur = []) :
    ∃ sy', (s.step dropWhenFull i x).Side g' 0 x' r1 sy' ∧ Moves s (s.step dropWhenFull i x) g g' sy sy' := by
  obtain ⟨-, -, hwc, -, -, hack⟩ := sync_ptrs s
  have hlen : g'.good.length = g.good.length + k + 1 := by
    rw [hg, hk, List.length_append, List.length_append, List.length_singleton, Nat.add_assoc]
  have hptr : s.sync.noStatus.wrPtrCur + 1 = BitVec.ofNat (a + 1) g'.good.length := by
    rw [hlen, BitVec.ofNat_add, ← h.wrPtrCur, ← hwc]
    rfl
  have hwhole : Boundary g'.good g'.good.length := by
    rw [hg, ← List.append_assoc]
    exact boundary_append_singleton _ hlast
  have hgrows : g.good <+: g'.good := hg ▸ List.prefix_append _ _
  have hstored : (0 : Nat) ≤ g'.cur.length ∧ ((s.step dropWhenFull i x).dropFrame = false → 0 = g'.cur.length) := by simp [hcur]
  have hinside : ∀ w ∈ g'.cur, w.tlast = false := by simp [hcur]
  have hsyLe := h.sy_le
  have hcounts : ∀ {d sy'}, s.sync.noStatus.commit = d → d.Ptrs g'.good.length g'.good.length sy' →
      (s.step dropWhenFull i x).Counts g'.good.length (g'.good.length + 0) x' r1 sy' := by
    rintro d sy' rfl hp
    exact counts_step hs h.rdPtrGraySync1 hx (hd ▸ hp)
  -- the handshake starts now, or waits, or has just been started for the frames before
  by_cases hidle : s.sync.wrPtrUpdate = s.wrPtrUpdateAckSync2
  · have hcommit : s.sync.noStatus.commit =
        { s.sync.noStatus with
          wrPtr := s.sync.noStatus.wrPtrCur + 1, wrPtrGray := gray (s.sync.noStatus.wrPtrCur + 1),
          wrPtrCur := s.sync.noStatus.wrPtrCur + 1, wrPtrCurGray := gray (s.sync.noStatus.wrPtrCur + 1), goodFrame := true,
          wrPtrUpdateValid := false, wrPtrSyncGray := gray (s.sync.noStatus.wrPtrCur + 1),
          wrPtrUpdate := !s.sync.noStatus.wrPtrUpdateAckSync2 } := by
      simp [commit, noStatus, hidle, hack]
    have hsame : s.sync = s := by
      rcases sync_cases s with ⟨he, -⟩ | ⟨-, he⟩
      · exact he
      · rw [he] at hidle
        exact absurd hidle (by simp)
    rw [hsame] at hidle
    have hcounts := hcounts hcommit ⟨hptr, congrArg gray hptr, hptr, congrArg gray hptr, congrArg gray hptr⟩
    refine ⟨g'.good.length, ⟨hcounts, Nat.le_refl _, fun _ => rfl, hwhole, hwhole, hstored, hinside⟩,
      ⟨hgrows, by omega, fun hu => ?_, fun _ => hidle, hout⟩⟩
    rw [step_eq dropWhenFull i x hs, hd, hcommit] at hu
    have hu : (!s.sync.noStatus.wrPtrUpdateAckSync2) = s.wrPtrUpdate := hu
    rw [hidle, show s.sync.noStatus.wrPtrUpdateAckSync2 = s.wrPtrUpdateAckSync2 from hack] at hu
    exact absurd hu (by simp)
  · have hcommit : s.sync.noStatus.commit =
        { s.sync.noStatus with
          wrPtr := s.sync.noStatus.wrPtrCur + 1, wrPtrGray := gray (s.sync.noStatus.wrPtrCur + 1),
          wrPtrCur := s.sync.noStatus.wrPtrCur + 1, wrPtrCurGray := gray (s.sync.noStatus.wrPtrCur + 1), goodFrame := true,
          wrPtrUpdateValid := true } := by
      simp [commit, noStatus, hidle, hack]
    obtain ⟨sy', hgray, hle, hsame, htoggle, -, hsyWhole⟩ := sync_spec h
    have hcounts := hcounts hcommit ⟨hptr, congrArg gray hptr, hptr, congrArg gray hptr, hgray⟩
    refine ⟨sy', ⟨hcounts, by omega, ?_, hwhole, hg ▸ hsyWhole.append _, hstored, hinside⟩,
      ⟨hgrows, hle.1, ?_, ?_, hout⟩⟩ <;> rw [step_eq dropWhenFull i x hs, hd, hcommit]
    · exact nofun
    · exact hsame
    · exact htoggle

end

theorem moves_step {mem : BitVec a → AxisWord δ} {r : Nat} (dropWhenFull : Bool) (i : FifoSIn δ) (ha : 1 ≤ a)
    (hs : s.sRstSync3 = false) (h : s.Side g k r1 r2 sy) (hr : r2 ≤ r ∧ r2 ≤ g.good.length) (hroom : g.good.length + k ≤ r2 + 2 ^ a)
    (hmem : FifoHolds mem (g.good ++ g.cur) r (g.good.length + k)) (hx : x.rdPtrGray = gray (BitVec.ofNat (a + 1) x')) :
    let g' := AsyncFifo.logS dropWhenFull i s g
    ∃ k' sy', (s.step dropWhenFull i x).Side g' k' x' r1 sy' ∧ Moves s (s.step dropWhenFull i x) g g' sy sy' ∧
      g'.good.length + k' ≤ r2 + 2 ^ a ∧ FifoHolds (s.store dropWhenFull i mem) (g'.good ++ g'.cur) r (g'.good.length + k') := by
  obtain ⟨pw, pg, pc, pcg, pdrop, -⟩ := sync_ptrs s
  have hinside : i.word.tlast = false → ∀ w ∈ g.cur ++ [i.word], w.tlast = false := by
    intro hlast w hw
    rcases List.mem_append.1 hw with hw | hw
    · exact h.inside w hw
    · rw [List.mem_singleton.1 hw, hlast]
  have hcur : ∀ j, j < g.good.length + k → (g.good ++ (g.cur ++ [i.word]))[j]? = (g.good ++ g.cur)[j]? := by
    intro j hj
    have := h.stored.1
    rw [← List.append_assoc, List.getElem?_append_left (by rw [List.length_append]; omega)]
  have hgood : ∀ j, j < g.good.length + 0 → (g.good ++ [])[j]? = (g.good ++ g.cur)[j]? := by
    intro j hj
    rw [List.append_nil, List.getElem?_append_left hj]
  have hkeep : s.takes dropWhenFull i = false ∨ s.loses = true → s.store dropWhenFull i mem = mem := by
    intro hw
    rw [store, write, if_neg]
    rcases hw with hw | hw <;> simp [hw]
  have hlen' : k = g.cur.length → (g.good ++ (g.cur ++ [i.word])).length = g.good.length + (k + 1) := by
    rintro rfl
    rw [List.length_append, List.length_append, List.length_singleton]
  -- a word that is not lost is written behind the others
  have hstore : s.takes dropWhenFull i = true → s.loses = false → k = g.cur.length ∧ g.good.length + k < r2 + 2 ^ a ∧
      FifoHolds (s.store dropWhenFull i mem) (g.good ++ (g.cur ++ [i.word])) r (g.good.length + (k + 1)) := by
    intro ht hl
    have hk := h.stored.2 (dropFrame_of_not_loses hl)
    have hlt := room_of_not_loses ha h.toCounts (by omega) hroom hl
    have hlen : (g.good ++ g.cur).length = g.good.length + k := by rw [List.length_append, hk]
    have haddr : s.wrAddr.setWidth a = BitVec.ofNat a (g.good ++ g.cur).length := by
      rw [h.wrAddr, hlen]
      exact BitVec.setWidth_ofNat_of_le (by omega) _
    refine ⟨hk, hlt, ?_⟩
    rw [store, write, ht, hl, Bool.not_false, Bool.true_and, if_pos rfl, haddr]
    rw [← hlen] at hmem
    have := hmem.store (by omega) i.word
    rwa [List.append_assoc, hlen' hk] at this
  rcases next_cases dropWhenFull i s with ⟨ht, hn⟩ | ⟨ht, hl, hlast, hn⟩ | ⟨ht, hl, hlast, hn⟩ | ⟨ht, hl, hlast, hn⟩ |
    ⟨ht, hl, hlast, hu, hn⟩ | ⟨ht, hl, hlast, hu, hn⟩
  · rw [AsyncFifo.logS, ht, if_neg Bool.false_ne_true, hkeep (.inl ht)]
    obtain ⟨sy', hside, hm⟩ := moves_of_same hs h hx k hn g rfl rfl ⟨pw, pg⟩ ⟨rfl, rfl, rfl⟩
      ⟨pc.trans h.wrPtrCur, pcg.trans h.wrPtrCurGray⟩ ⟨h.stored.1, fun hd => h.stored.2 (pdrop.symm.trans hd)⟩ h.inside
    exact ⟨k, sy', hside, hm, hroom, hmem⟩
  · rw [AsyncFifo.logS, ht, if_pos rfl, hlast, if_neg Bool.false_ne_true, hkeep (.inr hl)]
    have hle := h.stored.1
    obtain ⟨sy', hside, hm⟩ := moves_of_same hs h hx k hn { g with cur := g.cur ++ [i.word] } rfl rfl ⟨pw, pg⟩ ⟨rfl, rfl, rfl⟩
      ⟨pc.trans h.wrPtrCur, pcg.trans h.wrPtrCurGray⟩ ⟨by rw [List.length_append]; omega, nofun⟩ (hinside hlast)
    exact ⟨k, sy', hside, hm, hroom, hmem.congr (Nat.le_refl _) hcur⟩
  · -- the frame was being dropped, and ends
    rw [AsyncFifo.logS, ht, if_pos rfl, hlast, if_pos rfl, hl, Bool.not_true, Bool.false_and, hkeep (.inr hl)]
    have hg := FifoLog.good_append g (g.cur ++ [i.word]) false []
    rw [if_neg Bool.false_ne_true, List.append_nil] at hg
    obtain ⟨sy', hside, hm⟩ := moves_of_same hs h hx 0 hn _ hg rfl ⟨pw, pg⟩ ⟨rfl, rfl, rfl⟩
      ⟨pw.trans h.wrPtr, congrArg gray (pw.trans h.wrPtr)⟩ ⟨Nat.le_refl _, fun _ => rfl⟩ (List.forall_mem_nil _)
    refine ⟨0, sy', hside, hm, by rw [hg]; omega, ?_⟩
    rw [hg]
    exact hmem.congr (by omega) hgood
  · -- a word is stored
    obtain ⟨hk, hlt, hmem'⟩ := hstore ht hl
    have hptr : s.wrPtrCur + 1 = BitVec.ofNat (a + 1) (g.good.length + (k + 1)) := by
      rw [h.wrPtrCur, ← Nat.add_assoc, BitVec.ofNat_add (g.good.length + k) 1]
      rfl
    rw [AsyncFifo.logS, ht, if_pos rfl, hlast, if_neg Bool.false_ne_true]
    obtain ⟨sy', hside, hm⟩ := moves_of_same hs h hx (k + 1) hn { g with cur := g.cur ++ [i.word] } rfl rfl ⟨pw, pg⟩
      ⟨rfl, rfl, rfl⟩ ⟨hptr, congrArg gray hptr⟩ ⟨by simp [hk], fun _ => by simp [hk]⟩ (hinside hlast)
    exact ⟨k + 1, sy', hside, hm, by rw [← Nat.add_assoc]; exact hlt, hmem'⟩
  · -- the frame is bad
    obtain ⟨hk, hlt, hmem'⟩ := hstore ht hl
    rw [AsyncFifo.logS, ht, if_pos rfl, hlast, if_pos rfl, hu, Bool.not_true, Bool.and_false]
    have hg := FifoLog.good_append g (g.cur ++ [i.word]) false []
    rw [if_neg Bool.false_ne_true, List.append_nil] at hg
    obtain ⟨sy', hside, hm⟩ := moves_of_same hs h hx 0 hn _ hg rfl ⟨pw, pg⟩ ⟨rfl, rfl, rfl⟩
      ⟨pw.trans h.wrPtr, congrArg gray (pw.trans h.wrPtr)⟩ ⟨Nat.le_refl _, fun _ => rfl⟩ (List.forall_mem_nil _)
    refine ⟨0, sy', hside, hm, by rw [hg]; omega, ?_⟩
    rw [hg]
    exact hmem'.congr (by omega) fun j hj => by rw [hgood j hj, hcur j (by omega)]
  · -- the frame is good
    obtain ⟨hk, hlt, hmem'⟩ := hstore ht hl
    rw [AsyncFifo.logS, ht, if_pos rfl, hlast, if_pos rfl, hl, hu, Bool.not_false, Bool.true_and]
    have hg := FifoLog.good_append g (g.cur ++ [i.word]) true []
    rw [if_pos rfl] at hg
    obtain ⟨sy', hside, hm⟩ := moves_of_commit hs h hx hn hk hlast hg rfl rfl
    refine ⟨0, sy', hside, hm, ?_, ?_⟩ <;> rw [hg, hlen' hk]
    · exact hlt
    · rw [List.append_nil]
      exact hmem'

/-- In reset nothing moves. -/
theorem step_reset (dropWhenFull : Bool) (i : FifoSIn δ) (x : FifoToS a) (hs : s.sRstSync3 = true) (h : s.Cleared g) :
    s.takes dropWhenFull i = false ∧ s.step dropWhenFull i x =
      { s with wrPtr := 0, wrPtrCur := 0, wrPtrGray := 0, wrPtrSyncGray := 0, wrPtrCurGray := 0, wrAddr := s.wrPtrCur,
               rdPtrGraySync1 := 0, rdPtrGraySync2 := 0, overflow := false, badFrame := false, goodFrame := false,
               sRstSync1 := false, sRstSync2 := s.sRstSync1 || x.mRstSync1, sRstSync3 := s.sRstSync2 } := by
  have htakes : s.takes dropWhenFull i = false := by rw [takes, tready, hs, Bool.not_true, Bool.and_false, Bool.false_and]
  refine ⟨htakes, ?_⟩
  have hsync : s.sync = s := by rw [sync, h.wrPtrUpdateValid, Bool.false_and, if_neg Bool.false_ne_true]
  have hnext : s.next dropWhenFull i = s.noStatus := by rw [next, htakes, if_neg Bool.false_ne_true, hsync]
  rw [step, hnext, hs, if_pos rfl, h.wrPtrUpdate, h.wrPtrUpdateAckSync1, h.wrPtrUpdateAckSync2, h.wrPtrUpdateValid, h.dropFrame]
  rfl

/-- What an edge of `s_clk`, if there is one, does. -/
structure Edge (s s' : FifoS a) (x : FifoToS a) (g g' : FifoLog δ) (k r1 r2 sy sy' : Nat) : Prop
    extends s'.Side g' k r1 r2 sy', Moves s s' g g' sy sy' where
  acks : (s'.wrPtrUpdate = s.wrPtrUpdate ∧ s'.wrPtrUpdateAckSync1 = s.wrPtrUpdateAckSync1 ∧
      s'.wrPtrUpdateAckSync2 = s.wrPtrUpdateAckSync2) ∨
    (s'.wrPtrUpdateAckSync1 = x.wrPtrUpdateSync3 ∧ s'.wrPtrUpdateAckSync2 = s.wrPtrUpdateAckSync1)
  resets : (s'.sRstSync1 = s.sRstSync1 ∧ s'.sRstSync2 = s.sRstSync2 ∧ s'.sRstSync3 = s.sRstSync3) ∨
    (s'.sRstSync1 = false ∧ s'.sRstSync2 = (s.sRstSync1 || x.mRstSync1) ∧ s'.sRstSync3 = s.sRstSync2)
  cleared : s'.sRstSync3 = true → s'.Cleared g'

theorem edge {mem : BitVec a → AxisWord δ} {r : Nat} (dropWhenFull : Bool) (e : Option (FifoSIn δ)) (ha : 1 ≤ a)
    (h : s.Side g k r1 r2 sy) (hclear : s.sRstSync3 = true → s.Cleared g) (hreset : s.sRstSync3 = false → s.sRstSync2 = false)
    (hr : r2 ≤ r1 ∧ r1 ≤ r ∧ r ≤ g.good.length ∧ r ≤ x') (hroom : g.good.length + k ≤ r2 + 2 ^ a)
    (hmem : FifoHolds mem (g.good ++ g.cur) r (g.good.length + k)) (hx : x.rdPtrGray = gray (BitVec.ofNat (a + 1) x')) :
    let g' := (e.map fun i => AsyncFifo.logS dropWhenFull i s g).getD g
    let mem' := (e.map fun i => s.store dropWhenFull i mem).getD mem
    ∃ k' r1' r2' sy', Edge s (AsyncFifo.stepS dropWhenFull e x s) x g g' k' r1' r2' sy sy' ∧
      (r2' ≤ r1' ∧ r1' ≤ x' ∧ g'.good.length + k' ≤ r2' + 2 ^ a) ∧ FifoHolds mem' (g'.good ++ g'.cur) r (g'.good.length + k') := by
  cases e with
  | none =>
    exact ⟨k, r1, r2, sy, ⟨h, ⟨List.prefix_refl _, Nat.le_refl _, fun _ => rfl, fun hne => absurd rfl hne, rfl⟩,
      .inl ⟨rfl, rfl, rfl⟩, .inl ⟨rfl, rfl, rfl⟩, hclear⟩, ⟨hr.1, by omega, hroom⟩, hmem⟩
  | some i =>
    change let g' := AsyncFifo.logS dropWhenFull i s g
      ∃ k' r1' r2' sy', Edge s (s.step dropWhenFull i x) x g g' k' r1' r2' sy sy' ∧
      (r2' ≤ r1' ∧ r1' ≤ x' ∧ g'.good.length + k' ≤ r2' + 2 ^ a) ∧
      FifoHolds (s.store dropWhenFull i mem) (g'.good ++ g'.cur) r (g'.good.length + k')
    cases hs : s.sRstSync3 with
    | false =>
      obtain ⟨k', sy', hside, hmoves, hroom', hmem'⟩ := moves_step dropWhenFull i ha hs h ⟨by omega, by omega⟩ hroom hmem hx
      refine ⟨k', x', r1, sy', ⟨hside, hmoves, .inr ?_, .inr ?_, ?_⟩, ⟨by omega, Nat.le_refl _, by omega⟩, hmem'⟩ <;>
        rw [step_eq dropWhenFull i x hs]
      · exact ⟨rfl, rfl⟩
      · exact ⟨rfl, rfl, rfl⟩
      · exact fun h3 => Bool.noConfusion (h3.symm.trans (hreset hs))
    | true =>
      have hc := hclear hs
      obtain ⟨htakes, hstep⟩ := step_reset dropWhenFull i x hs hc
      have hlog : AsyncFifo.logS dropWhenFull i s g = g := by rw [AsyncFifo.logS, htakes, if_neg Bool.false_ne_true]
      have hstore : s.store dropWhenFull i mem = mem := by
        rw [store, write, htakes, Bool.false_and, if_neg Bool.false_ne_true]
      have hn : g.good.length = 0 := by rw [hc.good, List.length_nil]
      have hk := h.stored.1
      rw [hc.cur, List.length_nil] at hk
      have hsy := h.sy_le
      obtain rfl : k = 0 := by omega
      obtain rfl : r1 = 0 := by omega
      obtain rfl : r2 = 0 := by omega
      obtain rfl : sy = 0 := by omega
      have hzero : (0 : BitVec (a + 1)) = BitVec.ofNat (a + 1) g.good.length := by rw [hn]; rfl
      have hgray : (0 : BitVec (a + 1)) = gray (BitVec.ofNat (a + 1) 0) := gray_zero.symm
      have hgray' : (0 : BitVec (a + 1)) = gray (BitVec.ofNat (a + 1) g.good.length) := by rw [hn]; exact hgray
      rw [hlog, hstore, hstep]
      refine ⟨0, 0, 0, 0, ⟨⟨⟨⟨hzero, hgray', hzero, hgray', hgray⟩, h.wrPtrCur, hgray, hgray⟩, h.sy_le, h.pending, h.whole,
        h.syWhole, h.stored, h.inside⟩, ⟨List.prefix_refl _, Nat.le_refl _, fun _ => rfl, fun hne => absurd rfl hne, rfl⟩,
        .inl ⟨rfl, rfl, rfl⟩, .inr ⟨rfl, rfl, rfl⟩, fun _ => ⟨hc.good, hc.cur, hc.wrPtrUpdate, hc.wrPtrUpdateAckSync1,
        hc.wrPtrUpdateAckSync2, hc.wrPtrUpdateValid, hc.dropFrame⟩⟩, ⟨Nat.le_refl _, Nat.zero_le _, hroom⟩, hmem⟩

end FifoS

/-! ### An edge of the read side -/

namespace FifoM
variable {m : FifoM δ a} {tready : Bool} {y : FifoToM a} {mem : BitVec a → AxisWord δ} {g : FifoLog δ} {r v sy : Nat}

theorem empty_eq (h : m.Counts r v) (hr : r ≤ v) (hv : v ≤ r + 2 ^ a) : m.empty = decide (v = r) := by
  rw [empty, h.rdPtrGray, h.wrPtrGraySync1, Bool.eq_iff_iff, beq_iff_eq, decide_eq_true_iff, gray_inj, eq_comm,
    ofNat_eq_iff hr hv]

theorem step_eq (tready : Bool) (y : FifoToM a) (mem : BitVec a → AxisWord δ) (hs : m.mRstSync3 = false) :
    m.step tready y mem =
      { rdPtr := m.rdPtrNext tready
        rdPtrGray := if m.read tready then gray (m.rdPtr + 1) else m.rdPtrGray
        rdAddr := m.rdPtrNext tready
        wrPtrGraySync1 := if m.wrPtrUpdateSync2 ^^ m.wrPtrUpdateSync3 then y.wrPtrSyncGray else m.wrPtrGraySync1
        wrPtrUpdateSync1 := y.wrPtrUpdate, wrPtrUpdateSync2 := m.wrPtrUpdateSync1, wrPtrUpdateSync3 := m.wrPtrUpdateSync2
        mRstSync1 := false, mRstSync2 := y.sRstSync1 || m.mRstSync1, mRstSync3 := m.mRstSync2
        memReadData := if m.read tready then mem (m.rdAddr.setWidth a) else m.memReadData
        memReadDataValid := if m.storeOutput tready || !m.memReadDataValid then !m.empty else m.memReadDataValid
        mAxis := if m.storeOutput tready then m.memReadData else m.mAxis
        mAxisTvalid := if m.storeOutput tready then m.memReadDataValid else m.mAxisTvalid } := by
  rw [step, hs]; rfl

/-- What is delivered and held after the edge is what was held before, with the word that was read. -/
theorem held_step (tready : Bool) (y : FifoToM a) (mem : BitVec a → AxisWord δ) (hs : m.mRstSync3 = false) :
    AsyncFifo.delivered tready m ++ (m.step tready y mem).held =
      m.held ++ if m.read tready then [mem (m.rdAddr.setWidth a)] else [] := by
  rw [step_eq tready y mem hs, AsyncFifo.delivered, held, held]
  cases ht : m.mAxisTvalid <;> cases hv : m.memReadDataValid <;> cases tready <;> cases he : m.empty <;>
    simp [read, storeOutput, ht, hv, he]

theorem Side.grow {g' : FifoLog δ} (h : m.Side g r v) (hg : g.good <+: g'.good) (hout : g'.out = g.out)
    (hr : r ≤ g.good.length) : m.Side g' r v := by
  obtain ⟨l, hl⟩ := hg
  refine ⟨h.toCounts, hl ▸ h.vWhole.append l, ?_, h.memNext, h.outNext⟩
  rw [hout, h.out, ← hl, List.take_append_of_le_length hr]

theorem side_step (tready : Bool) (hs : m.mRstSync3 = false) (h : m.Side g r v) (hr : r ≤ v) (hv : v ≤ r + 2 ^ a) (hn : v ≤ g.good.length)
    (hmem : ∀ w, r < v → g.good[r]? = some w → mem (BitVec.ofNat a r) = w) (hsy : v ≤ sy) (hsyWhole : Boundary g.good sy)
    (hy : m.wrPtrUpdateSync2 ≠ m.wrPtrUpdateSync3 → y.wrPtrSyncGray = gray (BitVec.ofNat (a + 1) sy)) :
    (m.step tready y mem).Side { g with out := g.out ++ AsyncFifo.delivered tready m } (r + (m.read tready).toNat)
      (if m.wrPtrUpdateSync2 ^^ m.wrPtrUpdateSync3 then sy else v) ∧ r + (m.read tready).toNat ≤ v := by
  have hempty := empty_eq h.toCounts hr hv
  have hlt : m.read tready = true → r < v := by
    intro hread
    rw [read, hempty, Bool.and_eq_true, Bool.not_eq_true', decide_eq_false_iff_not] at hread
    omega
  have hle : r + (m.read tready).toNat ≤ v := by
    cases hread : m.read tready with
    | true => exact hlt hread
    | false => exact hr
  have hv' : v ≤ if m.wrPtrUpdateSync2 ^^ m.wrPtrUpdateSync3 then sy else v := by split_ifs <;> omega
  -- the word that is read
  have hword : m.read tready = true → ∃ w, g.good[r]? = some w ∧ mem (m.rdAddr.setWidth a) = w := by
    intro hread
    have hrlt := hlt hread
    refine ⟨g.good[r], List.getElem?_eq_getElem (by omega), ?_⟩
    rw [h.rdAddr, BitVec.setWidth_ofNat_of_le (by omega)]
    exact hmem _ hrlt (List.getElem?_eq_getElem (by omega))
  have hptr : m.rdPtrNext tready = BitVec.ofNat (a + 1) (r + (m.read tready).toNat) := by
    rw [rdPtrNext]
    cases m.read tready with
    | true => rw [if_pos rfl, h.rdPtr, Bool.toNat_true, BitVec.ofNat_add r 1]; rfl
    | false => rw [if_neg Bool.false_ne_true, h.rdPtr]; rfl
  have hout := held_step tready y mem hs
  rw [step_eq tready y mem hs] at hout ⊢
  refine ⟨⟨⟨hptr, ?_, hptr, ?_⟩, ?_, ?_, fun hvalid hlast => ?_, fun hvalid hlast => ?_⟩, hle⟩
  · refine Eq.trans ?_ (congrArg gray hptr)
    rw [rdPtrNext, apply_ite gray, h.rdPtr, ← h.rdPtrGray]
  · cases hu : m.wrPtrUpdateSync2 ^^ m.wrPtrUpdateSync3 with
    | true =>
      rw [if_pos rfl, if_pos rfl]
      exact hy fun heq => by rw [heq, Bool.xor_self] at hu; exact Bool.false_ne_true hu
    | false =>
      rw [if_neg Bool.false_ne_true, if_neg Bool.false_ne_true]
      exact h.wrPtrGraySync1
  · split_ifs
    · exact hsyWhole
    · exact h.vWhole
  · rw [List.append_assoc, hout, ← List.append_assoc, h.out]
    change _ = g.good.take (r + (m.read tready).toNat)
    cases hread : m.read tready with
    | true =>
      obtain ⟨w, hget, hw⟩ := hword hread
      rw [if_pos rfl, hw, Bool.toNat_true, List.take_add_one, hget]
      rfl
    | false => rw [if_neg Bool.false_ne_true, List.append_nil]; rfl
  · refine Nat.lt_of_lt_of_le ?_ hv'
    dsimp only at hvalid hlast
    cases hread : m.read tready with
    | true =>
      -- the pointer ends with a frame, so it is not behind this word
      obtain ⟨w, hget, hw⟩ := hword hread
      rw [hread, if_pos rfl, hw] at hlast
      refine Nat.lt_of_le_of_ne (hlt hread) fun heq => ?_
      obtain ⟨w', hget', hlast'⟩ := h.vWhole r heq
      rw [hget] at hget'
      rw [← Option.some.inj hget', hlast] at hlast'
      exact Bool.false_ne_true hlast'
    | false =>
      rw [hread, if_neg Bool.false_ne_true] at hlast
      rw [read, Bool.and_eq_false_iff] at hread
      refine h.memNext ?_ hlast
      rcases hread with hread | hread
      · rw [hread] at hvalid; exact hvalid
      · rw [hread] at hvalid
        split_ifs at hvalid
        exact hvalid
  · dsimp only at hvalid hlast ⊢
    cases hstore : m.storeOutput tready with
    | true =>
      rw [hstore, if_pos rfl] at hvalid hlast
      have := h.memNext hvalid hlast
      rw [Bool.true_or, if_pos rfl, hempty, decide_eq_false (by omega), Bool.not_false]
    | false =>
      rw [hstore, if_neg Bool.false_ne_true] at hvalid hlast
      rw [h.outNext hvalid hlast]
      rfl

theorem step_reset (tready : Bool) (y : FifoToM a) (mem : BitVec a → AxisWord δ) (hs : m.mRstSync3 = true)
    (h : m.Counts r v) (hc : m.Cleared r v) :
    m.read tready = false ∧ AsyncFifo.delivered tready m = [] ∧ m.step tready y mem =
      { m with rdPtr := 0, rdPtrGray := 0, rdAddr := m.rdPtr, wrPtrGraySync1 := 0,
               mAxis := if m.storeOutput tready then m.memReadData else m.mAxis,
               mRstSync1 := false, mRstSync2 := y.sRstSync1 || m.mRstSync1, mRstSync3 := m.mRstSync2 } := by
  have hempty : m.empty = true := by rw [empty, h.rdPtrGray, h.wrPtrGraySync1, hc.r, hc.v, beq_self_eq_true]
  have hread : m.read tready = false := by rw [read, hempty, Bool.not_true, Bool.and_false]
  refine ⟨hread, by rw [AsyncFifo.delivered, hc.mAxisTvalid]; rfl, ?_⟩
  rw [step, hread, hs, if_pos rfl, rdPtrNext, hread, hc.wrPtrUpdateSync1, hc.wrPtrUpdateSync2, hc.wrPtrUpdateSync3,
    hc.memReadDataValid, hc.mAxisTvalid]
  rfl

/-- The number of words an edge of `m_clk`, if there is one, reads. -/
def readCount (e : Option Bool) (m : FifoM δ a) : Nat := (e.map fun tready => (m.read tready).toNat).getD 0

/-- What an edge of `m_clk`, if there is one, does. -/
structure Edge (m m' : FifoM δ a) (y : FifoToM a) (g : FifoLog δ) (r v v' sy : Nat) : Prop extends m'.Side g r v' where
  syncs : (m'.wrPtrUpdateSync1 = m.wrPtrUpdateSync1 ∧ m'.wrPtrUpdateSync2 = m.wrPtrUpdateSync2 ∧
      m'.wrPtrUpdateSync3 = m.wrPtrUpdateSync3 ∧ v' = v) ∨
    (m'.wrPtrUpdateSync1 = y.wrPtrUpdate ∧ m'.wrPtrUpdateSync2 = m.wrPtrUpdateSync1 ∧
      m'.wrPtrUpdateSync3 = m.wrPtrUpdateSync2 ∧ v' = if m.wrPtrUpdateSync2 ^^ m.wrPtrUpdateSync3 then sy else v)
  resets : (m'.mRstSync1 = m.mRstSync1 ∧ m'.mRstSync2 = m.mRstSync2 ∧ m'.mRstSync3 = m.mRstSync3) ∨
    (m'.mRstSync1 = false ∧ m'.mRstSync2 = (y.sRstSync1 || m.mRstSync1) ∧ m'.mRstSync3 = m.mRstSync2)
  cleared : m'.mRstSync3 = true → m'.Cleared r v'

theorem edge (e : Option Bool) (h : m.Side g r v) (hclear : m.mRstSync3 = true → m.Cleared r v)
    (hreset : m.mRstSync3 = false → m.mRstSync2 = false) (hr : r ≤ v) (hv : v ≤ r + 2 ^ a) (hn : v ≤ g.good.length)
    (hmem : ∀ w, r < v → g.good[r]? = some w → mem (BitVec.ofNat a r) = w) (hsy : v ≤ sy) (hsyWhole : Boundary g.good sy)
    (hy : m.wrPtrUpdateSync2 ≠ m.wrPtrUpdateSync3 → y.wrPtrSyncGray = gray (BitVec.ofNat (a + 1) sy)) :
    ∃ v', Edge m (AsyncFifo.stepM e y mem m) y { g with out := g.out ++ (e.map fun t => AsyncFifo.delivered t m).getD [] }
      (r + readCount e m) v v' sy ∧ r + readCount e m ≤ v := by
  cases e with
  | none =>
    refine ⟨v, ⟨⟨h.toCounts, h.vWhole, ?_, h.memNext, h.outNext⟩, .inl ⟨rfl, rfl, rfl, rfl⟩, .inl ⟨rfl, rfl, rfl⟩, hclear⟩, hr⟩
    exact (congrArg (· ++ m.held) (List.append_nil g.out)).trans h.out
  | some tready =>
    change ∃ v', Edge m (m.step tready y mem) y { g with out := g.out ++ AsyncFifo.delivered tready m }
      (r + (m.read tready).toNat) v v' sy ∧ r + (m.read tready).toNat ≤ v
    cases hs : m.mRstSync3 with
    | false =>
      obtain ⟨hside, hle⟩ := side_step tready hs h hr hv hn hmem hsy hsyWhole hy
      refine ⟨_, ⟨hside, .inr ?_, .inr ?_, ?_⟩, hle⟩ <;> rw [step_eq tready y mem hs]
      · exact ⟨rfl, rfl, rfl, rfl⟩
      · exact ⟨rfl, rfl, rfl⟩
      · exact fun h3 => Bool.noConfusion (h3.symm.trans (hreset hs))
    | true =>
      have hc := hclear hs
      obtain ⟨hread, hdeliver, hstep⟩ := step_reset tready y mem hs h.toCounts hc
      obtain rfl := hc.r
      obtain rfl := hc.v
      have hheld := h.out
      rw [held, hc.mAxisTvalid, hc.memReadDataValid] at hheld
      rw [hread, hdeliver, hstep, List.append_nil]
      refine ⟨0, ⟨⟨⟨rfl, gray_zero.symm, h.rdPtr, gray_zero.symm⟩, h.vWhole, ?_, ?_, ?_⟩, .inl ⟨rfl, rfl, rfl, rfl⟩,
        .inr ⟨rfl, rfl, rfl⟩, fun _ => ⟨rfl, rfl, hc.wrPtrUpdateSync1, hc.wrPtrUpdateSync2, hc.wrPtrUpdateSync3,
        hc.memReadDataValid, hc.mAxisTvalid⟩⟩, Nat.le_refl _⟩
      · rw [held, hc.mAxisTvalid, hc.memReadDataValid]
        exact hheld
      · intro hvalid
        exact Bool.noConfusion (hc.memReadDataValid.symm.trans hvalid)
      · intro hvalid
        exact Bool.noConfusion (hc.mAxisTvalid.symm.trans hvalid)

end FifoM

/-! ### Edges of both sides -/

/-- The toggle stays in order whichever value the synchronisers take. -/
theorem FifoChain.step {u u1 u2 u3 a1 a2 u' u1' u2' u3' a1' a2' x y : Bool} (h : FifoChain u u1 u2 u3 a1 a2)
    (hs : (u' = u ∧ a1' = a1 ∧ a2' = a2) ∨ ((x = u3 ∨ x = u3') ∧ a1' = x ∧ a2' = a1 ∧ (u' ≠ u → u = a2)))
    (hm : (u1' = u1 ∧ u2' = u2 ∧ u3' = u3) ∨ ((y = u ∨ y = u') ∧ u1' = y ∧ u2' = u1 ∧ u3' = u2)) :
    FifoChain u' u1' u2' u3' a1' a2' := by
  obtain ⟨h1, h2, h3, h4⟩ := h
  cases u <;> cases u' <;> constructor <;> grind

/-- A toggle starts only when the one before is back. -/
theorem FifoChain.settled {u u1 u2 u3 a1 a2 : Bool} (h : FifoChain u u1 u2 u3 a1 a2) (hu : u = a2) : u2 = u ∧ u3 = u := by
  have h1 : a1 = u := by
    by_contra hne
    exact hne ((h.ack1 hne).symm.trans hu.symm)
  have h3 : u3 = u := by
    by_contra hne
    exact hne ((h.sync3 hne).symm.trans h1)
  refine ⟨?_, h3⟩
  by_contra hne
  exact hne ((h.sync2 hne).symm.trans h3)

theorem FifoReset.step {s1 s2 s3 m1 m2 m3 s1' s2' s3' m1' m2' m3' x y : Bool} (h : FifoReset s1 s2 s3 m1 m2 m3)
    (hs : (s1' = s1 ∧ s2' = s2 ∧ s3' = s3) ∨ ((x = m1 ∨ x = m1') ∧ s1' = false ∧ s2' = (s1 || x) ∧ s3' = s2))
    (hm : (m1' = m1 ∧ m2' = m2 ∧ m3' = m3) ∨ ((y = s1 ∨ y = s1') ∧ m1' = false ∧ m2' = (y || m1) ∧ m3' = m2)) :
    FifoReset s1' s2' s3' m1' m2' m3' := by
  obtain ⟨h1, h2, h3, h4⟩ := h
  constructor <;> grind

/-- What one side shows to the other after an edge does not depend on what it reads there. -/
theorem FifoS.toM_step (dropWhenFull : Bool) (e : Option (FifoSIn δ)) (x x' : FifoToS a) (s : FifoS a) :
    (AsyncFifo.stepS dropWhenFull e x s).toM = (AsyncFifo.stepS dropWhenFull e x' s).toM := by
  cases e with
  | none => rfl
  | some i =>
    change (s.step dropWhenFull i x).toM = (s.step dropWhenFull i x').toM
    rw [step, step]
    cases s.sRstSync3 <;> rfl

theorem FifoM.toS_step (e : Option Bool) (y y' : FifoToM a) (mem mem' : BitVec a → AxisWord δ) (m : FifoM δ a) :
    (AsyncFifo.stepM e y mem m).toS = (AsyncFifo.stepM e y' mem' m).toS := by
  cases e with
  | none => rfl
  | some tready =>
    change (m.step tready y mem).toS = (m.step tready y' mem').toS
    rw [step, step]
    cases m.mRstSync3 <;> rfl

theorem FifoM.readCount_le (e : Option Bool) (m : FifoM δ a) : m.readCount e = 0 ∨ m.readCount e = 1 := by
  cases e with
  | none => exact .inl rfl
  | some tready =>
    change (m.read tready).toNat = 0 ∨ (m.read tready).toNat = 1
    cases m.read tready <;> decide

/-- The read pointer that the other side can see after an edge. -/
theorem FifoM.rdPtrGray_edge {m : FifoM δ a} {r v : Nat} (e : Option Bool) (y : FifoToM a) (mem : BitVec a → AxisWord δ)
    (h : m.Counts r v) (hclear : m.mRstSync3 = true → m.Cleared r v) :
    (AsyncFifo.stepM e y mem m).rdPtrGray = gray (BitVec.ofNat (a + 1) (r + m.readCount e)) := by
  cases e with
  | none => exact h.rdPtrGray
  | some tready =>
    change (m.step tready y mem).rdPtrGray = gray (BitVec.ofNat (a + 1) (r + (m.read tready).toNat))
    cases hs : m.mRstSync3 with
    | true =>
      obtain ⟨hread, -, hstep⟩ := step_reset tready y mem hs h (hclear hs)
      rw [hread, hstep, (hclear hs).r]
      exact gray_zero.symm
    | false =>
      rw [step_eq tready y mem hs]
      cases m.read tready with
      | true => rw [if_pos rfl, h.rdPtr, Bool.toNat_true, BitVec.ofNat_add r 1]; rfl
      | false => exact h.rdPtrGray

namespace FifoInv
variable {f : AsyncFifo δ a} {g : FifoLog δ} {k r r1 r2 sy v : Nat}

/-- While the read side takes over a pointer, the write side keeps it. -/
theorem busy (h : FifoInv f g k r r1 r2 sy v) (hu : f.m.wrPtrUpdateSync2 ≠ f.m.wrPtrUpdateSync3) :
    f.s.wrPtrUpdate ≠ f.s.wrPtrUpdateAckSync2 := by
  intro heq
  obtain ⟨h2, h3⟩ := h.chain.settled heq
  exact hu (h2.trans h3.symm)

theorem step (ha : 1 ≤ a) (dropWhenFull : Bool) (e : FifoEdge δ a) (h : FifoInv f g k r r1 r2 sy v) :
    ∃ k' r' r1' r2' sy' v', FifoInv (f.step dropWhenFull e) (AsyncFifo.log dropWhenFull e f g) k' r' r1' r2' sy' v' := by
  obtain ⟨o1, o2, o3, o4, o5, o6⟩ := h.order
  -- the read pointer as the write side sees it
  generalize hm₀ : AsyncFifo.stepM e.m f.s.toM f.mem f.m = m₀
  obtain ⟨x', hx', hpick⟩ : ∃ x', (x' = r ∨ x' = r + f.m.readCount e.m) ∧
      pick e.sel.rdPtrGray f.m.rdPtrGray m₀.rdPtrGray = gray (BitVec.ofNat (a + 1) x') := by
    rw [← hm₀, FifoM.rdPtrGray_edge e.m _ _ h.m.toCounts h.mReset, h.m.rdPtrGray]
    refine pick_counter _ ?_
    rcases FifoM.readCount_le e.m f.m with hc | hc <;> rw [hc]
    · exact .inl rfl
    · exact .inr rfl
  -- the write side
  generalize hx : AsyncFifo.pickToS e.sel f.m.toS m₀.toS = x
  have hxr : x.rdPtrGray = gray (BitVec.ofNat (a + 1) x') := by rw [← hx]; exact hpick
  obtain ⟨k', r1', r2', sy', hs, ⟨q1, q2, q3⟩, hmem⟩ := FifoS.edge dropWhenFull e.s ha h.s h.sReset h.reset.s3
    ⟨o1, o2, by omega, by omega⟩ o6 h.mem hxr
  generalize hs' : AsyncFifo.stepS dropWhenFull e.s x f.s = s' at hs
  generalize hg : (e.s.map fun i => AsyncFifo.logS dropWhenFull i f.s g).getD g = g' at hs q3 hmem
  generalize hmem' : (e.s.map fun i => f.s.store dropWhenFull i f.mem).getD f.mem = mem' at hmem
  have hlen := hs.grows.length_le
  have hsyMono := hs.sy_mono
  have hsyLe := hs.sy_le
  -- the read side
  generalize hy : AsyncFifo.pickToM e.sel f.s.toM (AsyncFifo.stepS dropWhenFull e.s f.m.toS f.s).toM = y
  rw [FifoS.toM_step dropWhenFull e.s f.m.toS x, hs'] at hy
  generalize hmr : (if e.sel.mem then f.mem else mem') = memR
  have hword : ∀ w, r < v → g'.good[r]? = some w → memR (BitVec.ofNat a r) = w := by
    intro w hrv hw
    obtain ⟨l, hl⟩ := hs.grows
    rw [← hmr]
    split_ifs
    · refine h.mem r w (Nat.le_refl _) (by omega) ?_
      rw [← hl, List.getElem?_append_left (by omega)] at hw
      rw [List.getElem?_append_left (by omega), hw]
    · refine hmem r w (Nat.le_refl _) (by omega) ?_
      rw [List.getElem?_append_left (by omega), hw]
  have hysy : f.m.wrPtrUpdateSync2 ≠ f.m.wrPtrUpdateSync3 → y.wrPtrSyncGray = gray (BitVec.ofNat (a + 1) sy) := by
    intro hu
    have hsame : s'.wrPtrUpdate = f.s.wrPtrUpdate := not_not.1 fun hne => h.busy hu (hs.toggles hne)
    rw [← hy]
    change pick _ f.s.wrPtrSyncGray s'.wrPtrSyncGray = _
    rw [hs.wrPtrSyncGray, h.s.wrPtrSyncGray, hs.same hsame, pick_self]
  have hsyWhole : Boundary g'.good sy := by
    obtain ⟨l, hl⟩ := hs.grows
    exact hl ▸ h.s.syWhole.append l
  obtain ⟨v', hm, hrv⟩ := FifoM.edge e.m (h.m.grow hs.grows hs.out (by omega)) h.mReset h.reset.m3 o3 (by omega) (by omega)
    hword o4 hsyWhole hysy
  generalize hm' : AsyncFifo.stepM e.m y memR f.m = m' at hm
  have hxm : x = AsyncFifo.pickToS e.sel f.m.toS m'.toS := by
    rw [← hx, ← hm₀, ← hm', FifoM.toS_step e.m f.s.toM y f.mem memR]
  have hv : v ≤ v' ∧ v' ≤ sy := by
    rcases hm.syncs with ⟨-, -, -, hv⟩ | ⟨-, -, -, hv⟩
    · omega
    · rw [hv]; split_ifs <;> omega
  have hstep : f.step dropWhenFull e = ⟨s', m', mem'⟩ := by
    rw [AsyncFifo.step, ← hmem', ← hm', ← hs', ← hx, ← hmr, ← hmem', ← hy, ← hs', FifoS.toM_step dropWhenFull e.s x f.m.toS, hm₀]
  have hlog : AsyncFifo.log dropWhenFull e f g =
      { g' with out := g'.out ++ (e.m.map fun t => AsyncFifo.delivered t f.m).getD [] } := by rw [AsyncFifo.log, ← hg]
  rw [hstep, hlog]
  refine ⟨k', r + f.m.readCount e.m, r1', r2', sy', v',
    { s := ⟨hs.toCounts, hs.sy_le, hs.pending, hs.whole, hs.syWhole, hs.stored, hs.inside⟩
      m := hm.toSide
      order := ⟨q1, by omega, by omega, by omega, hsyLe, q3⟩
      chain := ?_
      synced := fun hu => ?_
      mem := fun j w hj => hmem j w (by omega)
      reset := ?_
      sReset := fun h3 =>
        let c := hs.cleared h3
        ⟨c.good, c.cur, c.wrPtrUpdate, c.wrPtrUpdateAckSync1, c.wrPtrUpdateAckSync2, c.wrPtrUpdateValid, c.dropFrame⟩
      mReset := hm.cleared }⟩
  · refine h.chain.step (x := x.wrPtrUpdateSync3) (y := y.wrPtrUpdate) ?_ ?_
    · rcases hs.acks with hsame | ⟨h1, h2⟩
      · exact .inl hsame
      · refine .inr ⟨?_, h1, h2, hs.toggles⟩
        rw [hxm]
        exact (ite_eq_or_eq _ _ _)
    · rcases hm.syncs with ⟨h1, h2, h3, -⟩ | ⟨h1, h2, h3, -⟩
      · exact .inl ⟨h1, h2, h3⟩
      · refine .inr ⟨?_, h1, h2, h3⟩
        rw [← hy]
        exact (ite_eq_or_eq _ _ _)
  · -- a toggle that has come through
    change m'.wrPtrUpdateSync3 = s'.wrPtrUpdate at hu
    have hsame : s'.wrPtrUpdate = f.s.wrPtrUpdate := by
      by_contra hne
      obtain ⟨h2, h3⟩ := h.chain.settled (hs.toggles hne)
      rcases hm.syncs with ⟨-, -, hu3, -⟩ | ⟨-, -, hu3, -⟩
      · exact hne (by rw [← hu, hu3, h3])
      · exact hne (by rw [← hu, hu3, h2])
    rw [hs.same hsame]
    rcases hm.syncs with ⟨-, -, hu3, hv'⟩ | ⟨-, -, hu3, hv'⟩
    · rw [hv']
      exact h.synced (by rw [← hu3, hu, hsame])
    · rw [hv']
      split_ifs with hxor
      · rfl
      · refine h.synced ?_
        rw [Bool.not_eq_true, bne_eq_false_iff_eq] at hxor
        rw [← hxor, ← hu3, hu, hsame]
  · refine h.reset.step (x := x.mRstSync1) (y := y.sRstSync1) ?_ ?_
    · rcases hs.resets with hsame | hreset
      · exact .inl hsame
      · refine .inr ⟨?_, hreset⟩
        rw [hxm]
        exact (ite_eq_or_eq _ _ _)
    · rcases hm.resets with hsame | hreset
      · exact .inl hsame
      · refine .inr ⟨?_, hreset⟩
        rw [← hy]
        exact (ite_eq_or_eq _ _ _)

end FifoInv

end Picorv32Soc
