import Picorv32Soc.Eth.GmiiTx

/-!
# The frame receiver (`rtl/eth/axis_gmii_rx.v`)

The receiver looks at the line through a delay of five stages, so that at the end of a frame the four bytes
of its check sequence are still inside. The time stamp registers are left out; `PTP_TS_ENABLE` is off.

`gmii_rx_hears` says for every line of frames what comes out: the bytes of a frame without its check
sequence, cut off at the first byte with an error, and the last one marked when anything was wrong.
-/

namespace Picorv32Soc

inductive GmiiRxState
  | idle
  | payload
  | waitLast
deriving DecidableEq

/-- One stage of the delay line. -/
structure GmiiStage where
  rxd : Byte
  dv : Bool
  er : Bool

structure GmiiRxIn where
  rst : Bool
  gmii : Gmii
  clkEnable : Bool
  miiSelect : Bool

structure GmiiRx where
  state : GmiiRxState
  miiOdd : Bool
  miiLocked : Bool
  d0 : GmiiStage
  d1 : GmiiStage
  d2 : GmiiStage
  d3 : GmiiStage
  d4 : GmiiStage
  mAxisTdata : Byte
  mAxisTvalid : Bool
  mAxisTlast : Bool
  mAxisTuser : Bool
  startPacket : Bool
  errorBadFrame : Bool
  errorBadFcs : Bool
  crcState : BitVec 32

namespace GmiiRx

def emptyStage : GmiiStage := ⟨0, false, false⟩

/-- The power-on state. -/
def init : GmiiRx where
  state := .idle
  miiOdd := false
  miiLocked := false
  d0 := emptyStage
  d1 := emptyStage
  d2 := emptyStage
  d3 := emptyStage
  d4 := emptyStage
  mAxisTdata := 0
  mAxisTvalid := false
  mAxisTlast := false
  mAxisTuser := false
  startPacket := false
  errorBadFrame := false
  errorBadFcs := false
  crcState := 0xFFFFFFFF

/-- The start delimiter, received without an error. -/
def starts (d : GmiiStage) : Bool := d.dv && !d.er && d.rxd == ethSfd

/-- The combinational block: no output unless a case says otherwise. -/
def next (i : GmiiRxIn) (s : GmiiRx) : GmiiRx :=
  let d := { s with state := .idle, mAxisTdata := 0, mAxisTvalid := false, mAxisTlast := false, mAxisTuser := false,
                    startPacket := false, errorBadFrame := false, errorBadFcs := false }
  if !i.clkEnable || i.miiSelect && !s.miiOdd then { d with state := s.state }
  else match s.state with
    | .idle =>
      let d := { d with crcState := 0xFFFFFFFF }
      if starts s.d4 then { d with startPacket := true, state := .payload } else d
    | .payload =>
      let crc := crcNext s.d4.rxd s.crcState
      let d := { d with crcState := crc, mAxisTdata := s.d4.rxd, mAxisTvalid := true }
      if s.d4.dv && s.d4.er then
        { d with mAxisTlast := true, mAxisTuser := true, errorBadFrame := true, state := .waitLast }
      else if !i.gmii.en then
        let d := { d with mAxisTlast := true }
        if s.d0.er || s.d1.er || s.d2.er || s.d3.er then { d with mAxisTuser := true, errorBadFrame := true }
        else if s.d0.rxd ++ s.d1.rxd ++ s.d2.rxd ++ s.d3.rxd = ~~~ crc then d
        else { d with mAxisTuser := true, errorBadFrame := true, errorBadFcs := true }
      else { d with state := .payload }
    | .waitLast => if !i.gmii.en then d else { d with state := .waitLast }

/-- The registers that are reset to zero. -/
def reset (s : GmiiRx) : GmiiRx :=
  { s with state := .idle, mAxisTvalid := false, startPacket := false, errorBadFrame := false, errorBadFcs := false,
           crcState := 0xFFFFFFFF, miiLocked := false, miiOdd := false }

/-- The delay line, a byte further or, with `mii_select`, a nibble. -/
def delay (i : GmiiRxIn) (s d : GmiiRx) : GmiiRx :=
  let dv := i.gmii.en
  if !i.clkEnable then d
  else if i.miiSelect then
    let byte : Byte := i.gmii.data.extractLsb' 0 4 ++ s.d0.rxd.extractLsb' 4 4
    let locks := !s.miiLocked && dv && byte == ethSfd
    let d := { d with miiOdd := locks || !s.miiOdd, miiLocked := if s.miiLocked then dv else locks }
    if s.miiOdd then
      { d with d0 := ⟨byte, dv && s.d0.dv, i.gmii.er || s.d0.er⟩
               d1 := ⟨s.d0.rxd, s.d0.dv && dv, s.d0.er⟩
               d2 := ⟨s.d1.rxd, s.d1.dv && dv, s.d1.er⟩
               d3 := ⟨s.d2.rxd, s.d2.dv && dv, s.d2.er⟩
               d4 := ⟨s.d3.rxd, s.d3.dv && dv, s.d3.er⟩ }
    else { d with d0 := ⟨byte, dv, i.gmii.er⟩ }
  else
    { d with d0 := ⟨i.gmii.data, dv, i.gmii.er⟩
             d1 := ⟨s.d0.rxd, s.d0.dv && dv, s.d0.er⟩
             d2 := ⟨s.d1.rxd, s.d1.dv && dv, s.d1.er⟩
             d3 := ⟨s.d2.rxd, s.d2.dv && dv, s.d2.er⟩
             d4 := ⟨s.d3.rxd, s.d3.dv && dv, s.d3.er⟩ }

/-- No stage of the delay is valid. -/
def flush (s : GmiiRx) : GmiiRx :=
  { s with d0 := { s.d0 with dv := false }, d1 := { s.d1 with dv := false }, d2 := { s.d2 with dv := false },
           d3 := { s.d3 with dv := false }, d4 := { s.d4 with dv := false } }

def step (i : GmiiRxIn) (s : GmiiRx) : GmiiRx :=
  let d := delay i s (s.next i)
  if i.rst then d.reset.flush else d

end GmiiRx

/-- A transfer of the byte stream. -/
structure AxisByte where
  tdata : Byte
  tlast : Bool
  tuser : Bool
deriving DecidableEq

namespace GmiiRx

/-- The beat on the outputs. -/
def beat (s : GmiiRx) : List AxisByte := if s.mAxisTvalid then [⟨s.mAxisTdata, s.mAxisTlast, s.mAxisTuser⟩] else []

/-- The inputs as the media access controller ties them. -/
def onLine (x : Gmii) : GmiiRxIn := ⟨false, x, true, false⟩

/-- A cycle of the line, with the log of what came out. -/
def listen (r : GmiiRx × List AxisByte) (x : Gmii) : GmiiRx × List AxisByte :=
  let s := step (onLine x) r.1
  (s, r.2 ++ s.beat)

def hear (line : List Gmii) (r : GmiiRx × List AxisByte) : GmiiRx × List AxisByte := line.foldl listen r

theorem hear_append (l l' : List Gmii) (r : GmiiRx × List AxisByte) : hear (l ++ l') r = hear l' (hear l r) :=
  List.foldl_append

/-! ### One cycle -/

section
variable (x : Gmii) (s : GmiiRx)

/-- What the delay does with a symbol. -/
def stage : GmiiStage := ⟨x.data, x.en, x.er⟩

def Shifted (s' : GmiiRx) : Prop :=
  s'.d0 = stage x ∧ s'.d1 = { s.d0 with dv := s.d0.dv && x.en } ∧ s'.d2 = { s.d1 with dv := s.d1.dv && x.en } ∧
    s'.d3 = { s.d2 with dv := s.d2.dv && x.en } ∧ s'.d4 = { s.d3 with dv := s.d3.dv && x.en }

theorem shifted : Shifted x s (step (onLine x) s) := ⟨rfl, rfl, rfl, rfl, rfl⟩

/-- The registers beside the delay come from the combinational block. -/
theorem step_fields : (step (onLine x) s).state = (s.next (onLine x)).state ∧
    (step (onLine x) s).crcState = (s.next (onLine x)).crcState ∧ (step (onLine x) s).beat = (s.next (onLine x)).beat :=
  ⟨rfl, rfl, rfl⟩

variable {x s}

theorem next_idle (hs : s.state = .idle) (hd : starts s.d4 = false) :
    (s.next (onLine x)).state = .idle ∧ (s.next (onLine x)).beat = [] := by
  simp [next, onLine, hs, hd, beat]

theorem next_start (hs : s.state = .idle) (hd : starts s.d4 = true) :
    (s.next (onLine x)).state = .payload ∧ (s.next (onLine x)).crcState = 0xFFFFFFFF ∧ (s.next (onLine x)).beat = [] := by
  simp [next, onLine, hs, hd, beat]

theorem next_payload (hs : s.state = .payload) (he : s.d4.er = false) (hx : x.en = true) :
    (s.next (onLine x)).state = .payload ∧ (s.next (onLine x)).crcState = crcNext s.d4.rxd s.crcState ∧
      (s.next (onLine x)).beat = [⟨s.d4.rxd, false, false⟩] := by
  simp [next, onLine, hs, he, hx, beat]

theorem next_error (hs : s.state = .payload) (hv : s.d4.dv = true) (he : s.d4.er = true) :
    (s.next (onLine x)).state = .waitLast ∧ (s.next (onLine x)).beat = [⟨s.d4.rxd, true, true⟩] := by
  simp [next, onLine, hs, hv, he, beat]

theorem next_end (hs : s.state = .payload) (he : s.d4.er = false) (hx : x.en = false) :
    (s.next (onLine x)).state = .idle ∧
      (s.next (onLine x)).beat = [⟨s.d4.rxd, true, s.d0.er || s.d1.er || s.d2.er || s.d3.er ||
        !decide (s.d0.rxd ++ s.d1.rxd ++ s.d2.rxd ++ s.d3.rxd = ~~~ crcNext s.d4.rxd s.crcState)⟩] := by
  by_cases herr : (s.d0.er || s.d1.er || s.d2.er || s.d3.er) = true
  · rw [herr]
    simp [next, onLine, hs, he, hx, herr, beat]
  · rw [Bool.not_eq_true] at herr
    by_cases hcrc : s.d0.rxd ++ s.d1.rxd ++ s.d2.rxd ++ s.d3.rxd = ~~~ crcNext s.d4.rxd s.crcState
    · rw [herr]
      simp [next, onLine, hs, he, hx, herr, hcrc, beat]
    · rw [herr]
      simp [next, onLine, hs, he, hx, herr, hcrc, beat]

theorem next_waitLast (hs : s.state = .waitLast) :
    (s.next (onLine x)).state = (if x.en then .waitLast else .idle) ∧ (s.next (onLine x)).beat = [] := by
  cases hx : x.en <;> simp [next, onLine, hs, hx, beat]

end

/-! ### What a frame becomes -/

/-- The beats for the rest of a frame after the bytes `m`: the last four bytes are the check sequence. -/
def verdict (m : List Byte) : List Gmii → List AxisByte
  | [] => []
  | x :: rest =>
    if rest.length ≤ 4 then
      [⟨x.data, true, x.er || rest.any Gmii.er || !decide (rest.map Gmii.data = fcs (m ++ [x.data]))⟩]
    else if x.er then [⟨x.data, true, true⟩]
    else ⟨x.data, false, false⟩ :: verdict (m ++ [x.data]) rest

/-- The comparison of the receiver is that of the bytes in the order they came. -/
theorem eq_fcs_iff (m : List Byte) (b0 b1 b2 b3 : Byte) :
    b0 ++ b1 ++ b2 ++ b3 = ~~~ crcOf m ↔ [b3, b2, b1, b0] = fcs m := by
  rw [fcs]
  generalize ~~~ crcOf m = c
  constructor
  · rintro rfl
    simp only [List.cons.injEq, and_true]
    refine ⟨?_, ?_, ?_, ?_⟩
    all_goals
      refine BitVec.eq_of_getLsbD_eq fun j hj => ?_
      simp only [BitVec.getLsbD_extractLsb', BitVec.getLsbD_append, hj, decide_true, Bool.true_and]
    · rw [if_pos (by omega), Nat.zero_add]
    · rw [if_neg (by omega), if_pos (by omega), Nat.add_sub_cancel_left]
    · rw [if_neg (by omega), if_neg (by omega), if_pos (by omega)]; congr 1; omega
    · rw [if_neg (by omega), if_neg (by omega), if_neg (by omega)]; congr 1; omega
  · intro h
    simp only [List.cons.injEq, and_true] at h
    obtain ⟨rfl, rfl, rfl, rfl⟩ := h
    refine BitVec.eq_of_getLsbD_eq fun j hj => ?_
    simp only [BitVec.getLsbD_extractLsb', BitVec.getLsbD_append]
    rcases Nat.lt_or_ge j 8 with h1 | h1
    · simp [h1]
    rcases Nat.lt_or_ge j 16 with h2 | h2
    · simp [show ¬ j < 8 by omega, show j - 8 < 8 by omega, show 8 + (j - 8) = j by omega]
    rcases Nat.lt_or_ge j 24 with h3 | h3
    · simp [show ¬ j < 8 by omega, show ¬ j - 8 < 8 by omega, show j - 8 - 8 < 8 by omega, show 16 + (j - 8 - 8) = j by omega]
    · simp [show ¬ j < 8 by omega, show ¬ j - 8 < 8 by omega, show ¬ j - 8 - 8 < 8 by omega, show j - 8 - 8 - 8 < 8 by omega,
        show 24 + (j - 8 - 8 - 8) = j by omega]

/-- Between frames: nothing of one is in the delay. -/
structure Quiet (s : GmiiRx) : Prop where
  state : s.state = .idle
  d0 : s.d0.dv = false
  d1 : s.d1.dv = false
  d2 : s.d2.dv = false
  d3 : s.d3.dv = false
  d4 : s.d4.dv = false

/-- The stages of the delay, the newest first. -/
def delayAt (s : GmiiRx) : Nat → GmiiStage
  | 0 => s.d0
  | 1 => s.d1
  | 2 => s.d2
  | 3 => s.d3
  | _ => s.d4

/-- In front of a frame: the newest stages of the delay hold `xs`, and there is no start delimiter in the others. -/
structure Lead (s : GmiiRx) (xs : List Gmii) : Prop where
  state : s.state = .idle
  held : ∀ k (h : k < xs.length), delayAt s k = stage xs[k]
  clear : ∀ k, xs.length ≤ k → k < 5 → starts (delayAt s k) = false

theorem starts_of_dv {d : GmiiStage} (h : d.dv = false) : starts d = false := by simp [starts, h]

theorem Quiet.lead {s : GmiiRx} (h : Quiet s) : Lead s [] := by
  refine ⟨h.state, nofun, fun k _ hk => ?_⟩
  match k, hk with
  | 0, _ => exact starts_of_dv h.d0
  | 1, _ => exact starts_of_dv h.d1
  | 2, _ => exact starts_of_dv h.d2
  | 3, _ => exact starts_of_dv h.d3
  | 4, _ => exact starts_of_dv h.d4

/-- The delay holds five symbols of a frame, the oldest first. -/
structure Window (s : GmiiRx) (x0 x1 x2 x3 x4 : Gmii) : Prop where
  d4 : s.d4 = stage x0
  d3 : s.d3 = stage x1
  d2 : s.d2 = stage x2
  d1 : s.d1 = stage x3
  d0 : s.d0 = stage x4

section
variable {s : GmiiRx} {x : Gmii}

/-- The idle line empties the delay. -/
theorem quiet_of_idle (hx : x.en = false) (hs : (s.next (onLine x)).state = .idle) : Quiet (step (onLine x) s) := by
  obtain ⟨h0, h1, h2, h3, h4⟩ := shifted x s
  refine ⟨hs, ?_, ?_, ?_, ?_, ?_⟩
  · rw [h0, stage, hx]
  all_goals simp only [h1, h2, h3, h4, hx, Bool.and_false]

theorem delayAt_step (hx : x.en = true) {k : Nat} (hk : k < 4) : delayAt (step (onLine x) s) (k + 1) = delayAt s k := by
  obtain ⟨_, h1, h2, h3, h4⟩ := shifted x s
  rw [hx] at h1 h2 h3 h4
  simp only [Bool.and_true] at h1 h2 h3 h4
  match k, hk with
  | 0, _ => exact h1
  | 1, _ => exact h2
  | 2, _ => exact h3
  | 3, _ => exact h4

theorem Lead.step {xs : List Gmii} (h : Lead s xs) (hlen : xs.length < 5) (hx : x.en = true) :
    Lead (step (onLine x) s) (x :: xs) := by
  refine ⟨(next_idle h.state (h.clear 4 (by omega) (by decide))).1, ?_, ?_⟩
  · intro k hk
    cases k with
    | zero => rfl
    | succ k => rw [delayAt_step hx (by simp only [List.length_cons] at hk; omega)]; exact h.held k (Nat.lt_of_succ_lt_succ hk)
  · intro k hk hk5
    cases k with
    | zero => cases hk
    | succ k => rw [delayAt_step hx (by omega)]; exact h.clear k (Nat.le_of_succ_le_succ hk) (by omega)

/-- A symbol of the preamble need not be remembered. -/
theorem Lead.forget (h : Lead s [x]) (hx : starts (stage x) = false) : Lead s [] := by
  refine ⟨h.state, nofun, fun k _ hk => ?_⟩
  cases k with
  | zero => rw [h.held 0 (by simp)]; exact hx
  | succ k => exact h.clear (k + 1) (Nat.succ_le_succ (Nat.zero_le k)) hk

theorem Window.step {x0 x1 x2 x3 x4 : Gmii} (h : Window s x0 x1 x2 x3 x4) (hx : x.en = true) :
    Window (step (onLine x) s) x1 x2 x3 x4 x := by
  obtain ⟨h0, h1, h2, h3, h4⟩ := shifted x s
  refine ⟨?_, ?_, ?_, ?_, h0⟩
  · rw [h4, hx, h.d3, Bool.and_true]
  · rw [h3, hx, h.d2, Bool.and_true]
  · rw [h2, hx, h.d1, Bool.and_true]
  · rw [h1, hx, h.d0, Bool.and_true]

end

/-! ### Runs on a line -/

section
variable {s : GmiiRx} (log : List AxisByte)

theorem hear_cons (x : Gmii) (l : List Gmii) (r : GmiiRx × List AxisByte) : hear (x :: l) r = hear l (listen r x) := rfl

theorem listen_eq {x : Gmii} {bs : List AxisByte} (h : (s.next (onLine x)).beat = bs) :
    listen (s, log) x = (step (onLine x) s, log ++ bs) := by
  rw [listen, (step_fields x s).2.2, h]

theorem listen_lead {xs : List Gmii} (h : Lead s xs) (hlen : xs.length < 5) (x : Gmii) :
    listen (s, log) x = (step (onLine x) s, log) := by
  rw [listen_eq log (next_idle h.state (h.clear 4 (by omega) (by decide))).2, List.append_nil]

theorem hear_gap {gap : List Gmii} (hgap : ∀ x ∈ gap, x.en = false) (h : Quiet s) :
    ∃ s', Quiet s' ∧ hear gap (s, log) = (s', log) := by
  induction gap generalizing s with
  | nil => exact ⟨s, h, rfl⟩
  | cons x gap ih =>
    have hstate := (next_idle (x := x) h.state (starts_of_dv h.d4)).1
    rw [hear_cons, listen_lead log h.lead (by simp)]
    exact ih (fun y hy => hgap y (List.mem_cons_of_mem x hy)) (quiet_of_idle (hgap x List.mem_cons_self) hstate)

/-- A preamble is passed over. -/
theorem hear_preamble {pre : List Gmii} (hpre : ∀ x ∈ pre, x.en = true ∧ starts (stage x) = false) (h : Lead s []) :
    ∃ s', Lead s' [] ∧ hear pre (s, log) = (s', log) := by
  induction pre generalizing s with
  | nil => exact ⟨s, h, rfl⟩
  | cons x pre ih =>
    obtain ⟨hx, hx'⟩ := hpre x List.mem_cons_self
    rw [hear_cons, listen_lead log h (by simp)]
    exact ih (fun y hy => hpre y (List.mem_cons_of_mem x hy)) ((h.step (by simp) hx).forget hx')

/-- The rest of a frame with an error is passed over. -/
theorem hear_waitLast {ys : List Gmii} (hs : s.state = .waitLast) (hys : ∀ y ∈ ys, y.en = true) {x : Gmii}
    (hx : x.en = false) : ∃ s', Quiet s' ∧ hear (ys ++ [x]) (s, log) = (s', log) := by
  induction ys generalizing s with
  | nil =>
    obtain ⟨hstate, hbeat⟩ := next_waitLast (x := x) hs
    rw [hx] at hstate
    rw [List.nil_append, hear_cons, listen_eq _ hbeat, List.append_nil]
    exact ⟨_, quiet_of_idle hx hstate, rfl⟩
  | cons y ys ih =>
    obtain ⟨hstate, hbeat⟩ := next_waitLast (x := y) hs
    rw [hys y List.mem_cons_self] at hstate
    rw [List.cons_append, hear_cons, listen_eq _ hbeat, List.append_nil]
    exact ih hstate fun z hz => hys z (List.mem_cons_of_mem y hz)

/-- The start delimiter is found when it leaves the delay, with the first bytes of the frame behind it. -/
theorem hear_start (h : Lead s []) {x0 x1 x2 x3 x4 : Gmii} (hx : ∀ x ∈ [x0, x1, x2, x3, x4], x.en = true) :
    ∃ s', s'.state = .payload ∧ s'.crcState = crcOf [] ∧ Window s' x0 x1 x2 x3 x4 ∧
      hear [Gmii.byte ethSfd, x0, x1, x2, x3, x4] (s, log) = (s', log) := by
  simp only [List.forall_mem_cons] at hx
  obtain ⟨h0, h1, h2, h3, h4, -⟩ := hx
  have lead0 := h.step (x := Gmii.byte ethSfd) (by simp) rfl
  have lead1 := lead0.step (by simp) h0
  have lead2 := lead1.step (by simp) h1
  have lead3 := lead2.step (by simp) h2
  have lead4 := lead3.step (by simp) h3
  simp only [hear_cons]
  rw [listen_lead log h (by simp), listen_lead log lead0 (by simp), listen_lead log lead1 (by simp), listen_lead log lead2 (by simp),
    listen_lead log lead3 (by simp)]
  generalize step (onLine x3) _ = s at lead4 ⊢
  have hd : starts s.d4 = true := by
    rw [show s.d4 = stage (Gmii.byte ethSfd) from lead4.held 4 (by simp)]
    rfl
  obtain ⟨hstate, hcrc, hbeat⟩ := next_start (x := x4) lead4.state hd
  rw [listen_eq _ hbeat, List.append_nil]
  refine ⟨step (onLine x4) s, hstate, hcrc, ⟨?_, ?_, ?_, ?_, rfl⟩, rfl⟩
  · exact (delayAt_step h4 (k := 3) (by decide)).trans (lead4.held 3 (by simp))
  · exact (delayAt_step h4 (k := 2) (by decide)).trans (lead4.held 2 (by simp))
  · exact (delayAt_step h4 (k := 1) (by decide)).trans (lead4.held 1 (by simp))
  · exact (delayAt_step h4 (k := 0) (by decide)).trans (lead4.held 0 (by simp))

/-- The rest of a frame, and two idle cycles. -/
theorem hear_body {ys : List Gmii} {x0 x1 x2 x3 x4 : Gmii} {m : List Byte} (hs : s.state = .payload)
    (hc : s.crcState = crcOf m) (hw : Window s x0 x1 x2 x3 x4)
    (hx : ∀ x ∈ x0 :: x1 :: x2 :: x3 :: x4 :: ys, x.en = true) {g0 g1 : Gmii} (hg0 : g0.en = false) (hg1 : g1.en = false) :
    ∃ s', Quiet s' ∧ hear (ys ++ [g0, g1]) (s, log) = (s', log ++ verdict m (x0 :: x1 :: x2 :: x3 :: x4 :: ys)) := by
  have hgap : ∀ x ∈ [g1], x.en = false := by simpa using hg1
  induction ys generalizing s x0 x1 x2 x3 x4 m log with
  | nil =>
    have hx0 : x0.en = true := hx x0 List.mem_cons_self
    have hc' : crcNext x0.data s.crcState = crcOf (m ++ [x0.data]) := by rw [hc, crcOf_append_singleton]
    cases he : x0.er with
    | false =>
      obtain ⟨hstate, hbeat⟩ := next_end (x := g0) hs (by rw [hw.d4]; exact he) hg0
      rw [hw.d0, hw.d1, hw.d2, hw.d3, hw.d4] at hbeat
      simp only [stage, hc', eq_fcs_iff] at hbeat
      obtain ⟨s', hs', hend⟩ := hear_gap (log ++ verdict m [x0, x1, x2, x3, x4]) hgap (quiet_of_idle hg0 hstate)
      refine ⟨s', hs', ?_⟩
      rw [List.nil_append, hear_cons, listen_eq _ hbeat, ← hend]
      congr 3
      simp [verdict, he, Bool.or_comm, Bool.or_assoc]
    | true =>
      obtain ⟨hstate, hbeat⟩ := next_error (x := g0) hs (by rw [hw.d4]; exact hx0) (by rw [hw.d4]; exact he)
      rw [hw.d4] at hbeat
      obtain ⟨s', hs', hend⟩ := hear_waitLast (s := step (onLine g0) s) (log ++ verdict m [x0, x1, x2, x3, x4]) hstate
        (List.forall_mem_nil _) hg1
      refine ⟨s', hs', ?_⟩
      rw [List.nil_append, hear_cons, listen_eq _ hbeat, ← hend]
      congr 3
      simp [verdict, he, stage]
  | cons y ys ih =>
    have hx0 : x0.en = true := hx x0 List.mem_cons_self
    have hy : y.en = true := hx y (by simp)
    have hlong : ¬ (x1 :: x2 :: x3 :: x4 :: y :: ys).length ≤ 4 := by simp
    cases he : x0.er with
    | false =>
      obtain ⟨hstate, hcrc, hbeat⟩ := next_payload (x := y) hs (by rw [hw.d4]; exact he) hy
      rw [hw.d4, hc] at hcrc
      rw [hw.d4] at hbeat
      have hc' : (step (onLine y) s).crcState = crcOf (m ++ [x0.data]) := by
        rw [crcOf_append_singleton]; exact hcrc
      obtain ⟨s', hs', hend⟩ := ih (s := step (onLine y) s) (log ++ [⟨x0.data, false, false⟩]) hstate hc'
        (hw.step hy) fun z hz => hx z (List.mem_cons_of_mem x0 hz)
      refine ⟨s', hs', ?_⟩
      rw [List.cons_append, hear_cons, listen_eq _ hbeat, verdict, if_neg hlong, he, if_neg Bool.false_ne_true]
      rw [List.append_assoc] at hend
      exact hend
    | true =>
      obtain ⟨hstate, hbeat⟩ := next_error (x := y) hs (by rw [hw.d4]; exact hx0) (by rw [hw.d4]; exact he)
      rw [hw.d4] at hbeat
      have hys : ∀ z ∈ ys, z.en = true := fun z hz => hx z (by simp [hz])
      obtain ⟨s₁, hs₁, hend₁⟩ :=
        hear_waitLast (s := step (onLine y) s) (log ++ [⟨x0.data, true, true⟩]) hstate hys hg0
      obtain ⟨s₂, hs₂, hend₂⟩ := hear_gap (log ++ [⟨x0.data, true, true⟩]) hgap hs₁
      refine ⟨s₂, hs₂, ?_⟩
      rw [List.cons_append, hear_cons, listen_eq _ hbeat, verdict, if_neg hlong, he, if_pos rfl, ← hend₂, ← hend₁,
        ← hear_append, List.append_assoc]
      rfl

end

/-- A frame on a line: the start delimiter between a preamble and at least five bytes, and then at least two
idle cycles. Every symbol but the start delimiter may come with an error. -/
structure LineFrame where
  pre : List Gmii
  body : List Gmii
  gap : List Gmii
  pre_ok : ∀ x ∈ pre, x.en = true ∧ starts (stage x) = false
  body_en : ∀ x ∈ body, x.en = true
  body_long : 5 ≤ body.length
  gap_idle : ∀ x ∈ gap, x.en = false
  gap_long : 2 ≤ gap.length

def LineFrame.line (f : LineFrame) : List Gmii := f.pre ++ [Gmii.byte ethSfd] ++ f.body ++ f.gap

theorem hear_frame {s : GmiiRx} (log : List AxisByte) (h : Quiet s) (f : LineFrame) :
    ∃ s', Quiet s' ∧ hear f.line (s, log) = (s', log ++ verdict [] f.body) := by
  obtain ⟨pre, body, gap, hpre, hbody, hlong, hgap, hgap'⟩ := f
  match body, gap, hlong, hgap' with
  | x0 :: x1 :: x2 :: x3 :: x4 :: ys, g0 :: g1 :: gap, _, _ =>
    obtain ⟨s₁, h₁, e₁⟩ := hear_preamble log hpre h.lead
    have hfirst : ∀ x ∈ [x0, x1, x2, x3, x4], x.en = true := fun x hx =>
      hbody x (List.mem_append_left ys hx)
    have hrest : ∀ x ∈ gap, x.en = false := fun x hx => hgap x (by simp [hx])
    obtain ⟨s₂, hs₂, hc₂, hw₂, e₂⟩ := hear_start log h₁ hfirst
    obtain ⟨s₃, h₃, e₃⟩ := hear_body log hs₂ hc₂ hw₂ hbody (hgap g0 (by simp)) (hgap g1 (by simp))
    obtain ⟨s₄, h₄, e₄⟩ := hear_gap (log ++ verdict [] (x0 :: x1 :: x2 :: x3 :: x4 :: ys)) hrest h₃
    refine ⟨s₄, h₄, ?_⟩
    rw [← e₄, ← e₃, ← e₂, ← e₁, ← hear_append, ← hear_append, ← hear_append]
    congr 1
    simp [LineFrame.line]

theorem hear_frames {s : GmiiRx} (log : List AxisByte) (h : Quiet s) (fs : List LineFrame) :
    ∃ s', Quiet s' ∧ hear (fs.flatMap LineFrame.line) (s, log) = (s', log ++ fs.flatMap fun f => verdict [] f.body) := by
  induction fs generalizing s log with
  | nil => exact ⟨s, h, by simp [hear]⟩
  | cons f fs ih =>
    obtain ⟨s₁, h₁, e₁⟩ := hear_frame log h f
    obtain ⟨s₂, h₂, e₂⟩ := ih (log ++ verdict [] f.body) h₁
    refine ⟨s₂, h₂, ?_⟩
    rw [List.flatMap_cons, hear_append, e₁, e₂, List.flatMap_cons, List.append_assoc]

theorem quiet_init : Quiet init := ⟨rfl, rfl, rfl, rfl, rfl, rfl⟩

theorem hear_frames_init (n : Nat) (fs : List LineFrame) :
    ∃ s, Quiet s ∧ hear (List.replicate n Gmii.idle ++ fs.flatMap LineFrame.line) (init, []) =
      (s, fs.flatMap fun f => verdict [] f.body) := by
  have hidle : ∀ x ∈ List.replicate n Gmii.idle, x.en = false := fun x hx => by
    rw [List.eq_of_mem_replicate hx]; rfl
  obtain ⟨s₁, h₁, e₁⟩ := hear_gap [] hidle quiet_init
  obtain ⟨s₂, h₂, e₂⟩ := hear_frames [] h₁ fs
  exact ⟨s₂, h₂, by rw [hear_append, e₁, e₂, List.nil_append]⟩

end GmiiRx

end Picorv32Soc
