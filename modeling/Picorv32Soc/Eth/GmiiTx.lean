import Picorv32Soc.Clocked
import Picorv32Soc.Eth.Fcs

/-!
# The frame transmitter (`rtl/eth/axis_gmii_tx.v`)

A frame comes in as a byte stream and goes out with preamble, start delimiter, padding and frame check
sequence, followed by the inter-frame gap. The registers for time stamps are left out; they are switched
off by `PTP_TS_ENABLE` and `PTP_TAG_ENABLE`.

`gmii_tx_sends`: from a source that keeps its beats and does not stop inside a frame, every frame goes onto
the line once, in order and complete, with at least `ifg_delay` idle cycles after it, and the transmitter is
back in its idle state a fixed time after the last byte.
-/

namespace Picorv32Soc
open Clocked

/-- One cycle of the lines of the interface. -/
structure Gmii where
  data : Byte
  en : Bool
  er : Bool
deriving DecidableEq

namespace Gmii

def idle : Gmii := ⟨0, false, false⟩

def byte (b : Byte) : Gmii := ⟨b, true, false⟩

end Gmii

def ethPre : Byte := 0x55
def ethSfd : Byte := 0xD5

inductive GmiiTxState
  | idle
  | preamble
  | payload
  | last
  | pad
  | fcs
  | waitEnd
  | ifg
deriving DecidableEq

structure GmiiTxParams where
  enablePadding : Bool
  minFrameLength : BitVec 32

structure GmiiTxIn where
  rst : Bool
  sAxisTdata : Byte
  sAxisTvalid : Bool
  sAxisTlast : Bool
  sAxisTuser : Bool
  clkEnable : Bool
  miiSelect : Bool
  ifgDelay : BitVec 8

structure GmiiTx where
  state : GmiiTxState
  sTdata : Byte
  miiOdd : Bool
  miiMsn : BitVec 4
  framePtr : BitVec 16
  gmiiTxd : Byte
  gmiiTxEn : Bool
  gmiiTxEr : Bool
  sAxisTready : Bool
  startPacket : Bool
  errorUnderflow : Bool
  crcState : BitVec 32

namespace GmiiTx

/-- The power-on state, which is also the one after a reset of an idle transmitter. -/
def init : GmiiTx :=
  ⟨.idle, 0, false, 0, 0, 0, false, false, false, false, false, 0xFFFFFFFF⟩

/-- What is assigned before the cases: no output, no transfer, the other registers hold. -/
def defaults (s : GmiiTx) : GmiiTx :=
  { s with state := .idle, sAxisTready := false, gmiiTxd := 0, gmiiTxEn := false, gmiiTxEr := false,
           startPacket := false, errorUnderflow := false }

/-- The comparison of the inter-frame gap, in 32 bits. -/
def gapLeft (i : GmiiTxIn) (s : GmiiTx) : Bool := (s.framePtr.setWidth 32).ult (i.ifgDelay.setWidth 32 - 1)

def padLeft (p : GmiiTxParams) (s : GmiiTx) : Bool := (s.framePtr.setWidth 32).ult (p.minFrameLength - 5)

/-- The next values, by state. -/
def caseOf (p : GmiiTxParams) (i : GmiiTxIn) (s : GmiiTx) : GmiiTx :=
  let d := s.defaults
  match s.state with
  | .idle =>
    let d := { d with crcState := 0xFFFFFFFF, miiOdd := false }
    if i.sAxisTvalid then
      { d with miiOdd := true, framePtr := 1, gmiiTxd := ethPre, gmiiTxEn := true, state := .preamble }
    else d
  | .preamble =>
    let d := { d with crcState := 0xFFFFFFFF, miiOdd := true, framePtr := s.framePtr + 1, gmiiTxd := ethPre,
                      gmiiTxEn := true }
    if s.framePtr = 6 then { d with sAxisTready := true, sTdata := i.sAxisTdata, state := .preamble }
    else if s.framePtr = 7 then
      let d := if s.sAxisTready then { d with sAxisTready := true, sTdata := i.sAxisTdata } else d
      { d with framePtr := 0, gmiiTxd := ethSfd, startPacket := true, state := .payload }
    else { d with state := .preamble }
  | .payload =>
    let d := { d with crcState := crcNext s.sTdata s.crcState, sAxisTready := true, miiOdd := true,
                      framePtr := s.framePtr + 1, gmiiTxd := s.sTdata, gmiiTxEn := true, sTdata := i.sAxisTdata }
    if i.sAxisTvalid then
      if i.sAxisTlast then
        let d := { d with sAxisTready := !s.sAxisTready }
        if i.sAxisTuser then { d with gmiiTxEr := true, framePtr := 0, state := .ifg } else { d with state := .last }
      else { d with state := .payload }
    else { d with gmiiTxEr := true, framePtr := 0, errorUnderflow := true, state := .waitEnd }
  | .last =>
    let d := { d with crcState := crcNext s.sTdata s.crcState, miiOdd := true, framePtr := s.framePtr + 1,
                      gmiiTxd := s.sTdata, gmiiTxEn := true }
    if p.enablePadding && s.padLeft p then { d with sTdata := 0, state := .pad }
    else { d with framePtr := 0, state := .fcs }
  | .pad =>
    let d := { d with crcState := crcNext s.sTdata s.crcState, miiOdd := true, framePtr := s.framePtr + 1, gmiiTxd := 0,
                      gmiiTxEn := true, sTdata := 0 }
    if s.padLeft p then { d with state := .pad } else { d with framePtr := 0, state := .fcs }
  | .fcs =>
    let d := { d with miiOdd := true, framePtr := s.framePtr + 1, gmiiTxEn := true }
    let d := { d with gmiiTxd :=
                 if s.framePtr = 0 then ~~~ (s.crcState.extractLsb' 0 8)
                 else if s.framePtr = 1 then ~~~ (s.crcState.extractLsb' 8 8)
                 else if s.framePtr = 2 then ~~~ (s.crcState.extractLsb' 16 8)
                 else if s.framePtr = 3 then ~~~ (s.crcState.extractLsb' 24 8)
                 else 0 }
    if s.framePtr < 3 then { d with state := .fcs } else { d with framePtr := 0, state := .ifg }
  | .waitEnd =>
    let d := { d with crcState := 0xFFFFFFFF, miiOdd := true, framePtr := s.framePtr + 1, sAxisTready := true }
    if i.sAxisTvalid then
      if i.sAxisTlast then
        { d with sAxisTready := false, state := if s.gapLeft i then .ifg else .idle }
      else { d with state := .waitEnd }
    else { d with state := .waitEnd }
  | .ifg =>
    let d := { d with crcState := 0xFFFFFFFF, miiOdd := true, framePtr := s.framePtr + 1 }
    { d with state := if s.gapLeft i then .ifg else .idle }

/-- The combinational block. -/
def next (p : GmiiTxParams) (i : GmiiTxIn) (s : GmiiTx) : GmiiTx :=
  if !i.clkEnable then
    { s.defaults with gmiiTxd := s.gmiiTxd, gmiiTxEn := s.gmiiTxEn, gmiiTxEr := s.gmiiTxEr, state := s.state }
  else if i.miiSelect && s.miiOdd then
    { s.defaults with miiOdd := false, gmiiTxd := 0#4 ++ s.miiMsn, gmiiTxEn := s.gmiiTxEn, gmiiTxEr := s.gmiiTxEr,
                      state := s.state }
  else
    let d := s.caseOf p i
    if i.miiSelect then { d with miiMsn := d.gmiiTxd.extractLsb' 4 4, gmiiTxd := 0#4 ++ d.gmiiTxd.extractLsb' 0 4 }
    else d

def step (p : GmiiTxParams) (i : GmiiTxIn) (s : GmiiTx) : GmiiTx :=
  let d := s.next p i
  if i.rst then
    { d with state := .idle, framePtr := 0, sAxisTready := false, gmiiTxEn := false, gmiiTxEr := false,
             startPacket := false, errorUnderflow := false, crcState := 0xFFFFFFFF }
  else d

/-- What the transmitter puts on the line. -/
def out (s : GmiiTx) : Gmii := ⟨s.gmiiTxd, s.gmiiTxEn, s.gmiiTxEr⟩

/-- The parameters in the SoC. -/
def params : GmiiTxParams := ⟨true, 64⟩

end GmiiTx

/-! ### Frames on the line -/

/-- A frame filled up to the minimum length. -/
def padded (f : List Byte) : List Byte := f ++ List.replicate (60 - f.length) 0

def preamble : List Byte := List.replicate 7 ethPre ++ [ethSfd]

/-- A frame as it is sent. -/
def wire (f : List Byte) : List Byte := preamble ++ padded f ++ fcs (padded f)

/-- The line has carried the frames `fs`, each followed by at least `g` idle cycles. -/
inductive Sent (g : Nat) : List (List Byte) → List Gmii → Prop
  | start (n : Nat) : Sent g [] (List.replicate n Gmii.idle)
  | frame {fs : List (List Byte)} {line : List Gmii} (h : Sent g fs line) (f : List Byte) {n : Nat} (hn : g ≤ n) :
    Sent g (fs ++ [f]) (line ++ (wire f).map Gmii.byte ++ List.replicate n Gmii.idle)

theorem Sent.idle {g : Nat} {fs : List (List Byte)} {line : List Gmii} (h : Sent g fs line) :
    Sent g fs (line ++ [Gmii.idle]) := by
  cases h with
  | start n => rw [← List.replicate_succ']; exact .start _
  | frame h f hn =>
    rw [List.append_assoc _ _ [Gmii.idle], ← List.replicate_succ']
    exact h.frame f (Nat.le_succ_of_le hn)

/-! ### A run -/

/-- What has gone in and out before a cycle. -/
structure TxSeen where
  frames : List (List Byte)
  cur : List Byte
  line : List Gmii

namespace GmiiTx

/-- A beat is taken when `tvalid` and `tready` are both set. -/
def observe (i : GmiiTxIn) (s : GmiiTx) (o : TxSeen) : TxSeen where
  frames := if i.sAxisTvalid && s.sAxisTready && i.sAxisTlast then o.frames ++ [o.cur ++ [i.sAxisTdata]] else o.frames
  cur := if i.sAxisTvalid && s.sAxisTready then if i.sAxisTlast then [] else o.cur ++ [i.sAxisTdata] else o.cur
  line := o.line ++ [s.out]

def seen (inp : Nat → GmiiTxIn) : Nat → TxSeen := watch observe (step params) inp init ⟨[], [], []⟩

/-- What is asked of the source in one cycle, and of its `tvalid` in the next. -/
structure Feeds (g : Nat) (i : GmiiTxIn) (s : GmiiTx) (o : TxSeen) (tvalid : Bool) : Prop where
  rst : i.rst = false
  clkEnable : i.clkEnable = true
  miiSelect : i.miiSelect = false
  ifgDelay : i.ifgDelay.toNat = g
  stays : i.sAxisTvalid = true → (s.sAxisTready = true → i.sAxisTlast = false) → tvalid = true
  good : i.sAxisTvalid = true → i.sAxisTlast = true → i.sAxisTuser = false
  size : i.sAxisTvalid = true → i.sAxisTlast = true → 1 ≤ o.cur.length ∧ o.cur.length < 65536

/-- The source of a run keeps `tvalid` until the last beat of a frame is taken, and its frames have between two
bytes and 64 KiB. -/
def Source (g : Nat) (inp : Nat → GmiiTxIn) : Prop :=
  ∀ t, Feeds g (inp t) (run (step params) inp init t) (seen inp t) (inp (t + 1)).sAxisTvalid

/-- Where the transmitter is in a frame, and what the line has carried by then, its present value included. -/
inductive Phase (g : Nat) (tvalid : Bool) (s : GmiiTx) (o : TxSeen) : Prop
  | idle (hs : s.state = .idle) (hr : s.sAxisTready = false) (hcur : o.cur = [])
    (hl : Sent g o.frames (o.line ++ [s.out]))
  | preamble (k : Nat) (base : List Gmii) (hs : s.state = .preamble) (hr : s.sAxisTready = decide (k = 7))
    (hk : 1 ≤ k ∧ k ≤ 7) (hp : s.framePtr = BitVec.ofNat 16 k) (hc : s.crcState = crcOf [])
    (hv : tvalid = true) (hcur : o.cur = []) (hb : Sent g o.frames base)
    (hl : o.line ++ [s.out] = base ++ (List.replicate k ethPre).map Gmii.byte)
  | payload (m : List Byte) (base : List Gmii) (hs : s.state = .payload) (hr : s.sAxisTready = true)
    (hp : s.framePtr = BitVec.ofNat 16 m.length) (hc : s.crcState = crcOf m) (hv : tvalid = true)
    (hcur : o.cur = m ++ [s.sTdata]) (hb : Sent g o.frames base)
    (hl : o.line ++ [s.out] = base ++ (Picorv32Soc.preamble ++ m).map Gmii.byte)
  | last (m : List Byte) (fs : List (List Byte)) (base : List Gmii) (hs : s.state = .last) (hr : s.sAxisTready = false)
    (hm : m.length < 65536) (hp : s.framePtr = BitVec.ofNat 16 m.length) (hc : s.crcState = crcOf m)
    (hcur : o.cur = []) (hf : o.frames = fs ++ [m ++ [s.sTdata]]) (hb : Sent g fs base)
    (hl : o.line ++ [s.out] = base ++ (Picorv32Soc.preamble ++ m).map Gmii.byte)
  | pad (f : List Byte) (j : Nat) (fs : List (List Byte)) (base : List Gmii) (hs : s.state = .pad)
    (hr : s.sAxisTready = false) (hj : f.length + j < 60) (hp : s.framePtr = BitVec.ofNat 16 (f.length + j))
    (hd : s.sTdata = 0) (hc : s.crcState = crcOf (f ++ List.replicate j 0)) (hcur : o.cur = [])
    (hf : o.frames = fs ++ [f]) (hb : Sent g fs base)
    (hl : o.line ++ [s.out] = base ++ (Picorv32Soc.preamble ++ (f ++ List.replicate j 0)).map Gmii.byte)
  | fcs (f : List Byte) (k : Nat) (fs : List (List Byte)) (base : List Gmii) (hs : s.state = .fcs)
    (hr : s.sAxisTready = false) (hk : k < 4) (hp : s.framePtr = BitVec.ofNat 16 k)
    (hc : s.crcState = crcOf (padded f)) (hcur : o.cur = []) (hf : o.frames = fs ++ [f]) (hb : Sent g fs base)
    (hl : o.line ++ [s.out] =
      base ++ (Picorv32Soc.preamble ++ padded f ++ (Picorv32Soc.fcs (padded f)).take k).map Gmii.byte)
  | ifg (f : List Byte) (k : Nat) (fs : List (List Byte)) (base : List Gmii) (hs : s.state = .ifg)
    (hr : s.sAxisTready = false) (hk : k < g) (hp : s.framePtr = BitVec.ofNat 16 k) (hcur : o.cur = [])
    (hf : o.frames = fs ++ [f]) (hb : Sent g fs base)
    (hl : o.line ++ [s.out] = base ++ (wire f).map Gmii.byte ++ List.replicate k Gmii.idle)

section
variable {g : Nat} {i : GmiiTxIn} {s : GmiiTx} {o : TxSeen} {tvalid : Bool}

theorem Feeds.step_eq (h : Feeds g i s o tvalid) : step params i s = s.caseOf params i := by
  simp [step, next, h.rst, h.clkEnable, h.miiSelect]

theorem line_observe {l : List Gmii} (hl : o.line ++ [s.out] = l) (s' : GmiiTx) :
    (observe i s o).line ++ [s'.out] = l ++ [s'.out] := by
  rw [observe, hl]

theorem line_byte {base : List Gmii} {xs : List Byte} (hl : o.line ++ [s.out] = base ++ xs.map Gmii.byte) {s' : GmiiTx}
    {b : Byte} (h : s'.out = Gmii.byte b) : (observe i s o).line ++ [s'.out] = base ++ (xs ++ [b]).map Gmii.byte := by
  rw [line_observe hl, h, List.append_assoc, List.map_append]
  rfl

theorem observe_idle (hr : s.sAxisTready = false) : (observe i s o).frames = o.frames ∧ (observe i s o).cur = o.cur := by
  simp [observe, hr]

end

/-! ### The transitions of a frame -/

section
variable {p : GmiiTxParams} {i : GmiiTxIn} {s : GmiiTx}

theorem caseOf_idle (hs : s.state = .idle) (hv : i.sAxisTvalid = false) :
    s.caseOf p i = { s.defaults with crcState := 0xFFFFFFFF, miiOdd := false } := by
  simp only [caseOf, hs, hv, Bool.false_eq_true, if_false]

theorem caseOf_idle_valid (hs : s.state = .idle) (hv : i.sAxisTvalid = true) :
    s.caseOf p i = { s.defaults with
      crcState := 0xFFFFFFFF, miiOdd := true, framePtr := 1, gmiiTxd := ethPre, gmiiTxEn := true, state := .preamble } := by
  simp only [caseOf, hs, hv, if_true]

theorem caseOf_preamble (hs : s.state = .preamble) (h7 : s.framePtr ≠ 7) :
    s.caseOf p i = { s.defaults with
      crcState := 0xFFFFFFFF, miiOdd := true, framePtr := s.framePtr + 1, gmiiTxd := ethPre, gmiiTxEn := true,
      sAxisTready := decide (s.framePtr = 6), sTdata := if s.framePtr = 6 then i.sAxisTdata else s.sTdata,
      state := .preamble } := by
  simp only [caseOf, hs, h7, if_false]
  by_cases h6 : s.framePtr = 6
  · rw [if_pos h6, if_pos h6, decide_eq_true h6]
  · rw [if_neg h6, if_neg h6, decide_eq_false h6]
    rfl

theorem caseOf_delimiter (hs : s.state = .preamble) (h7 : s.framePtr = 7) (hr : s.sAxisTready = true) :
    s.caseOf p i = { s.defaults with
      crcState := 0xFFFFFFFF, miiOdd := true, framePtr := 0, gmiiTxd := ethSfd, gmiiTxEn := true, sAxisTready := true,
      sTdata := i.sAxisTdata, startPacket := true, state := .payload } := by
  have h6 : ¬ (7 : BitVec 16) = 6 := by decide
  simp only [caseOf, hs, h7, h6, hr, if_false, if_true]

/-- A payload byte, with the next one in hand. -/
theorem caseOf_payload (hs : s.state = .payload) (hr : s.sAxisTready = true) (hv : i.sAxisTvalid = true)
    (hu : i.sAxisTlast = true → i.sAxisTuser = false) :
    s.caseOf p i = { s.defaults with
      crcState := crcNext s.sTdata s.crcState, miiOdd := true, framePtr := s.framePtr + 1, gmiiTxd := s.sTdata,
      gmiiTxEn := true, sTdata := i.sAxisTdata, sAxisTready := !i.sAxisTlast,
      state := if i.sAxisTlast then .last else .payload } := by
  simp only [caseOf, hs, hv, if_true]
  cases hl : i.sAxisTlast with
  | false => rfl
  | true => simp only [hu hl, hr, if_true, Bool.false_eq_true, if_false]

theorem caseOf_last (hs : s.state = .last) (hp : p.enablePadding = true) :
    s.caseOf p i = { s.defaults with
      crcState := crcNext s.sTdata s.crcState, miiOdd := true, gmiiTxd := s.sTdata, gmiiTxEn := true,
      framePtr := if s.padLeft p then s.framePtr + 1 else 0, sTdata := if s.padLeft p then 0 else s.sTdata,
      state := if s.padLeft p then .pad else .fcs } := by
  simp only [caseOf, hs, hp, Bool.true_and]
  cases s.padLeft p <;> rfl

theorem caseOf_pad (hs : s.state = .pad) :
    s.caseOf p i = { s.defaults with
      crcState := crcNext s.sTdata s.crcState, miiOdd := true, gmiiTxd := 0, gmiiTxEn := true, sTdata := 0,
      framePtr := if s.padLeft p then s.framePtr + 1 else 0, state := if s.padLeft p then .pad else .fcs } := by
  simp only [caseOf, hs]
  cases s.padLeft p <;> rfl

/-- Byte `k` of the frame check sequence. -/
def fcsByte (c : BitVec 32) (k : BitVec 16) : Byte :=
  if k = 0 then ~~~ (c.extractLsb' 0 8) else if k = 1 then ~~~ (c.extractLsb' 8 8)
  else if k = 2 then ~~~ (c.extractLsb' 16 8) else if k = 3 then ~~~ (c.extractLsb' 24 8) else 0

theorem take_fcs (m : List Byte) {k : Nat} (hk : k < 4) :
    (fcs m).take (k + 1) = (fcs m).take k ++ [fcsByte (crcOf m) (BitVec.ofNat 16 k)] := by
  have hnot : ∀ n, n + 8 ≤ 32 → ∀ c : BitVec 32, ~~~ (c.extractLsb' n 8) = (~~~ c).extractLsb' n 8 := by
    intro n hn c
    refine BitVec.eq_of_getLsbD_eq fun j hj => ?_
    simp [hj, show n + j < 32 by omega]
  rw [fcs, fcsByte, hnot 0 (by decide), hnot 8 (by decide), hnot 16 (by decide), hnot 24 (by decide)]
  match k, hk with
  | 0, _ => rfl
  | 1, _ => rfl
  | 2, _ => rfl
  | 3, _ => rfl

theorem caseOf_fcs (hs : s.state = .fcs) :
    s.caseOf p i = { s.defaults with
      miiOdd := true, gmiiTxd := fcsByte s.crcState s.framePtr, gmiiTxEn := true,
      framePtr := if s.framePtr < 3 then s.framePtr + 1 else 0, state := if s.framePtr < 3 then .fcs else .ifg } := by
  simp only [caseOf, hs, fcsByte]
  by_cases h3 : s.framePtr < 3
  · rw [if_pos h3, if_pos h3, if_pos h3]
  · rw [if_neg h3, if_neg h3, if_neg h3]

theorem caseOf_ifg (hs : s.state = .ifg) :
    s.caseOf p i = { s.defaults with
      crcState := 0xFFFFFFFF, miiOdd := true, framePtr := s.framePtr + 1,
      state := if s.gapLeft i then .ifg else .idle } := by
  simp only [caseOf, hs]

end

theorem gapLeft_iff {g k : Nat} {i : GmiiTxIn} {s : GmiiTx} (hg : i.ifgDelay.toNat = g) (hpos : 0 < g)
    (hk : k < g) (hp : s.framePtr = BitVec.ofNat 16 k) : s.gapLeft i = decide (k + 1 < g) := by
  have := i.ifgDelay.isLt
  rw [gapLeft, BitVec.ult, hp]
  refine decide_eq_decide.2 ?_
  simp only [BitVec.toNat_setWidth, BitVec.toNat_sub, BitVec.toNat_ofNat, hg, show (1 : BitVec 32).toNat = 1 from rfl]
  omega

theorem padLeft_iff {n : Nat} {s : GmiiTx} (hn : n < 65536) (hp : s.framePtr = BitVec.ofNat 16 n) :
    s.padLeft params = decide (n + 1 < 60) := by
  rw [padLeft, BitVec.ult, hp]
  refine decide_eq_decide.2 ?_
  simp only [params, BitVec.toNat_setWidth, BitVec.toNat_ofNat]
  rw [show (64 - 5 : BitVec 32).toNat = 59 from rfl]
  omega

theorem framePtr_eq_iff {k : Nat} {s : GmiiTx} (hk : k < 65536) (hp : s.framePtr = BitVec.ofNat 16 k) {c : Nat}
    (hc : c < 65536) : s.framePtr = BitVec.ofNat 16 c ↔ k = c := by
  rw [hp, ← BitVec.toNat_inj, BitVec.toNat_ofNat, BitVec.toNat_ofNat, Nat.mod_eq_of_lt hk, Nat.mod_eq_of_lt hc]

namespace Phase
variable {g : Nat} {i : GmiiTxIn} {s : GmiiTx} {o : TxSeen} {tvalid : Bool}

theorem step_idle (hf : Feeds g i s o tvalid) (hs : s.state = .idle) (hr : s.sAxisTready = false) (hcur : o.cur = [])
    (hl : Sent g o.frames (o.line ++ [s.out])) : Phase g tvalid (step params i s) (observe i s o) := by
  obtain ⟨hframes, hcur'⟩ := observe_idle (i := i) (o := o) hr
  rw [hf.step_eq]
  cases hv : i.sAxisTvalid with
  | true =>
    rw [caseOf_idle_valid hs hv]
    exact .preamble 1 (o.line ++ [s.out]) rfl rfl (by omega) rfl rfl (hf.stays hv (by simp [hr])) (hcur'.trans hcur)
      (hframes ▸ hl) (line_observe rfl _)
  | false =>
    rw [caseOf_idle hs hv]
    refine .idle rfl rfl (hcur'.trans hcur) ?_
    rw [hframes, line_observe rfl]
    exact hl.idle

theorem step_preamble (hf : Feeds g i s o tvalid) (hv : i.sAxisTvalid = true) {k : Nat} {base : List Gmii}
    (hs : s.state = .preamble) (hr : s.sAxisTready = decide (k = 7)) (hk : 1 ≤ k ∧ k ≤ 7)
    (hp : s.framePtr = BitVec.ofNat 16 k) (hcur : o.cur = []) (hb : Sent g o.frames base)
    (hl : o.line ++ [s.out] = base ++ (List.replicate k ethPre).map Gmii.byte) :
    Phase g tvalid (step params i s) (observe i s o) := by
  have h6 : s.framePtr = 6 ↔ k = 6 := framePtr_eq_iff (by omega) hp (by decide)
  have h7 : s.framePtr = 7 ↔ k = 7 := framePtr_eq_iff (by omega) hp (by decide)
  -- a frame of one byte would end with the beat taken beside the start delimiter
  have hlast : i.sAxisTlast = false := by
    rw [Bool.eq_false_iff]
    intro hlast
    have := (hf.size hv hlast).1
    rw [hcur] at this
    exact absurd this (by decide)
  have hv' : tvalid = true := hf.stays hv fun _ => hlast
  rw [hf.step_eq]
  rcases Nat.lt_or_eq_of_le hk.2 with hlt | rfl
  · have hr' : s.sAxisTready = false := by rw [hr]; exact decide_eq_false (Nat.ne_of_lt hlt)
    obtain ⟨hframes, hcur'⟩ := observe_idle (i := i) (o := o) hr'
    rw [caseOf_preamble hs (h7.not.2 (Nat.ne_of_lt hlt))]
    refine .preamble (k + 1) base rfl ?_ (by omega) ?_ rfl hv' (hcur'.trans hcur) (hframes ▸ hb) ?_
    · exact decide_eq_decide.2 (by rw [h6]; omega)
    · simp only [hp]; rw [BitVec.ofNat_add]; rfl
    · rw [List.replicate_succ']
      exact line_byte hl rfl
  · have hr' : s.sAxisTready = true := hr
    have hframes : (observe i s o).frames = o.frames := by simp [observe, hlast]
    rw [caseOf_delimiter hs (h7.2 rfl) hr']
    refine .payload [] base rfl rfl rfl rfl hv' ?_ (hframes ▸ hb) ?_
    · simp [observe, hv, hr', hlast, hcur]
    · rw [List.append_nil]
      exact line_byte hl rfl

theorem step_payload (hf : Feeds g i s o tvalid) (hv : i.sAxisTvalid = true) {m : List Byte} {base : List Gmii}
    (hs : s.state = .payload) (hr : s.sAxisTready = true) (hp : s.framePtr = BitVec.ofNat 16 m.length)
    (hc : s.crcState = crcOf m) (hcur : o.cur = m ++ [s.sTdata]) (hb : Sent g o.frames base)
    (hl : o.line ++ [s.out] = base ++ (Picorv32Soc.preamble ++ m).map Gmii.byte) :
    Phase g tvalid (step params i s) (observe i s o) := by
  have hp' : s.framePtr + 1 = BitVec.ofNat 16 (m ++ [s.sTdata]).length := by
    rw [hp, List.length_append, BitVec.ofNat_add]; rfl
  have hc' : crcNext s.sTdata s.crcState = crcOf (m ++ [s.sTdata]) := by
    rw [hc, crcOf_append_singleton]
  have hl' : ∀ s' : GmiiTx, s'.out = Gmii.byte s.sTdata → (observe i s o).line ++ [s'.out] =
      base ++ (Picorv32Soc.preamble ++ (m ++ [s.sTdata])).map Gmii.byte := by
    intro s' h
    rw [← List.append_assoc]
    exact line_byte hl h
  rw [hf.step_eq, caseOf_payload hs hr hv (hf.good hv)]
  cases hlast : i.sAxisTlast with
  | false =>
    refine .payload (m ++ [s.sTdata]) base rfl rfl hp' hc' (hf.stays hv fun _ => hlast) ?_ ?_ (hl' _ rfl)
    · simp [observe, hv, hr, hlast, hcur]
    · simpa [observe, hlast] using hb
  | true =>
    have hm := (hf.size hv hlast).2
    refine .last (m ++ [s.sTdata]) o.frames base rfl rfl ?_ hp' hc' ?_ ?_ hb (hl' _ rfl)
    · rwa [← hcur]
    · simp [observe, hv, hr, hlast]
    · simp [observe, hv, hr, hlast, hcur]

theorem step_last (hf : Feeds g i s o tvalid) {m : List Byte} {fs : List (List Byte)} {base : List Gmii}
    (hs : s.state = .last) (hr : s.sAxisTready = false) (hm : m.length < 65536)
    (hp : s.framePtr = BitVec.ofNat 16 m.length) (hc : s.crcState = crcOf m) (hcur : o.cur = [])
    (hfr : o.frames = fs ++ [m ++ [s.sTdata]]) (hb : Sent g fs base)
    (hl : o.line ++ [s.out] = base ++ (Picorv32Soc.preamble ++ m).map Gmii.byte) :
    Phase g tvalid (step params i s) (observe i s o) := by
  obtain ⟨hframes, hcur'⟩ := observe_idle (i := i) (o := o) hr
  have hc' : crcNext s.sTdata s.crcState = crcOf (m ++ [s.sTdata]) := by
    rw [hc, crcOf_append_singleton]
  rw [hf.step_eq, caseOf_last hs rfl]
  simp only [padLeft_iff hm hp, decide_eq_true_eq]
  by_cases hshort : m.length + 1 < 60
  · simp only [if_pos hshort]
    refine .pad (m ++ [s.sTdata]) 0 fs base rfl rfl ?_ ?_ rfl ?_ (hcur'.trans hcur) (hframes.trans hfr) hb ?_
    · simpa using hshort
    · simp only [hp]; rw [Nat.add_zero, List.length_append, BitVec.ofNat_add]; rfl
    · rw [List.replicate_zero, List.append_nil]; exact hc'
    · rw [List.replicate_zero, List.append_nil, ← List.append_assoc]
      exact line_byte hl rfl
  · have hpad : padded (m ++ [s.sTdata]) = m ++ [s.sTdata] := by
      have hlen : 60 - (m ++ [s.sTdata]).length = 0 := by rw [List.length_append, List.length_singleton]; omega
      rw [padded, hlen, List.replicate_zero, List.append_nil]
    simp only [if_neg hshort]
    refine .fcs (m ++ [s.sTdata]) 0 fs base rfl rfl (by decide) rfl (hpad.symm ▸ hc') (hcur'.trans hcur)
      (hframes.trans hfr) hb ?_
    rw [hpad, List.take_zero, List.append_nil, ← List.append_assoc]
    exact line_byte hl rfl

theorem step_pad (hf : Feeds g i s o tvalid) {f : List Byte} {j : Nat} {fs : List (List Byte)} {base : List Gmii}
    (hs : s.state = .pad) (hr : s.sAxisTready = false) (hj : f.length + j < 60)
    (hp : s.framePtr = BitVec.ofNat 16 (f.length + j)) (hd : s.sTdata = 0)
    (hc : s.crcState = crcOf (f ++ List.replicate j 0)) (hcur : o.cur = []) (hfr : o.frames = fs ++ [f])
    (hb : Sent g fs base)
    (hl : o.line ++ [s.out] = base ++ (Picorv32Soc.preamble ++ (f ++ List.replicate j 0)).map Gmii.byte) :
    Phase g tvalid (step params i s) (observe i s o) := by
  obtain ⟨hframes, hcur'⟩ := observe_idle (i := i) (o := o) hr
  have hzero : f ++ List.replicate j 0 ++ [0] = f ++ List.replicate (j + 1) (0 : Byte) := by
    rw [List.append_assoc, List.replicate_succ']
  have hc' : crcNext s.sTdata s.crcState = crcOf (f ++ List.replicate (j + 1) 0) := by
    rw [hc, hd, ← crcOf_append_singleton, hzero]
  have hl' : ∀ s' : GmiiTx, s'.out = Gmii.byte 0 → (observe i s o).line ++ [s'.out] =
      base ++ (Picorv32Soc.preamble ++ (f ++ List.replicate (j + 1) 0)).map Gmii.byte := by
    intro s' h
    rw [← hzero, ← List.append_assoc _ _ [0]]
    exact line_byte hl h
  rw [hf.step_eq, caseOf_pad hs]
  simp only [padLeft_iff (Nat.lt_trans hj (by decide)) hp, decide_eq_true_eq]
  by_cases hshort : f.length + j + 1 < 60
  · simp only [if_pos hshort]
    refine .pad f (j + 1) fs base rfl rfl hshort ?_ rfl hc' (hcur'.trans hcur) (hframes.trans hfr) hb (hl' _ rfl)
    simp only [hp, ← Nat.add_assoc, BitVec.ofNat_add]; rfl
  · have hpad : padded f = f ++ List.replicate (j + 1) 0 := by rw [padded, show 60 - f.length = j + 1 by omega]
    simp only [if_neg hshort]
    refine .fcs f 0 fs base rfl rfl (by decide) rfl (hpad ▸ hc') (hcur'.trans hcur) (hframes.trans hfr) hb ?_
    rw [hpad, List.take_zero, List.append_nil]
    exact hl' _ rfl

theorem step_fcs (hf : Feeds g i s o tvalid) (hpos : 0 < g) {f : List Byte} {k : Nat} {fs : List (List Byte)}
    {base : List Gmii} (hs : s.state = .fcs) (hr : s.sAxisTready = false) (hk : k < 4)
    (hp : s.framePtr = BitVec.ofNat 16 k) (hc : s.crcState = crcOf (padded f)) (hcur : o.cur = [])
    (hfr : o.frames = fs ++ [f]) (hb : Sent g fs base)
    (hl : o.line ++ [s.out] =
      base ++ (Picorv32Soc.preamble ++ padded f ++ (Picorv32Soc.fcs (padded f)).take k).map Gmii.byte) :
    Phase g tvalid (step params i s) (observe i s o) := by
  obtain ⟨hframes, hcur'⟩ := observe_idle (i := i) (o := o) hr
  have hbyte : (Picorv32Soc.fcs (padded f)).take (k + 1) =
      (Picorv32Soc.fcs (padded f)).take k ++ [fcsByte s.crcState s.framePtr] := by
    rw [hc, hp]
    exact take_fcs _ hk
  have hl' : ∀ s' : GmiiTx, s'.out = Gmii.byte (fcsByte s.crcState s.framePtr) → (observe i s o).line ++ [s'.out] =
      base ++ (Picorv32Soc.preamble ++ padded f ++ (Picorv32Soc.fcs (padded f)).take (k + 1)).map Gmii.byte := by
    intro s' h
    rw [hbyte, ← List.append_assoc]
    exact line_byte hl h
  have h3 : s.framePtr < 3 ↔ k < 3 := by
    rw [hp, BitVec.lt_def, BitVec.toNat_ofNat, Nat.mod_eq_of_lt (by omega)]
    rfl
  rw [hf.step_eq, caseOf_fcs hs]
  by_cases hlt : k < 3
  · simp only [if_pos (h3.2 hlt)]
    refine .fcs f (k + 1) fs base rfl rfl (by omega) ?_ hc (hcur'.trans hcur) (hframes.trans hfr) hb (hl' _ rfl)
    simp only [hp, BitVec.ofNat_add]; rfl
  · obtain rfl : k = 3 := by omega
    simp only [if_neg (h3.not.2 hlt)]
    refine .ifg f 0 fs base rfl rfl hpos rfl (hcur'.trans hcur) (hframes.trans hfr) hb ?_
    rw [List.replicate_zero, List.append_nil]
    exact hl' _ rfl

theorem step_ifg (hf : Feeds g i s o tvalid) {f : List Byte} {k : Nat} {fs : List (List Byte)} {base : List Gmii}
    (hs : s.state = .ifg) (hr : s.sAxisTready = false) (hk : k < g) (hp : s.framePtr = BitVec.ofNat 16 k)
    (hcur : o.cur = []) (hfr : o.frames = fs ++ [f]) (hb : Sent g fs base)
    (hl : o.line ++ [s.out] = base ++ (wire f).map Gmii.byte ++ List.replicate k Gmii.idle) :
    Phase g tvalid (step params i s) (observe i s o) := by
  obtain ⟨hframes, hcur'⟩ := observe_idle (i := i) (o := o) hr
  have hl' : ∀ s' : GmiiTx, s'.out = Gmii.idle → (observe i s o).line ++ [s'.out] =
      base ++ (wire f).map Gmii.byte ++ List.replicate (k + 1) Gmii.idle := by
    intro s' h
    rw [line_observe hl, h, List.append_assoc, List.replicate_succ']
  rw [hf.step_eq, caseOf_ifg hs]
  simp only [gapLeft_iff hf.ifgDelay (Nat.zero_lt_of_lt hk) hk hp, decide_eq_true_eq]
  by_cases hlt : k + 1 < g
  · simp only [if_pos hlt]
    refine .ifg f (k + 1) fs base rfl rfl hlt ?_ (hcur'.trans hcur) (hframes.trans hfr) hb (hl' _ rfl)
    simp only [hp, BitVec.ofNat_add]; rfl
  · simp only [if_neg hlt]
    refine .idle rfl rfl (hcur'.trans hcur) ?_
    rw [hframes, hfr, hl' _ rfl]
    exact hb.frame f (Nat.le_of_not_lt hlt)

/-- Every cycle moves on in the frame. -/
theorem step (hpos : 0 < g) (hf : Feeds g i s o tvalid) (h : Phase g i.sAxisTvalid s o) :
    Phase g tvalid (step params i s) (observe i s o) := by
  cases h with
  | idle hs hr hcur hl => exact step_idle hf hs hr hcur hl
  | preamble k base hs hr hk hp hc hv hcur hb hl => exact step_preamble hf hv hs hr hk hp hcur hb hl
  | payload m base hs hr hp hc hv hcur hb hl => exact step_payload hf hv hs hr hp hc hcur hb hl
  | last m fs base hs hr hm hp hc hcur hfr hb hl => exact step_last hf hs hr hm hp hc hcur hfr hb hl
  | pad f j fs base hs hr hj hp hd hc hcur hfr hb hl => exact step_pad hf hs hr hj hp hd hc hcur hfr hb hl
  | fcs f k fs base hs hr hk hp hc hcur hfr hb hl => exact step_fcs hf hpos hs hr hk hp hc hcur hfr hb hl
  | ifg f k fs base hs hr hk hp hcur hfr hb hl => exact step_ifg hf hs hr hk hp hcur hfr hb hl

end Phase

theorem phase {g : Nat} (hpos : 0 < g) {inp : Nat → GmiiTxIn} (h : Source g inp) (t : Nat) :
    Phase g (inp t).sAxisTvalid (run (GmiiTx.step params) inp init t) (seen inp t) := by
  induction t with
  | zero => exact .idle rfl rfl rfl (.start 1)
  | succ t ih => exact ih.step hpos (h t)

/-! ### The time to the end of a frame -/

/-- After `n` more cycles the transmitter is idle. -/
def Closing (g n : Nat) (s : GmiiTx) : Prop :=
  match s.state with
  | .idle => n = 0
  | .last => n = 5 + (59 - s.framePtr.toNat) + g
  | .pad => n = 4 + (60 - s.framePtr.toNat) + g
  | .fcs => n = 4 - s.framePtr.toNat + g
  | .ifg => n = g - s.framePtr.toNat
  | _ => False

section
variable {g n : Nat} {i : GmiiTxIn} {s : GmiiTx} {o : TxSeen} {tvalid : Bool}

theorem Closing.step (hpos : 0 < g) (hf : Feeds g i s o tvalid) (hphase : Phase g i.sAxisTvalid s o)
    (h : Closing g (n + 1) s) : Closing g n (GmiiTx.step params i s) := by
  have hsucc : ∀ k, k < 65535 → s.framePtr = BitVec.ofNat 16 k → (s.framePtr + 1).toNat = k + 1 := by
    intro k hk hp
    rw [hp, BitVec.toNat_add, BitVec.toNat_ofNat, show (1 : BitVec 16).toNat = 1 from rfl]
    omega
  have hptr : ∀ k, k < 65536 → s.framePtr = BitVec.ofNat 16 k → s.framePtr.toNat = k := by
    intro k hk hp
    rw [hp, BitVec.toNat_ofNat, Nat.mod_eq_of_lt hk]
  rw [hf.step_eq]
  cases hphase with
  | idle hs => rw [Closing, hs] at h; cases h
  | preamble k base hs => rw [Closing, hs] at h; exact h.elim
  | payload m base hs => rw [Closing, hs] at h; exact h.elim
  | last m fs base hs hr hm hp =>
    rw [Closing, hs, hptr _ hm hp] at h
    rw [caseOf_last hs rfl]
    simp only [Closing, padLeft_iff hm hp, decide_eq_true_eq]
    by_cases hshort : m.length + 1 < 60
    · simp only [if_pos hshort, hsucc _ (by omega) hp]; omega
    · simp only [if_neg hshort]; rw [show (0 : BitVec 16).toNat = 0 from rfl]; omega
  | pad f j fs base hs hr hj hp =>
    rw [Closing, hs, hptr _ (by omega) hp] at h
    rw [caseOf_pad hs]
    simp only [Closing, padLeft_iff (Nat.lt_trans hj (by decide)) hp, decide_eq_true_eq]
    by_cases hshort : f.length + j + 1 < 60
    · simp only [if_pos hshort, hsucc _ (by omega) hp]; omega
    · simp only [if_neg hshort]; rw [show (0 : BitVec 16).toNat = 0 from rfl]; omega
  | fcs f k fs base hs hr hk hp =>
    have h3 : s.framePtr < 3 ↔ k < 3 := by
      rw [BitVec.lt_def, hptr _ (by omega) hp]; rfl
    rw [Closing, hs, hptr _ (by omega) hp] at h
    rw [caseOf_fcs hs]
    simp only [Closing, h3]
    by_cases hlt : k < 3
    · simp only [if_pos hlt, hsucc _ (by omega) hp]; omega
    · simp only [if_neg hlt]; rw [show (0 : BitVec 16).toNat = 0 from rfl]; omega
  | ifg f k fs base hs hr hk hp =>
    have hg : g < 256 := hf.ifgDelay ▸ i.ifgDelay.isLt
    rw [Closing, hs, hptr _ (by omega) hp] at h
    rw [caseOf_ifg hs]
    simp only [Closing, gapLeft_iff hf.ifgDelay hpos hk hp, decide_eq_true_eq]
    by_cases hlt : k + 1 < g
    · simp only [if_pos hlt, hsucc _ (by omega) hp]; omega
    · simp only [if_neg hlt]; omega

theorem Closing.run {inp : Nat → GmiiTxIn} (hpos : 0 < g) (h : Source g inp) {t : Nat}
    (hc : Closing g n (Clocked.run (GmiiTx.step params) inp init t)) :
    Closing g 0 (Clocked.run (GmiiTx.step params) inp init (t + n)) := by
  induction n generalizing t with
  | zero => exact hc
  | succ n ih =>
    have := ih (t := t + 1) (hc.step hpos (h t) (phase hpos h t))
    rwa [Nat.add_right_comm, Nat.add_assoc] at this

theorem Closing.idle (hphase : Phase g tvalid s o) (h : Closing g 0 s) : s.state = .idle := by
  cases hphase with
  | idle hs => exact hs
  | preamble k base hs => rw [Closing, hs] at h; exact h.elim
  | payload m base hs => rw [Closing, hs] at h; exact h.elim
  | last m fs base hs => rw [Closing, hs] at h; dsimp only at h; omega
  | pad f j fs base hs => rw [Closing, hs] at h; dsimp only at h; omega
  | fcs f k fs base hs hr hk hp =>
    rw [Closing, hs, hp, BitVec.toNat_ofNat, Nat.mod_eq_of_lt (by omega)] at h; dsimp only at h; omega
  | ifg f k fs base hs hr hk hp =>
    have := Nat.mod_le k (2 ^ 16)
    rw [Closing, hs, hp, BitVec.toNat_ofNat] at h; dsimp only at h; omega

end

theorem errorUnderflow_step {g : Nat} {i : GmiiTxIn} {s : GmiiTx} {o : TxSeen} {tvalid : Bool} (hf : Feeds g i s o tvalid)
    (hphase : Phase g i.sAxisTvalid s o) : (GmiiTx.step params i s).errorUnderflow = false := by
  rw [hf.step_eq]
  cases hphase with
  | idle hs =>
    cases hv : i.sAxisTvalid with
    | true => rw [caseOf_idle_valid hs hv]; rfl
    | false => rw [caseOf_idle hs hv]; rfl
  | preamble k base hs hr hk hp =>
    by_cases h7 : s.framePtr = 7
    · have : k = 7 := (framePtr_eq_iff (by omega) hp (by decide)).1 h7
      rw [caseOf_delimiter hs h7 (hr.trans (decide_eq_true this))]; rfl
    · rw [caseOf_preamble hs h7]; rfl
  | payload m base hs hr hp hc hv => rw [caseOf_payload hs hr hv (hf.good hv)]; rfl
  | last m fs base hs => rw [caseOf_last hs rfl]; rfl
  | pad f j fs base hs => rw [caseOf_pad hs]; rfl
  | fcs f k fs base hs => rw [caseOf_fcs hs]; rfl
  | ifg f k fs base hs => rw [caseOf_ifg hs]; rfl

theorem sent_of_idle {g : Nat} (hpos : 0 < g) {inp : Nat → GmiiTxIn} (h : Source g inp) {t : Nat}
    (hs : (run (GmiiTx.step params) inp init t).state = .idle) :
    (seen inp t).cur = [] ∧
      Sent g (seen inp t).frames ((seen inp t).line ++ [(run (GmiiTx.step params) inp init t).out]) := by
  cases phase hpos h t with
  | idle _ _ hcur hl => exact ⟨hcur, hl⟩
  | preamble _ _ hs' | payload _ _ hs' | last _ _ _ hs' | pad _ _ _ _ hs' | fcs _ _ _ _ hs' | ifg _ _ _ _ hs' =>
    rw [hs] at hs'; cases hs'

theorem idle_after_last {g : Nat} (hpos : 0 < g) {inp : Nat → GmiiTxIn} (h : Source g inp) {t : Nat}
    (hv : (inp t).sAxisTvalid = true) (hr : (run (GmiiTx.step params) inp init t).sAxisTready = true)
    (hlast : (inp t).sAxisTlast = true) :
    (run (GmiiTx.step params) inp init (t + 6 + (60 - ((seen inp t).cur.length + 1)) + g)).state = .idle := by
  -- only a payload byte is taken with `tlast`
  cases phase hpos h t with
  | preamble k base hs hr' hk hp hc hv' hcur =>
    have := ((h t).size hv hlast).1
    rw [hcur] at this
    exact absurd this (by decide)
  | payload m base hs hr' hp hc hv' hcur =>
    have hm : m.length + 1 < 65536 := by simpa [hcur] using ((h t).size hv hlast).2
    have hc : Closing g (5 + (59 - (m.length + 1)) + g) (run (GmiiTx.step params) inp init (t + 1)) := by
      rw [run_succ, (h t).step_eq, caseOf_payload hs hr hv ((h t).good hv), hlast]
      simp only [Closing, if_true, hp, BitVec.toNat_add, BitVec.toNat_ofNat]
      rw [show (1 : BitVec 16).toNat = 1 from rfl]
      omega
    have hlen : (seen inp t).cur.length + 1 = m.length + 2 := by simp [hcur]
    have hend := hc.run hpos h
    rw [hlen, show t + 6 + (60 - (m.length + 2)) + g = t + 1 + (5 + (59 - (m.length + 1)) + g) by omega]
    exact hend.idle (phase hpos h _)
  | idle _ hr' | last _ _ _ _ hr' | pad _ _ _ _ _ hr' | fcs _ _ _ _ _ hr' | ifg _ _ _ _ _ hr' =>
    rw [hr] at hr'; cases hr'

/-- Whenever the transmitter is idle, the line has carried exactly the frames taken from the source, and
after the last byte of a frame it is idle within the time the rest takes. It never underflows. -/
theorem gmii_tx_sends {g : Nat} (hpos : 0 < g) {inp : Nat → GmiiTxIn} (h : Source g inp) (t : Nat) :
    ((run (GmiiTx.step params) inp init t).state = .idle →
      (seen inp t).cur = [] ∧
        Sent g (seen inp t).frames ((seen inp t).line ++ [(run (GmiiTx.step params) inp init t).out])) ∧
    ((inp t).sAxisTvalid = true → (run (GmiiTx.step params) inp init t).sAxisTready = true → (inp t).sAxisTlast = true →
      (run (GmiiTx.step params) inp init (t + 6 + (60 - ((seen inp t).cur.length + 1)) + g)).state = .idle) ∧
    (run (GmiiTx.step params) inp init t).errorUnderflow = false := by
  refine ⟨sent_of_idle hpos h, idle_after_last hpos h, ?_⟩
  cases t with
  | zero => rfl
  | succ t => exact errorUnderflow_step (h t) (phase hpos h t)

/-- A source with one frame of two bytes. -/
def shortFrame (t : Nat) : GmiiTxIn where
  rst := false
  sAxisTdata := if t = 8 then 0xCD else 0xAB
  sAxisTvalid := decide (t ≤ 8)
  sAxisTlast := decide (t = 8)
  sAxisTuser := false
  clkEnable := true
  miiSelect := false
  ifgDelay := 12

theorem source_shortFrame : Source 12 shortFrame := by
  intro t
  refine ⟨rfl, rfl, rfl, rfl, ?_, fun _ _ => rfl, ?_⟩
  · intro hv hlast
    have hv : t ≤ 8 := of_decide_eq_true hv
    rcases Nat.lt_or_eq_of_le hv with h | rfl
    · exact decide_eq_true h
    · exact absurd (hlast (by decide)) (by decide)
  · intro _ hlast
    obtain rfl : t = 8 := of_decide_eq_true hlast
    decide

theorem gmii_tx_sends_short : Source 12 shortFrame ∧ (run (GmiiTx.step params) shortFrame init 84).state = .idle :=
  ⟨source_shortFrame, (gmii_tx_sends (by decide) source_shortFrame 8).2.1 (by decide) (by decide) (by decide)⟩

end GmiiTx

end Picorv32Soc
