import Picorv32Soc.Gray
import Picorv32Soc.Rounds

/-!
# The frame FIFO between two clocks (`rtl/eth/axis_async_fifo.v`)

The write side runs on `s_clk`, the read side on `m_clk`, and each sees registers of the other only through
its synchronisers. In frame mode a frame is written behind `wr_ptr_cur` and becomes visible when
`wr_ptr` follows; the read side gets `wr_ptr` by a handshake of two toggles, the write side gets `rd_ptr` as a
Gray code. When both clocks have an edge at once, a synchroniser takes each bit from the old or from the new
value (`FifoEdge.sel`), and the memory is read before or after the write.

`FRAME_FIFO` and `DROP_BAD_FRAME` are set in the SoC; `wr_ptr_gray_sync2`, which only the other mode reads, and
the status outputs of the read side, which are not connected, are left out.
-/

namespace Picorv32Soc
open Gray

/-- A word of the stream: data and `tkeep`, `tlast`, and `tuser`, which marks a bad frame on its last word. -/
structure AxisWord (δ : Type) where
  data : δ
  tlast : Bool
  tuser : Bool
deriving DecidableEq

variable {δ : Type} {a : Nat}

/-- The registers on `s_clk`; `a` is `ADDR_WIDTH`. -/
structure FifoS (a : Nat) where
  wrPtr : BitVec (a + 1)
  wrPtrCur : BitVec (a + 1)
  wrPtrGray : BitVec (a + 1)
  wrPtrSyncGray : BitVec (a + 1)
  wrPtrCurGray : BitVec (a + 1)
  wrAddr : BitVec (a + 1)
  rdPtrGraySync1 : BitVec (a + 1)
  rdPtrGraySync2 : BitVec (a + 1)
  wrPtrUpdateValid : Bool
  wrPtrUpdate : Bool
  wrPtrUpdateAckSync1 : Bool
  wrPtrUpdateAckSync2 : Bool
  sRstSync1 : Bool
  sRstSync2 : Bool
  sRstSync3 : Bool
  dropFrame : Bool
  overflow : Bool
  badFrame : Bool
  goodFrame : Bool

/-- The registers on `m_clk`. -/
structure FifoM (δ : Type) (a : Nat) where
  rdPtr : BitVec (a + 1)
  rdPtrGray : BitVec (a + 1)
  rdAddr : BitVec (a + 1)
  wrPtrGraySync1 : BitVec (a + 1)
  wrPtrUpdateSync1 : Bool
  wrPtrUpdateSync2 : Bool
  wrPtrUpdateSync3 : Bool
  mRstSync1 : Bool
  mRstSync2 : Bool
  mRstSync3 : Bool
  memReadData : AxisWord δ
  memReadDataValid : Bool
  mAxis : AxisWord δ
  mAxisTvalid : Bool

/-- What the write side reads of the other one. -/
structure FifoToS (a : Nat) where
  rdPtrGray : BitVec (a + 1)
  wrPtrUpdateSync3 : Bool
  mRstSync1 : Bool

/-- What the read side reads of the other one. -/
structure FifoToM (a : Nat) where
  wrPtrSyncGray : BitVec (a + 1)
  wrPtrUpdate : Bool
  sRstSync1 : Bool

/-- The inputs of the write side. -/
structure FifoSIn (δ : Type) where
  word : AxisWord δ
  tvalid : Bool

namespace FifoS

def toM (s : FifoS a) : FifoToM a := ⟨s.wrPtrSyncGray, s.wrPtrUpdate, s.sRstSync1⟩

def fullCur (s : FifoS a) : Bool := grayApart s.wrPtrCurGray s.rdPtrGraySync2

/-- The frame alone fills the memory. -/
def fullWr (s : FifoS a) : Bool := apart s.wrPtr s.wrPtrCur

variable (dropWhenFull : Bool)

def tready (s : FifoS a) : Bool := (!s.fullCur || s.fullWr || dropWhenFull) && !s.sRstSync3

/-- The word is lost: full, frame too long, or the frame is being dropped already. -/
def loses (s : FifoS a) : Bool := s.fullCur || s.fullWr || s.dropFrame

def takes (i : FifoSIn δ) (s : FifoS a) : Bool := s.tready dropWhenFull && i.tvalid

def write (i : FifoSIn δ) (s : FifoS a) : Bool := s.takes dropWhenFull i && !s.loses

/-- An updated pointer waits for the last handshake to end. -/
def sync (s : FifoS a) : FifoS a :=
  if s.wrPtrUpdateValid && s.wrPtrUpdate == s.wrPtrUpdateAckSync2 then
    { s with wrPtrUpdateValid := false, wrPtrSyncGray := s.wrPtrGray, wrPtrUpdate := !s.wrPtrUpdateAckSync2 }
  else s

/-- A good frame is complete. -/
def commit (d : FifoS a) : FifoS a :=
  let wrPtr := d.wrPtrCur + 1
  let d := { d with wrPtr := wrPtr, wrPtrGray := gray wrPtr, wrPtrCur := wrPtr, wrPtrCurGray := gray wrPtr,
                    goodFrame := true }
  if d.wrPtrUpdate == d.wrPtrUpdateAckSync2 then
    { d with wrPtrUpdateValid := false, wrPtrSyncGray := gray wrPtr, wrPtrUpdate := !d.wrPtrUpdateAckSync2 }
  else { d with wrPtrUpdateValid := true }

/-- The frame is given up, the pointer goes back to its beginning. -/
def revert (d : FifoS a) : FifoS a := { d with wrPtrCur := d.wrPtr, wrPtrCurGray := gray d.wrPtr }

/-- The status lasts for one cycle. -/
def noStatus (d : FifoS a) : FifoS a := { d with overflow := false, badFrame := false, goodFrame := false }

/-- The write logic. -/
def next (i : FifoSIn δ) (s : FifoS a) : FifoS a :=
  let d := s.sync.noStatus
  if s.takes dropWhenFull i then
    if s.loses then
      if i.word.tlast then { d.revert with dropFrame := false, overflow := true } else { d with dropFrame := true }
    else if i.word.tlast then
      if i.word.tuser then { d.revert with badFrame := true } else d.commit
    else { d with wrPtrCur := s.wrPtrCur + 1, wrPtrCurGray := gray (s.wrPtrCur + 1) }
  else d

def step (i : FifoSIn δ) (x : FifoToS a) (s : FifoS a) : FifoS a :=
  let d := s.next dropWhenFull i
  let d :=
    if s.sRstSync3 then
      { d with wrPtr := 0, wrPtrCur := 0, wrPtrGray := 0, wrPtrSyncGray := 0, wrPtrCurGray := 0, wrPtrUpdateValid := false,
               wrPtrUpdate := false, dropFrame := false, overflow := false, badFrame := false, goodFrame := false,
               wrAddr := d.wrPtrCur, rdPtrGraySync1 := 0, rdPtrGraySync2 := 0, wrPtrUpdateAckSync1 := false,
               wrPtrUpdateAckSync2 := false }
    else
      { d with wrAddr := d.wrPtrCur, rdPtrGraySync1 := x.rdPtrGray, rdPtrGraySync2 := s.rdPtrGraySync1,
               wrPtrUpdateAckSync1 := x.wrPtrUpdateSync3, wrPtrUpdateAckSync2 := s.wrPtrUpdateAckSync1 }
  { d with sRstSync1 := false, sRstSync2 := s.sRstSync1 || x.mRstSync1, sRstSync3 := s.sRstSync2 }

/-- The memory after the edge. -/
def store (i : FifoSIn δ) (s : FifoS a) (mem : BitVec a → AxisWord δ) : BitVec a → AxisWord δ :=
  if s.write dropWhenFull i then Function.update mem (s.wrAddr.setWidth a) i.word else mem

end FifoS

namespace FifoM

def toS (m : FifoM δ a) : FifoToS a := ⟨m.rdPtrGray, m.wrPtrUpdateSync3, m.mRstSync1⟩

def empty (m : FifoM δ a) : Bool := m.rdPtrGray == m.wrPtrGraySync1

variable (tready : Bool)

def storeOutput (m : FifoM δ a) : Bool := tready || !m.mAxisTvalid

def read (m : FifoM δ a) : Bool := (m.storeOutput tready || !m.memReadDataValid) && !m.empty

/-- The read logic. -/
def rdPtrNext (m : FifoM δ a) : BitVec (a + 1) := if m.read tready then m.rdPtr + 1 else m.rdPtr

def step (y : FifoToM a) (mem : BitVec a → AxisWord δ) (m : FifoM δ a) : FifoM δ a :=
  let d := { m with
    rdAddr := m.rdPtrNext tready
    memReadData := if m.read tready then mem (m.rdAddr.setWidth a) else m.memReadData
    mAxis := if m.storeOutput tready then m.memReadData else m.mAxis }
  let d :=
    if m.mRstSync3 then
      { d with wrPtrGraySync1 := 0, wrPtrUpdateSync1 := false, wrPtrUpdateSync2 := false, wrPtrUpdateSync3 := false,
               rdPtr := 0, rdPtrGray := 0, memReadDataValid := false, mAxisTvalid := false }
    else
      { d with
        wrPtrGraySync1 := if m.wrPtrUpdateSync2 ^^ m.wrPtrUpdateSync3 then y.wrPtrSyncGray else m.wrPtrGraySync1
        wrPtrUpdateSync1 := y.wrPtrUpdate
        wrPtrUpdateSync2 := m.wrPtrUpdateSync1
        wrPtrUpdateSync3 := m.wrPtrUpdateSync2
        rdPtr := m.rdPtrNext tready
        rdPtrGray := if m.read tready then gray (m.rdPtr + 1) else m.rdPtrGray
        memReadDataValid :=
          if m.storeOutput tready || !m.memReadDataValid then !m.empty else m.memReadDataValid
        mAxisTvalid := if m.storeOutput tready then m.memReadDataValid else m.mAxisTvalid }
  { d with mRstSync1 := false, mRstSync2 := y.sRstSync1 || m.mRstSync1, mRstSync3 := m.mRstSync2 }

end FifoM

/-! ### Both sides -/

structure AsyncFifo (δ : Type) (a : Nat) where
  s : FifoS a
  m : FifoM δ a
  mem : BitVec a → AxisWord δ

/-- A synchroniser's choice at simultaneous edges: the bits taken from the old values. -/
structure FifoSel (a : Nat) where
  rdPtrGray : BitVec (a + 1)
  wrPtrUpdateSync3 : Bool
  mRstSync1 : Bool
  wrPtrSyncGray : BitVec (a + 1)
  wrPtrUpdate : Bool
  sRstSync1 : Bool
  mem : Bool

/-- An edge of `s_clk` with its inputs, an edge of `m_clk` with `m_axis_tready`, or both. -/
structure FifoEdge (δ : Type) (a : Nat) where
  s : Option (FifoSIn δ)
  m : Option Bool
  sel : FifoSel a

namespace AsyncFifo

def pickToS (c : FifoSel a) (old new : FifoToS a) : FifoToS a :=
  ⟨pick c.rdPtrGray old.rdPtrGray new.rdPtrGray,
    if c.wrPtrUpdateSync3 then old.wrPtrUpdateSync3 else new.wrPtrUpdateSync3,
    if c.mRstSync1 then old.mRstSync1 else new.mRstSync1⟩

def pickToM (c : FifoSel a) (old new : FifoToM a) : FifoToM a :=
  ⟨pick c.wrPtrSyncGray old.wrPtrSyncGray new.wrPtrSyncGray,
    if c.wrPtrUpdate then old.wrPtrUpdate else new.wrPtrUpdate,
    if c.sRstSync1 then old.sRstSync1 else new.sRstSync1⟩

variable (dropWhenFull : Bool)

def stepS (i : Option (FifoSIn δ)) (x : FifoToS a) (s : FifoS a) : FifoS a := (i.map fun i => s.step dropWhenFull i x).getD s

def stepM (r : Option Bool) (y : FifoToM a) (mem : BitVec a → AxisWord δ) (m : FifoM δ a) : FifoM δ a :=
  (r.map fun r => m.step r y mem).getD m

/-- The registers that are read on the other side do not depend on what is read there in the same cycle, so
their new values are those of a step that reads the old ones. -/
def step (e : FifoEdge δ a) (f : AsyncFifo δ a) : AsyncFifo δ a :=
  let s₀ := stepS dropWhenFull e.s f.m.toS f.s
  let m₀ := stepM e.m f.s.toM f.mem f.m
  let mem := (e.s.map fun i => f.s.store dropWhenFull i f.mem).getD f.mem
  { s := stepS dropWhenFull e.s (pickToS e.sel f.m.toS m₀.toS) f.s
    m := stepM e.m (pickToM e.sel f.s.toM s₀.toM) (if e.sel.mem then f.mem else mem) f.m
    mem := mem }

/-- The power-on state; the memory and the data registers hold anything. -/
def init (mem : BitVec a → AxisWord δ) (w w' : AxisWord δ) : AsyncFifo δ a where
  s := ⟨0, 0, 0, 0, 0, 0, 0, 0, false, false, false, false, true, true, true, false, false, false, false⟩
  m := ⟨0, 0, 0, 0, false, false, false, true, true, true, w, false, w', false⟩
  mem := mem

end AsyncFifo

/-! ### What has gone through -/

/-- The frames taken at the input with whether they were kept, the words of the frame that is coming in, and
the words delivered. -/
structure FifoLog (δ : Type) where
  frames : List (List (AxisWord δ) × Bool)
  cur : List (AxisWord δ)
  out : List (AxisWord δ)

/-- The words of the frames that were kept. -/
def FifoLog.good (g : FifoLog δ) : List (AxisWord δ) := (g.frames.filter Prod.snd).flatMap Prod.fst

namespace AsyncFifo
variable (dropWhenFull : Bool)

def logS (i : FifoSIn δ) (s : FifoS a) (g : FifoLog δ) : FifoLog δ :=
  if s.takes dropWhenFull i then
    if i.word.tlast then { g with frames := g.frames ++ [(g.cur ++ [i.word], !s.loses && !i.word.tuser)], cur := [] }
    else { g with cur := g.cur ++ [i.word] }
  else g

/-- The word that leaves at an edge of `m_clk`. -/
def delivered (tready : Bool) (m : FifoM δ a) : List (AxisWord δ) := if m.mAxisTvalid && tready then [m.mAxis] else []

def log (e : FifoEdge δ a) (f : AsyncFifo δ a) (g : FifoLog δ) : FifoLog δ :=
  let g := (e.s.map fun i => logS dropWhenFull i f.s g).getD g
  { g with out := g.out ++ (e.m.map fun r => delivered r f.m).getD [] }

/-- The FIFO and its log after an edge. -/
def next (e : FifoEdge δ a) (x : AsyncFifo δ a × FifoLog δ) : AsyncFifo δ a × FifoLog δ :=
  (step dropWhenFull e x.1, log dropWhenFull e x.1 x.2)

/-- The FIFO and its log after a sequence of edges. -/
def run (es : List (FifoEdge δ a)) (f : AsyncFifo δ a) (g : FifoLog δ) : AsyncFifo δ a × FifoLog δ :=
  Rounds.after (next dropWhenFull) es (f, g)

end AsyncFifo

end Picorv32Soc
