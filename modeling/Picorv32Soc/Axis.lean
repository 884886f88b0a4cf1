import Picorv32Soc.Bits

/-!
# The receive stream

Frames as the RX FIFO of the MAC delivers them on its AXI stream (32-bit beats, low lane first, only
the last beat may be partial and it carries `tlast`), and the output side of the frame-mode
`axis_async_fifo` as a stream source: a beat is consumed exactly when `tvalid` and `tready` are both
set, `tvalid` is never dropped inside a frame, and the last beat stays on the outputs with `tvalid`
low while nothing is queued.
-/

namespace Picorv32Soc
open Bits

/-- A frame on the stream: the words of the full beats, then the last beat with `tailKeep + 1` bytes.
The lanes of the last beat that `tkeep` leaves out may hold anything. -/
structure Frame where
  body : List (BitVec 32)
  tail : BitVec 32
  tailKeep : Fin 4
deriving DecidableEq, Repr

/-- The low-contiguous `tkeep` of `k + 1` bytes. -/
def keepMask : Fin 4 → BitVec 4
  | 0 => 0x1
  | 1 => 0x3
  | 2 => 0x7
  | 3 => 0xf

theorem keepMask_getLsbD (k : Fin 4) {l : Nat} (hl : l < 4) :
    (keepMask k).getLsbD l = decide (l < k.val + 1) := by
  interval_cases l <;> revert k <;> decide

/-- One transfer of the stream. -/
structure Beat where
  tdata : BitVec 32
  tkeep : BitVec 4
  tlast : Bool
deriving DecidableEq, Repr

/-- The bytes of a transfer, low lane first. -/
def Beat.kept (b : Beat) : List (BitVec 8) :=
  ((List.range 4).filter fun l => b.tkeep.getLsbD l).map fun l => byteLane b.tdata (BitVec.ofNat 2 l)

theorem Beat.kept_eq {b : Beat} {k : Fin 4} (hk : b.tkeep = keepMask k) :
    b.kept = (List.range (k.val + 1)).map fun l => byteLane b.tdata (BitVec.ofNat 2 l) := by
  rw [Beat.kept, hk]
  revert k
  have hfilter : ∀ k : Fin 4, (List.range 4).filter (fun l => (keepMask k).getLsbD l) = List.range (k.val + 1) := by
    decide
  intro k _
  rw [hfilter]

/-- The transfers `bs` are one packet with the contents `bytes`: only the last one has `tlast` set, and
every `tkeep` is low-contiguous. -/
structure IsPacket (bs : List Beat) (bytes : List (BitVec 8)) : Prop where
  last : ∃ k, bs.map Beat.tlast = List.replicate k false ++ [true]
  keep : ∀ b ∈ bs, ∃ k : Fin 4, b.tkeep = keepMask k
  bytes : bs.flatMap Beat.kept = bytes

namespace Frame

/-- A frame whose last beat is full as well. -/
def ofWords (body : List (BitVec 32)) (tail : BitVec 32) : Frame := ⟨body, tail, 3⟩

def beats (f : Frame) : Nat := f.body.length + 1

def nbytes (f : Frame) : Nat := 4 * f.body.length + f.tailKeep.val + 1

/-- Beat `i` of the frame; past the end, the last beat. -/
def beat (f : Frame) (i : Nat) : Beat where
  tdata := f.body.getD i f.tail
  tkeep := if i < f.body.length then 0xf else keepMask f.tailKeep
  tlast := decide (f.body.length ≤ i)

def beatList (f : Frame) : List Beat := (List.range f.beats).map f.beat

def byte (f : Frame) (j : Nat) : BitVec 8 := byteLane (f.beat (j / 4)).tdata (BitVec.ofNat 2 (j % 4))

/-- The number of bytes in the first `i` beats. -/
def bytesBefore (f : Frame) (i : Nat) : Nat := min (4 * i) f.nbytes

variable (f : Frame)

theorem beats_pos : 0 < f.beats := Nat.succ_pos _

theorem nbytes_pos : 0 < f.nbytes := Nat.succ_pos _

theorem beats_eq : f.beats = (f.nbytes + 3) / 4 := by
  have := f.tailKeep.isLt
  simp only [beats, nbytes]; omega

theorem beat_tlast {i : Nat} : (f.beat i).tlast = decide (f.beats ≤ i + 1) := by
  simp [beat, beats]

theorem beat_tkeep_full {i : Nat} (h : i + 1 < f.beats) : (f.beat i).tkeep = 0xf := by
  have : i < f.body.length := by simp only [beats] at h; omega
  simp [beat, this]

theorem beat_tkeep_last {i : Nat} (h : f.beats ≤ i + 1) : (f.beat i).tkeep = keepMask f.tailKeep := by
  have : ¬ i < f.body.length := by simp only [beats] at h; omega
  simp [beat, this]

theorem beat_of_le {i : Nat} (h : f.beats ≤ i) : f.beat i = f.beat (f.beats - 1) := by
  have h1 : ¬ i < f.body.length := by simp only [beats] at h; omega
  have h2 : f.body.length ≤ i := Nat.not_lt.1 h1
  simp [beat, beats, h2]

theorem beat_tkeep_getLsbD {i l : Nat} (hi : i < f.beats) (hl : l < 4) :
    (f.beat i).tkeep.getLsbD l = decide (4 * i + l < f.nbytes) := by
  rcases Nat.lt_or_ge (i + 1) f.beats with h | h
  · rw [beat_tkeep_full f h]
    have : 4 * i + l < f.nbytes := by simp only [beats, nbytes] at h ⊢; omega
    rw [decide_eq_true this]
    interval_cases l <;> rfl
  · rw [beat_tkeep_last f h]
    have hn : f.nbytes = 4 * i + (f.tailKeep.val + 1) := by simp only [beats, nbytes] at hi h ⊢; omega
    rw [hn, keepMask_getLsbD _ hl]
    simp only [Nat.add_lt_add_iff_left]

end Frame

/-- The output side of the RX FIFO: while `tvalid` is set, beat `pos` of frame `cur` is on the outputs, and
`stale` otherwise: the last beat of the frame before, or, in front of the first frame, whatever the output register
held at power-on. `pending` holds the frames still to come, each with the number of cycles `tvalid` stays low before
its first beat. -/
structure RxSource where
  cur : Frame
  pos : Nat
  tvalid : Bool
  stale : Beat
  pending : List (Nat × Frame)

namespace RxSource

/-- Nothing has been delivered yet, over an output register of zeros. -/
def before (sched : List (Nat × Frame)) : RxSource := ⟨.ofWords [] 0, 0, false, ⟨0, 0, false⟩, sched⟩

def out (s : RxSource) : Beat := if s.tvalid then s.cur.beat s.pos else s.stale

/-- The frame is over (or none was there): present the next one when its time has come. -/
def load (s : RxSource) : RxSource :=
  match s.pending with
  | [] => { s with tvalid := false, stale := s.out }
  | (0, f) :: ps => { s with cur := f, pos := 0, tvalid := true, pending := ps }
  | (g + 1, f) :: ps => { s with tvalid := false, stale := s.out, pending := (g, f) :: ps }

def step (s : RxSource) (tready : Bool) : RxSource :=
  if s.tvalid then
    if tready then
      if s.out.tlast then s.load else { s with pos := s.pos + 1 }
    else s
  else s.load

/-- The beat consumed at this edge, if any. -/
def consumed (s : RxSource) (tready : Bool) : List Beat := if s.tvalid && tready then [s.out] else []

end RxSource

end Picorv32Soc
