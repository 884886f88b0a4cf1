import Picorv32Soc.Clocked
import Picorv32Soc.Ram

/-!
# `uart_top`

The register block of the UART between the CPU bus and the FIFOs of `uart_fifo`. A request is accepted
once, in a cycle in which the TX FIFO is not full, and `transmit` is set in the next cycle, for every
request that is accepted: what is pushed are the bytes of the word stores to the data register
exactly when nothing but such stores is ever accepted (`pushes_iff`).
-/

namespace Picorv32Soc

/-- `uart_top`, without the FIFOs. -/
structure UartTop where
  memReady : Bool
  memRdata : BitVec 32
  txByte : BitVec 8
  transmit : Bool
  memReadyR : Bool
deriving DecidableEq, Repr

/-- The bus, and what the FIFOs show: `tx_fifo_full` and the oldest received byte. -/
structure UartIn where
  mem : MemPort
  txFifoFull : Bool
  rxByte : BitVec 8
deriving DecidableEq, Repr

namespace UartTop

def sel (p : MemPort) : BitVec 6 := p.addr.extractLsb' 2 6

def accept (u : UartTop) (i : UartIn) : Bool := i.mem.valid && !i.txFifoFull && !u.memReadyR

def step (i : UartIn) (u : UartTop) : UartTop where
  memReady := if u.memReady then false else if u.accept i then true else u.memReady
  memReadyR := if !i.mem.valid then false else if u.accept i then true else u.memReadyR
  transmit := u.accept i
  memRdata :=
    if u.accept i then
      if sel i.mem = 2 then i.rxByte.setWidth 32
      else if sel i.mem = 1 then u.txByte.setWidth 32 else u.memRdata
    else u.memRdata
  txByte :=
    if u.accept i && (sel i.mem == 1 || sel i.mem == 2) && (i.mem.wstrb == 0xf) then i.mem.wdata.setWidth 8
    else u.txByte

def reset : UartTop where
  memReady := false
  memRdata := 0
  txByte := 0x0f
  transmit := false
  memReadyR := false

def run (inp : Nat → UartIn) : Nat → UartTop := Clocked.run step inp reset

/-! ### What is pushed and what was asked for -/

/-- A store of a full word to the data register, `UART_DATA`. -/
def dataStore (p : MemPort) : Bool := sel p == 2 && (p.wstrb == 0xf)

/-- What an observer of both sides has seen: the bytes pushed into the TX FIFO, and the requests the
CPU has seen completed. -/
structure Log where
  pushed : List (BitVec 8)
  completed : List MemPort

def observe (i : UartIn) (u : UartTop) (l : Log) : Log where
  pushed := if u.transmit then l.pushed ++ [u.txByte] else l.pushed
  completed := if i.mem.valid && u.memReady then l.completed ++ [i.mem] else l.completed

def log (inp : Nat → UartIn) : Nat → Log := Clocked.watch observe step inp reset ⟨[], []⟩

/-- The master holds a request until it is completed: as long as it has not been accepted, and in the
cycle after that, in which `mem_ready` is given. -/
def Held (inp : Nat → UartIn) : Prop :=
  ∀ t, (inp t).mem.valid = true → (run inp t).memReadyR = false → (inp (t + 1)).mem = (inp t).mem

/-- The transmit path as the CPU would have it: the bytes pushed are those of the word stores to the
data register, no request is completed twice, and no byte is pushed while the FIFO is full. -/
structure PushesStores (inp : Nat → UartIn) : Prop where
  bytes : ∀ t, (log inp t).pushed =
    ((log inp t).completed.filter dataStore).map fun p => p.wdata.setWidth 8
  once : ∀ s t, s < t → (run inp s).memReady = true → (run inp t).memReady = true →
    ∃ u, s < u ∧ u < t ∧ (inp u).mem.valid = false
  notFull : ∀ t, (run inp t).transmit = true → (inp t).txFifoFull = false

variable {inp : Nat → UartIn}

/-- `mem_ready` and `transmit` are set together, in the cycle after a request has been accepted. -/
structure Pulse (inp : Nat → UartIn) (t : Nat) : Prop where
  transmit : (run inp t).transmit = (run inp t).memReady
  memReadyR : (run inp t).memReady = true → (run inp t).memReadyR = true
  valid : (run inp t).memReady = true → (inp t).mem.valid = true
  txByte : (run inp t).memReady = true → dataStore (inp t).mem = true →
    (run inp t).txByte = (inp t).mem.wdata.setWidth 8

theorem run_succ (t : Nat) : run inp (t + 1) = step (inp t) (run inp t) := rfl

/-- While `mem_ready` is given nothing is accepted, so it follows `accept`. -/
theorem Pulse.memReady_succ {t : Nat} (w : Pulse inp t) :
    (run inp (t + 1)).memReady = (run inp t).accept (inp t) := by
  have hacc : (run inp t).memReady = true → (run inp t).accept (inp t) = false := by
    intro hr
    rw [accept, w.memReadyR hr]; simp
  show (if (run inp t).memReady then false else if (run inp t).accept (inp t) then true
    else (run inp t).memReady) = _
  cases hr : (run inp t).memReady with
  | true => rw [hacc hr]; rfl
  | false => cases (run inp t).accept (inp t) <;> rfl

theorem mem_of_accept (hh : Held inp) {t : Nat} (ha : (run inp t).accept (inp t) = true) :
    (inp t).mem.valid = true ∧ (inp (t + 1)).mem = (inp t).mem := by
  rw [accept, Bool.and_eq_true, Bool.and_eq_true, Bool.not_eq_true', Bool.not_eq_true'] at ha
  exact ⟨ha.1.1, hh t ha.1.1 ha.2⟩

theorem Pulse.step {t : Nat} (w : Pulse inp t) (hh : Held inp) : Pulse inp (t + 1) := by
  have hready := w.memReady_succ
  refine ⟨hready.symm, fun hr => ?_, fun hr => ?_, fun hr hd => ?_⟩ <;>
    obtain ⟨hv, hmem⟩ := mem_of_accept hh (hready.symm.trans hr)
  · show (if !(inp t).mem.valid then false else if (run inp t).accept (inp t) then true
      else (run inp t).memReadyR) = true
    rw [← hready, hr, hv]; rfl
  · rw [hmem]; exact hv
  · rw [hmem] at hd ⊢
    simp only [dataStore, Bool.and_eq_true, beq_iff_eq] at hd
    show (if (run inp t).accept (inp t) && (sel (inp t).mem == 1 || sel (inp t).mem == 2) &&
      ((inp t).mem.wstrb == 0xf) then _ else _) = _
    rw [← hready, hr, hd.1, hd.2]; rfl

theorem pulse (hh : Held inp) : ∀ t, Pulse inp t := by
  intro t
  induction t with
  | zero => exact ⟨rfl, nofun, nofun, nofun⟩
  | succ t ih => exact ih.step hh

theorem dropped_between (hh : Held inp) {s t : Nat} (hst : s < t) (hs : (run inp s).memReady = true)
    (ht : (run inp t).memReady = true) : ∃ u, s < u ∧ u < t ∧ (inp u).mem.valid = false := by
  by_contra hno
  push Not at hno
  -- as long as the request stays, `mem_ready_r` stays set
  have hset : ∀ k, s + k < t → (run inp (s + k)).memReadyR = true := by
    intro k
    induction k with
    | zero => exact fun _ => (pulse hh s).memReadyR hs
    | succ k ih =>
      intro hk
      have hv : (inp (s + k)).mem.valid = true := by
        cases k with
        | zero => exact (pulse hh s).valid hs
        | succ k => simpa using hno (s + (k + 1)) (by omega) (by omega)
      show (if !(inp (s + k)).mem.valid then false else if (run inp (s + k)).accept (inp (s + k)) then true
        else (run inp (s + k)).memReadyR) = true
      rw [hv, ih (by omega)]
      cases (run inp (s + k)).accept (inp (s + k)) <;> rfl
  obtain ⟨m, rfl⟩ : ∃ m, t = s + m + 1 := ⟨t - s - 1, by omega⟩
  have htr := (pulse hh (s + m + 1)).transmit
  rw [ht, run_succ] at htr
  have : ((run inp (s + m)).accept (inp (s + m))) = true := htr
  rw [accept, hset m (by omega)] at this
  simp at this

theorem log_step (hh : Held inp) (t : Nat) :
    log inp (t + 1) =
      if (run inp t).memReady then
        ⟨(log inp t).pushed ++ [(run inp t).txByte], (log inp t).completed ++ [(inp t).mem]⟩
      else log inp t := by
  have w := pulse hh t
  show observe (inp t) (run inp t) (log inp t) = _
  unfold observe
  rw [w.transmit]
  cases hr : (run inp t).memReady with
  | true => rw [w.valid hr]; rfl
  | false => simp

/-- What is asked of a request in the cycle of `mem_ready`, asked in the cycle before. -/
theorem ready_iff_accept (hh : Held inp) :
    (∀ t, (run inp t).memReady = true → dataStore (inp t).mem = true ∧ (inp t).txFifoFull = false) ↔
      ∀ t, (run inp t).accept (inp t) = true → dataStore (inp t).mem = true ∧ (inp (t + 1)).txFifoFull = false := by
  constructor
  · intro hall t ha
    obtain ⟨hd, hf⟩ := hall (t + 1) ((pulse hh t).memReady_succ.trans ha)
    exact ⟨by rwa [(mem_of_accept hh ha).2] at hd, hf⟩
  · intro hall t hr
    cases t with
    | zero => cases hr
    | succ t =>
      have ha : (run inp t).accept (inp t) = true := (pulse hh t).memReady_succ.symm.trans hr
      obtain ⟨hd, hf⟩ := hall t ha
      exact ⟨by rwa [(mem_of_accept hh ha).2], hf⟩

/-- **The transmit path.** Every request that is accepted pushes a byte in the next cycle, so the path does
what it should exactly when all of them are word stores to the data register, and the FIFO is not full in
the cycle after the request was accepted. -/
theorem pushes_iff (hh : Held inp) :
    PushesStores inp ↔ ∀ t, (run inp t).accept (inp t) = true →
      dataStore (inp t).mem = true ∧ (inp (t + 1)).txFifoFull = false := by
  rw [← ready_iff_accept hh]
  constructor
  · intro w t hr
    refine ⟨?_, w.notFull t ((pulse hh t).transmit.trans hr)⟩
    -- otherwise one list would grow without the other
    by_contra hd
    rw [Bool.not_eq_true] at hd
    have h1 := congrArg List.length (w.bytes t)
    have h2 := congrArg List.length (w.bytes (t + 1))
    rw [log_step hh, hr, if_pos rfl] at h2
    simp [hd] at h1 h2
    omega
  · intro hall
    refine ⟨fun t => ?_, fun s t hst hs ht => dropped_between hh hst hs ht, fun t ht => ?_⟩
    · induction t with
      | zero => rfl
      | succ t ih =>
        rw [log_step hh]
        split_ifs with hr
        · obtain ⟨hd, -⟩ := hall t hr
          simp [ih, hd, (pulse hh t).txByte hr hd]
        · exact ih
    · exact (hall t ((pulse hh t).transmit.symm.trans ht)).2

/-- One access, held for three cycles. -/
def oneAccess (p : MemPort) (t : Nat) : UartIn := ⟨if t < 3 then p else .idle, false, 0⟩

theorem held_oneAccess {p : MemPort} (h1 : (run (oneAccess p) 1).memReadyR = true)
    (h2 : (run (oneAccess p) 2).memReadyR = true) : Held (oneAccess p) := by
  intro t hv hr
  match t, hv, hr with
  | 0, _, _ => rfl
  | 1, _, hr => rw [h1] at hr; cases hr
  | 2, _, hr => rw [h2] at hr; cases hr
  | t + 3, hv, _ => simp [oneAccess, MemPort.idle] at hv

theorem pushes_iff_store :
    PushesStores (oneAccess (.store 0x80020008 0x41)) ↔
      ∀ t, (run (oneAccess (.store 0x80020008 0x41)) t).accept (oneAccess (.store 0x80020008 0x41) t) = true →
        dataStore (oneAccess (.store 0x80020008 0x41) t).mem = true ∧
          (oneAccess (.store 0x80020008 0x41) (t + 1)).txFifoFull = false :=
  pushes_iff (held_oneAccess (by decide) (by decide))

/-- A load from the data register pushes a byte: what is left in `tx_byte`, here its reset value. -/
theorem load_pushes_stale_byte :
    Held (oneAccess (.load 0x80020008)) ∧
      (log (oneAccess (.load 0x80020008)) 3).pushed = [0x0f] ∧
      (log (oneAccess (.load 0x80020008)) 3).completed = [.load 0x80020008] ∧
      ¬ PushesStores (oneAccess (.load 0x80020008)) := by
  refine ⟨held_oneAccess (by decide) (by decide), by decide, by decide, fun w => ?_⟩
  exact absurd (w.bytes 3) (by decide)

end UartTop

end Picorv32Soc
