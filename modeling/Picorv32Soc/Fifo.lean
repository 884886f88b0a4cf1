import Picorv32Soc.Clocked
import Picorv32Soc.Cyclic

/-!
# `fifo`

The FIFO of the UART, with `2 ^ a` words of width `w`. The pointers move to `next_write_ptr` and
`next_read_ptr`, which are registers: they hold the successor of the pointer of the cycle before. That
is the successor of the pointer itself if it has not just moved, so pushes and pops are spaced
(`Protocol`), and if the reset was not just over.

The pointers then count the pushes and the pops. What is not right with them are the flags and the
output in four situations (`Avoids`): a push in the first cycle, a push and a pop together with one word
stored or one place free, and a pop right after a push into the empty FIFO. `fifo_correct_iff` says that
these are all.
-/

namespace Picorv32Soc

/-- `fifo`, with `ADDR_DEPTH` the power of two that belongs to `ADDR_EXP`. -/
structure Fifo (w a : Nat) where
  nextWritePtr : BitVec a
  nextReadPtr : BitVec a
  writePtr : BitVec a
  readPtr : BitVec a
  empty : Bool
  full : Bool
  memory : BitVec a → BitVec w
  dataOut : BitVec w

structure FifoIn (w : Nat) where
  dataIn : BitVec w
  push : Bool
  pop : Bool
deriving DecidableEq, Repr

namespace Fifo
variable {w a : Nat}

def acceptWrite (s : Fifo w a) (i : FifoIn w) : Bool := (i.push && !s.full) || (i.push && i.pop)

def acceptRead (s : Fifo w a) (i : FifoIn w) : Bool := (i.pop && !s.empty) || (i.push && i.pop)

def step (i : FifoIn w) (s : Fifo w a) : Fifo w a where
  nextWritePtr := s.writePtr + 1
  nextReadPtr := s.readPtr + 1
  writePtr := if s.acceptWrite i then s.nextWritePtr else s.writePtr
  readPtr := if s.acceptRead i then s.nextReadPtr else s.readPtr
  empty :=
    -- the second assignment wins
    if s.acceptRead i && s.nextReadPtr == s.writePtr then true
    else if s.empty && s.acceptWrite i then false else s.empty
  full :=
    if s.acceptWrite i && s.nextWritePtr == s.readPtr then true
    else if s.full && s.acceptRead i then false else s.full
  memory := if s.acceptWrite i then Function.update s.memory s.writePtr i.dataIn else s.memory
  dataOut := s.memory s.readPtr

/-- After reset. The block RAM and its output register are not reset. -/
def reset (memory : BitVec a → BitVec w) (dataOut : BitVec w) : Fifo w a where
  nextWritePtr := 0
  nextReadPtr := 0
  writePtr := 0
  readPtr := 0
  empty := true
  full := false
  memory := memory
  dataOut := dataOut

/-! ### What is asked of the FIFO -/

/-- The words pushed, and the number of pops. -/
structure Log (w : Nat) where
  pushed : List (BitVec w)
  popped : Nat

def observe (i : FifoIn w) (_ : Fifo w a) (l : Log w) : Log w where
  pushed := if i.push then l.pushed ++ [i.dataIn] else l.pushed
  popped := if i.pop then l.popped + 1 else l.popped

section
variable (inp : Nat → FifoIn w) (s : Fifo w a)

def run : Nat → Fifo w a := Clocked.run step inp s

def log : Nat → Log w := Clocked.watch observe step inp s ⟨[], 0⟩

/-- Pushes are apart and not while `FULL`, pops are apart and not while `EMPTY`. -/
structure Protocol : Prop where
  full : ∀ t, (inp t).push = true → (run inp s t).full = false
  push : ∀ t, (inp t).push = true → (inp (t + 1)).push = false
  empty : ∀ t, (inp t).pop = true → (run inp s t).empty = false
  pop : ∀ t, (inp t).pop = true → (inp (t + 1)).pop = false

/-- The flags count the words stored, and a pop finds the oldest of them on `DATA_OUT`. -/
structure Correct (t : Nat) : Prop where
  empty : (run inp s t).empty = decide ((log inp s t).pushed.length = (log inp s t).popped)
  full : (run inp s t).full = decide ((log inp s t).pushed.length = (log inp s t).popped + 2 ^ a)
  dataOut : (inp t).pop = true →
    (log inp s t).pushed[(log inp s t).popped]? = some (run inp s t).dataOut

/-- No push in the first cycle. -/
def NotFirst (t : Nat) : Prop := t = 0 → (inp t).push = false

/-- No push and pop together with one word stored or one place free. -/
def NotTogether (t : Nat) : Prop :=
  (inp t).push = true → (inp t).pop = true →
    (log inp s t).pushed.length ≠ (log inp s t).popped + 1 ∧
      (log inp s t).pushed.length + 1 ≠ (log inp s t).popped + 2 ^ a

/-- No push into the empty FIFO and a pop in the next cycle, unless the word was there already. -/
def NotStale (t : Nat) : Prop :=
  (inp t).push = true → (inp (t + 1)).pop = true → (log inp s t).pushed.length = (log inp s t).popped →
    (run inp s t).memory (run inp s t).writePtr = (inp t).dataIn

/-- The situations to avoid in cycle `t`. -/
structure Avoids (t : Nat) : Prop where
  first : NotFirst inp t
  together : NotTogether inp s t
  stale : NotStale inp s t

end

variable {inp : Nat → FifoIn w} {s : Fifo w a} {t : Nat}

/-! ### The pointers -/

theorem run_succ : run inp s (t + 1) = step (inp t) (run inp s t) := rfl

theorem pushed_succ : (log inp s (t + 1)).pushed =
    if (inp t).push then (log inp s t).pushed ++ [(inp t).dataIn] else (log inp s t).pushed := rfl

theorem length_succ : (log inp s (t + 1)).pushed.length = (log inp s t).pushed.length + (inp t).push.toNat := by
  rw [pushed_succ]
  cases (inp t).push with
  | false => rfl
  | true => exact List.length_append

theorem popped_succ : (log inp s (t + 1)).popped = (log inp s t).popped + (inp t).pop.toNat := by
  show (if (inp t).pop then _ else _) = _
  cases (inp t).pop with
  | false => rfl
  | true => rfl

/-- A flag that is set by `c` and, failing that, cleared by `r`. -/
theorem flag_eq (c e r : Bool) : (if c then true else if e && r then false else e) = (c || (e && !r)) := by
  revert c e r; decide

namespace Protocol

/-- What is asked for is accepted. -/
theorem accept (hp : Protocol inp s) (t : Nat) :
    (run inp s t).acceptWrite (inp t) = (inp t).push ∧ (run inp s t).acceptRead (inp t) = (inp t).pop := by
  have hfull := hp.full t
  have hempty := hp.empty t
  unfold acceptWrite acceptRead
  constructor
  · cases hpush : (inp t).push with
    | false => rfl
    | true => rw [hfull hpush]; rfl
  · cases hpop : (inp t).pop with
    | false => simp
    | true => rw [hempty hpop]; rfl

section
variable (hp : Protocol inp s)
include hp

theorem writePtr_succ : (run inp s (t + 1)).writePtr =
    if (inp t).push then (run inp s t).nextWritePtr else (run inp s t).writePtr := by
  rw [run_succ, ← (hp.accept t).1]
  rfl

theorem readPtr_succ : (run inp s (t + 1)).readPtr =
    if (inp t).pop then (run inp s t).nextReadPtr else (run inp s t).readPtr := by
  rw [run_succ, ← (hp.accept t).2]
  rfl

theorem empty_succ : (run inp s (t + 1)).empty =
    (((inp t).pop && (run inp s t).nextReadPtr == (run inp s t).writePtr) || ((run inp s t).empty && !(inp t).push)) := by
  rw [run_succ, ← flag_eq, ← (hp.accept t).1, ← (hp.accept t).2]
  rfl

theorem full_succ : (run inp s (t + 1)).full =
    (((inp t).push && (run inp s t).nextWritePtr == (run inp s t).readPtr) || ((run inp s t).full && !(inp t).pop)) := by
  rw [run_succ, ← flag_eq, ← (hp.accept t).1, ← (hp.accept t).2]
  rfl

theorem memory_succ : (run inp s (t + 1)).memory =
    if (inp t).push then Function.update (run inp s t).memory (run inp s t).writePtr (inp t).dataIn
    else (run inp s t).memory := by
  rw [run_succ, ← (hp.accept t).1]
  rfl

theorem push_before (h : (inp (t + 1)).push = true) : (inp t).push = false := by
  by_contra hpush
  rw [hp.push t (by simpa using hpush)] at h
  cases h

theorem pop_before (h : (inp (t + 1)).pop = true) : (inp t).pop = false := by
  by_contra hpop
  rw [hp.pop t (by simpa using hpop)] at h
  cases h

theorem pop_ne_zero (h0 : s.empty = true) (h : (inp t).pop = true) : t ≠ 0 := by
  rintro rfl
  have := hp.empty 0 h
  rw [show (run inp s 0).empty = true from h0] at this
  cases this

/-- A pointer that moves has not moved in the cycle before. -/
theorem nextWritePtr (ht : t ≠ 0) (h : (inp t).push = true) :
    (run inp s t).nextWritePtr = (run inp s t).writePtr + 1 := by
  obtain ⟨t, rfl⟩ := Nat.exists_eq_succ_of_ne_zero ht
  rw [hp.writePtr_succ, hp.push_before h]
  rfl

theorem nextReadPtr (ht : t ≠ 0) (h : (inp t).pop = true) :
    (run inp s t).nextReadPtr = (run inp s t).readPtr + 1 := by
  obtain ⟨t, rfl⟩ := Nat.exists_eq_succ_of_ne_zero ht
  rw [hp.readPtr_succ, hp.pop_before h]
  rfl

end

end Protocol

/-! ### The invariant -/

/-- The pointers count, the flags and the memory agree with what was pushed and popped. -/
structure Inv (inp : Nat → FifoIn w) (s : Fifo w a) (t : Nat) : Prop where
  le : (log inp s t).popped ≤ (log inp s t).pushed.length
  room : (log inp s t).pushed.length ≤ (log inp s t).popped + 2 ^ a
  writePtr : (run inp s t).writePtr = BitVec.ofNat a (log inp s t).pushed.length
  readPtr : (run inp s t).readPtr = BitVec.ofNat a (log inp s t).popped
  empty : (run inp s t).empty = decide ((log inp s t).pushed.length = (log inp s t).popped)
  full : (run inp s t).full = decide ((log inp s t).pushed.length = (log inp s t).popped + 2 ^ a)
  memory : ∀ i, (log inp s t).popped ≤ i → i < (log inp s t).pushed.length →
    (log inp s t).pushed[i]? = some ((run inp s t).memory (BitVec.ofNat a i))

namespace Inv

theorem lt_of_pop (v : Inv inp s t) (hp : Protocol inp s) (h : (inp t).pop = true) :
    (log inp s t).popped < (log inp s t).pushed.length := by
  have := hp.empty t h
  rw [v.empty, decide_eq_false_iff_not] at this
  exact Nat.lt_of_le_of_ne v.le fun he => this he.symm

theorem lt_of_push (v : Inv inp s t) (hp : Protocol inp s) (h : (inp t).push = true) :
    (log inp s t).pushed.length < (log inp s t).popped + 2 ^ a := by
  have := hp.full t h
  rw [v.full, decide_eq_false_iff_not] at this
  exact Nat.lt_of_le_of_ne v.room this

/-- `EMPTY` is set when the last word is popped, also when another is pushed. -/
theorem empty_succ (v : Inv inp s t) (hp : Protocol inp s) (h0 : s.empty = true) :
    (run inp s (t + 1)).empty = true ↔
      ((inp t).pop = true ∧ (log inp s t).pushed.length = (log inp s t).popped + 1) ∨
        ((log inp s t).pushed.length = (log inp s t).popped ∧ (inp t).push = false) := by
  rw [hp.empty_succ, v.empty, Bool.or_eq_true, Bool.and_eq_true, Bool.and_eq_true, decide_eq_true_iff, Bool.not_eq_true']
  refine or_congr_left (and_congr_right fun hpop => ?_)
  have hlt := v.lt_of_pop hp hpop
  have hroom := v.room
  rw [hp.nextReadPtr (hp.pop_ne_zero h0 hpop) hpop, v.readPtr, v.writePtr, ← Cyclic.ofNat_succ, beq_iff_eq,
    Cyclic.ofNat_inj (by omega) (by omega), eq_comm]

/-- `FULL` is set when the last place is filled, also when another is freed. -/
theorem full_succ (v : Inv inp s t) (hp : Protocol inp s) (hfirst : NotFirst inp t) :
    (run inp s (t + 1)).full = true ↔
      ((inp t).push = true ∧ (log inp s t).pushed.length + 1 = (log inp s t).popped + 2 ^ a) ∨
        ((log inp s t).pushed.length = (log inp s t).popped + 2 ^ a ∧ (inp t).pop = false) := by
  rw [hp.full_succ, v.full, Bool.or_eq_true, Bool.and_eq_true, Bool.and_eq_true, decide_eq_true_iff, Bool.not_eq_true']
  refine or_congr_left (and_congr_right fun hpush => ?_)
  have ht : t ≠ 0 := fun h => by rw [hfirst h] at hpush; cases hpush
  have hlt := v.lt_of_push hp hpush
  have hle := v.le
  rw [hp.nextWritePtr ht hpush, v.readPtr, v.writePtr, ← Cyclic.ofNat_succ,
    ← Cyclic.ofNat_add_two_pow (log inp s t).popped, beq_iff_eq, Cyclic.ofNat_inj (by omega) (by omega)]

/-- With the counts right, a push and a pop together must not meet a boundary. -/
theorem flags_succ (v : Inv inp s t) (hp : Protocol inp s) (h0 : s.empty = true) (hfirst : NotFirst inp t)
    (hboth : NotTogether inp s t) :
    (run inp s (t + 1)).empty = decide ((log inp s (t + 1)).pushed.length = (log inp s (t + 1)).popped) ∧
      (run inp s (t + 1)).full =
        decide ((log inp s (t + 1)).pushed.length = (log inp s (t + 1)).popped + 2 ^ a) := by
  have hle := v.le
  have hroom := v.room
  have hpop := v.lt_of_pop hp
  have hpush := v.lt_of_push hp
  unfold NotTogether at hboth
  constructor
  · rw [Bool.eq_iff_iff, decide_eq_true_iff, v.empty_succ hp h0, length_succ, popped_succ]
    cases h : (inp t).push <;> cases h' : (inp t).pop <;> grind
  · rw [Bool.eq_iff_iff, decide_eq_true_iff, v.full_succ hp hfirst, length_succ, popped_succ]
    cases h : (inp t).push <;> cases h' : (inp t).pop <;> grind

theorem memory_succ (v : Inv inp s t) (hp : Protocol inp s) {i : Nat} (hi : (log inp s (t + 1)).popped ≤ i)
    (hlt : i < (log inp s (t + 1)).pushed.length) :
    (log inp s (t + 1)).pushed[i]? = some ((run inp s (t + 1)).memory (BitVec.ofNat a i)) := by
  have hi' : (log inp s t).popped ≤ i := (popped_succ ▸ Nat.le_add_right _ _).trans hi
  rw [length_succ] at hlt
  rw [hp.memory_succ, pushed_succ, v.writePtr]
  cases hpush : (inp t).push with
  | false =>
    rw [hpush] at hlt
    exact v.memory i hi' hlt
  | true =>
    rw [hpush, Bool.toNat_true] at hlt
    have hroom := v.lt_of_push hp hpush
    simp only [if_true]
    rcases Nat.lt_succ_iff_lt_or_eq.1 hlt with hold | rfl
    · have hne : BitVec.ofNat a i ≠ BitVec.ofNat a (log inp s t).pushed.length := fun h =>
        absurd ((Cyclic.ofNat_inj (Nat.le_of_lt hold) (by omega)).1 h) (Nat.ne_of_lt hold)
      rw [Function.update_of_ne hne, List.getElem?_append_left hold]
      exact v.memory i hi' hold
    · rw [Function.update_self, List.getElem?_concat_length]

/-- An edge in a situation that is not to be avoided. -/
theorem step (v : Inv inp s t) (hp : Protocol inp s) (h0 : s.empty = true) (hfirst : NotFirst inp t)
    (hboth : NotTogether inp s t) : Inv inp s (t + 1) := by
  have hle := v.le
  have hroom := v.room
  obtain ⟨hempty, hfull⟩ := v.flags_succ hp h0 hfirst hboth
  refine ⟨?_, ?_, ?_, ?_, hempty, hfull, fun i hi hlt => v.memory_succ hp hi hlt⟩
  · rw [length_succ, popped_succ]
    cases h : (inp t).pop with
    | false => exact Nat.le_add_right_of_le hle
    | true => exact Nat.le_add_right_of_le (v.lt_of_pop hp h)
  · rw [length_succ, popped_succ]
    cases h : (inp t).push with
    | false => simp only [Bool.toNat_false]; omega
    | true =>
      have := v.lt_of_push hp h
      simp only [Bool.toNat_true]
      omega
  · rw [hp.writePtr_succ, length_succ]
    cases h : (inp t).push with
    | false => exact v.writePtr
    | true =>
      have ht : t ≠ 0 := fun h' => by rw [hfirst h'] at h; cases h
      rw [hp.nextWritePtr ht h, v.writePtr]
      exact (Cyclic.ofNat_succ _).symm
  · rw [hp.readPtr_succ, popped_succ]
    cases h : (inp t).pop with
    | false => exact v.readPtr
    | true =>
      rw [hp.nextReadPtr (hp.pop_ne_zero h0 h) h, v.readPtr]
      exact (Cyclic.ofNat_succ _).symm

/-- What a pop finds, when the memory was read in the cycle before. -/
theorem dataOut (v : Inv inp s t) (v' : Inv inp s (t + 1)) (hp : Protocol inp s) (hpop : (inp (t + 1)).pop = true) :
    (log inp s (t + 1)).pushed[(log inp s (t + 1)).popped]? = some (run inp s (t + 1)).dataOut ↔
      ((inp t).push = true → (log inp s t).pushed.length = (log inp s t).popped →
        (run inp s t).memory (run inp s t).writePtr = (inp t).dataIn) := by
  have hbefore := hp.pop_before hpop
  have hpopped : (log inp s (t + 1)).popped = (log inp s t).popped := by rw [popped_succ, hbefore]; rfl
  have hlt := v'.lt_of_pop hp hpop
  have hout : (run inp s (t + 1)).dataOut = (run inp s t).memory (run inp s t).readPtr := rfl
  rw [hpopped, length_succ] at hlt
  rw [hpopped, hout, v.readPtr, v.writePtr]
  by_cases hempty : (log inp s t).pushed.length = (log inp s t).popped
  · -- the word was pushed in the cycle before
    have hpush : (inp t).push = true := by
      by_contra h
      rw [Bool.not_eq_true] at h
      rw [h] at hlt
      simp only [Bool.toNat_false] at hlt
      omega
    rw [pushed_succ, hpush, if_pos rfl, ← hempty, List.getElem?_concat_length, Option.some.injEq, eq_comm]
    simp
  · have hold : (log inp s t).popped < (log inp s t).pushed.length := Nat.lt_of_le_of_ne v.le (Ne.symm hempty)
    have hkeep : (log inp s (t + 1)).pushed[(log inp s t).popped]? = (log inp s t).pushed[(log inp s t).popped]? := by
      rw [pushed_succ]
      split_ifs
      · exact List.getElem?_append_left hold
      · rfl
    rw [hkeep, v.memory _ le_rfl hold]
    exact ⟨fun _ _ h => absurd h hempty, fun _ => rfl⟩

end Inv

/-! ### Runs -/

variable {mem : BitVec a → BitVec w} {out : BitVec w}

theorem inv_zero : Inv inp (reset mem out) 0 where
  le := le_rfl
  room := Nat.zero_le _
  writePtr := rfl
  readPtr := rfl
  empty := rfl
  full := (decide_eq_false (Nat.ne_of_lt (Nat.add_pos_right _ (Nat.two_pow_pos a)))).symm
  memory := nofun

theorem inv_of_avoids (hp : Protocol inp (reset mem out)) :
    ∀ t, (∀ k, k < t → Avoids inp (reset mem out) k) → Inv inp (reset mem out) t := by
  intro t
  induction t with
  | zero => exact fun _ => inv_zero
  | succ t ih =>
    intro hc
    have hct := hc t (Nat.lt_succ_self t)
    exact (ih fun k hk => hc k (Nat.lt_succ_of_lt hk)).step hp rfl hct.first hct.together

theorem Inv.correct (hp : Protocol inp (reset mem out)) (hc : ∀ t, Avoids inp (reset mem out) t) (t : Nat) :
    Correct inp (reset mem out) t := by
  have v : ∀ t, Inv inp (reset mem out) t := fun t => inv_of_avoids hp t fun k _ => hc k
  refine ⟨(v t).empty, (v t).full, fun hpop => ?_⟩
  obtain ⟨k, rfl⟩ := Nat.exists_eq_succ_of_ne_zero (hp.pop_ne_zero rfl hpop)
  exact ((v k).dataOut (v (k + 1)) hp hpop).2 fun hpush hempty => (hc k).stale hpush hpop hempty

/-- A push in the first cycle sets `FULL`. -/
theorem notFirst_of_correct (ha : 0 < a) (hp : Protocol inp (reset mem out))
    (h : Correct inp (reset mem out) (t + 1)) : NotFirst inp t := by
  rintro rfl
  by_contra hpush
  rw [Bool.not_eq_false] at hpush
  have hpop : (inp 0).pop = false := by
    by_contra hpop
    exact hp.pop_ne_zero rfl (by simpa using hpop) rfl
  have hfull : (run inp (reset mem out) 1).full = true := by
    rw [hp.full_succ, hpush]
    rfl
  rw [h.full, decide_eq_true_iff, length_succ, popped_succ, hpush, hpop] at hfull
  have hpow := Nat.one_lt_two_pow (Nat.ne_of_gt ha)
  change 0 + 1 = 0 + 0 + 2 ^ a at hfull
  omega

/-- A push and a pop together at a boundary set the wrong flag. -/
theorem Inv.notTogether_of_correct (v : Inv inp (reset mem out) t) (hp : Protocol inp (reset mem out))
    (h : Correct inp (reset mem out) (t + 1)) : NotTogether inp (reset mem out) t := by
  intro hpush hpop
  have hlt := v.lt_of_pop hp hpop
  have ht := hp.pop_ne_zero rfl hpop
  constructor
  · intro hone
    have hempty := (v.empty_succ hp rfl).2 (.inl ⟨hpop, hone⟩)
    rw [h.empty, decide_eq_true_iff, length_succ, popped_succ, hpush, hpop] at hempty
    simp only [Bool.toNat_true] at hempty
    omega
  · intro hlast
    have hfull := (v.full_succ hp fun h0 => absurd h0 ht).2 (.inl ⟨hpush, hlast⟩)
    rw [h.full, decide_eq_true_iff, length_succ, popped_succ, hpush, hpop] at hfull
    simp only [Bool.toNat_true] at hfull
    omega

/-- **When the FIFO is right**: for every run that keeps to the protocol, exactly when the four situations
are avoided in every cycle. -/
theorem fifo_correct_iff (ha : 0 < a) (hp : Protocol inp (reset mem out)) :
    (∀ t, Correct inp (reset mem out) t) ↔ ∀ t, Avoids inp (reset mem out) t := by
  refine ⟨fun hall t => ?_, Inv.correct hp⟩
  -- up to the first such situation the invariant holds
  induction t using Nat.strong_induction_on with
  | _ t ih =>
    have v := inv_of_avoids hp t ih
    have hfirst := notFirst_of_correct ha hp (hall (t + 1))
    have hboth := v.notTogether_of_correct hp (hall (t + 1))
    refine ⟨hfirst, hboth, fun hpush hpop hempty => ?_⟩
    have v' := v.step hp rfl hfirst hboth
    exact (v.dataOut v' hp hpop).1 ((hall (t + 1)).dataOut hpop) hpush hempty

/-- As in `uart_fifo`, with an empty memory. -/
def uart : Fifo 8 12 := reset (fun _ => 0) 0

/-- Two bytes are pushed; the first is popped in the cycle before the second push. -/
def apart : Nat → FifoIn 8
  | 1 => ⟨0x41, true, false⟩
  | 4 => ⟨0, false, true⟩
  | 5 => ⟨0x42, true, false⟩
  | _ => ⟨0, false, false⟩

theorem apart_push {t : Nat} (h : (apart t).push = true) : t = 1 ∨ t = 5 := by
  unfold apart at h
  split at h <;> simp_all

theorem apart_pop {t : Nat} (h : (apart t).pop = true) : t = 4 := by
  unfold apart at h
  split at h <;> simp_all

theorem apart_protocol : Protocol apart uart where
  full := fun _ h => by rcases apart_push h with rfl | rfl <;> decide +kernel
  push := fun _ h => by rcases apart_push h with rfl | rfl <;> rfl
  empty := fun _ h => by obtain rfl := apart_pop h; decide +kernel
  pop := fun _ h => by obtain rfl := apart_pop h; rfl

theorem fifo_correct_iff_apart : (∀ t, Correct apart uart t) ↔ ∀ t, Avoids apart uart t :=
  fifo_correct_iff (by decide) apart_protocol

/-- Two bytes are pushed; the first is popped in the cycle of the second push. -/
def together : Nat → FifoIn 8
  | 1 => ⟨0x41, true, false⟩
  | 4 => ⟨0x42, true, true⟩
  | _ => ⟨0, false, false⟩

theorem together_push {t : Nat} (h : (together t).push = true ∨ (together t).pop = true) : t = 1 ∨ t = 4 := by
  unfold together at h
  split at h <;> simp_all

/-- One byte is stored, and `EMPTY` is set. -/
theorem empty_with_byte_stored :
    Protocol together uart ∧ (log together uart 5).pushed = [0x41, 0x42] ∧ (log together uart 5).popped = 1 ∧
      (run together uart 5).empty = true := by
  refine ⟨⟨fun _ h => ?_, fun _ h => ?_, fun _ h => ?_, fun _ h => ?_⟩, by decide +kernel⟩
  · rcases together_push (.inl h) with rfl | rfl <;> decide +kernel
  · rcases together_push (.inl h) with rfl | rfl <;> rfl
  · rcases together_push (.inr h) with rfl | rfl
    · cases h
    · decide +kernel
  · rcases together_push (.inr h) with rfl | rfl
    · cases h
    · rfl

end Fifo

end Picorv32Soc
