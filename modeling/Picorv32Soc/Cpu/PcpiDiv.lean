import Picorv32Soc.Cpu.Rv32m
import Picorv32Soc.Requests
import Picorv32Soc.Restoring

/-!
# `picorv32_pcpi_div`

The division coprocessor. A request is decoded in its first cycle and the operands are taken in the
third; then there is one round of restoring division for each of the 32 bits, and in cycle 36 the
result is on `pcpi_rd`. `Phase` gives the registers by the age of the request; the unit answers exactly
at age 36, with what the instruction computes (`pcpi_div_answers`), and keeps `pcpi_wait` set in between.
-/

namespace Picorv32Soc

/-- The inputs of the divider, and the value that stands for `'bx` on `pcpi_rd`. -/
structure PcpiDivIn where
  req : PcpiReq
  x : BitVec 32
deriving DecidableEq, Repr

structure PcpiDiv where
  instrDiv : Bool
  instrDivu : Bool
  instrRem : Bool
  instrRemu : Bool
  pcpiWait : Bool
  pcpiWaitQ : Bool
  dividend : BitVec 32
  divisor : BitVec 63
  quotient : BitVec 32
  quotientMsk : BitVec 32
  running : Bool
  outsign : Bool
  pcpiReady : Bool
  pcpiWr : Bool
  pcpiRd : BitVec 32
deriving DecidableEq, Repr

namespace PcpiDiv

def anyDivRem (s : PcpiDiv) : Bool := s.instrDiv || s.instrDivu || s.instrRem || s.instrRemu

def start (s : PcpiDiv) : Bool := s.pcpiWait && !s.pcpiWaitQ

def finishes (s : PcpiDiv) : Bool := s.quotientMsk == 0 && s.running

/-- The condition under which `pcpi_insn[14:12]` is looked at. -/
def decodes (s : PcpiDiv) (r : PcpiReq) : Bool :=
  r.valid && !s.pcpiReady && r.insn.extractLsb' 0 7 == 0b0110011 && r.insn.extractLsb' 25 7 == 0b0000001

/-- An edge without reset. -/
def step (i : PcpiDivIn) (s : PcpiDiv) : PcpiDiv where
  instrDiv := s.decodes i.req && i.req.insn.extractLsb' 12 3 == 0b100
  instrDivu := s.decodes i.req && i.req.insn.extractLsb' 12 3 == 0b101
  instrRem := s.decodes i.req && i.req.insn.extractLsb' 12 3 == 0b110
  instrRemu := s.decodes i.req && i.req.insn.extractLsb' 12 3 == 0b111
  pcpiWait := s.anyDivRem
  pcpiWaitQ := s.pcpiWait
  running := if s.start then true else if s.finishes then false else s.running
  dividend :=
    if s.start then if (s.instrDiv || s.instrRem) && i.req.rs1.msb then -i.req.rs1 else i.req.rs1
    else if s.finishes then s.dividend
    else if s.divisor ≤ s.dividend.setWidth 63 then s.dividend - s.divisor.setWidth 32 else s.dividend
  divisor :=
    -- the operand has the width of `divisor` before it is negated and shifted
    if s.start then
      (if (s.instrDiv || s.instrRem) && i.req.rs2.msb then -i.req.rs2.setWidth 63 else i.req.rs2.setWidth 63) <<< 31
    else if s.finishes then s.divisor else s.divisor >>> 1
  outsign :=
    if s.start then
      (s.instrDiv && i.req.rs1.msb != i.req.rs2.msb && i.req.rs2 != 0) || (s.instrRem && i.req.rs1.msb)
    else s.outsign
  quotient :=
    if s.start then 0
    else if s.finishes then s.quotient
    else if s.divisor ≤ s.dividend.setWidth 63 then s.quotient ||| s.quotientMsk else s.quotient
  quotientMsk := if s.start then 1 <<< 31 else if s.finishes then s.quotientMsk else s.quotientMsk >>> 1
  pcpiReady := !s.start && s.finishes
  pcpiWr := !s.start && s.finishes
  pcpiRd :=
    if !s.start && s.finishes then
      if s.instrDiv || s.instrDivu then if s.outsign then -s.quotient else s.quotient
      else if s.outsign then -s.dividend else s.dividend
    else i.x

/-- After reset. What is not reset has any value. -/
structure AfterReset (s : PcpiDiv) : Prop where
  any : s.anyDivRem = false
  wait : s.pcpiWait = false
  waitQ : s.pcpiWaitQ = false
  running : s.running = false
  ready : s.pcpiReady = false

/-! ### Decoding -/

end PcpiDiv

/-- The division that is asked for. -/
def PcpiReq.divRem (r : PcpiReq) : Option MulDiv :=
  if r.valid then (MulDiv.decode r.insn).filter MulDiv.isDivRem else none

namespace PcpiDiv

variable {r : PcpiReq} {x : BitVec 32} {s : PcpiDiv} {m : MulDiv}

/-- The registers that say which instruction is worked on. -/
structure Decoded (m : MulDiv) (s : PcpiDiv) : Prop where
  div : s.instrDiv = (m == .div)
  divu : s.instrDivu = (m == .divu)
  rem : s.instrRem = (m == .rem)
  remu : s.instrRemu = (m == .remu)

theorem divRem_eq_some_iff : r.divRem = some m ↔
    r.valid = true ∧ (r.insn.extractLsb' 0 7 = 0b0110011 ∧ r.insn.extractLsb' 25 7 = 1) ∧
      r.insn.extractLsb' 12 3 = m.funct3 ∧ m.isDivRem = true := by
  unfold PcpiReq.divRem
  split_ifs with h
  · rw [Option.filter_eq_some_iff, MulDiv.decode_eq_some_iff, and_assoc, and_iff_right h]
  · exact iff_of_false nofun fun h' => h h'.1

theorem decoded_step (hm : r.divRem = some m) (hr : s.pcpiReady = false) : Decoded m (step ⟨r, x⟩ s) := by
  obtain ⟨hv, ⟨ho, hf⟩, hf3, hd⟩ := divRem_eq_some_iff.1 hm
  have hdec : s.decodes r = true := by simp [decodes, hv, hr, ho, hf]
  constructor <;> simp only [step, hdec, hf3, Bool.true_and] <;> revert hd <;> cases m <;> decide

theorem any_step : (step ⟨r, x⟩ s).anyDivRem = (!s.pcpiReady && r.divRem.isSome) := by
  have hany : (step ⟨r, x⟩ s).anyDivRem = (s.decodes r && (r.insn.extractLsb' 12 3).getLsbD 2) := by
    simp only [anyDivRem, step, ← Bool.and_or_distrib_left]
    congr 1
    generalize r.insn.extractLsb' 12 3 = f
    revert f; decide
  have hsome : (s.decodes r && (r.insn.extractLsb' 12 3).getLsbD 2) = true ↔ (!s.pcpiReady && r.divRem.isSome) = true := by
    simp only [Bool.and_eq_true, decodes, beq_iff_eq, Option.isSome_iff_exists, divRem_eq_some_iff]
    constructor
    · rintro ⟨⟨⟨⟨hv, hr⟩, ho⟩, hf⟩, hbit⟩
      have hm : ∀ f : BitVec 3, f.getLsbD 2 = true → ∃ m : MulDiv, f = m.funct3 ∧ m.isDivRem = true := by
        intro f hf
        have : f = 4 ∨ f = 5 ∨ f = 6 ∨ f = 7 := by revert f; decide
        rcases this with rfl | rfl | rfl | rfl
        exacts [⟨.div, rfl, rfl⟩, ⟨.divu, rfl, rfl⟩, ⟨.rem, rfl, rfl⟩, ⟨.remu, rfl, rfl⟩]
      obtain ⟨m, hm⟩ := hm _ hbit
      exact ⟨hr, m, hv, ⟨ho, hf⟩, hm⟩
    · rintro ⟨hr, m, hv, ⟨ho, hf⟩, hf3, hd⟩
      refine ⟨⟨⟨⟨hv, hr⟩, ho⟩, hf⟩, ?_⟩
      rw [hf3]
      revert hd; cases m <;> decide
  rw [hany]
  exact Bool.eq_iff_iff.2 hsome

theorem Decoded.any (d : Decoded m s) (hd : m.isDivRem = true) : s.anyDivRem = true := by
  rw [anyDivRem, d.div, d.divu, d.rem, d.remu]
  revert hd; cases m <;> decide

/-! ### The division -/

/-- The operands without their signs. -/
def magnitude (m : MulDiv) (a : BitVec 32) : BitVec 32 := if (m == .div || m == .rem) && a.msb then -a else a

/-- The sign of the result. -/
def negative (m : MulDiv) (r : PcpiReq) : Bool :=
  (m == .div && r.rs1.msb != r.rs2.msb && r.rs2 != 0) || (m == .rem && r.rs1.msb)

/-- The rounds for the bits from `k` on are done. -/
structure Loop (n d k : Nat) (s : PcpiDiv) : Prop where
  dividend : s.dividend.toNat = Restoring.remainder n d k
  quotient : s.quotient.toNat = Restoring.quotient 32 n d k
  divisor : s.divisor.toNat = d * 2 ^ k / 2
  mask : s.quotientMsk.toNat = 2 ^ k / 2

namespace Loop
variable {n d k : Nat}

theorem mask_eq_zero_iff (l : Loop n d k s) : s.quotientMsk = 0 ↔ k = 0 := by
  rw [BitVec.toNat_eq, l.mask]
  cases k with
  | zero => simp
  | succ k => simp [Nat.pow_succ]

theorem round (l : Loop n d (k + 1) s) (hk : k < 32) (hs : s.start = false) (hf : s.finishes = false) :
    Loop n d k (step ⟨r, x⟩ s) := by
  have hdiv : s.divisor.toNat = d * 2 ^ k := by
    rw [l.divisor, Restoring.double, Nat.mul_div_cancel_left _ (by omega)]
  have hmask : s.quotientMsk.toNat = 2 ^ k := by
    rw [l.mask, Nat.pow_succ, Nat.mul_div_cancel _ (by omega)]
  have hle : s.divisor ≤ s.dividend.setWidth 63 ↔ d * 2 ^ k ≤ Restoring.remainder n d (k + 1) := by
    rw [BitVec.le_def, hdiv, BitVec.toNat_setWidth, Nat.mod_eq_of_lt (by have := s.dividend.isLt; omega), l.dividend]
  have hlt := s.dividend.isLt
  rw [l.dividend] at hlt
  refine ⟨?_, ?_, ?_, ?_⟩
  · rw [Restoring.remainder_round]
    simp only [step, hs, hf, Bool.false_eq_true, if_false]
    split_ifs with h h' h'
    · rw [BitVec.toNat_sub_of_le, BitVec.toNat_setWidth, hdiv, l.dividend, Nat.mod_eq_of_lt (by omega)]
      rw [BitVec.le_def, BitVec.toNat_setWidth, hdiv, l.dividend, Nat.mod_eq_of_lt (by omega)]
      exact h'
    · exact absurd (hle.1 h) h'
    · exact absurd (hle.2 h') h
    · exact l.dividend
  · rw [Restoring.quotient_round hk]
    simp only [step, hs, hf, Bool.false_eq_true, if_false]
    split_ifs with h h' h'
    · obtain ⟨q, hq⟩ := Restoring.quotient_dvd (n := n) (d := d) (show k + 1 ≤ 32 by omega)
      rw [BitVec.toNat_or, hmask, l.quotient, hq, Nat.two_pow_add_eq_or_of_lt (Nat.pow_lt_pow_succ (by omega))]
    · exact absurd (hle.1 h) h'
    · exact absurd (hle.2 h') h
    · exact l.quotient
  · simp only [step, hs, hf, Bool.false_eq_true, if_false]
    rw [BitVec.toNat_ushiftRight, hdiv, Nat.shiftRight_one]
  · simp only [step, hs, hf, Bool.false_eq_true, if_false]
    rw [BitVec.toNat_ushiftRight, hmask, Nat.shiftRight_one]

end Loop

theorem loop_start (hm : Decoded m s) (hs : s.start = true) :
    Loop (magnitude m r.rs1).toNat (magnitude m r.rs2).toNat 32 (step ⟨r, x⟩ s) := by
  have hsigned : (s.instrDiv || s.instrRem) = (m == .div || m == .rem) := by rw [hm.div, hm.rem]
  refine ⟨?_, ?_, ?_, ?_⟩
  · rw [Restoring.remainder_top (BitVec.isLt _)]
    simp only [step, hs, hsigned, if_true]
    rfl
  · rw [Restoring.quotient_top (BitVec.isLt _)]
    simp only [step, hs, if_true]
    rfl
  · have h2 := (magnitude m r.rs2).isLt
    simp only [step, hs, hsigned, if_true]
    unfold magnitude at h2 ⊢
    split_ifs with h
    · rw [if_pos h] at h2
      rw [BitVec.toNat_shiftLeft, BitVec.toNat_neg, BitVec.toNat_setWidth, BitVec.toNat_neg, Nat.shiftLeft_eq]
      have := r.rs2.isLt
      omega
    · rw [BitVec.toNat_shiftLeft, BitVec.toNat_setWidth, Nat.shiftLeft_eq]
      have := r.rs2.isLt
      omega
  · simp only [step, hs, if_true]
    decide

/-- What stands on `pcpi_rd` when quotient and remainder are known. -/
def answer (m : MulDiv) (neg : Bool) (q d : BitVec 32) : BitVec 32 :=
  if m == .div || m == .divu then if neg then -q else q else if neg then -d else d

theorem ofInt_tdiv (a b : BitVec 32) : BitVec.ofInt 32 (a.toInt.tdiv b.toInt) = a.sdiv b := by
  apply BitVec.eq_of_toInt_eq
  rw [BitVec.toInt_sdiv, BitVec.toInt_ofInt]

theorem ofInt_tmod (a b : BitVec 32) : BitVec.ofInt 32 (a.toInt.tmod b.toInt) = a.srem b := by
  rw [← BitVec.toInt_srem, BitVec.ofInt_toInt]

theorem magnitude_eq_zero_iff {a : BitVec 32} : magnitude m a = 0 ↔ a = 0 := by
  unfold magnitude
  split_ifs
  · exact BitVec.neg_eq_zero_iff
  · exact Iff.rfl

theorem answer_div (a b : BitVec 32) (hb : b ≠ 0) :
    (if a.msb != b.msb && b != 0 then -(magnitude .div a / magnitude .div b) else magnitude .div a / magnitude .div b) =
      a.sdiv b := by
  rw [BitVec.sdiv_eq, bne_iff_ne.2 hb]
  unfold magnitude
  cases a.msb <;> cases b.msb <;> rfl

theorem answer_rem (a b : BitVec 32) :
    (if a.msb then -(magnitude .rem a % magnitude .rem b) else magnitude .rem a % magnitude .rem b) = a.srem b := by
  rw [BitVec.srem_eq]
  unfold magnitude
  cases a.msb <;> cases b.msb <;> rfl

/-- The instruction's result from the quotient and the remainder of the operands without their signs. -/
theorem answer_eq (hd : m.isDivRem = true) {q d : BitVec 32}
    (hq : q.toNat = Restoring.quotient 32 (magnitude m r.rs1).toNat (magnitude m r.rs2).toNat 0)
    (hr : d.toNat = Restoring.remainder (magnitude m r.rs1).toNat (magnitude m r.rs2).toNat 0) :
    answer m (negative m r) q d = m.result r.rs1 r.rs2 := by
  have hd' : d = magnitude m r.rs1 % magnitude m r.rs2 := by
    apply BitVec.eq_of_toNat_eq
    rw [hr, Restoring.remainder_zero, BitVec.toNat_umod]
  have hq' : q = if r.rs2 = 0 then -1 else magnitude m r.rs1 / magnitude m r.rs2 := by
    apply BitVec.eq_of_toNat_eq
    have hz : (magnitude m r.rs2).toNat = 0 ↔ r.rs2 = 0 := by
      rw [← magnitude_eq_zero_iff (m := m), BitVec.toNat_eq]; rfl
    rw [hq, Restoring.quotient_zero]
    simp only [hz]
    split_ifs
    · rfl
    · rw [BitVec.toNat_udiv]
  cases m with
  | mul | mulh | mulhsu | mulhu => cases hd
  | div =>
    by_cases hb : r.rs2 = 0
    · rw [if_pos hb] at hq'
      simp [answer, negative, MulDiv.result, hb, hq']
    · rw [if_neg hb] at hq'
      simp only [MulDiv.result, if_neg hb, ofInt_tdiv, ← answer_div _ _ hb, hq']
      simp [answer, negative]
  | divu =>
    have hans : answer .divu (negative .divu r) q d = q := rfl
    rw [hans, hq', MulDiv.result]
    split_ifs
    · rfl
    · apply BitVec.eq_of_toNat_eq
      rw [BitVec.toNat_ofNat, BitVec.toNat_udiv]
      exact (Nat.mod_eq_of_lt (Nat.lt_of_le_of_lt (Nat.div_le_self _ _) (BitVec.isLt _))).symm
  | rem =>
    have hans : answer .rem (negative .rem r) q d = if r.rs1.msb then -d else d := by simp [answer, negative]
    rw [hans, hd', answer_rem, MulDiv.result, ofInt_tmod]
    split_ifs with hb
    · rw [hb]; exact BitVec.srem_zero
    · rfl
  | remu =>
    have hans : answer .remu (negative .remu r) q d = r.rs1 % r.rs2 := by simp [answer, negative, hd', magnitude]
    rw [hans, MulDiv.result]
    split_ifs with hb
    · rw [hb]; exact BitVec.umod_zero
    · apply BitVec.eq_of_toNat_eq
      rw [BitVec.toNat_ofNat, BitVec.toNat_umod]
      exact (Nat.mod_eq_of_lt (Nat.lt_of_le_of_lt (Nat.mod_le _ _) (BitVec.isLt _))).symm

/-! ### Requests over time -/

section
variable (inp : Nat → PcpiDivIn) (s : PcpiDiv)

def wants (r : PcpiReq) : Bool := r.divRem.isSome

def run : Nat → PcpiDiv := Clocked.run step inp s

def age : Nat → Nat := Requests.age step PcpiDivIn.req wants 36 inp s

/-- A request for a division in its first cycle. -/
def Begins : Nat → Prop := Requests.Begins step PcpiDivIn.req wants pcpiReady inp s

/-- The core holds a request until it is answered. -/
def Held : Prop := Requests.Held step PcpiDivIn.req wants pcpiReady inp s

def countAge (i : PcpiDivIn) (s : PcpiDiv) (a : Nat) : Nat := Requests.count PcpiDivIn.req wants 36 i s a

end

/-- The state of the unit by the age of the request `r`. -/
inductive Phase (r : PcpiReq) (s : PcpiDiv) : Nat → Prop
  | idle (any : s.anyDivRem = false) (start : s.start = false) (running : s.running = false)
      (ready : s.pcpiReady = false) : Phase r s 0
  | decoded (m : MulDiv) (hm : r.divRem = some m) (dec : Decoded m s) (wait : s.pcpiWait = false)
      (running : s.running = false) (ready : s.pcpiReady = false) : Phase r s 1
  | starting (m : MulDiv) (hm : r.divRem = some m) (dec : Decoded m s) (wait : s.pcpiWait = true)
      (waitQ : s.pcpiWaitQ = false) (ready : s.pcpiReady = false) : Phase r s 2
  | rounds (m : MulDiv) (hm : r.divRem = some m) (dec : Decoded m s) (wait : s.pcpiWait = true)
      (waitQ : s.pcpiWaitQ = true) (running : s.running = true) (ready : s.pcpiReady = false)
      (outsign : s.outsign = negative m r) (k a : Nat) (hk : k ≤ 32) (ha : a + k = 35)
      (loop : Loop (magnitude m r.rs1).toNat (magnitude m r.rs2).toNat k s) : Phase r s a
  | answers (m : MulDiv) (hm : r.divRem = some m) (dec : Decoded m s) (wait : s.pcpiWait = true)
      (waitQ : s.pcpiWaitQ = true) (running : s.running = false) (ready : s.pcpiReady = true)
      (wr : s.pcpiWr = true) (rd : s.pcpiRd = m.result r.rs1 r.rs2) : Phase r s 36

theorem wants_of_some (hm : r.divRem = some m) : wants r = true := by rw [wants, hm]; rfl

theorem countAge_of_some (hm : r.divRem = some m) {a : Nat} (ha : a ≠ 36) : countAge ⟨r, x⟩ s a = a + 1 :=
  Requests.count_of_want (wants_of_some hm) ha

theorem countAge_of_none (hm : r.divRem = none) (a : Nat) : countAge ⟨r, x⟩ s a = 0 := by
  rw [countAge, Requests.count, wants, hm]; rfl

theorem countAge_last : countAge ⟨r, x⟩ s 36 = 0 := by
  rw [countAge, Requests.count, if_pos rfl, ite_self]

theorem isDivRem_of_some (hm : r.divRem = some m) : m.isDivRem = true := (divRem_eq_some_iff.1 hm).2.2.2

theorem Phase.idle_step (any : s.anyDivRem = false) (hs : s.start = false) (running : s.running = false)
    (ready : s.pcpiReady = false) : Phase r (step ⟨r, x⟩ s) (countAge ⟨r, x⟩ s 0) := by
  have hf : s.finishes = false := by rw [finishes, running, Bool.and_false]
  have hrun : (step ⟨r, x⟩ s).running = false := by simp only [step, hs, hf, running, Bool.false_eq_true, if_false]
  have hready : (step ⟨r, x⟩ s).pcpiReady = false := by simp only [step, hf, Bool.and_false]
  cases hm : r.divRem with
  | none =>
    rw [countAge_of_none hm]
    exact .idle (by rw [any_step, hm]; exact Bool.and_false _) (by rw [start]; simp only [step, any]; rfl) hrun hready
  | some m =>
    rw [countAge_of_some hm (by omega)]
    exact .decoded m hm (decoded_step hm ready) any hrun hready

theorem Phase.rounds_step (hm : r.divRem = some m) (dec : Decoded m s) (wait : s.pcpiWait = true)
    (waitQ : s.pcpiWaitQ = true) (running : s.running = true) (ready : s.pcpiReady = false)
    (outsign : s.outsign = negative m r) {k a : Nat} (hk : k ≤ 32) (ha : a + k = 35)
    (loop : Loop (magnitude m r.rs1).toNat (magnitude m r.rs2).toNat k s) :
    Phase r (step ⟨r, x⟩ s) (a + 1) := by
  have hs : s.start = false := by rw [start, wait, waitQ]; rfl
  have hdec : Decoded m (step ⟨r, x⟩ s) := decoded_step hm ready
  have hany : (step ⟨r, x⟩ s).pcpiWait = true := dec.any (isDivRem_of_some hm)
  cases k with
  | zero =>
    have hf : s.finishes = true := by rw [finishes, running, loop.mask_eq_zero_iff.2 rfl]; rfl
    obtain rfl : a = 35 := ha
    refine .answers m hm hdec hany wait ?_ ?_ ?_ ?_
    · simp only [step, hs, hf, Bool.false_eq_true, if_false, if_true]
    · simp only [step, hs, hf]; rfl
    · simp only [step, hs, hf]; rfl
    · rw [← answer_eq (isDivRem_of_some hm) loop.quotient loop.dividend, ← outsign]
      simp only [step, hs, hf, dec.div, dec.divu]
      rfl
  | succ k =>
    have hf : s.finishes = false := by
      have hne : s.quotientMsk ≠ 0 := fun h => absurd (loop.mask_eq_zero_iff.1 h) (by omega)
      rw [finishes, beq_eq_false_iff_ne.2 hne]; rfl
    refine .rounds m hm hdec hany wait ?_ ?_ ?_ k (a + 1) (by omega) (by omega) (loop.round (by omega) hs hf)
    · simp only [step, hs, hf, running, Bool.false_eq_true, if_false]
    · simp only [step, hf, Bool.and_false]
    · simp only [step, hs, Bool.false_eq_true, if_false]; exact outsign

theorem Phase.step {a : Nat} (p : Phase r s a) : Phase r (step ⟨r, x⟩ s) (countAge ⟨r, x⟩ s a) := by
  cases p with
  | idle any hs running ready => exact idle_step any hs running ready
  | decoded m hm dec wait running ready =>
    have hs : s.start = false := by rw [start, wait]; rfl
    rw [countAge_of_some hm (by omega)]
    exact .starting m hm (decoded_step hm ready) (dec.any (isDivRem_of_some hm)) wait
      (by simp only [PcpiDiv.step, finishes, running, Bool.and_false])
  | starting m hm dec wait waitQ ready =>
    have hs : s.start = true := by rw [start, wait, waitQ]; rfl
    rw [countAge_of_some hm (by omega)]
    refine .rounds m hm (decoded_step hm ready) (dec.any (isDivRem_of_some hm)) wait ?_ ?_ ?_ 32 3 le_rfl rfl
      (loop_start dec hs)
    · simp only [PcpiDiv.step, hs, if_true]
    · simp only [PcpiDiv.step, hs]; rfl
    · simp only [PcpiDiv.step, hs, if_true, dec.div, dec.rem]; rfl
  | rounds m hm dec wait waitQ running ready outsign k a hk ha loop =>
    rw [countAge_of_some hm (by omega)]
    exact rounds_step hm dec wait waitQ running ready outsign hk ha loop
  | answers m hm dec wait waitQ running ready wr rd =>
    have hs : s.start = false := by rw [start, wait, waitQ]; rfl
    have hf : s.finishes = false := by rw [finishes, running, Bool.and_false]
    rw [countAge_last]
    refine .idle ?_ ?_ ?_ ?_
    · rw [any_step, ready]; rfl
    · rw [start]; simp only [PcpiDiv.step, wait, Bool.not_true, Bool.and_false]
    · simp only [PcpiDiv.step, hs, hf, running, Bool.false_eq_true, if_false]
    · simp only [PcpiDiv.step, hf, Bool.and_false]

variable {inp : Nat → PcpiDivIn}

/-- An idle unit does not look back at the request before. -/
theorem Phase.next {r' : PcpiReq} (p : Phase r s 0) : Phase r' s 0 := by
  cases p with
  | idle any hs running ready => exact .idle any hs running ready
  | rounds => omega

theorem Phase.ready_iff {a : Nat} (p : Phase r s a) : s.pcpiReady = true ↔ a = 36 := by
  cases p with
  | answers m hm dec wait waitQ running ready wr rd => exact iff_of_true ready rfl
  | idle any hs running ready => exact iff_of_false (by rw [ready]; nofun) (by omega)
  | decoded m hm dec wait running ready => exact iff_of_false (by rw [ready]; nofun) (by omega)
  | starting m hm dec wait waitQ ready => exact iff_of_false (by rw [ready]; nofun) (by omega)
  | rounds m hm dec wait waitQ running ready outsign k a hk ha loop => exact iff_of_false (by rw [ready]; nofun) (by omega)

theorem phase (h0 : AfterReset s) (hh : Held inp s) : ∀ t, Phase (inp t).req (run inp s t) (age inp s t) := by
  intro t
  induction t with
  | zero => exact .idle h0.any (by rw [start, show (run inp s 0).pcpiWait = false from h0.wait]; rfl) h0.running h0.ready
  | succ t ih =>
    have hnext : Phase (inp t).req (run inp s (t + 1)) (countAge (inp t) (run inp s t) (age inp s t)) := ih.step
    show Phase _ _ (countAge (inp t) (run inp s t) (age inp s t))
    cases hm : (inp t).req.divRem with
    | none =>
      rw [countAge_of_none hm] at hnext ⊢
      exact hnext.next
    | some m =>
      cases hready : (run inp s t).pcpiReady with
      | true =>
        rw [ih.ready_iff.1 hready, countAge_last] at hnext ⊢
        exact hnext.next
      | false => rw [hh t (wants_of_some hm) hready]; exact hnext

/-- **The divider.** Every request for a division or remainder is answered in its cycle 36, with what the
instruction computes and not before, `pcpi_wait` is set from the third cycle on, and there are no other
answers. -/
theorem pcpi_div_answers (h0 : AfterReset s) (hh : Held inp s) :
    (∀ t m, Begins inp s t → (inp t).req.divRem = some m →
      (∀ k, k < 36 → (run inp s (t + k)).pcpiReady = false) ∧
      (∀ k, 2 ≤ k → k ≤ 36 → (run inp s (t + k)).pcpiWait = true) ∧
      (run inp s (t + 36)).pcpiReady = true ∧ (run inp s (t + 36)).pcpiWr = true ∧
      (run inp s (t + 36)).pcpiRd = m.result (inp t).req.rs1 (inp t).req.rs2) ∧
    ∀ t, (run inp s t).pcpiReady = true → ∃ u, t = u + 36 ∧ Begins inp s u := by
  have hready : ∀ t, (run inp s t).pcpiReady = true ↔ age inp s t = 36 := fun t => (phase h0 hh t).ready_iff
  refine ⟨fun t m hb hm => ⟨fun k hk => ?_, fun k h2 hk => ?_, ?_⟩, fun t hr => ?_⟩
  · rw [Bool.eq_false_iff, Ne, hready, (show age inp s (t + k) = k from (Requests.age_add hready hh hb (by omega)).1)]
    omega
  · have hage : age inp s (t + k) = k := (Requests.age_add hready hh hb hk).1
    have hp := phase h0 hh (t + k)
    rw [hage] at hp
    generalize run inp s (t + k) = s' at hp ⊢
    cases hp with
    | idle => omega
    | decoded => omega
    | starting m hm dec wait waitQ ready => exact wait
    | rounds m hm dec wait waitQ running ready outsign j a hj ha loop => exact wait
    | answers m hm dec wait waitQ running ready wr rd => exact wait
  · have hage : age inp s (t + 36) = 36 := (Requests.age_add hready hh hb le_rfl).1
    have hreq : (inp (t + 36)).req = (inp t).req := (Requests.age_add hready hh hb le_rfl).2
    have hp := phase h0 hh (t + 36)
    rw [hage, hreq] at hp
    generalize run inp s (t + 36) = s' at hp ⊢
    cases hp with
    | rounds => omega
    | answers m' hm' dec wait waitQ running ready wr rd =>
      obtain rfl : m = m' := Option.some.inj (hm.symm.trans hm')
      exact ⟨ready, wr, rd⟩
  · exact Requests.begins_of_age hready ((hready t).1 hr)

/-- A request that is never taken back. -/
def always (insn rs1 rs2 : BitVec 32) (_ : Nat) : PcpiDivIn := ⟨⟨true, insn, rs1, rs2⟩, 0⟩

def atReset : PcpiDiv :=
  ⟨false, false, false, false, false, false, 0, 0, 0, 0, false, false, false, false, 0⟩

/-- `div` of -7 by 2. -/
theorem pcpi_div_answers_seven :
    (run (always 0x02004033 (-7) 2) atReset (0 + 36)).pcpiRd = MulDiv.div.result (-7) 2 ∧
      MulDiv.div.result (-7) 2 = -3 :=
  ⟨((pcpi_div_answers ⟨rfl, rfl, rfl, rfl, rfl⟩ fun _ _ _ => rfl).1 0 .div ⟨rfl, nofun⟩ rfl).2.2.2.2, by decide⟩

end PcpiDiv

end Picorv32Soc
