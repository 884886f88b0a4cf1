import Picorv32Soc.Cpu.Multiply
import Picorv32Soc.Requests

/-!
# `picorv32_pcpi_mul`

The multiplication coprocessor, around the signed multiplier of `Multiply`, whose `MULT_MACRO` stays a
parameter. `mul_counter` starts at 1 and is waited for at 2, so a request takes 132 cycles. A request
that is not taken back when it is answered is not answered again: `mul_start` is an edge of `pcpi_wait`.
The registers `rs1` and `rs2` have 32 bits, and the operands of the multiplier repeat their highest bit:
whatever the instruction, the product is the signed one. `pcpi_mul_answers` says so, and `Exact` for which
operands that is what the instruction computes.
-/

namespace Picorv32Soc

structure PcpiMul (μ : Type) where
  instrMul : Bool
  instrMulh : Bool
  instrMulhsu : Bool
  instrMulhu : Bool
  pcpiWait : Bool
  pcpiWaitQ : Bool
  rs1 : BitVec 32
  rs2 : BitVec 32
  mulCounter : BitVec 7
  mulWaiting : Bool
  mulFinish : Bool
  uut : Multiply μ
  pcpiWr : Bool
  pcpiReady : Bool
  pcpiRd : BitVec 32
deriving DecidableEq, Repr

namespace PcpiMul

variable {μ : Type}

def anyMul (s : PcpiMul μ) : Bool := s.instrMul || s.instrMulh || s.instrMulhsu || s.instrMulhu

def anyMulh (s : PcpiMul μ) : Bool := s.instrMulh || s.instrMulhsu || s.instrMulhu

def mulStart (s : PcpiMul μ) : Bool := s.pcpiWait && !s.pcpiWaitQ

/-- The condition under which `pcpi_insn[14:12]` is looked at. -/
def decodes (r : PcpiReq) : Bool :=
  r.valid && r.insn.extractLsb' 0 7 == 0b0110011 && r.insn.extractLsb' 25 7 == 0b0000001

/-- `{rs1[31],rs1[31],rs1[31],rs1}`. -/
def operand (a : BitVec 32) : BitVec 35 := a.signExtend 35

/-- `rd`. -/
def rd (s : PcpiMul μ) : BitVec 64 := s.uut.p.setWidth 64

/-- An edge without reset. -/
def step (M : MultMacro μ) (r : PcpiReq) (s : PcpiMul μ) : PcpiMul μ where
  instrMul := decodes r && r.insn.extractLsb' 12 3 == 0b000
  instrMulh := decodes r && r.insn.extractLsb' 12 3 == 0b001
  instrMulhsu := decodes r && r.insn.extractLsb' 12 3 == 0b010
  instrMulhu := decodes r && r.insn.extractLsb' 12 3 == 0b011
  pcpiWait := s.anyMul
  pcpiWaitQ := s.pcpiWait
  -- `$signed` and `$unsigned` make no difference: both sides have 32 bits
  rs1 := if s.mulWaiting then r.rs1 else s.rs1
  rs2 := if s.mulWaiting then r.rs2 else s.rs2
  mulCounter := if s.mulWaiting then 1 else s.mulCounter - 1
  mulWaiting := if s.mulWaiting then !s.mulStart else s.mulCounter == 2
  mulFinish := !s.mulWaiting && s.mulCounter == 2
  uut := s.uut.step M (operand s.rs1) (operand s.rs2)
  pcpiWr := s.mulFinish
  pcpiReady := s.mulFinish
  pcpiRd := if s.mulFinish then if s.anyMulh then (s.rd >>> 32).setWidth 32 else s.rd.setWidth 32 else s.pcpiRd

/-- After reset. What is not reset has any value. -/
structure AfterReset (s : PcpiMul μ) : Prop where
  any : s.anyMul = false
  wait : s.pcpiWait = false
  waiting : s.mulWaiting = true
  finish : s.mulFinish = false
  ready : s.pcpiReady = false

/-! ### Decoding -/

end PcpiMul

/-- The multiplication that is asked for. -/
def PcpiReq.mul (r : PcpiReq) : Option MulDiv :=
  if r.valid then (MulDiv.decode r.insn).filter fun m => !m.isDivRem else none

namespace PcpiMul

variable {μ : Type} {M : MultMacro μ} {prod : BitVec 18 → BitVec 18 → BitVec 36}
variable {r : PcpiReq} {s : PcpiMul μ} {m : MulDiv}

/-- The registers that say which instruction is worked on. -/
structure Decoded (m : MulDiv) (s : PcpiMul μ) : Prop where
  any : s.anyMul = true
  anyh : s.anyMulh = (m != .mul)

theorem mul_eq_some_iff : r.mul = some m ↔
    r.valid = true ∧ (r.insn.extractLsb' 0 7 = 0b0110011 ∧ r.insn.extractLsb' 25 7 = 1) ∧
      r.insn.extractLsb' 12 3 = m.funct3 ∧ m.isDivRem = false := by
  unfold PcpiReq.mul
  split_ifs with h
  · rw [Option.filter_eq_some_iff, MulDiv.decode_eq_some_iff, and_assoc, and_iff_right h, Bool.not_eq_true']
  · exact iff_of_false nofun fun h' => h h'.1

theorem decoded_step (hm : r.mul = some m) : Decoded m (step M r s) := by
  obtain ⟨hv, ⟨ho, hf⟩, hf3, hd⟩ := mul_eq_some_iff.1 hm
  have hdec : decodes r = true := by simp [decodes, hv, ho, hf]
  constructor <;> simp only [step, anyMul, anyMulh, hdec, hf3, Bool.true_and] <;> revert hd <;> cases m <;> decide

theorem any_step_none (hm : r.mul = none) : (step M r s).anyMul = false := by
  have hany : (step M r s).anyMul = (decodes r && !(r.insn.extractLsb' 12 3).getLsbD 2) := by
    simp only [anyMul, step, ← Bool.and_or_distrib_left]
    congr 1
    generalize r.insn.extractLsb' 12 3 = f
    revert f; decide
  by_contra h
  rw [hany, Bool.not_eq_false, Bool.and_eq_true] at h
  obtain ⟨hdec, hbit⟩ := h
  simp only [decodes, Bool.and_eq_true, beq_iff_eq] at hdec
  have hf : ∀ f : BitVec 3, (!f.getLsbD 2) = true → f = 0 ∨ f = 1 ∨ f = 2 ∨ f = 3 := by decide
  have hsome : ∃ m, r.mul = some m := by
    simp only [mul_eq_some_iff]
    rcases hf _ hbit with h | h | h | h <;> rw [h]
    exacts [⟨.mul, hdec.1.1, ⟨hdec.1.2, hdec.2⟩, rfl, rfl⟩, ⟨.mulh, hdec.1.1, ⟨hdec.1.2, hdec.2⟩, rfl, rfl⟩,
      ⟨.mulhsu, hdec.1.1, ⟨hdec.1.2, hdec.2⟩, rfl, rfl⟩, ⟨.mulhu, hdec.1.1, ⟨hdec.1.2, hdec.2⟩, rfl, rfl⟩]
  obtain ⟨m, hsome⟩ := hsome
  rw [hm] at hsome
  cases hsome

/-! ### The product -/

/-- What the unit computes: the low or the high word of the signed product. -/
def product (m : MulDiv) (a b : BitVec 32) : BitVec 32 :=
  if m = .mul then a * b else MulDiv.high (a.toInt * b.toInt)

theorem toInt_operand (a : BitVec 32) : (operand a).toInt = a.toInt := BitVec.toInt_signExtend_of_le (by omega)

theorem product_eq (m : MulDiv) {p : BitVec 70} {a b : BitVec 32}
    (hp : p = BitVec.ofInt 70 ((operand a).toInt * (operand b).toInt)) :
    (if m != .mul then ((p.setWidth 64) >>> 32).setWidth 32 else (p.setWidth 64).setWidth 32) = product m a b := by
  rw [toInt_operand, toInt_operand] at hp
  have hnat : (p.toNat : Int) = a.toInt * b.toInt % 2 ^ 70 := by
    rw [hp, BitVec.toNat_ofInt]
    exact Int.toNat_of_nonneg (Int.emod_nonneg _ (by decide))
  unfold product
  by_cases hm : m = .mul
  · rw [if_neg (by rw [hm]; decide), if_pos hm, ← BitVec.ofInt_toInt (x := a), ← BitVec.ofInt_toInt (x := b),
      ← BitVec.ofInt_mul]
    apply BitVec.eq_of_toNat_eq
    rw [BitVec.toNat_setWidth, BitVec.toNat_setWidth, BitVec.toNat_ofInt]
    omega
  · rw [if_pos (bne_iff_ne.2 hm), if_neg hm]
    apply BitVec.eq_of_toNat_eq
    rw [BitVec.toNat_setWidth, BitVec.toNat_ushiftRight, BitVec.toNat_setWidth, Nat.shiftRight_eq_div_pow, MulDiv.high,
      BitVec.toNat_ofInt]
    omega

/-- The operands for which the signed product is the right one. -/
def Exact (a b : BitVec 32) : MulDiv → Prop
  | .mulhsu => b.msb = true → a = 0
  | .mulhu => (if a.msb then b else 0) + (if b.msb then a else 0) = 0
  | _ => True

theorem high_add (p q : Int) : MulDiv.high (p + 2 ^ 32 * q) = MulDiv.high p + BitVec.ofInt 32 q := by
  rw [MulDiv.high, Int.add_mul_ediv_left _ _ (by decide), BitVec.ofInt_add]
  rfl

/-- An operand without sign, by its sign bit. -/
theorem toNat_eq (a : BitVec 32) : (a.toNat : Int) = a.toInt + 2 ^ 32 * (if a.msb then 1 else 0) := by
  have := a.isLt
  rw [BitVec.toInt_eq_msb_cond]
  split_ifs <;> omega

theorem mulhsu_eq (a b : BitVec 32) :
    MulDiv.mulhsu.result a b = MulDiv.high (a.toInt * b.toInt) + if b.msb then a else 0 := by
  have hp : a.toInt * (b.toNat : Int) = a.toInt * b.toInt + 2 ^ 32 * (if b.msb then a.toInt else 0) := by
    rw [toNat_eq b]
    split_ifs <;> ring
  rw [MulDiv.result, hp, high_add]
  split_ifs
  · rw [BitVec.ofInt_toInt]
  · rfl

theorem mulhu_eq (a b : BitVec 32) :
    MulDiv.mulhu.result a b =
      MulDiv.high (a.toInt * b.toInt) + ((if a.msb then b else 0) + if b.msb then a else 0) := by
  have hp : (a.toNat : Int) * b.toNat = a.toInt * b.toInt +
      2 ^ 32 * ((if a.msb then b.toInt else 0) + (if b.msb then a.toInt else 0) +
        2 ^ 32 * (if a.msb && b.msb then 1 else 0)) := by
    rw [toNat_eq a, toNat_eq b]
    cases a.msb <;> cases b.msb <;> simp <;> ring
  have hzero : ∀ z : Int, BitVec.ofInt 32 (2 ^ 32 * z) = 0 := by
    intro z
    apply BitVec.eq_of_toNat_eq
    rw [BitVec.toNat_ofInt]
    simp
  have hbit : ∀ (c : Bool) (x : BitVec 32), BitVec.ofInt 32 (if c then x.toInt else 0) = if c then x else 0 := by
    intro c x
    cases c
    · rfl
    · exact BitVec.ofInt_toInt
  rw [MulDiv.result, hp, high_add, BitVec.ofInt_add, BitVec.ofInt_add, hzero, hbit, hbit, add_zero]

theorem product_eq_result_iff (hm : m.isDivRem = false) (a b : BitVec 32) :
    product m a b = m.result a b ↔ Exact a b m := by
  cases m with
  | div | divu | rem | remu => cases hm
  | mul => exact iff_of_true rfl trivial
  | mulh => exact iff_of_true rfl trivial
  | mulhsu =>
    rw [mulhsu_eq, product, if_neg (by decide), BitVec.self_eq_add_right, Exact]
    cases b.msb with
    | false => exact iff_of_true rfl nofun
    | true => exact ⟨fun h _ => h, fun h => h rfl⟩
  | mulhu => rw [mulhu_eq, product, if_neg (by decide), BitVec.self_eq_add_right]; rfl

/-! ### Requests over time -/

section
variable (M : MultMacro μ) (inp : Nat → PcpiReq) (s : PcpiMul μ)

def wants (r : PcpiReq) : Bool := r.mul.isSome

def run : Nat → PcpiMul μ := Clocked.run (step M) inp s

def age : Nat → Nat := Requests.age (step M) id wants 132 inp s

/-- A request for a multiplication in its first cycle. -/
def Begins : Nat → Prop := Requests.Begins (step M) id wants pcpiReady inp s

/-- The core holds a request until it is answered, and takes it back then. -/
structure Protocol : Prop where
  held : Requests.Held (step M) id wants pcpiReady inp s
  released : ∀ t, (run M inp s t).pcpiReady = true → (inp (t + 1)).mul = none

def countAge (i : PcpiReq) (s : PcpiMul μ) (a : Nat) : Nat := Requests.count id wants 132 i s a

end

/-- The state of the unit by the age of the request `r`. -/
inductive Phase (M : MultMacro μ) (r : PcpiReq) (s : PcpiMul μ) : Nat → Prop
  | idle (any : s.anyMul = false) (start : s.mulStart = false) (waiting : s.mulWaiting = true)
      (finish : s.mulFinish = false) (ready : s.pcpiReady = false) : Phase M r s 0
  /-- The cycle after an answer. -/
  | cooling (hm : r.mul = none) (wait : s.pcpiWait = true) (waitQ : s.pcpiWaitQ = true)
      (waiting : s.mulWaiting = true) (finish : s.mulFinish = false) (ready : s.pcpiReady = false) : Phase M r s 0
  | decoded (m : MulDiv) (hm : r.mul = some m) (dec : Decoded m s) (wait : s.pcpiWait = false)
      (waiting : s.mulWaiting = true) (finish : s.mulFinish = false) (ready : s.pcpiReady = false) : Phase M r s 1
  | starting (m : MulDiv) (hm : r.mul = some m) (dec : Decoded m s) (wait : s.pcpiWait = true)
      (waitQ : s.pcpiWaitQ = false) (waiting : s.mulWaiting = true) (finish : s.mulFinish = false)
      (ready : s.pcpiReady = false) : Phase M r s 2
  | multiplies (m : MulDiv) (hm : r.mul = some m) (dec : Decoded m s) (wait : s.pcpiWait = true)
      (waitQ : s.pcpiWaitQ = true) (waiting : s.mulWaiting = false) (finish : s.mulFinish = false)
      (ready : s.pcpiReady = false) (j : Nat) (hj : j < 128) (rs1 : s.rs1 = r.rs1) (rs2 : s.rs2 = r.rs2)
      (counter : s.mulCounter = 1 - BitVec.ofNat 7 j)
      (filled : s.uut.Filled M (operand r.rs1) (operand r.rs2) j) : Phase M r s (j + 3)
  | finishes (m : MulDiv) (hm : r.mul = some m) (dec : Decoded m s) (wait : s.pcpiWait = true)
      (waitQ : s.pcpiWaitQ = true) (waiting : s.mulWaiting = true) (finish : s.mulFinish = true)
      (ready : s.pcpiReady = false)
      (p : s.uut.p = BitVec.ofInt 70 ((operand r.rs1).toInt * (operand r.rs2).toInt)) : Phase M r s 131
  | answers (m : MulDiv) (hm : r.mul = some m) (dec : Decoded m s) (wait : s.pcpiWait = true)
      (waitQ : s.pcpiWaitQ = true) (waiting : s.mulWaiting = true) (finish : s.mulFinish = false)
      (ready : s.pcpiReady = true) (wr : s.pcpiWr = true) (rd : s.pcpiRd = product m r.rs1 r.rs2) : Phase M r s 132

theorem wants_of_some (hm : r.mul = some m) : wants r = true := by rw [wants, hm]; rfl

theorem countAge_of_some (hm : r.mul = some m) {a : Nat} (ha : a ≠ 132) : countAge r s a = a + 1 :=
  Requests.count_of_want (wants_of_some hm) ha

theorem countAge_of_none (hm : r.mul = none) (a : Nat) : countAge r s a = 0 := by
  rw [countAge, Requests.count, id, wants, hm]; rfl

theorem countAge_last : countAge r s 132 = 0 := by
  rw [countAge, Requests.count, if_pos rfl, ite_self]

theorem waiting_step (waiting : s.mulWaiting = true) (start : s.mulStart = false) :
    (step M r s).mulWaiting = true ∧ (step M r s).mulFinish = false := by
  refine ⟨?_, ?_⟩
  · simp only [step, waiting, start, if_true, Bool.not_false]
  · simp only [step, waiting, Bool.not_true, Bool.false_and]

theorem Phase.step (hM : M.Multiplies prod) {r' : PcpiReq} {a : Nat} (p : Phase M r s a)
    (hheld : s.pcpiReady = false → r.mul.isSome → r' = r) (hreleased : s.pcpiReady = true → r'.mul = none) :
    Phase M r' (step M r s) (countAge r s a) := by
  cases p with
  | idle any start waiting finish ready =>
    obtain ⟨hw, hf⟩ := waiting_step (M := M) (r := r) waiting start
    cases hm : r.mul with
    | none =>
      rw [countAge_of_none hm]
      exact .idle (any_step_none hm) (by rw [mulStart]; simp only [PcpiMul.step, any]; rfl) hw hf finish
    | some m =>
      rw [countAge_of_some hm (by omega), hheld ready (by rw [hm]; rfl)]
      exact .decoded m hm (decoded_step hm) any hw hf finish
  | cooling hm wait waitQ waiting finish ready =>
    have start : s.mulStart = false := by rw [mulStart, wait, waitQ]; rfl
    obtain ⟨hw, hf⟩ := waiting_step (M := M) (r := r) waiting start
    rw [countAge_of_none hm]
    exact .idle (any_step_none hm) (by rw [mulStart]; simp only [PcpiMul.step, wait, Bool.not_true, Bool.and_false])
      hw hf finish
  | decoded m hm dec wait waiting finish ready =>
    have start : s.mulStart = false := by rw [mulStart, wait]; rfl
    obtain ⟨hw, hf⟩ := waiting_step (M := M) (r := r) waiting start
    rw [countAge_of_some hm (by omega), hheld ready (by rw [hm]; rfl)]
    exact .starting m hm (decoded_step hm) dec.any wait hw hf finish
  | starting m hm dec wait waitQ waiting finish ready =>
    have start : s.mulStart = true := by rw [mulStart, wait, waitQ]; rfl
    rw [countAge_of_some hm (by omega), hheld ready (by rw [hm]; rfl)]
    refine .multiplies m hm (decoded_step hm) dec.any wait ?_ ?_ finish 0 (by omega) ?_ ?_ ?_
      (Multiply.filled_zero M _ _ _)
    · simp only [PcpiMul.step, waiting, start, if_true, Bool.not_true]
    · simp only [PcpiMul.step, waiting, Bool.not_true, Bool.false_and]
    · simp only [PcpiMul.step, waiting, if_true]
    · simp only [PcpiMul.step, waiting, if_true]
    · simp only [PcpiMul.step, waiting, if_true]; rfl
  | multiplies m hm dec wait waitQ waiting finish ready j hj rs1 rs2 counter filled =>
    rw [countAge_of_some hm (by omega), hheld ready (by rw [hm]; rfl)]
    have hfilled : (PcpiMul.step M r s).uut.Filled M (operand r.rs1) (operand r.rs2) (j + 1) := by
      have := filled.step hM
      rwa [← rs1, ← rs2] at this ⊢
    have hlast : s.mulCounter = 2 ↔ j = 127 := by
      rw [counter]
      have : ∀ k : Fin 128, (1 - BitVec.ofNat 7 k.val = 2) ↔ k.val = 127 := by decide
      exact this ⟨j, hj⟩
    by_cases h127 : j = 127
    · have h2 := hlast.2 h127
      subst h127
      refine .finishes m hm (decoded_step hm) dec.any wait ?_ ?_ finish (hfilled.product (by omega))
      · simp only [PcpiMul.step, waiting, h2]; rfl
      · simp only [PcpiMul.step, waiting, h2]; rfl
    · have h2 : (s.mulCounter == 2) = false := by rw [beq_eq_false_iff_ne, Ne, hlast]; exact h127
      refine .multiplies m hm (decoded_step hm) dec.any wait ?_ ?_ finish (j + 1) (by omega) ?_ ?_ ?_ hfilled
      · simp only [PcpiMul.step, waiting, h2]; rfl
      · simp only [PcpiMul.step, waiting, h2]; rfl
      · simp only [PcpiMul.step, waiting]; exact rs1
      · simp only [PcpiMul.step, waiting]; exact rs2
      · simp only [PcpiMul.step, waiting, counter, Bool.false_eq_true, if_false]
        rw [BitVec.ofNat_add, BitVec.sub_sub]; rfl
  | finishes m hm dec wait waitQ waiting finish ready p =>
    have start : s.mulStart = false := by rw [mulStart, wait, waitQ]; rfl
    obtain ⟨hw, hf⟩ := waiting_step (M := M) (r := r) waiting start
    rw [countAge_of_some hm (by omega), hheld ready (by rw [hm]; rfl)]
    refine .answers m hm (decoded_step hm) dec.any wait hw hf finish finish ?_
    rw [← product_eq m p]
    simp only [PcpiMul.step, finish, if_true, dec.anyh]
    rfl
  | answers m hm dec wait waitQ waiting finish ready wr rd =>
    have start : s.mulStart = false := by rw [mulStart, wait, waitQ]; rfl
    obtain ⟨hw, hf⟩ := waiting_step (M := M) (r := r) waiting start
    rw [countAge_last]
    exact .cooling (hreleased ready) dec.any wait hw hf finish

theorem Phase.ready_iff {a : Nat} (p : Phase M r s a) : s.pcpiReady = true ↔ a = 132 := by
  cases p with
  | answers m hm dec wait waitQ waiting finish ready wr rd => exact iff_of_true ready rfl
  | idle any start waiting finish ready => exact iff_of_false (by rw [ready]; nofun) (by omega)
  | cooling hm wait waitQ waiting finish ready => exact iff_of_false (by rw [ready]; nofun) (by omega)
  | decoded m hm dec wait waiting finish ready => exact iff_of_false (by rw [ready]; nofun) (by omega)
  | starting m hm dec wait waitQ waiting finish ready => exact iff_of_false (by rw [ready]; nofun) (by omega)
  | multiplies m hm dec wait waitQ waiting finish ready => exact iff_of_false (by rw [ready]; nofun) (by omega)
  | finishes m hm dec wait waitQ waiting finish ready => exact iff_of_false (by rw [ready]; nofun) (by omega)

variable {inp : Nat → PcpiReq}

theorem phase (hM : M.Multiplies prod) (h0 : AfterReset s) (hp : Protocol M inp s) :
    ∀ t, Phase M (inp t) (run M inp s t) (age M inp s t) := by
  intro t
  induction t with
  | zero =>
    exact .idle h0.any (by rw [mulStart, show (run M inp s 0).pcpiWait = false from h0.wait]; rfl) h0.waiting h0.finish
      h0.ready
  | succ t ih => exact ih.step hM (fun hr hm => hp.held t hm hr) (hp.released t)

/-- **The multiplier.** Every request for a multiplication is answered in its cycle 132 and not before,
`pcpi_wait` is set from the third cycle on, and there are no other answers. The answer is the word of the
signed product, which is what the instruction computes exactly for the operands of `Exact`. -/
theorem pcpi_mul_answers (hM : M.Multiplies prod) (h0 : AfterReset s) (hp : Protocol M inp s) :
    (∀ t m, Begins M inp s t → (inp t).mul = some m →
      (∀ k, k < 132 → (run M inp s (t + k)).pcpiReady = false) ∧
      (∀ k, 2 ≤ k → k ≤ 132 → (run M inp s (t + k)).pcpiWait = true) ∧
      (run M inp s (t + 132)).pcpiReady = true ∧ (run M inp s (t + 132)).pcpiWr = true ∧
      (run M inp s (t + 132)).pcpiRd = product m (inp t).rs1 (inp t).rs2 ∧
      ((run M inp s (t + 132)).pcpiRd = m.result (inp t).rs1 (inp t).rs2 ↔ Exact (inp t).rs1 (inp t).rs2 m)) ∧
    ∀ t, (run M inp s t).pcpiReady = true → ∃ u, t = u + 132 ∧ Begins M inp s u := by
  have hready : ∀ t, (run M inp s t).pcpiReady = true ↔ age M inp s t = 132 := fun t => (phase hM h0 hp t).ready_iff
  have hadd : ∀ t, Begins M inp s t → ∀ k, k ≤ 132 → age M inp s (t + k) = k ∧ inp (t + k) = inp t :=
    fun t hb k hk => Requests.age_add hready hp.held hb hk
  refine ⟨fun t m hb hm => ⟨fun k hk => ?_, fun k h2 hk => ?_, ?_⟩, fun t hr => ?_⟩
  · rw [Bool.eq_false_iff, Ne, hready, (hadd t hb k (by omega)).1]
    omega
  · have hph := phase hM h0 hp (t + k)
    rw [(hadd t hb k hk).1] at hph
    generalize run M inp s (t + k) = s' at hph ⊢
    cases hph with
    | idle => omega
    | cooling => omega
    | decoded => omega
    | starting m hm dec wait => exact wait
    | multiplies m hm dec wait => exact wait
    | finishes m hm dec wait => exact wait
    | answers m hm dec wait => exact wait
  · have hph := phase hM h0 hp (t + 132)
    rw [(hadd t hb 132 le_rfl).1, (hadd t hb 132 le_rfl).2] at hph
    generalize run M inp s (t + 132) = s' at hph ⊢
    cases hph with
    | multiplies => omega
    | answers m' hm' dec wait waitQ waiting finish ready wr rd =>
      obtain rfl : m = m' := Option.some.inj (hm.symm.trans hm')
      refine ⟨ready, wr, rd, ?_⟩
      rw [rd]
      exact product_eq_result_iff (mul_eq_some_iff.1 hm).2.2.2 _ _
  · exact Requests.begins_of_age hready ((hready t).1 hr)

/-- One request, which is taken back when it is answered. -/
def once (r : PcpiReq) (t : Nat) : PcpiReq := if t ≤ 132 then r else ⟨false, 0, 0, 0⟩

theorem once_of_lt {t : Nat} (h : 132 < t) : (once r t).mul = none := by rw [once, if_neg (by omega)]; rfl

theorem age_once (hm : r.mul = some m) (t : Nat) : age M (once r) s t = if t ≤ 132 then t else 0 := by
  induction t with
  | zero => rfl
  | succ t ih =>
    show countAge (once r t) (run M (once r) s t) (age M (once r) s t) = _
    rw [ih]
    rcases Nat.lt_trichotomy t 132 with h | rfl | h
    · rw [once, if_pos (Nat.le_of_lt h), if_pos (Nat.le_of_lt h), if_pos (Nat.succ_le_of_lt h),
        countAge_of_some hm (Nat.ne_of_lt h)]
    · exact countAge_last
    · rw [countAge_of_none (once_of_lt h), if_neg (by omega)]

theorem protocol_once (hM : M.Multiplies prod) (h0 : AfterReset s) (hm : r.mul = some m) : Protocol M (once r) s := by
  have hheld : ∀ t, (age M (once r) s t = 132 ∨ once r (t + 1) = once r t) := by
    intro t
    rcases Nat.lt_trichotomy t 132 with h | rfl | h
    · exact .inr (by rw [once, once, if_pos (by omega), if_pos (by omega)])
    · exact .inl (age_once hm 132)
    · exact .inr (by rw [once, once, if_neg (by omega), if_neg (by omega)])
  have hreleased : ∀ t, age M (once r) s t = 132 → (once r (t + 1)).mul = none := by
    intro t ht
    rw [age_once hm] at ht
    split_ifs at ht with hle
    exact once_of_lt (by omega)
  have hphase : ∀ t, Phase M (once r t) (run M (once r) s t) (age M (once r) s t) := by
    intro t
    induction t with
    | zero =>
      exact .idle h0.any (by rw [mulStart, show (run M (once r) s 0).pcpiWait = false from h0.wait]; rfl) h0.waiting
        h0.finish h0.ready
    | succ t ih =>
      refine ih.step hM (fun hr _ => ?_) fun hr => hreleased t (ih.ready_iff.1 hr)
      exact (hheld t).resolve_left fun h => absurd (ih.ready_iff.2 h) (Bool.eq_false_iff.1 hr)
  refine ⟨fun t _ hr => (hheld t).resolve_left fun h => ?_, fun t hr => hreleased t ((hphase t).ready_iff.1 hr)⟩
  exact absurd ((hphase t).ready_iff.2 h) (Bool.eq_false_iff.1 hr)

/-- A multiplier with three registers behind each other. -/
def pipelined : MultMacro (BitVec 36 × BitVec 36 × BitVec 36) where
  step a b m := (BitVec.ofInt 36 (a.toInt * b.toInt), m.1, m.2.1)
  p m := m.2.2

theorem multiplies_pipelined : pipelined.Multiplies fun a b => BitVec.ofInt 36 (a.toInt * b.toInt) where
  signed a b := by
    have habs : ∀ x : BitVec 18, |x.toInt| ≤ 2 ^ 17 := fun x =>
      abs_le.2 ⟨by simpa using BitVec.le_toInt x, by have := BitVec.toInt_lt (x := x); omega⟩
    have hab := abs_le.1 (Multiply.abs_mul_le (habs a) (habs b))
    rw [BitVec.toInt_ofInt]
    exact Int.bmod_eq_of_le (by omega) (by omega)
  latency _ _ _ _ _ _ _ := rfl

def atReset : PcpiMul (BitVec 36 × BitVec 36 × BitVec 36) :=
  ⟨false, false, false, false, false, false, 0, 0, 0, true, false, ⟨0, 0, 0, 0, 0, 0, 0, 0, 0, 0, 0⟩, false,
    false, 0⟩

/-- `mulhu` of the largest number by itself is not answered with the high word of the product. -/
theorem pcpi_mul_answers_mulhu :
    (run pipelined (once ⟨true, 0x02003033, -1, -1⟩) atReset (0 + 132)).pcpiRd ≠ MulDiv.mulhu.result (-1) (-1) := by
  have h0 : AfterReset atReset := ⟨rfl, rfl, rfl, rfl, rfl⟩
  have hp : Protocol pipelined (once ⟨true, 0x02003033, -1, -1⟩) atReset :=
    protocol_once multiplies_pipelined h0 (m := .mulhu) rfl
  have hans := (pcpi_mul_answers multiplies_pipelined h0 hp).1 0 .mulhu ⟨rfl, nofun⟩ rfl
  intro h
  exact absurd (hans.2.2.2.2.2.1 h) (by unfold Exact; decide)

end PcpiMul

end Picorv32Soc
