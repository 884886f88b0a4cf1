import Mathlib.Data.BitVec

/-!
# The multiplication and division instructions

What the instructions of the standard extension M compute, and their encoding: opcode `0110011` with
`funct7` 1, the instruction in `funct3`.
-/

namespace Picorv32Soc

inductive MulDiv
  | mul | mulh | mulhsu | mulhu | div | divu | rem | remu
deriving DecidableEq, Repr

namespace MulDiv

def funct3 : MulDiv → BitVec 3
  | mul => 0
  | mulh => 1
  | mulhsu => 2
  | mulhu => 3
  | div => 4
  | divu => 5
  | rem => 6
  | remu => 7

def isDivRem : MulDiv → Bool
  | div | divu | rem | remu => true
  | _ => false

def decode (insn : BitVec 32) : Option MulDiv :=
  if insn.extractLsb' 0 7 = 0b0110011 ∧ insn.extractLsb' 25 7 = 1 then
    match insn.extractLsb' 12 3 with
    | 0 => some mul
    | 1 => some mulh
    | 2 => some mulhsu
    | 3 => some mulhu
    | 4 => some div
    | 5 => some divu
    | 6 => some rem
    | _ => some remu
  else none

theorem decode_eq_some_iff {insn : BitVec 32} {m : MulDiv} :
    decode insn = some m ↔
      (insn.extractLsb' 0 7 = 0b0110011 ∧ insn.extractLsb' 25 7 = 1) ∧ insn.extractLsb' 12 3 = m.funct3 := by
  unfold decode
  split_ifs with h
  · rw [and_iff_right h]
    generalize insn.extractLsb' 12 3 = f
    revert f
    cases m <;> decide
  · exact iff_of_false nofun fun h' => h h'.1

/-- Bits 32 to 63 of a product. -/
def high (p : Int) : BitVec 32 := BitVec.ofInt 32 (p / 2 ^ 32)

/-- The result, with the values the standard gives to a division by zero. The overflow of a signed
division wraps. -/
def result (a b : BitVec 32) : MulDiv → BitVec 32
  | mul => a * b
  | mulh => high (a.toInt * b.toInt)
  | mulhsu => high (a.toInt * b.toNat)
  | mulhu => high (a.toNat * b.toNat)
  | div => if b = 0 then -1 else BitVec.ofInt 32 (a.toInt.tdiv b.toInt)
  | divu => if b = 0 then -1 else BitVec.ofNat 32 (a.toNat / b.toNat)
  | rem => if b = 0 then a else BitVec.ofInt 32 (a.toInt.tmod b.toInt)
  | remu => if b = 0 then a else BitVec.ofNat 32 (a.toNat % b.toNat)

end MulDiv

/-- What the core asks of a coprocessor. -/
structure PcpiReq where
  valid : Bool
  insn : BitVec 32
  rs1 : BitVec 32
  rs2 : BitVec 32
deriving DecidableEq, Repr

end Picorv32Soc
