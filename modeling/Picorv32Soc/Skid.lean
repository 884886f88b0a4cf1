import Mathlib.Tactic.Common

/-!
# Skid buffers

An output register with a second one behind it. The buffer says in a register of its own whether it takes an item in
a cycle, so it learns one cycle late that its output does not move, and the item that comes in that cycle goes to the
second register. After a reset it takes nothing for a cycle. It is a queue of at most two items (`held_step`).
-/

/-- The two registers with their valid flags, and whether an item is taken in this cycle. -/
structure Skid (α : Type*) where
  out : α
  valid : Bool
  temp : α
  tempValid : Bool
  ready : Bool

namespace Skid

variable {α : Type*}

/-- Whether an item will be taken in the next cycle, when the output moves or not in this one. -/
def early (move itemValid : Bool) (s : Skid α) : Bool := move || (!s.tempValid && (!s.valid || !itemValid))

def step (move : Bool) (item : α) (itemValid : Bool) (s : Skid α) : Skid α :=
  let direct := s.ready && (move || !s.valid)
  let second := s.ready && !(move || !s.valid)
  let drain := !s.ready && move
  { out := if direct then item else if drain then s.temp else s.out
    valid := if direct then itemValid else if drain then s.tempValid else s.valid
    temp := if second then item else s.temp
    tempValid := if second then itemValid else if drain then false else s.tempValid
    ready := s.early move itemValid }

/-- The items in the buffer. -/
def held (s : Skid α) : List α := (if s.valid then [s.out] else []) ++ if s.tempValid then [s.temp] else []

/-- The item that leaves. -/
def left (move : Bool) (s : Skid α) : List α := if s.valid && move then [s.out] else []

/-- The item that comes in. -/
def taken (item : α) (itemValid : Bool) (s : Skid α) : List α := if s.ready && itemValid then [item] else []

/-- What the flags can be. -/
inductive Ok : Skid α → Prop
  | fresh (out temp : α) : Ok ⟨out, false, temp, false, false⟩
  | empty (out temp : α) : Ok ⟨out, false, temp, false, true⟩
  | one (out temp : α) : Ok ⟨out, true, temp, false, true⟩
  | two (out temp : α) : Ok ⟨out, true, temp, true, false⟩

variable {s : Skid α} {move itemValid : Bool} {item : α}

theorem Ok.step (h : Ok s) : Ok (s.step move item itemValid) := by
  cases h <;> cases move <;> cases itemValid <;> constructor

/-- The buffer is a queue. -/
theorem held_step (h : Ok s) : s.left move ++ (s.step move item itemValid).held = s.held ++ s.taken item itemValid := by
  cases h <;> cases move <;> cases itemValid <;> rfl

end Skid
