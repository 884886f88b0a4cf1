import Mathlib.Tactic.SplitIfs
import Picorv32Soc.Clocked

/-!
# Requests with a fixed latency

A unit is asked through its inputs and answers with `ready`. `req` is the part of the inputs that is
held while a request waits and `want` says whether it is one. `age` counts the cycles a request has been
there. When the unit is ready exactly at age `last`, every request is answered `last` cycles after its
first one (`age_add`), and every answer belongs to a request that began `last` cycles before
(`begins_of_age`).
-/

namespace Requests
open Clocked

variable {σ ι ρ : Type*}

section
variable (step : ι → σ → σ) (req : ι → ρ) (want : ρ → Bool) (ready : σ → Bool) (last : Nat) (inp : Nat → ι) (s : σ)

def count (i : ι) (_ : σ) (a : Nat) : Nat := if want (req i) then if a = last then 0 else a + 1 else 0

/-- The number of cycles the request has been there before cycle `t`. -/
def age : Nat → Nat := watch (count req want last) step inp s 0

/-- A request in its first cycle. -/
def Begins (t : Nat) : Prop :=
  want (req (inp t)) = true ∧ ∀ u, t = u + 1 → want (req (inp u)) = false ∨ ready (run step inp s u) = true

/-- A request is held until it is answered. -/
def Held : Prop :=
  ∀ t, want (req (inp t)) = true → ready (run step inp s t) = false → req (inp (t + 1)) = req (inp t)

end

variable {step : ι → σ → σ} {req : ι → ρ} {want : ρ → Bool} {ready : σ → Bool} {last : Nat} {inp : Nat → ι} {s : σ}

theorem age_succ (t : Nat) :
    age step req want last inp s (t + 1) =
      count req want last (inp t) (run step inp s t) (age step req want last inp s t) := rfl

theorem count_of_want {i : ι} {a : Nat} (h : want (req i) = true) (ha : a ≠ last) : count req want last i s a = a + 1 := by
  rw [count, if_pos h, if_neg ha]

section
variable (hready : ∀ t, ready (run step inp s t) = true ↔ age step req want last inp s t = last)
include hready

theorem begins_iff (t : Nat) : Begins step req want ready inp s t ↔
    want (req (inp t)) = true ∧ age step req want last inp s t = 0 := by
  refine and_congr_right fun _ => ?_
  cases t with
  | zero => exact iff_of_true nofun rfl
  | succ t =>
    rw [age_succ, count]
    constructor
    · intro h
      rcases h t rfl with hnone | hr
      · rw [hnone]; rfl
      · rw [(hready t).1 hr, if_pos rfl, ite_self]
    · rintro h u hu
      obtain rfl : t = u := Nat.succ.inj hu
      split_ifs at h with h1 h2
      · exact .inr ((hready t).2 h2)
      · exact .inl (Bool.eq_false_iff.2 h1)

/-- The request stays and gets older. -/
theorem age_add (hh : Held step req want ready inp s) {t : Nat} (hb : Begins step req want ready inp s t) {k : Nat}
    (hk : k ≤ last) : age step req want last inp s (t + k) = k ∧ req (inp (t + k)) = req (inp t) := by
  obtain ⟨hwant, hage⟩ := (begins_iff hready t).1 hb
  induction k with
  | zero => exact ⟨hage, rfl⟩
  | succ k ih =>
    obtain ⟨hk', hreq⟩ := ih (Nat.le_of_succ_le hk)
    have hne : k ≠ last := Nat.ne_of_lt hk
    have hnot : ready (run step inp s (t + k)) = false := by
      rw [Bool.eq_false_iff, Ne, hready, hk']
      exact hne
    have hwant' : want (req (inp (t + k))) = true := by rw [hreq, hwant]
    refine ⟨?_, ?_⟩
    · rw [← Nat.add_assoc, age_succ, hk', count_of_want hwant' hne]
    · rw [← Nat.add_assoc, hh (t + k) hwant' hnot, hreq]

/-- The age goes up by one in each cycle. -/
theorem begins_of_age {a t : Nat} (h : age step req want last inp s t = a + 1) :
    ∃ u, t = u + (a + 1) ∧ Begins step req want ready inp s u := by
  induction t generalizing a with
  | zero => cases h
  | succ t ih =>
    rw [age_succ, count] at h
    split_ifs at h with hwant hlast
    cases a with
    | zero => exact ⟨t, rfl, (begins_iff hready t).2 ⟨hwant, by omega⟩⟩
    | succ a =>
      obtain ⟨u, rfl, hu⟩ := ih (a := a) (by omega)
      exact ⟨u, by omega, hu⟩

end

end Requests
