import Mathlib.Logic.Basic

/-!
# Clocked machines

A synchronous circuit is a step function on its registers; `run` is the sequence of register states
it goes through on a sequence of inputs. An invariant is proved once for every edge (`run_inv`). What
a run has shown is kept by an observer beside the machine (`watch`), and invariants of both are proved
in the same way, for a whole run (`watch_inv`) or up to a given edge (`watch_inv_le`).
-/

namespace Clocked

variable {σ ι : Type*} {step : ι → σ → σ} {inp : Nat → ι} {s : σ}

/-- The state before edge `t` of the machine `step`, started in `s`, on the inputs `inp`. -/
def run (step : ι → σ → σ) (inp : Nat → ι) (s : σ) : Nat → σ
  | 0 => s
  | t + 1 => step (inp t) (run step inp s t)

theorem run_succ (t : Nat) : run step inp s (t + 1) = step (inp t) (run step inp s t) := rfl

theorem run_add (t k : Nat) :
    run step inp s (t + k) = run step (fun j => inp (t + j)) (run step inp s t) k := by
  induction k with
  | zero => rfl
  | succ k ih => rw [← Nat.add_assoc, run_succ, run_succ, ih]

/-- What holds initially and is kept by every edge of the run holds throughout. -/
theorem run_inv {P : σ → Prop} (h0 : P s)
    (hstep : ∀ t, P (run step inp s t) → P (step (inp t) (run step inp s t))) :
    ∀ t, P (run step inp s t) := by
  intro t
  induction t with
  | zero => exact h0
  | succ t ih => exact hstep t ih

/-! ### Watching a machine -/

variable {γ : Type*} {obs : ι → σ → γ → γ} {g : γ}

/-- An observer without influence on the machine: what it has seen before edge `t`. -/
def watch (obs : ι → σ → γ → γ) (step : ι → σ → σ) (inp : Nat → ι) (s : σ) (g : γ) : Nat → γ
  | 0 => g
  | t + 1 => obs (inp t) (run step inp s t) (watch obs step inp s g t)

/-- `run_inv` for a machine together with its observer, where only the first `n` edges are known to keep
the invariant. -/
theorem watch_inv_le {P : σ → γ → Prop} {n : Nat} (h0 : P s g)
    (hstep : ∀ t, t < n → P (run step inp s t) (watch obs step inp s g t) →
      P (step (inp t) (run step inp s t)) (obs (inp t) (run step inp s t) (watch obs step inp s g t))) :
    ∀ t, t ≤ n → P (run step inp s t) (watch obs step inp s g t) := by
  intro t
  induction t with
  | zero => exact fun _ => h0
  | succ t ih => exact fun ht => hstep t ht (ih (Nat.le_of_succ_le ht))

theorem watch_inv {P : σ → γ → Prop} (h0 : P s g)
    (hstep : ∀ t, P (run step inp s t) (watch obs step inp s g t) →
      P (step (inp t) (run step inp s t)) (obs (inp t) (run step inp s t) (watch obs step inp s g t))) :
    ∀ t, P (run step inp s t) (watch obs step inp s g t) := fun t =>
  watch_inv_le h0 (fun k _ => hstep k) t (Nat.le_refl t)

end Clocked
