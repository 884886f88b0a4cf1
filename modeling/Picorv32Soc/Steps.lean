import Mathlib.Logic.Function.Iterate
import Mathlib.Tactic.SplitIfs

/-!
# Labelled step systems

A system of parties that take turns is a step function on its states, labelled by who does what next;
`none` means that the action is not possible. `Reach step C s₀ s` holds of the states reached from
`s₀` by actions that meet the condition `C` when they are taken. An invariant is proved once for every
action (`Reach.inv`); a schedule is run by `exec`. For a system without a choice, `Leads next s s'` says
that the run from `s` comes to `s'`.
-/

namespace Steps

variable {A S : Type*} {step : A → S → Option S} {C : A → S → Prop} {s₀ s : S}

/-- The states reached from `s₀` by actions that meet `C`. -/
inductive Reach (step : A → S → Option S) (C : A → S → Prop) (s₀ : S) : S → Prop
  | start : Reach step C s₀ s₀
  | next {s s' : S} (a : A) (r : Reach step C s₀ s) (hc : C a s) (hs : step a s = some s') : Reach step C s₀ s'

/-- No condition: every run. -/
def Free (_ : A) (_ : S) : Prop := True

instance (a : A) (s : S) : Decidable (Free a s) := inferInstanceAs (Decidable True)

/-- What holds initially and is kept by every action holds in every state reached. -/
theorem Reach.inv {P : S → Prop} (r : Reach step C s₀ s) (h0 : P s₀)
    (hstep : ∀ a s s', P s → C a s → step a s = some s' → P s') : P s := by
  induction r with
  | start => exact h0
  | next a _ hc hs ih => exact hstep a _ _ ih hc hs

theorem Reach.trans {s' : S} (r : Reach step C s₀ s) (r' : Reach step C s s') : Reach step C s₀ s' := by
  induction r' with
  | start => exact r
  | next a _ hc hs ih => exact ih.next a hc hs

/-- Takes the actions in order, as long as each is possible and meets `C`. -/
def exec (step : A → S → Option S) (C : A → S → Prop) [∀ a s, Decidable (C a s)] : List A → S → Option S
  | [], s => some s
  | a :: as, s => if C a s then (step a s).bind (exec step C as) else none

theorem Reach.exec [∀ a s, Decidable (C a s)] {as : List A} {s' : S} (r : Reach step C s₀ s)
    (h : exec step C as s = some s') : Reach step C s₀ s' := by
  induction as generalizing s with
  | nil => obtain rfl : s = s' := Option.some.inj h; exact r
  | cons a as ih =>
    rw [Steps.exec] at h
    split_ifs at h with hc
    obtain ⟨s₁, hs, h⟩ := Option.bind_eq_some_iff.1 h
    exact ih (r.next a hc hs) h

/-- A schedule, and what is seen at its end. -/
theorem Reach.of_map_exec [∀ a s, Decidable (C a s)] {B : Type*} (as : List A) (f : S → B) {b : B}
    (h : (Steps.exec step C as s₀).map f = some b) : ∃ s, Reach step C s₀ s ∧ f s = b := by
  obtain ⟨s, hs, hb⟩ := Option.map_eq_some_iff.1 h
  exact ⟨s, Reach.start.exec hs, hb⟩

/-! ### Systems without a choice -/

variable {next : S → S} {s' : S}

def Leads (next : S → S) (s s' : S) : Prop := ∃ n, next^[n] s = s'

theorem Leads.refl (s : S) : Leads next s s := ⟨0, rfl⟩

theorem Leads.head (h : Leads next (next s) s') : Leads next s s' := by
  obtain ⟨n, h⟩ := h
  exact ⟨n + 1, h⟩

theorem Leads.trans {s'' : S} (h : Leads next s s') (h' : Leads next s' s'') : Leads next s s'' := by
  obtain ⟨m, rfl⟩ := h
  obtain ⟨n, rfl⟩ := h'
  exact ⟨n + m, Function.iterate_add_apply next n m s⟩

/-- A run that comes to a state without further change stays there. -/
theorem Leads.stays (h : Leads next s s') (hs : next s' = s') : ∃ n, ∀ m, n ≤ m → next^[m] s = s' := by
  obtain ⟨n, rfl⟩ := h
  refine ⟨n, ?_⟩
  intro m hm
  obtain ⟨k, rfl⟩ := Nat.exists_eq_add_of_le' hm
  rw [Function.iterate_add_apply]
  exact Function.iterate_fixed hs k

/-- States that are never left again do not come up in a run that ends elsewhere. -/
theorem Leads.never {P : S → Prop} (h : Leads next s s') (hs : next s' = s') (hP : ∀ s, P s → P (next s))
    (hs' : ¬ P s') (m : Nat) : ¬ P (next^[m] s) := by
  intro hm
  obtain ⟨n, hn⟩ := h.stays hs
  have hkeep : ∀ k, P (next^[k + m] s) := by
    intro k
    induction k with
    | zero => rwa [Nat.zero_add]
    | succ k ih => rw [Nat.succ_add, Function.iterate_succ_apply']; exact hP _ ih
  exact hs' (hn (n + m) (Nat.le_add_right n m) ▸ hkeep n)

end Steps
