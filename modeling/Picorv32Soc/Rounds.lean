import Mathlib.Tactic.Common

/-!
# Rounds

Parties take turns in any order; one event may be a turn of several of them. A round is a sequence of events in
which every party has a turn. Where each state is waiting for one party, which is known from a rank that no event
raises and a turn of that party lowers, every round lowers the rank (`rank_lt_of_round`), and as many rounds as the
rank bring it to zero (`rank_eq_zero`).
-/

namespace Rounds

variable {σ ι π : Type*} {step : ι → σ → σ} {turn : π → ι → Prop} {I : σ → Prop} {Q : ι → Prop} {rank : σ → Nat}
  {waits : Nat → π}

/-- The state after a sequence of events. -/
def after (step : ι → σ → σ) (es : List ι) (s : σ) : σ := es.foldl (fun s e => step e s) s

theorem after_cons (e : ι) (es : List ι) (s : σ) : after step (e :: es) s = after step es (step e s) := rfl

theorem after_append (es es' : List ι) (s : σ) : after step (es ++ es') s = after step es' (after step es s) :=
  List.foldl_append

/-- What every event keeps holds after any sequence of them. -/
theorem keeps_after (hI : ∀ e s, I s → I (step e s)) (es : List ι) {s : σ} (h : I s) : I (after step es s) := by
  induction es generalizing s with
  | nil => exact h
  | cons e es ih => exact ih (hI e s h)

/-- Every party has a turn. -/
def Round (turn : π → ι → Prop) (es : List ι) : Prop := ∀ p, ∃ e ∈ es, turn p e

section
variable (hI : ∀ e s, Q e → I s → I (step e s)) (hle : ∀ e s, Q e → I s → rank (step e s) ≤ rank s)
include hI hle

theorem inv_after (es : List ι) {s : σ} (hQ : ∀ e ∈ es, Q e) (h : I s) :
    I (after step es s) ∧ rank (after step es s) ≤ rank s := by
  induction es generalizing s with
  | nil => exact ⟨h, Nat.le_refl _⟩
  | cons e es ih =>
    have he := hQ e List.mem_cons_self
    obtain ⟨h', hr⟩ := ih (fun x hx => hQ x (List.mem_cons_of_mem e hx)) (hI e s he h)
    exact ⟨h', Nat.le_trans hr (hle e s he h)⟩

variable (hlt : ∀ e s, Q e → I s → 0 < rank s → turn (waits (rank s)) e → rank (step e s) < rank s)
include hlt

/-- Up to the turn of the party that is waited for, the rank stays or has fallen already. -/
theorem rank_lt_of_round (es : List ι) {s : σ} (hQ : ∀ e ∈ es, Q e) (h : I s) (hpos : 0 < rank s)
    (hturn : ∃ e ∈ es, turn (waits (rank s)) e) : rank (after step es s) < rank s := by
  induction es generalizing s with
  | nil =>
    obtain ⟨e, he, -⟩ := hturn
    exact nomatch he
  | cons e es ih =>
    have he := hQ e List.mem_cons_self
    have hQ' : ∀ x ∈ es, Q x := fun x hx => hQ x (List.mem_cons_of_mem e hx)
    have hrest := (inv_after hI hle es hQ' (hI e s he h)).2
    rcases Nat.lt_or_eq_of_le (hle e s he h) with hfall | hsame
    · exact Nat.lt_of_le_of_lt hrest hfall
    · obtain ⟨x, hx, hxt⟩ := hturn
      rcases List.mem_cons.1 hx with rfl | hx
      · exact Nat.lt_of_le_of_lt hrest (hlt x s he h hpos hxt)
      · have := ih hQ' (hI e s he h) (by omega) ⟨x, hx, by rwa [hsame]⟩
        rw [after_cons]
        omega

variable (step I rank waits) in
theorem rank_eq_zero (rounds : List (List ι)) {s : σ} (hround : ∀ es ∈ rounds, Round turn es ∧ ∀ e ∈ es, Q e) (h : I s)
    (hn : rank s ≤ rounds.length) :
    I (after step rounds.flatten s) ∧ rank (after step rounds.flatten s) = 0 := by
  induction rounds generalizing s with
  | nil => exact ⟨h, Nat.le_zero.1 hn⟩
  | cons es rounds ih =>
    obtain ⟨hr, hQ⟩ := hround es List.mem_cons_self
    have hn' : rank s ≤ rounds.length + 1 := hn
    rw [List.flatten_cons, after_append]
    obtain ⟨hI', hle'⟩ := inv_after hI hle es hQ h
    refine ih (fun x hx => hround x (List.mem_cons_of_mem es hx)) hI' ?_
    rcases Nat.eq_zero_or_pos (rank s) with hz | hpos
    · omega
    · have := rank_lt_of_round hI hle hlt es hQ h hpos (hr _)
      omega

end

end Rounds
