import Mathlib.Tactic.Common

/-!
# Loops that may not return

A `while (1)` loop is a function `step : σ → σ ⊕ ρ` on the state at its top: an iteration comes back to
the top or returns a result.

* `run`, the loop with fuel, and `Returns`, that some fuel suffices;
* `returns_of_next`, `returns_of_ret`, which follow one iteration;
* `Returns.induct`, the invariant rule, with `Returns.unique` and, for loops that go on for ever,
  `not_returns_of_invariant`;
* `run_of_measure`, for loops with a measure that every iteration decreases.
-/

namespace Loop

variable {σ ρ : Type*} (step : σ → σ ⊕ ρ)

/-- At most so many iterations. -/
def run : ℕ → σ → Option ρ
  | 0, _ => none
  | fuel + 1, s =>
    match step s with
    | .inl t => run fuel t
    | .inr r => some r

/-- The loop entered in state `s` returns `r`. -/
def Returns (s : σ) (r : ρ) : Prop := ∃ fuel, run step fuel s = some r

variable {step} {s t : σ} {r r' : ρ}

theorem returns_of_next (h : step s = .inl t) : Returns step s r ↔ Returns step t r := by
  constructor
  · rintro ⟨fuel, hf⟩
    cases fuel with
    | zero => cases hf
    | succ fuel => exact ⟨fuel, by simpa [run, h] using hf⟩
  · rintro ⟨fuel, hf⟩
    exact ⟨fuel + 1, by simpa [run, h] using hf⟩

theorem returns_of_ret (h : step s = .inr r') : Returns step s r ↔ r' = r := by
  constructor
  · rintro ⟨fuel, hf⟩
    cases fuel with
    | zero => cases hf
    | succ fuel => simpa [run, h] using hf
  · rintro rfl
    exact ⟨1, by simp [run, h]⟩

/-- What holds of `s` at the top of the loop and is kept by every iteration that comes back to the
top, and implies `Q` of a result, gives `Q` of every result. -/
theorem Returns.induct {I : σ → Prop} {Q : ρ → Prop} (hnext : ∀ s t, I s → step s = .inl t → I t)
    (hret : ∀ s r, I s → step s = .inr r → Q r) (hs : I s) (h : Returns step s r) : Q r := by
  obtain ⟨fuel, hf⟩ := h
  induction fuel generalizing s with
  | zero => cases hf
  | succ fuel ih =>
    cases hstep : step s with
    | inl t => exact ih (hnext s t hs hstep) (by simpa [run, hstep] using hf)
    | inr r' =>
      have : r' = r := by simpa [run, hstep] using hf
      exact this ▸ hret s r' hs hstep

/-- A loop has at most one result. -/
theorem Returns.unique (h : Returns step s r) (h' : Returns step s r') : r = r' :=
  h.induct (I := fun s => Returns step s r') (Q := fun r => r = r')
    (fun _ _ hs hstep => (returns_of_next hstep).1 hs)
    (fun _ _ hs hstep => (returns_of_ret hstep).1 hs) h'

/-- A loop that comes back to the top in every state of a set, and stays in it, does not return. -/
theorem not_returns_of_invariant {I : σ → Prop} (hI : ∀ s, I s → ∃ t, I t ∧ step s = .inl t)
    (hs : I s) : ¬ Returns step s r := by
  refine fun h => h.induct (I := I) (Q := fun _ => False) (fun s t hs hstep => ?_)
    (fun s r hs hstep => ?_) hs
  · obtain ⟨t', ht', hstep'⟩ := hI s hs
    rw [hstep] at hstep'
    cases hstep'
    exact ht'
  · obtain ⟨t', -, hstep'⟩ := hI s hs
    rw [hstep] at hstep'
    cases hstep'

/-- Where every iteration decreases a measure, the measure is enough fuel. -/
theorem run_of_measure (m : σ → ℕ) (hm : ∀ s t, step s = .inl t → m t < m s) {fuel : ℕ}
    (hfuel : m s < fuel) : ∃ r, run step fuel s = some r := by
  induction fuel generalizing s with
  | zero => omega
  | succ fuel ih =>
    cases hstep : step s with
    | inl t =>
      have := hm s t hstep
      simpa [run, hstep] using ih (s := t) (by omega)
    | inr r => exact ⟨r, by simp [run, hstep]⟩

end Loop
