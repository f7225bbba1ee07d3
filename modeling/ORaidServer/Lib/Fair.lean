import ORaidServer.Lib.Guarded
import Mathlib.Data.Nat.Init
import Mathlib.Order.Lattice
import Mathlib.Tactic.Common

/-!
# Fair runs

The run of an infinite schedule, in which some actions are taken again and again.

* `trace`, the states of the run, and `Often`;
* `eventually_zero`: a measure that no step raises, and that one of these actions lowers, comes to `0`;
* `eventually_forall`: what holds from some time on of each of finitely many parties holds of all of them.
-/

namespace Fair

open Guarded

variable {σ α : Type*} {step : σ → α → σ} {s : σ} {sched : ℕ → α}

/-- The state at each time of the run of a schedule. -/
def trace (step : σ → α → σ) (s : σ) (sched : ℕ → α) : ℕ → σ
  | 0 => s
  | t + 1 => step (trace step s sched t) (sched t)

@[simp] theorem trace_zero : trace step s sched 0 = s := rfl

theorem trace_succ (t : ℕ) : trace step s sched (t + 1) = step (trace step s sched t) (sched t) := rfl

/-- An action that is taken again and again. -/
def Often (sched : ℕ → α) (a : α) : Prop := ∀ t, ∃ u, t ≤ u ∧ sched u = a

/-- A schedule whose actions meet the guard is a guarded run. -/
theorem reach_trace {C : σ → α → Prop} (h : ∀ t, C (trace step s sched t) (sched t)) (t : ℕ) :
    Reach step C s (trace step s sched t) := by
  induction t with
  | zero => exact .refl
  | succ t ih => exact ih.tail (h t)

/-- What every step keeps holds from then on. -/
theorem persists {P : σ → Prop} {t : ℕ} (h : P (trace step s sched t))
    (hstep : ∀ u, t ≤ u → P (trace step s sched u) → P (trace step s sched (u + 1))) :
    ∀ u, t ≤ u → P (trace step s sched u) :=
  fun _ hu => Nat.le_induction h hstep _ hu

/-- **Progress.**  A measure that never rises and falls whenever a fair action is taken comes to `0`. -/
theorem eventually_zero {a : α} (hfair : Often sched a) (m : σ → ℕ) (t : ℕ)
    (hle : ∀ u, t ≤ u → m (trace step s sched (u + 1)) ≤ m (trace step s sched u))
    (hlt : ∀ u, t ≤ u → sched u = a → m (trace step s sched u) ≠ 0 →
      m (trace step s sched (u + 1)) < m (trace step s sched u)) :
    ∃ u, t ≤ u ∧ m (trace step s sched u) = 0 := by
  -- by induction on the measure at the time in question
  induction hm : m (trace step s sched t) using Nat.strong_induction_on generalizing t with
  | _ k ih =>
    rcases Nat.eq_zero_or_pos k with rfl | hk
    · exact ⟨t, le_rfl, hm⟩
    · obtain ⟨u, hu, ha⟩ := hfair t
      have hfall : ∀ v, t ≤ v → m (trace step s sched v) ≤ k := by
        intro v hv
        induction v, hv using Nat.le_induction with
        | base => exact hm.le
        | succ v hv ihv => exact (hle v hv).trans ihv
      rcases Nat.eq_zero_or_pos (m (trace step s sched u)) with h0 | hpos
      · exact ⟨u, hu, h0⟩
      · have hnext := (hlt u hu ha hpos.ne').trans_le (hfall u hu)
        obtain ⟨w, hw, hzero⟩ := ih _ hnext (u + 1) (fun v hv => hle v (by omega))
          (fun v hv => hlt v (by omega)) rfl
        exact ⟨w, by omega, hzero⟩

/-- Finitely many properties that hold from some time on hold together from some time on. -/
theorem eventually_forall {P : ℕ → σ → Prop} {n : ℕ}
    (h : ∀ i < n, ∃ t, ∀ u, t ≤ u → P i (trace step s sched u)) :
    ∃ t, ∀ u, t ≤ u → ∀ i < n, P i (trace step s sched u) := by
  induction n with
  | zero => exact ⟨0, fun _ _ _ hi => absurd hi (Nat.not_lt_zero _)⟩
  | succ n ih =>
    obtain ⟨t, ht⟩ := ih fun i hi => h i (by omega)
    obtain ⟨t', ht'⟩ := h n (Nat.lt_succ_self n)
    refine ⟨max t t', fun u hu i hi => ?_⟩
    rcases Nat.lt_succ_iff_lt_or_eq.1 hi with hi | rfl
    · exact ht u ((Nat.le_max_left _ _).trans hu) i hi
    · exact ht' u ((Nat.le_max_right _ _).trans hu)

end Fair
