import Mathlib.Logic.Relation

/-!
# Guarded runs of a deterministic machine

A machine is a total step function `step : σ → α → σ`, the action being chosen by a scheduler.
`Reach step C s t` says that `t` is reached from `s` by actions each of which meets the guard `C`
in the state before it; with `Free` for `C` every schedule is allowed.

* `run`, the state after a list of actions, and `reach_run`;
* `Allowed`, that each action of a schedule meets the guard, `Allowed.reach`, `Allowed.append` and
  `Allowed.iff_prefix`;
* `Reach.mono`, `Reach.trans`;
* `Reach.invariant`, the induction rule, and `Reach.simulate`, the simulation rule.
-/

namespace Guarded

variable {σ α τ : Type*} {step : σ → α → σ}

/-- The guard that lets every action pass. -/
def Free : σ → α → Prop := fun _ _ => True

/-- Reachability by actions that meet `C` in the state before them. -/
inductive Reach (step : σ → α → σ) (C : σ → α → Prop) (s : σ) : σ → Prop
  | refl : Reach step C s s
  | tail {t : σ} {a : α} : Reach step C s t → C t a → Reach step C s (step t a)

/-- The state after a list of actions. -/
def run (step : σ → α → σ) (s : σ) (as : List α) : σ := as.foldl step s

@[simp] theorem run_nil (s : σ) : run step s [] = s := rfl

@[simp] theorem run_cons (s : σ) (a : α) (as : List α) :
    run step s (a :: as) = run step (step s a) as := rfl

theorem run_append (s : σ) (as bs : List α) :
    run step s (as ++ bs) = run step (run step s as) bs := List.foldl_append

namespace Reach

variable {C D : σ → α → Prop} {s t u : σ}

theorem mono (hCD : ∀ t a, C t a → D t a) (h : Reach step C s t) : Reach step D s t := by
  induction h with
  | refl => exact refl
  | tail _ hc ih => exact ih.tail (hCD _ _ hc)

theorem trans (h : Reach step C s t) (h' : Reach step C t u) : Reach step C s u := by
  induction h' with
  | refl => exact h
  | tail _ hc ih => exact ih.tail hc

theorem single {a : α} (h : C s a) : Reach step C s (step s a) := refl.tail h

/-- What holds at the start and is kept by every guarded step holds in every state reached. -/
theorem invariant {I : σ → Prop} (h0 : I s) (hs : ∀ t a, I t → C t a → I (step t a))
    (h : Reach step C s t) : I t := by
  induction h with
  | refl => exact h0
  | tail _ hc ih => exact hs _ _ ih hc

/-- A relation kept by every guarded step, up to steps of a second system, relates every state
reached to a state that the second system reaches. -/
theorem simulate {R : σ → τ → Prop} {T : τ → τ → Prop} {v : τ} (h0 : R s v)
    (hs : ∀ t a w, Relation.ReflTransGen T v w → R t w → C t a →
      ∃ w', Relation.ReflTransGen T w w' ∧ R (step t a) w')
    (h : Reach step C s t) : ∃ w, Relation.ReflTransGen T v w ∧ R t w := by
  induction h with
  | refl => exact ⟨v, .refl, h0⟩
  | tail _ hc ih =>
    obtain ⟨w, hw, hR⟩ := ih
    obtain ⟨w', hw', hR'⟩ := hs _ _ _ hw hR hc
    exact ⟨w', hw.trans hw', hR'⟩

end Reach

/-- Every action of a schedule meets the guard when its turn comes. -/
def Allowed (step : σ → α → σ) (C : σ → α → Prop) : σ → List α → Prop
  | _, [] => True
  | s, a :: as => C s a ∧ Allowed step C (step s a) as

instance decidableAllowed (C : σ → α → Prop) [∀ s a, Decidable (C s a)] :
    ∀ (s : σ) (as : List α), Decidable (Allowed step C s as)
  | _, [] => inferInstanceAs (Decidable True)
  | s, a :: as =>
    have := decidableAllowed C (step s a) as
    inferInstanceAs (Decidable (C s a ∧ Allowed step C (step s a) as))

/-- An allowed schedule is a guarded run. -/
theorem Allowed.reach {C : σ → α → Prop} {s : σ} {as : List α} (h : Allowed step C s as) :
    Reach step C s (run step s as) := by
  induction as generalizing s with
  | nil => exact .refl
  | cons a as ih => exact (Reach.single h.1).trans (ih h.2)

/-- Allowed schedules one after the other. -/
theorem Allowed.append {C : σ → α → Prop} {s : σ} {as bs : List α} (h : Allowed step C s as)
    (h' : Allowed step C (run step s as) bs) : Allowed step C s (as ++ bs) := by
  induction as generalizing s with
  | nil => exact h'
  | cons a as ih => exact ⟨h.1, ih h.2 h'⟩

/-- Two guards that agree wherever an invariant holds allow the same schedules. -/
theorem Allowed.congr {C D : σ → α → Prop} {I : σ → Prop} (hCD : ∀ s a, I s → (C s a ↔ D s a))
    (hs : ∀ s a, I s → I (step s a)) {s : σ} (h0 : I s) {as : List α} :
    Allowed step C s as ↔ Allowed step D s as := by
  induction as generalizing s with
  | nil => exact Iff.rfl
  | cons a as ih => exact and_congr (hCD s a h0) (ih (hs s a h0))

/-- A schedule meets a guard that decides whether a property survives a step if and only if the property holds
all along. -/
theorem Allowed.iff_prefix {C : σ → α → Prop} {I J : σ → Prop} (hJ : ∀ s a, J s → J (step s a))
    (hs : ∀ s a, J s → I s → (I (step s a) ↔ C s a)) {s : σ} (hJ0 : J s) (h0 : I s) {as : List α} :
    Allowed step C s as ↔ ∀ bs, bs <+: as → I (run step s bs) := by
  induction as generalizing s with
  | nil =>
    refine iff_of_true trivial fun bs hbs => ?_
    rwa [List.prefix_nil.1 hbs]
  | cons a as ih =>
    rw [Allowed, ← hs s a hJ0 h0]
    constructor
    · rintro ⟨hI, hall⟩ bs hbs
      rcases List.prefix_cons_iff.1 hbs with rfl | ⟨cs, rfl, hcs⟩
      · exact h0
      · exact (ih (hJ s a hJ0) hI).1 hall cs hcs
    · intro hall
      have hI : I (step s a) := hall [a] (List.cons_prefix_cons.2 ⟨rfl, List.nil_prefix⟩)
      exact ⟨hI, (ih (hJ s a hJ0) hI).2 fun cs hcs => hall (a :: cs) (List.cons_prefix_cons.2 ⟨rfl, hcs⟩)⟩

/-- Every schedule is a run under the free guard. -/
theorem reach_run (s : σ) (as : List α) : Reach step Free s (run step s as) := by
  induction as generalizing s with
  | nil => exact .refl
  | cons a as ih => exact (Reach.single trivial).trans (ih _)

end Guarded
