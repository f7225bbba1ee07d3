import ORaidServer.Lib.Guarded

/-!
# Two programs on one memory

Each of two programs takes steps on a local state of its own and on the memory that they share.

* `Pair`, their states, and `step`, a step of one of them;
* `alone`, the steps of the first program among those of both;
* `related_alone`: what the first program sees is related to what it sees in the run without the second, if
  its own steps keep the relation and those of the second, where they are allowed, respect it.
-/

namespace Interleave

open Guarded

variable {ℓ₁ ℓ₂ σ α β : Type*}

/-- The local states of two programs and the memory they share. -/
structure Pair (ℓ₁ ℓ₂ σ : Type*) where
  first : ℓ₁
  second : ℓ₂
  memory : σ

/-- What the first program works on. -/
def Pair.own (p : Pair ℓ₁ ℓ₂ σ) : ℓ₁ × σ := (p.first, p.memory)

/-- What the second program works on. -/
def Pair.other (p : Pair ℓ₁ ℓ₂ σ) : ℓ₂ × σ := (p.second, p.memory)

/-- A step of one of the two. -/
def step (step₁ : ℓ₁ × σ → α → ℓ₁ × σ) (step₂ : ℓ₂ × σ → β → ℓ₂ × σ) (p : Pair ℓ₁ ℓ₂ σ) :
    α ⊕ β → Pair ℓ₁ ℓ₂ σ
  | .inl a => ⟨(step₁ p.own a).1, p.second, (step₁ p.own a).2⟩
  | .inr b => ⟨p.first, (step₂ p.other b).1, (step₂ p.other b).2⟩

/-- The steps of the first program, in their order. -/
def alone (as : List (α ⊕ β)) : List α := as.filterMap Sum.getLeft?

@[simp] theorem alone_cons_inl (a : α) (as : List (α ⊕ β)) : alone (.inl a :: as) = a :: alone as := rfl

@[simp] theorem alone_cons_inr (b : β) (as : List (α ⊕ β)) : alone (.inr b :: as) = alone as := rfl

section Run

variable {step₁ : ℓ₁ × σ → α → ℓ₁ × σ} {step₂ : ℓ₂ × σ → β → ℓ₂ × σ}
  {C : Pair ℓ₁ ℓ₂ σ → α ⊕ β → Prop} {R : ℓ₁ × σ → ℓ₁ × σ → Prop}

/-- A relation that the first program keeps, and that the steps allowed to the second respect, holds between
what the first sees and what it sees alone. -/
theorem related_alone (hown : ∀ s t a, R s t → R (step₁ s a) (step₁ t a))
    (hother : ∀ p b t, C p (.inr b) → R p.own t → R (step step₁ step₂ p (.inr b)).own t)
    {p : Pair ℓ₁ ℓ₂ σ} {t : ℓ₁ × σ} {as : List (α ⊕ β)} (h : Allowed (step step₁ step₂) C p as)
    (h0 : R p.own t) : R (run (step step₁ step₂) p as).own (run step₁ t (alone as)) := by
  induction as generalizing p t with
  | nil => exact h0
  | cons a as ih =>
    obtain ⟨ha, has⟩ := h
    cases a with
    | inl a => exact ih has (hown _ _ a h0)
    | inr b => exact ih has (hother p b t ha h0)

/-- A schedule of the first program alone is allowed wherever its steps are. -/
theorem allowed_map_inl (hC : ∀ p a, C p (.inl a)) (p : Pair ℓ₁ ℓ₂ σ) (as : List α) :
    Allowed (step step₁ step₂) C p (as.map .inl) := by
  induction as generalizing p with
  | nil => trivial
  | cons a as ih => exact ⟨hC p a, ih _⟩

end Run

end Interleave
