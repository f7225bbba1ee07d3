import Mathlib.Data.Multiset.AddSub

/-!
# Resources that a function holds

The handles and buffers that are open at a point of a program, as a multiset, and the two loops that come up
again and again: acquire one resource for each item of a list, up to the first failure, and release them.

* `acquireAll`, `releaseAll`;
* `acquireAll_eq`, `acquireAll_of_failure`, `acquireAll_range`: what is held after it, by the first failure;
* `releaseAll_add`: what was acquired for a list is released for that list.
-/

namespace Held

variable {ι ρ : Type*} {ok : ι → Bool} {res : ι → ρ} {l : List ι} {s : Multiset ρ}

/-- Acquire a resource for each item, up to the first failure: whether all were, and what is held. -/
def acquireAll (ok : ι → Bool) (res : ι → ρ) : List ι → Multiset ρ → Bool × Multiset ρ
  | [], s => (true, s)
  | i :: l, s => if ok i then acquireAll ok res l (res i ::ₘ s) else (false, s)

/-- Release the resource of each item. -/
def releaseAll [DecidableEq ρ] (res : ι → ρ) (l : List ι) (s : Multiset ρ) : Multiset ρ :=
  l.foldl (fun s i => s.erase (res i)) s

theorem acquireAll_eq (h : ∀ i ∈ l, ok i = true) :
    acquireAll ok res l s = (true, s + (l.map res : Multiset ρ)) := by
  induction l generalizing s with
  | nil => rw [acquireAll, List.map_nil, Multiset.coe_nil, Multiset.add_zero]
  | cons i l ih =>
    obtain ⟨hi, hl⟩ := List.forall_mem_cons.1 h
    rw [acquireAll, if_pos hi, ih hl, List.map_cons, ← Multiset.cons_coe, Multiset.cons_add,
      Multiset.add_cons]

/-- Where something fails, what stands before the first failure is held. -/
theorem acquireAll_of_failure (h : ¬ ∀ i ∈ l, ok i = true) (res : ι → ρ) : ∃ l₁ i l₂, l = l₁ ++ i :: l₂ ∧
    (∀ j ∈ l₁, ok j = true) ∧ ok i = false ∧
    ∀ s : Multiset ρ, acquireAll ok res l s = (false, s + (l₁.map res : Multiset ρ)) := by
  induction l with
  | nil => exact absurd (fun _ hi => absurd hi List.not_mem_nil) h
  | cons i l ih =>
    cases hi : ok i with
    | false =>
      refine ⟨[], i, l, rfl, fun _ hj => absurd hj List.not_mem_nil, hi, fun s => ?_⟩
      rw [acquireAll, hi, List.map_nil, Multiset.coe_nil, Multiset.add_zero]
      rfl
    | true =>
      have hl : ¬ ∀ j ∈ l, ok j = true := fun hl => h (List.forall_mem_cons.2 ⟨hi, hl⟩)
      obtain ⟨l₁, j, l₂, rfl, hl₁, hj, hs⟩ := ih hl
      refine ⟨i :: l₁, j, l₂, rfl, List.forall_mem_cons.2 ⟨hi, hl₁⟩, hj, fun s => ?_⟩
      rw [acquireAll, if_pos hi, hs, List.map_cons, ← Multiset.cons_coe, Multiset.cons_add,
        Multiset.add_cons]

/-- The same for the first `n` numbers. -/
theorem acquireAll_range {ok : ℕ → Bool} {n : ℕ} (h : ¬ ∀ i < n, ok i = true) (res : ℕ → ρ) :
    ∃ i < n, ok i = false ∧ (∀ j < i, ok j = true) ∧ ∀ s : Multiset ρ,
      acquireAll ok res (List.range n) s = (false, s + ((List.range i).map res : Multiset ρ)) := by
  have hfail : ¬ ∀ i ∈ List.range n, ok i = true := fun hall =>
    h fun i hi => hall i (List.mem_range.2 hi)
  obtain ⟨l₁, i, l₂, hl, hok, hi, hs⟩ := acquireAll_of_failure hfail res
  rw [List.range_eq_range', List.range'_eq_append_iff] at hl
  obtain ⟨k, hk, rfl, hrest⟩ := hl
  cases hm : n - k with
  | zero =>
    rw [hm] at hrest
    cases hrest
  | succ m =>
    rw [hm, List.range'_succ] at hrest
    obtain ⟨rfl, -⟩ := List.cons.inj hrest
    simp only [Nat.zero_add, Nat.mul_one, ← List.range_eq_range', List.mem_range] at *
    exact ⟨k, by omega, hi, hok, hs⟩

theorem releaseAll_add [DecidableEq ρ] (res : ι → ρ) (l : List ι) (s : Multiset ρ) :
    releaseAll res l (s + (l.map res : Multiset ρ)) = s := by
  induction l generalizing s with
  | nil => rw [releaseAll, List.map_nil, Multiset.coe_nil, Multiset.add_zero, List.foldl_nil]
  | cons i l ih =>
    have herase : (s + ((i :: l).map res : Multiset ρ)).erase (res i) =
        s + (l.map res : Multiset ρ) := by
      rw [List.map_cons, ← Multiset.cons_coe, Multiset.add_cons, Multiset.erase_cons_head]
    rw [releaseAll, List.foldl_cons, herase]
    exact ih s

end Held
