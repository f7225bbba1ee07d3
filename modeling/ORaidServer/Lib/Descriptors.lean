import Mathlib.Data.Finset.Card
import Mathlib.Data.Finset.Range
import Mathlib.Data.Fintype.Basic
import Mathlib.Tactic.Common

/-!
# Descriptors of a process

The table of the open descriptors: a new one is the lowest that is free, below a limit, and each stands for the
party that opened it.

* `Table`, `Table.acquire` and `Table.close`, with `acquire_eq` and `exists_acquire`;
* `Backed`: an open descriptor is held by the party it stands for, and `Accounts`: what a party holds is also
  open and its own; how opening and closing keep them;
* `Table.freeBelow`: what has to be opened before a given descriptor is handed out.
-/

namespace Descriptors

/-- The open descriptors, each with the party that opened it, and the limit for new ones. -/
structure Table (κ : Type*) where
  entry : ℕ → Option κ
  limit : ℕ

variable {κ : Type*} {t t' : Table κ} {k : κ} {d : ℕ}

namespace Table

/-- The lowest free descriptor. -/
def lowest (t : Table κ) : Option ℕ := (List.range' 0 t.limit).find? fun d => (t.entry d).isNone

/-- The table with the descriptor `d` opened by `k`. -/
def put (t : Table κ) (d : ℕ) (k : κ) : Table κ := { t with entry := Function.update t.entry d (some k) }

/-- Open the lowest free descriptor. -/
def acquire (t : Table κ) (k : κ) : Option (Table κ × ℕ) := t.lowest.map fun d => (t.put d k, d)

/-- Close a descriptor, which does nothing if it is not open. -/
def close (t : Table κ) (d : ℕ) : Table κ := { t with entry := Function.update t.entry d none }

@[simp] theorem limit_put : (t.put d k).limit = t.limit := rfl

@[simp] theorem entry_put_self : (t.put d k).entry d = some k := by simp [put]

theorem entry_put_of_ne {e : ℕ} (h : e ≠ d) : (t.put d k).entry e = t.entry e := Function.update_of_ne h ..

@[simp] theorem limit_close : (t.close d).limit = t.limit := rfl

@[simp] theorem entry_close_self : (t.close d).entry d = none := by simp [close]

theorem entry_close_of_ne {e : ℕ} (h : e ≠ d) : (t.close d).entry e = t.entry e := Function.update_of_ne h ..

theorem close_of_free (h : t.entry d = none) : t.close d = t := by
  rw [close, ← h, Function.update_eq_self]

theorem entry_of_close {e : ℕ} (h : (t.close d).entry e = some k) : t.entry e = some k := by
  rcases eq_or_ne e d with rfl | he
  · rw [entry_close_self] at h
    cases h
  · rwa [entry_close_of_ne he] at h

theorem entry_ne_of_close {e : ℕ} (h : (t.close d).entry e ≠ none) : t.entry e ≠ none := by
  obtain ⟨k, hk⟩ := Option.ne_none_iff_exists'.1 h
  simp [entry_of_close hk]

theorem lowest_eq_some : t.lowest = some d ↔ d < t.limit ∧ t.entry d = none ∧ ∀ e < d, t.entry e ≠ none := by
  simp [lowest, List.find?_range'_eq_some, Option.ne_none_iff_isSome, and_left_comm]

/-- What opening a descriptor does. -/
theorem acquire_eq (h : t.acquire k = some (t', d)) :
    d < t.limit ∧ t.entry d = none ∧ (∀ e < d, t.entry e ≠ none) ∧ t' = t.put d k := by
  obtain ⟨e, he, heq⟩ := Option.map_eq_some_iff.1 h
  obtain ⟨rfl, rfl⟩ := Prod.mk.inj heq
  obtain ⟨hlt, hfree, hlow⟩ := lowest_eq_some.1 he
  exact ⟨hlt, hfree, hlow, rfl⟩

/-- It succeeds as long as a descriptor is free. -/
theorem exists_acquire (hd : d < t.limit) (hfree : t.entry d = none) (k : κ) :
    ∃ e ≤ d, t.acquire k = some (t.put e k, e) := by
  have hfind : ∃ e, e < t.limit ∧ t.entry e = none := ⟨d, hd, hfree⟩
  classical
  obtain ⟨hlt, hnone⟩ := Nat.find_spec hfind
  have hlow : t.lowest = some (Nat.find hfind) := lowest_eq_some.2 ⟨hlt, hnone, fun e he hnone' =>
    Nat.find_min hfind he ⟨he.trans hlt, hnone'⟩⟩
  exact ⟨Nat.find hfind, Nat.find_min' hfind ⟨hd, hfree⟩, by rw [acquire, hlow]; rfl⟩

/-- The free descriptors below `d`. -/
def freeBelow (t : Table κ) (d : ℕ) : ℕ := ((Finset.range d).filter fun e => (t.entry e).isNone).card

/-- Each opening below `d` takes one of them. -/
theorem freeBelow_put {e : ℕ} (he : e < d) (hfree : t.entry e = none) (k : κ) :
    (t.put e k).freeBelow d + 1 = t.freeBelow d := by
  have hset : (Finset.range d).filter (fun c => ((t.put e k).entry c).isNone) =
      ((Finset.range d).filter fun c => (t.entry c).isNone).erase e := by
    ext c
    rcases eq_or_ne c e with rfl | hc
    · simp
    · simp [entry_put_of_ne hc, hc]
  rw [freeBelow, freeBelow, hset, Finset.card_erase_add_one]
  simp [he, hfree]

end Table

/-! ### The books of the parties -/

/-- An open descriptor is held by the party it stands for. -/
def Backed (t : Table κ) (held : κ → ℕ → Prop) : Prop := ∀ k d, t.entry d = some k → held k d

/-- What a party holds is open and stands for it. -/
def Accounts (t : Table κ) (held : κ → ℕ → Prop) : Prop := ∀ k d, held k d ↔ t.entry d = some k

variable {held held' : κ → ℕ → Prop}

theorem Accounts.backed (h : Accounts t held) : Backed t held := fun k d => (h k d).2

/-- The books after `k` has entered `d`. -/
def Enters (held held' : κ → ℕ → Prop) (k : κ) (d : ℕ) : Prop :=
  ∀ k' d', held' k' d' ↔ held k' d' ∨ k' = k ∧ d' = d

/-- The books after `k` has struck out `d`. -/
def Strikes (held held' : κ → ℕ → Prop) (k : κ) (d : ℕ) : Prop :=
  ∀ k' d', held' k' d' ↔ held k' d' ∧ ¬ (k' = k ∧ d' = d)

theorem Backed.put (h : Backed t held) (hheld : Enters held held' k d) : Backed (t.put d k) held' := by
  intro k' d' hentry
  rw [hheld]
  rcases eq_or_ne d' d with rfl | hd
  · rw [Table.entry_put_self, Option.some.injEq] at hentry
    exact Or.inr ⟨hentry.symm, rfl⟩
  · rw [Table.entry_put_of_ne hd] at hentry
    exact Or.inl (h k' d' hentry)

theorem Backed.close (h : Backed t held) (hheld : Strikes held held' k d) : Backed (t.close d) held' := by
  intro k' d' hentry
  rcases eq_or_ne d' d with rfl | hd
  · rw [Table.entry_close_self] at hentry
    cases hentry
  · rw [Table.entry_close_of_ne hd] at hentry
    exact (hheld k' d').2 ⟨h k' d' hentry, fun hk => hd hk.2⟩

theorem Accounts.put (h : Accounts t held) (hfree : t.entry d = none) (hheld : Enters held held' k d) :
    Accounts (t.put d k) held' := by
  refine fun k' d' => ⟨fun hk => ?_, fun hk => h.backed.put hheld k' d' hk⟩
  rcases (hheld k' d').1 hk with hold | ⟨rfl, rfl⟩
  · have hentry := (h k' d').1 hold
    rw [Table.entry_put_of_ne, hentry]
    rintro rfl
    rw [hfree] at hentry
    cases hentry
  · exact Table.entry_put_self

/-- A party closes what it holds. -/
theorem Accounts.close (h : Accounts t held) (hk : held k d) (hheld : Strikes held held' k d) :
    Accounts (t.close d) held' := by
  refine fun k' d' => ⟨fun hk' => ?_, fun hk' => h.backed.close hheld k' d' hk'⟩
  obtain ⟨hold, hne⟩ := (hheld k' d').1 hk'
  have hentry := (h k' d').1 hold
  rw [Table.entry_close_of_ne, hentry]
  rintro rfl
  rw [(h k d').1 hk, Option.some.injEq] at hentry
  exact hne ⟨hentry.symm, rfl⟩

/-- Closing what nobody holds changes nothing, closing anything else does. -/
theorem Accounts.close_iff (h : Accounts t held) : Accounts (t.close d) held ↔ t.entry d = none := by
  refine ⟨fun h' => ?_, fun hfree => by rwa [Table.close_of_free hfree]⟩
  by_contra hopen
  obtain ⟨k, hk⟩ := Option.ne_none_iff_exists'.1 hopen
  have hentry := (h' k d).1 ((h k d).2 hk)
  rw [Table.entry_close_self] at hentry
  cases hentry

/-! ### Counting -/

section Count

variable {ι ι' : Type*} {S : Finset ι} {S' : Finset ι'} {f : ι → ℕ} {f' : ι' → ℕ} {p : ι → κ} {p' : ι' → κ}

/-- Different parties hold different descriptors. -/
theorem Accounts.card_image (h : Accounts t held) (hp : Function.Injective p) (hf : ∀ i ∈ S, held (p i) (f i)) :
    (S.image f).card = S.card := by
  refine Finset.card_image_of_injOn fun i hi j hj hij => hp ?_
  have hi' := (h _ _).1 (hf i hi)
  have hj' := (h _ _).1 (hf j hj)
  have hij' : f i = f j := hij
  rw [hij', hj', Option.some.injEq] at hi'
  exact hi'.symm

theorem Accounts.disjoint_image (h : Accounts t held) (hp : ∀ i i', p i ≠ p' i')
    (hf : ∀ i ∈ S, held (p i) (f i)) (hf' : ∀ i ∈ S', held (p' i) (f' i)) :
    Disjoint (S.image f) (S'.image f') := by
  refine Finset.disjoint_left.2 fun d hd hd' => ?_
  obtain ⟨i, hi, rfl⟩ := Finset.mem_image.1 hd
  obtain ⟨i', hi', heq⟩ := Finset.mem_image.1 hd'
  have hentry := (h _ _).1 (hf i hi)
  have hentry' := (h _ _).1 (hf' i' hi')
  rw [heq, hentry, Option.some.injEq] at hentry'
  exact hp i i' hentry'

end Count

end Descriptors
