import Mathlib.Logic.Relation
import Mathlib.Logic.Function.Basic
import Mathlib.Data.Set.Insert
import Mathlib.Order.Basic
import Mathlib.Data.Nat.Find

/-!
# Gathering numbered segments through shared slots

Participants `ι` each produce the segments `0, 1, 2, …` in order.  Every participant has one slot
for each index in `κ`; it takes a free slot for its next segment, fills it and takes the next one.
A collector drains index `k` when slot `k` of every participant is filled: it logs the segment and
then releases the slots one participant at a time.

The one restriction on `take` is that a segment goes to the slot index in which another
participant already holds the same segment.  Under it

* `Inv.aligned`: the participants' slots at a drained index hold the same segment;
* `Inv.exists_filled`: the system is never stuck;
* `log_eq_range`: if an index is only drained while no other index is filled everywhere with
  earlier segments, the segments are logged in order.
-/

namespace Slots

/-- A slot of one participant. -/
inductive Slot
  | free
  | filling (m : ℕ)
  | filled (m : ℕ)
  deriving DecidableEq

/-- The slot holds segment `m`, complete or not. -/
def Slot.Holds (x : Slot) (m : ℕ) : Prop := x = .filling m ∨ x = .filled m

@[simp] theorem Slot.holds_free (m : ℕ) : ¬ Slot.free.Holds m := by simp [Slot.Holds]

@[simp] theorem Slot.holds_filling {m m' : ℕ} : (Slot.filling m).Holds m' ↔ m = m' := by
  simp [Slot.Holds]

@[simp] theorem Slot.holds_filled {m m' : ℕ} : (Slot.filled m).Holds m' ↔ m = m' := by
  simp [Slot.Holds]

theorem Slot.Holds.unique {x : Slot} {m m' : ℕ} (h : x.Holds m) (h' : x.Holds m') : m = m' := by
  cases x <;> simp_all

/-- The state of the gathering. -/
structure State (ι κ : Type*) where
  /-- the number of segments a participant has taken -/
  next : ι → ℕ
  slot : ι → κ → Slot
  /-- the index being drained, with the participants whose slot is not yet released -/
  drain : Option (κ × Set ι)
  /-- the segments drained so far -/
  log : List ℕ

variable {ι κ : Type*}

namespace State

/-- Participant `i`'s slot `k` was drained and is not yet released. -/
def Stale (s : State ι κ) (i : ι) (k : κ) : Prop := ∃ S, s.drain = some (k, S) ∧ i ∈ S

/-- No participant holds the next segment of `i` at another index than `k`. -/
def Fits (s : State ι κ) (i : ι) (k : κ) : Prop :=
  ∀ j k', (s.slot j k').Holds (s.next i) → k' = k

/-- Slot `k` of every participant is filled. -/
def Filled (s : State ι κ) (k : κ) : Prop := ∀ i, ∃ m, s.slot i k = .filled m

/-- No other index is filled everywhere with segments before those at `k`. -/
def InTurn (s : State ι κ) (k : κ) : Prop :=
  ¬ ∃ k', k' ≠ k ∧ ∀ i, ∃ m m', s.slot i k = .filled m ∧ s.slot i k' = .filled m' ∧ m' < m

/-- Every participant has taken segment `0` into slot `k₀`. -/
def start [DecidableEq κ] (k₀ : κ) : State ι κ :=
  ⟨fun _ => 1, fun _ => Function.update (fun _ => .free) k₀ (.filling 0), none, []⟩

end State

open State

/-- What every run keeps. -/
structure Inv (s : State ι κ) : Prop where
  lt : ∀ {i k m}, (s.slot i k).Holds m → m < s.next i
  cover : ∀ {i m}, m < s.next i → m ∈ s.log ∨ ∃ k, (s.slot i k).Holds m
  fresh : ∀ {i k m}, (s.slot i k).Holds m → m ∈ s.log → s.Stale i k
  logged : ∀ {m}, m ∈ s.log → ∀ i, m < s.next i
  agree : ∀ {i j k k' m}, (s.slot i k).Holds m → (s.slot j k').Holds m → k = k'
  last : ∀ {i k m}, s.slot i k = .filling m → m + 1 = s.next i
  stale : ∀ {i k}, s.Stale i k → ∃ m, s.log.getLast? = some m ∧ s.slot i k = .filled m

/-- Two filled slots of one index that were not drained yet hold the same segment. -/
theorem Inv.aligned {s : State ι κ} (h : Inv s) {i j : ι} {k : κ} {m m' : ℕ}
    (hi : s.slot i k = .filled m) (hj : s.slot j k = .filled m') (hsi : ¬ s.Stale i k)
    (hsj : ¬ s.Stale j k) : m = m' := by
  have key : ∀ {i j : ι} {m m' : ℕ}, s.slot i k = .filled m → s.slot j k = .filled m' →
      ¬ s.Stale i k → ¬ m < m' := by
    intro i j m m' hi hj hs hlt
    have hi' : (s.slot i k).Holds m := by simp [hi]
    have hj' : (s.slot j k).Holds m' := by simp [hj]
    rcases h.cover (hlt.trans (h.lt hj')) with hm | ⟨k', hk'⟩
    · exact hs (h.fresh hi' hm)
    · obtain rfl := h.agree hi' hk'
      exact hlt.ne (hk'.unique hj')
  exact le_antisymm (not_lt.1 (key hj hi hsj)) (not_lt.1 (key hi hj hsi))

theorem holds_start [DecidableEq κ] {k₀ k : κ} {i : ι} {m : ℕ}
    (h : ((start k₀ : State ι κ).slot i k).Holds m) : k = k₀ ∧ m = 0 := by
  by_cases hk : k = k₀
  · subst hk
    simpa [start, eq_comm] using h
  · simp [start, hk] at h

theorem inv_start [DecidableEq κ] (k₀ : κ) : Inv (start k₀ : State ι κ) where
  lt h := by rw [(holds_start h).2]; exact Nat.one_pos
  cover {i m} h := by
    obtain rfl : m = 0 := Nat.lt_one_iff.1 h
    exact Or.inr ⟨k₀, by simp [start]⟩
  fresh _ hl := by simp [start] at hl
  logged hl := by simp [start] at hl
  agree h h' := (holds_start h).1.trans (holds_start h').1.symm
  last {i k m} h := by
    have hh : ((start k₀ : State ι κ).slot i k).Holds m := by rw [h]; simp
    rw [(holds_start hh).2]
    rfl
  stale := fun ⟨_, hS, _⟩ => by cases hS

theorem Inv.drain {s : State ι κ} (h : Inv s) {i : ι} {k : κ} {m : ℕ} (hd : s.drain = none) (hf : s.Filled k)
    (hm : s.slot i k = .filled m) :
    Inv { s with drain := some (k, Set.univ), log := s.log ++ [m] } := by
  have hst : ∀ j k', ¬ s.Stale j k' := by
    rintro j k' ⟨S, hS, -⟩
    rw [hd] at hS
    cases hS
  have hall : ∀ j, s.slot j k = .filled m := by
    intro j
    obtain ⟨m', hm'⟩ := hf j
    rw [hm', h.aligned hm' hm (hst j k) (hst i k)]
  constructor
  · exact h.lt
  · exact fun hh => (h.cover hh).imp_left fun hl => List.mem_append_left _ hl
  · intro j k' m' hh hl
    rcases List.mem_append.1 hl with hl | hl
    · exact absurd (h.fresh hh hl) (hst j k')
    · obtain rfl := List.mem_singleton.1 hl
      obtain rfl := h.agree hh (show (s.slot j k).Holds m' by simp [hall])
      exact ⟨Set.univ, rfl, trivial⟩
  · intro m' hl j
    rcases List.mem_append.1 hl with hl | hl
    · exact h.logged hl j
    · obtain rfl := List.mem_singleton.1 hl
      exact h.lt (show (s.slot j k).Holds m' by simp [hall])
  · exact h.agree
  · exact h.last
  · rintro j k' ⟨S, hS, -⟩
    obtain ⟨rfl, -⟩ := Prod.mk.inj (Option.some.inj hS)
    exact ⟨m, by simp, hall j⟩

theorem Inv.finish {s : State ι κ} (h : Inv s) {k : κ} (hd : s.drain = some (k, ∅)) :
    Inv { s with drain := none } := by
  have hst : ∀ {j k'}, ¬ s.Stale j k' := by
    rintro j k' ⟨S, hS, hj⟩
    rw [hd] at hS
    obtain ⟨-, rfl⟩ := Prod.mk.inj (Option.some.inj hS)
    exact hj
  exact ⟨h.lt, h.cover, fun hh hl => absurd (h.fresh hh hl) hst, h.logged, h.agree, h.last,
    fun ⟨_, hS, _⟩ => by cases hS⟩

/-- A drain that keeps its turn takes the least segment not yet logged. -/
theorem Inv.drained_eq_length {s : State ι κ} (h : Inv s) {i : ι} {k : κ} {m : ℕ} (hd : s.drain = none)
    (hf : s.Filled k) (hG : s.InTurn k) (hm : s.slot i k = .filled m)
    (hlog : s.log = List.range s.log.length) : m = s.log.length := by
  have hst : ∀ j k', ¬ s.Stale j k' := by
    rintro j k' ⟨S, hS, -⟩
    rw [hd] at hS
    cases hS
  have hall : ∀ j, s.slot j k = .filled m := by
    intro j
    obtain ⟨m', hm'⟩ := hf j
    rw [hm', h.aligned hm' hm (hst j k) (hst i k)]
  have hmem : ∀ m', m' ∈ s.log ↔ m' < s.log.length := by
    intro m'
    conv_lhs => rw [hlog]
    exact List.mem_range
  have hge : s.log.length ≤ m := by
    by_contra hlt
    exact hst i k (h.fresh (by simp [hm]) ((hmem m).2 (by omega)))
  by_contra hne
  -- every participant then holds the segment `s.log.length` at one common index
  have hheld : ∀ j, ∃ k', (s.slot j k').Holds s.log.length := by
    intro j
    have hlt : m < s.next j := h.lt (show (s.slot j k).Holds m by simp [hall])
    rcases h.cover (show s.log.length < s.next j by omega) with hl | hk'
    · exact absurd ((hmem _).1 hl) (lt_irrefl _)
    · exact hk'
  obtain ⟨k', hk'⟩ := hheld i
  refine hG ⟨k', ?_, fun j => ⟨m, s.log.length, hall j, ?_, by omega⟩⟩
  · rintro rfl
    rw [hm, Slot.holds_filled] at hk'
    omega
  · obtain ⟨k'', hk''⟩ := hheld j
    obtain rfl := h.agree hk' hk''
    rcases hk'' with hx | hx
    · have := h.last hx
      have : m < s.next j := h.lt (show (s.slot j k).Holds m by simp [hall])
      omega
    · exact hx

/-! ### Progress -/

/-- If every participant has either taken all `T` segments or has no free slot, and none is
filling a slot, then some index can be drained, unless everything was drained. -/
theorem Inv.exists_filled {s : State ι κ} [Nonempty ι] [Nonempty κ] (h : Inv s) (hd : s.drain = none) {T : ℕ}
    (hopen : ∀ i k m, s.slot i k ≠ .filling m)
    (hblocked : ∀ i, s.next i = T ∨ ∀ k, s.slot i k ≠ .free) (hlog : ∃ m < T, m ∉ s.log) :
    ∃ k, s.Filled k := by
  classical
  -- the least segment not logged is held by every participant
  have hex : ∃ m, m ∉ s.log := let ⟨m, _, hm⟩ := hlog; ⟨m, hm⟩
  have hspec := Nat.find_spec hex
  have hmin : ∀ m' ∉ s.log, Nat.find hex ≤ m' := fun m' hm' => Nat.find_min' hex hm'
  have hlt : Nat.find hex < T := by
    obtain ⟨m, hm, hml⟩ := hlog
    exact (hmin m hml).trans_lt hm
  have hheld : ∀ i, ∃ k, s.slot i k = .filled (Nat.find hex) := by
    intro i
    have hnext : Nat.find hex < s.next i := by
      rcases hblocked i with hi | hi
      · rwa [hi]
      · obtain ⟨k⟩ := ‹Nonempty κ›
        cases hx : s.slot i k with
        | free => exact absurd hx (hi k)
        | filling m => exact absurd hx (hopen i k m)
        | filled m =>
          have hh : (s.slot i k).Holds m := by simp [hx]
          refine (hmin m fun hl => ?_).trans_lt (h.lt hh)
          obtain ⟨S, hS, -⟩ := h.fresh hh hl
          rw [hd] at hS
          cases hS
    rcases h.cover hnext with hl | ⟨k, hk | hk⟩
    · exact absurd hl hspec
    · exact absurd hk (hopen i k _)
    · exact ⟨k, hk⟩
  obtain ⟨i⟩ := ‹Nonempty ι›
  obtain ⟨k, hk⟩ := hheld i
  refine ⟨k, fun j => ?_⟩
  obtain ⟨k', hk'⟩ := hheld j
  have hi : (s.slot i k).Holds (Nat.find hex) := by simp [hk]
  have hj : (s.slot j k').Holds (Nat.find hex) := by simp [hk']
  obtain rfl := h.agree hi hj
  exact ⟨_, hk'⟩

/-! ### Steps -/

variable [DecidableEq ι] [DecidableEq κ]

/-- Replace one slot. -/
def setSlot (s : State ι κ) (i : ι) (k : κ) (x : Slot) : ι → κ → Slot :=
  Function.update s.slot i (Function.update (s.slot i) k x)

theorem setSlot_self (s : State ι κ) (i : ι) (k : κ) (x : Slot) : setSlot s i k x i k = x := by
  simp [setSlot]

theorem setSlot_of_ne (s : State ι κ) {i j : ι} {k k' : κ} (x : Slot) (h : ¬ (j = i ∧ k' = k)) :
    setSlot s i k x j k' = s.slot j k' := by
  unfold setSlot
  by_cases hj : j = i
  · subst hj
    have hk : k' ≠ k := fun hk => h ⟨rfl, hk⟩
    simp [hk]
  · simp [hj]

/-- The steps of the participants and of the collector; `G` guards the choice of the index to
drain. -/
inductive Step (G : State ι κ → κ → Prop) : State ι κ → State ι κ → Prop
  | take {s : State ι κ} (i : ι) (k : κ) : s.slot i k = .free →
      (∀ k' m, s.slot i k' ≠ .filling m) → s.Fits i k →
      Step G s { s with slot := setSlot s i k (.filling (s.next i))
                        next := Function.update s.next i (s.next i + 1) }
  | fill {s : State ι κ} (i : ι) (k : κ) (m : ℕ) : s.slot i k = .filling m →
      Step G s { s with slot := setSlot s i k (.filled m) }
  | drain {s : State ι κ} (i : ι) (k : κ) (m : ℕ) : s.drain = none → s.Filled k → G s k →
      s.slot i k = .filled m → Step G s { s with drain := some (k, Set.univ), log := s.log ++ [m] }
  | release {s : State ι κ} (i : ι) (k : κ) (S : Set ι) : s.drain = some (k, S) → i ∈ S →
      Step G s { s with slot := setSlot s i k .free, drain := some (k, S \ {i}) }
  | finish {s : State ι κ} (k : κ) : s.drain = some (k, ∅) → Step G s { s with drain := none }

/-! ### The invariant -/

section Steps

variable {s : State ι κ}

/-- Which segments are held changes only for the slot that is set. -/
theorem holds_setSlot {i j : ι} {k k' : κ} {x : Slot} {m : ℕ}
    (h : (setSlot s i k x j k').Holds m) :
    (j = i ∧ k' = k ∧ x.Holds m) ∨ (¬ (j = i ∧ k' = k) ∧ (s.slot j k').Holds m) := by
  by_cases hjk : j = i ∧ k' = k
  · obtain ⟨rfl, rfl⟩ := hjk
    rw [setSlot_self] at h
    exact Or.inl ⟨rfl, rfl, h⟩
  · rw [setSlot_of_ne s x hjk] at h
    exact Or.inr ⟨hjk, h⟩

theorem Inv.take (h : Inv s) {i : ι} {k : κ} (hfree : s.slot i k = .free)
    (hopen : ∀ k' m, s.slot i k' ≠ .filling m) (hfit : s.Fits i k) :
    Inv { s with slot := setSlot s i k (.filling (s.next i))
                 next := Function.update s.next i (s.next i + 1) } := by
  have hle : ∀ j, s.next j ≤ Function.update s.next i (s.next i + 1) j := by
    intro j
    by_cases hj : j = i
    · subst hj; simp
    · simp [hj]
  have hkeep : ∀ {j k' m}, (s.slot j k').Holds m →
      (setSlot s i k (.filling (s.next i)) j k').Holds m := by
    intro j k' m hh
    rwa [setSlot_of_ne]
    rintro ⟨rfl, rfl⟩
    rw [hfree] at hh
    exact Slot.holds_free _ hh
  constructor
  · intro j k' m hh
    rcases holds_setSlot hh with ⟨rfl, rfl, hm⟩ | ⟨-, hm⟩
    · simpa using Nat.lt_succ_of_le (Slot.holds_filling.1 hm).ge
    · exact (h.lt hm).trans_le (hle j)
  · intro j m hm
    by_cases hj : j = i ∧ m = s.next i
    · obtain ⟨rfl, rfl⟩ := hj
      exact Or.inr ⟨k, by simp [setSlot_self]⟩
    · have hm' : m < s.next j := by
        by_cases hji : j = i
        · subst hji
          simp only [Function.update_self] at hm
          have : m ≠ s.next j := fun e => hj ⟨rfl, e⟩
          omega
        · simpa [hji] using hm
      exact (h.cover hm').imp_right fun ⟨k', hk'⟩ => ⟨k', hkeep hk'⟩
  · intro j k' m hh hlog
    rcases holds_setSlot hh with ⟨rfl, rfl, hm⟩ | ⟨-, hm⟩
    · obtain rfl := Slot.holds_filling.1 hm
      exact absurd (h.logged hlog j) (lt_irrefl _)
    · exact h.fresh hm hlog
  · intro m hm j
    exact (h.logged hm j).trans_le (hle j)
  · intro j j' k₁ k₂ m h₁ h₂
    rcases holds_setSlot h₁ with ⟨-, rfl, hm₁⟩ | ⟨-, hm₁⟩ <;>
      rcases holds_setSlot h₂ with ⟨-, rfl, hm₂⟩ | ⟨-, hm₂⟩
    · rfl
    · obtain rfl := Slot.holds_filling.1 hm₁
      exact (hfit _ _ hm₂).symm
    · obtain rfl := Slot.holds_filling.1 hm₂
      exact hfit _ _ hm₁
    · exact h.agree hm₁ hm₂
  · intro j k' m hm
    dsimp only at hm ⊢
    have hh : (setSlot s i k (.filling (s.next i)) j k').Holds m := by simp [hm]
    rcases holds_setSlot hh with ⟨rfl, rfl, hx⟩ | ⟨hne, -⟩
    · simpa using (Slot.holds_filling.1 hx).symm
    · rw [setSlot_of_ne s _ hne] at hm
      by_cases hj : j = i
      · exact absurd (hj ▸ hm) (hopen k' m)
      · simpa [hj] using h.last hm
  · intro j k' hst
    obtain ⟨m, hm, hs⟩ := h.stale hst
    refine ⟨m, hm, ?_⟩
    dsimp only
    rw [setSlot_of_ne, hs]
    rintro ⟨rfl, rfl⟩
    simp [hfree] at hs

theorem Inv.fill (h : Inv s) {i : ι} {k : κ} {m : ℕ} (hm : s.slot i k = .filling m) :
    Inv { s with slot := setSlot s i k (.filled m) } := by
  have hiff : ∀ {j k' m'}, (setSlot s i k (.filled m) j k').Holds m' ↔ (s.slot j k').Holds m' := by
    intro j k' m'
    by_cases hjk : j = i ∧ k' = k
    · obtain ⟨rfl, rfl⟩ := hjk
      simp [setSlot_self, hm]
    · rw [setSlot_of_ne s _ hjk]
  constructor
  · exact fun hh => h.lt (hiff.1 hh)
  · exact fun hh => (h.cover hh).imp_right fun ⟨k', hk'⟩ => ⟨k', hiff.2 hk'⟩
  · exact fun hh hl => h.fresh (hiff.1 hh) hl
  · exact h.logged
  · exact fun h₁ h₂ => h.agree (hiff.1 h₁) (hiff.1 h₂)
  · intro j k' m' hx
    dsimp only at hx
    by_cases hjk : j = i ∧ k' = k
    · obtain ⟨rfl, rfl⟩ := hjk
      rw [setSlot_self] at hx
      cases hx
    · rw [setSlot_of_ne s _ hjk] at hx
      exact h.last hx
  · intro j k' hst
    obtain ⟨m', hm', hs⟩ := h.stale hst
    refine ⟨m', hm', ?_⟩
    dsimp only
    rw [setSlot_of_ne, hs]
    rintro ⟨rfl, rfl⟩
    rw [hm] at hs
    cases hs

theorem Inv.release (h : Inv s) {i : ι} {k : κ} {S : Set ι} (hd : s.drain = some (k, S))
    (hi : i ∈ S) : Inv { s with slot := setSlot s i k .free, drain := some (k, S \ {i}) } := by
  have hback : ∀ {j k' m}, (setSlot s i k .free j k').Holds m →
      ¬ (j = i ∧ k' = k) ∧ (s.slot j k').Holds m := by
    intro j k' m hh
    rcases holds_setSlot hh with ⟨-, -, hx⟩ | hx
    · exact absurd hx (Slot.holds_free m)
    · exact hx
  constructor
  · exact fun hh => h.lt (hback hh).2
  · intro j m hm
    rcases h.cover hm with hl | ⟨k', hk'⟩
    · exact Or.inl hl
    · by_cases hjk : j = i ∧ k' = k
      · obtain ⟨rfl, rfl⟩ := hjk
        obtain ⟨m', hm', hs⟩ := h.stale ⟨S, hd, hi⟩
        rw [hs, Slot.holds_filled] at hk'
        exact Or.inl (hk' ▸ List.mem_of_getLast? hm')
      · exact Or.inr ⟨k', by dsimp only; rwa [setSlot_of_ne s _ hjk]⟩
  · intro j k' m hh hl
    obtain ⟨hne, hh⟩ := hback hh
    obtain ⟨S', hS', hj⟩ := h.fresh hh hl
    rw [hd] at hS'
    obtain ⟨rfl, rfl⟩ := Prod.mk.inj (Option.some.inj hS')
    exact ⟨S \ {i}, rfl, hj, fun e => hne ⟨e, rfl⟩⟩
  · exact h.logged
  · exact fun h₁ h₂ => h.agree (hback h₁).2 (hback h₂).2
  · intro j k' m hx
    dsimp only at hx
    have hh : (setSlot s i k .free j k').Holds m := by simp [hx]
    rw [setSlot_of_ne s _ (hback hh).1] at hx
    exact h.last hx
  · rintro j k' ⟨S', hS', hj⟩
    obtain ⟨rfl, rfl⟩ := Prod.mk.inj (Option.some.inj hS')
    obtain ⟨m, hm, hs⟩ := h.stale ⟨S, hd, hj.1⟩
    refine ⟨m, hm, ?_⟩
    dsimp only
    rw [setSlot_of_ne, hs]
    exact fun e => hj.2 e.1

end Steps

variable {G : State ι κ → κ → Prop} {s t : State ι κ} {k₀ : κ}

theorem inv_step (h : Inv s) (hs : Step G s t) : Inv t := by
  cases hs with
  | take i k hfree hopen hfit => exact h.take hfree hopen hfit
  | fill i k m hm => exact h.fill hm
  | drain i k m hd hf _ hm => exact h.drain hd hf hm
  | release i k S hd hi => exact h.release hd hi
  | finish k hd => exact h.finish hd

/-- The invariant holds in every state of every run. -/
theorem inv_of_reachable (h : Relation.ReflTransGen (Step G) (start k₀) s) : Inv s := by
  induction h with
  | refl => exact inv_start k₀
  | tail _ hs ih => exact inv_step ih hs

/-- No segment is drained twice. -/
theorem log_nodup (h : Relation.ReflTransGen (Step G) (start k₀) s) : s.log.Nodup := by
  induction h with
  | refl => exact List.nodup_nil
  | tail hr hs ih =>
    cases hs with
    | drain i k m hd hf hg hm =>
      refine List.nodup_append.2 ⟨ih, by simp, ?_⟩
      rintro m' hm' m'' hm'' rfl
      obtain rfl := List.mem_singleton.1 hm''
      obtain ⟨S, hS, -⟩ := (inv_of_reachable hr).fresh (i := i) (k := k) (by simp [hm]) hm'
      rw [hd] at hS
      cases hS
    | _ => exact ih

/-- If every drain keeps its turn, the segments are logged in order. -/
theorem log_eq_range (hG : ∀ s k, G s k → InTurn s k)
    (h : Relation.ReflTransGen (Step G) (start k₀) s) : s.log = List.range s.log.length := by
  induction h with
  | refl => rfl
  | tail hr hs ih =>
    cases hs with
    | drain i k m hd hf hg hm =>
      have := (inv_of_reachable hr).drained_eq_length hd hf (hG _ _ hg) hm ih
      dsimp only
      rw [List.length_append, List.length_singleton, List.range_succ, ← ih, this]
    | _ => exact ih

end Slots
