import ORaidServer.Group.Prompt

/-!
# One file under the prompt schedule

Segment `m` of a file goes to buffer `m % 2`, and at most two segments are held at a time: `InOrder`.

* `FilePrompt`, what holds of a file between two steps of the schedule; `FilePrompt.of_move`, that an
  iteration of `write_buf` keeps it;
* `fileWork`, a measure of what a producer has still to do, with `IterationMove.fileWork_lt`;
* `IterationMove.full`, what an iteration does to the counters.
-/

namespace ORaidServer

open Slots

/-- The buffer of segment `m`. -/
def slotOf (m : ℕ) : Fin 2 := ⟨m % 2, Nat.mod_lt m Nat.two_pos⟩

theorem slotOf_eq {m m' : ℕ} : slotOf m = slotOf m' ↔ m % 2 = m' % 2 := by
  simp [slotOf, Fin.ext_iff]

theorem slotOf_succ_ne (m : ℕ) : slotOf (m + 1) ≠ slotOf m := by
  rw [Ne, slotOf_eq]
  omega

theorem eq_slotOf_succ {k : Fin 2} {m : ℕ} (h : k ≠ slotOf m) : k = slotOf (m + 1) := by
  have := slotOf_succ_ne m
  omega

/-- Of the `b` segments begun the slots hold those from `d` on, each in its buffer; only the last one may be
unfinished. -/
structure InOrder (d b : ℕ) (σ : Fin 2 → Slot) : Prop where
  le : d ≤ b
  begun_le : b ≤ d + 2
  filling : ∀ k m, σ k = .filling m → d ≤ m ∧ m + 1 = b ∧ slotOf m = k
  filled : ∀ k m, σ k = .filled m → d ≤ m ∧ m < b ∧ slotOf m = k
  held : ∀ m, d ≤ m → m < b → σ (slotOf m) ≠ .free

namespace InOrder

variable {d b m : ℕ} {σ : Fin 2 → Slot} {k : Fin 2}

theorem filling_unique (h : InOrder d b σ) {k' : Fin 2} {m' : ℕ} (hm : σ k = .filling m)
    (hm' : σ k' = .filling m') : k = k' := by
  obtain ⟨-, hb, hk⟩ := h.filling k m hm
  obtain ⟨-, hb', hk'⟩ := h.filling k' m' hm'
  obtain rfl : m = m' := by omega
  exact hk.symm.trans hk'

/-- The buffer of segment `d` is filled only with that segment. -/
theorem eq_of_filled (h : InOrder d b σ) (hm : σ (slotOf d) = .filled m) : m = d := by
  obtain ⟨hle, hlt, hk⟩ := h.filled _ m hm
  have := h.begun_le
  rw [slotOf_eq] at hk
  omega

/-- With the buffer of the second segment filled, two were begun, and the first one is filled. -/
theorem of_filled_succ (h : InOrder d b σ) (hm : σ (slotOf (d + 1)) = .filled m) :
    b = d + 2 ∧ σ (slotOf d) = .filled d := by
  obtain ⟨hle, hlt, hk⟩ := h.filled _ m hm
  have hne : m ≠ d := fun he => slotOf_succ_ne d (he ▸ hk).symm
  have hb : b = d + 2 := by
    have := h.begun_le
    omega
  refine ⟨hb, ?_⟩
  cases hx : σ (slotOf d) with
  | free => exact absurd hx (h.held d le_rfl (by omega))
  | filling m' =>
    obtain ⟨-, hm', hk'⟩ := h.filling _ m' hx
    rw [slotOf_eq] at hk'
    omega
  | filled m' => rw [h.eq_of_filled hx]

/-- The segment that is being filled is finished. -/
theorem fill (h : InOrder d b σ) (hm : σ k = .filling m) :
    InOrder d b (Function.update σ k (.filled m)) := by
  obtain ⟨hdm, hmb, hmk⟩ := h.filling k m hm
  refine ⟨h.le, h.begun_le, ?_, ?_, ?_⟩
  · intro k' m' hk'
    by_cases hkk : k' = k
    · rw [hkk, Function.update_self] at hk'
      cases hk'
    · rw [Function.update_of_ne hkk] at hk'
      exact h.filling k' m' hk'
  · intro k' m' hk'
    by_cases hkk : k' = k
    · rw [hkk, Function.update_self] at hk'
      cases hk'
      exact ⟨hdm, by omega, hkk ▸ hmk⟩
    · rw [Function.update_of_ne hkk] at hk'
      exact h.filled k' m' hk'
  · intro m' hd hlt
    by_cases hkk : slotOf m' = k
    · rw [hkk, Function.update_self]
      simp
    · rw [Function.update_of_ne hkk]
      exact h.held m' hd hlt

/-- The next segment is begun in a free buffer while none is being filled. -/
theorem take (h : InOrder d b σ) (hfree : σ k = .free) (hno : ∀ k' m, σ k' ≠ .filling m)
    (hd : d < b) : InOrder d (b + 1) (Function.update σ k (.filling b)) := by
  have hk' := eq_slotOf_succ fun he : k = slotOf d => h.held d le_rfl hd (he ▸ hfree)
  have hb : b = d + 1 := by
    have hne : ¬ d + 1 < b := fun hlt => h.held (d + 1) (by omega) hlt (hk' ▸ hfree)
    omega
  refine ⟨by omega, by omega, ?_, ?_, ?_⟩
  · intro k₁ m hm
    by_cases hkk : k₁ = k
    · rw [hkk, Function.update_self] at hm
      cases hm
      exact ⟨by omega, rfl, by rw [hkk, hk', hb]⟩
    · rw [Function.update_of_ne hkk] at hm
      exact absurd hm (hno k₁ m)
  · intro k₁ m hm
    by_cases hkk : k₁ = k
    · rw [hkk, Function.update_self] at hm
      cases hm
    · rw [Function.update_of_ne hkk] at hm
      obtain ⟨hle, hlt, hmk⟩ := h.filled k₁ m hm
      exact ⟨hle, by omega, hmk⟩
  · intro m hdm hlt
    by_cases hkk : slotOf m = k
    · rw [hkk, Function.update_self]
      simp
    · rw [Function.update_of_ne hkk]
      apply h.held m hdm
      rw [hk', slotOf_eq] at hkk
      omega

/-- The buffer of the first segment is freed. -/
theorem drain (h : InOrder d b σ) (hm : σ (slotOf d) = .filled d) :
    InOrder (d + 1) b (Function.update σ (slotOf d) .free) := by
  obtain ⟨-, hlt, -⟩ := h.filled _ d hm
  have hbl := h.begun_le
  -- what is not in that buffer is a later segment
  have hlater : ∀ {k m}, k ≠ slotOf d → d ≤ m → slotOf m = k → d + 1 ≤ m := by
    intro k m hk hle hmk
    have hne : m ≠ d := fun he => hk (he ▸ hmk).symm
    omega
  refine ⟨hlt, by omega, ?_, ?_, ?_⟩
  · intro k m hk
    by_cases hkk : k = slotOf d
    · rw [hkk, Function.update_self] at hk
      cases hk
    · rw [Function.update_of_ne hkk] at hk
      obtain ⟨hle, hmb, hmk⟩ := h.filling k m hk
      exact ⟨hlater hkk hle hmk, hmb, hmk⟩
  · intro k m hk
    by_cases hkk : k = slotOf d
    · rw [hkk, Function.update_self] at hk
      cases hk
    · rw [Function.update_of_ne hkk] at hk
      obtain ⟨hle, hmb, hmk⟩ := h.filled k m hk
      exact ⟨hlater hkk hle hmk, hmb, hmk⟩
  · intro m hdm hmb
    have hm1 : m = d + 1 := by omega
    rw [hm1, Function.update_of_ne (slotOf_succ_ne d)]
    exact h.held (d + 1) (by omega) (by omega)

end InOrder

theorem writing_iff {x : SingleFileInfo} {k : Fin 2} : x.Writing k ↔ ∃ m, x.slot k = .filling m := by
  simp

theorem full_iff {x : SingleFileInfo} {k : Fin 2} : x.Full k ↔ ∃ m, x.slot k = .filled m := by
  simp

theorem not_writing_of_full {x : SingleFileInfo} {k : Fin 2} (h : x.Full k) : ¬ x.Writing k := by
  intro hw
  rw [SingleFileInfo.Writing, show _ = BufFlag.full from h] at hw
  cases hw

/-- What holds of a file and its producer between two steps of the schedule. -/
structure FilePrompt (d : ℕ) (c : FileCtx) : Prop where
  order : InOrder d c.info.begun c.info.slot
  place : c.loc.pc = .idle ∨ c.loc.pc = .head ∧ c.loc.flag = true
  waits : c.loc.pc = .head → (∀ k, ¬ c.info.Writing k) → d < c.info.begun

section Moves

variable {N d : ℕ} {c c' : FileCtx}

/-- **An iteration keeps the order of the segments.** -/
theorem FilePrompt.of_move (h : InOrder d c.info.begun c.info.slot) (hpc : c.loc.pc = .head)
    (hwait : (∀ k, ¬ c.info.Writing k) → c.loc.flag = true ∧ d < c.info.begun)
    (hm : IterationMove N c c') : FilePrompt d c' := by
  cases hm with
  | stored hslot hbegun _ hpc' =>
    have horder : InOrder d c'.info.begun c'.info.slot := by rwa [hslot, hbegun]
    exact ⟨horder, Or.inl hpc', fun hhead => by rw [hpc'] at hhead; cases hhead⟩
  | ended k m hfill hslot hbegun _ hpc' _ =>
    have horder : InOrder d c'.info.begun c'.info.slot := by
      rw [hslot, hbegun]
      exact h.fill hfill
    exact ⟨horder, Or.inl hpc', fun hhead => by rw [hpc'] at hhead; cases hhead⟩
  | switched k k' m _ hk hfill hfree hslot hbegun _ hpc' hflag =>
    have hw : c'.info.Writing k' := writing_iff.2 ⟨c.info.begun, by rw [hslot, Function.update_self]⟩
    have horder : InOrder d c'.info.begun c'.info.slot := by
      rw [hslot, hbegun]
      refine (h.fill hfill).take ?_ (fun k₁ m₁ hm₁ => ?_) ?_
      · rwa [Function.update_of_ne hk]
      · by_cases hk₁ : k₁ = k
        · rw [hk₁, Function.update_self] at hm₁
          cases hm₁
        · rw [Function.update_of_ne hk₁] at hm₁
          exact hk₁ (h.filling_unique hm₁ hfill)
      · have := h.filling k m hfill
        omega
    exact ⟨horder, Or.inr ⟨hpc', hflag⟩, fun _ hno => absurd hw (hno k')⟩
  | blocked k m _ hfill hfull hslot hbegun _ hpc' hflag =>
    have horder : InOrder d c'.info.begun c'.info.slot := by
      rw [hslot, hbegun]
      exact h.fill hfill
    refine ⟨horder, Or.inr ⟨hpc', hflag⟩, fun _ _ => ?_⟩
    obtain ⟨m', hm'⟩ := full_iff.1 (hfull (slotOf (d + 1)))
    have := (horder.of_filled_succ hm').1
    omega
  | waited hfull hc =>
    obtain ⟨hflag, hlt⟩ := hwait fun k => not_writing_of_full (hfull k)
    rw [hc]
    exact ⟨h, Or.inr ⟨hpc, hflag⟩, fun _ _ => hlt⟩
  | woken k hno hfree _ hslot hbegun _ hpc' hflag =>
    obtain ⟨hflag', hlt⟩ := hwait hno
    have hw : c'.info.Writing k := writing_iff.2 ⟨c.info.begun, by rw [hslot, Function.update_self]⟩
    have horder : InOrder d c'.info.begun c'.info.slot := by
      rw [hslot, hbegun]
      exact h.take hfree (fun k' m hm => hno k' (writing_iff.2 ⟨m, hm⟩)) hlt
    exact ⟨horder, Or.inr ⟨hpc', hflag.trans hflag'⟩, fun _ hno' => absurd hw (hno' k)⟩

/-- What an iteration does to the counters: it counts a buffer that it fills. -/
theorem IterationMove.full (hm : IterationMove N c c') :
    (c'.num = c.num ∧ ∀ k, c'.info.Full k ↔ c.info.Full k) ∨
      ∃ k m, c.info.slot k = .filling m ∧ c'.info.slot k = .filled m ∧
        (∀ k', k' ≠ k → (c'.info.Full k' ↔ c.info.Full k')) ∧
        c'.num = Function.update c.num k (c.num k + 1) := by
  have hfull : ∀ {k : Fin 2}, c'.info.slot k = c.info.slot k →
      (c'.info.Full k ↔ c.info.Full k) := by
    intro k hk
    rw [full_iff, full_iff, hk]
  cases hm with
  | stored hslot _ hnum _ => exact Or.inl ⟨hnum, fun k => hfull (congrFun hslot k)⟩
  | ended k m hfill hslot _ hnum _ _ | blocked k m _ hfill _ hslot _ hnum _ _ =>
    refine Or.inr ⟨k, m, hfill, by rw [hslot, Function.update_self], fun k' hk' => hfull ?_, hnum⟩
    rw [hslot, Function.update_of_ne hk']
  | switched k k' m _ hk hfill hfree hslot _ hnum _ _ =>
    refine Or.inr ⟨k, m, hfill, ?_, fun k₁ hk₁ => ?_, hnum⟩
    · rw [hslot, Function.update_of_ne (Ne.symm hk), Function.update_self]
    · obtain rfl : k₁ = k' := by omega
      rw [full_iff, full_iff, hslot, Function.update_self, hfree]
      simp
  | waited _ hc =>
    rw [hc]
    exact Or.inl ⟨rfl, fun _ => Iff.rfl⟩
  | woken k _ hfree _ hslot _ hnum _ _ =>
    refine Or.inl ⟨hnum, fun k' => ?_⟩
    by_cases hk : k' = k
    · rw [hk, full_iff, full_iff, hslot, Function.update_self, hfree]
      simp
    · exact hfull (by rw [hslot, Function.update_of_ne hk])

/-- An iteration that comes back to the top of the loop with no buffer being written leaves both full. -/
theorem IterationMove.full_of_head (hm : IterationMove N c c') (hpc : c'.loc.pc = .head)
    (hno : ∀ k, ¬ c'.info.Writing k) (k : Fin 2) : c'.info.Full k := by
  cases hm with
  | stored _ _ _ hpc' | ended _ _ _ _ _ _ hpc' _ =>
    rw [hpc] at hpc'
    cases hpc'
  | switched _ k' _ _ _ _ _ hslot _ _ _ _ =>
    exact absurd (writing_iff.2 ⟨_, by rw [hslot, Function.update_self]⟩) (hno k')
  | blocked _ _ _ _ hfull _ _ _ _ _ => exact hfull k
  | waited hfull hc =>
    rw [hc]
    exact hfull k
  | woken k' _ _ _ hslot _ _ _ _ =>
    exact absurd (writing_iff.2 ⟨_, by rw [hslot, Function.update_self]⟩) (hno k')

/-! ### The work left -/

/-- What a producer has still to do for a file of length `N`. -/
def fileWork (N : ℕ) (c : FileCtx) (ps : List (List Byte)) : ℕ :=
  2 * ps.length + (if c.loc.pc = .idle then 0 else 1) + 2 * (segments N - c.info.begun) +
    if ∃ k, c.info.Writing k then 1 else 0

theorem fileWork_congr (hinfo : c'.info = c.info) (hloc : c'.loc = c.loc) (ps : List (List Byte)) :
    fileWork N c' ps = fileWork N c ps := by
  simp only [fileWork, hinfo, hloc]

/-- An iteration that does not find both buffers full gets ahead. -/
theorem IterationMove.fileWork_lt (hm : IterationMove N c c') (h : InOrder d c.info.begun c.info.slot)
    (hpc : c.loc.pc = .head) (hfree : ∃ k, ¬ c.info.Full k) (hle : c'.info.begun ≤ segments N)
    (ps : List (List Byte)) : fileWork N c' ps < fileWork N c ps := by
  have hidle : c.loc.pc ≠ .idle := by rw [hpc]; simp
  unfold fileWork
  rw [if_neg hidle]
  cases hm with
  | stored hslot hbegun _ hpc' =>
    have hw : (∃ k, c'.info.Writing k) ↔ ∃ k, c.info.Writing k := by simp only [writing_iff, hslot]
    rw [if_pos hpc', hbegun, if_congr hw rfl rfl]
    omega
  | ended k m hfill hslot hbegun _ hpc' _ =>
    have hw : ∃ k, c.info.Writing k := ⟨k, writing_iff.2 ⟨m, hfill⟩⟩
    have hno : ¬ ∃ k, c'.info.Writing k := by
      rintro ⟨k', hw'⟩
      obtain ⟨m', hm'⟩ := writing_iff.1 hw'
      rw [hslot] at hm'
      by_cases hk : k' = k
      · rw [hk, Function.update_self] at hm'
        cases hm'
      · rw [Function.update_of_ne hk] at hm'
        exact hk (h.filling_unique hm' hfill)
    rw [if_pos hpc', hbegun, if_pos hw, if_neg hno]
    omega
  | switched k k' m _ _ hfill _ _ hbegun _ hpc' _ =>
    have hw : ∃ k, c.info.Writing k := ⟨k, writing_iff.2 ⟨m, hfill⟩⟩
    have hidle' : c'.loc.pc ≠ .idle := by rw [hpc']; simp
    rw [if_neg hidle', if_pos hw]
    split_ifs <;> omega
  | blocked k m _ hfill hfull _ hbegun _ hpc' _ =>
    have hw : ∃ k, c.info.Writing k := ⟨k, writing_iff.2 ⟨m, hfill⟩⟩
    have hno : ¬ ∃ k, c'.info.Writing k := fun ⟨k', hw'⟩ => not_writing_of_full (hfull k') hw'
    have hidle' : c'.loc.pc ≠ .idle := by rw [hpc']; simp
    rw [if_neg hidle', hbegun, if_pos hw, if_neg hno]
    omega
  | waited hfull _ =>
    obtain ⟨k, hk⟩ := hfree
    exact absurd (hfull k) hk
  | woken k hno _ _ _ hbegun _ hpc' _ =>
    have hidle' : c'.loc.pc ≠ .idle := by rw [hpc']; simp
    rw [if_neg hidle', if_neg (not_exists.2 hno)]
    split_ifs <;> omega

end Moves

end ORaidServer
