import ORaidServer.Group.Iteration
import ORaidServer.Group.Progress
import ORaidServer.Lib.Loop

/-!
# The prompt schedule

A schedule in which nobody is kept waiting: the consumer runs as soon as a counter reaches the number of files,
a producer inside of a call goes on as soon as one of its buffers is not full, and otherwise the files take
turns to hand over a piece.

* `Stream.judgeIteration`, an iteration of the consumer's loop, and `Prompt.step`, the schedule;
* `Stream.judgeIteration_eq`: what the iteration does where a counter is at the number of files.
-/

namespace ORaidServer

open Guarded ByteMem

namespace Stream

/-- The rest of an iteration of the consumer's loop. -/
def finishRound : ℕ → Stream → Stream
  | 0, s => s
  | t + 1, s =>
    match s.judge.pc with
    | .done _ => s
    | pc => if pc = .test 0 then s else finishRound t s.judgeStep

/-- An iteration of the consumer's loop, from its top. -/
def judgeIteration (s : Stream) : Stream := finishRound (s.group.fileNum + 6) s.judgeStep

/-- Producer `i` is inside of a call and finds a buffer that is not full. -/
def CanGoOn (s : Stream) (i : ℕ) : Prop :=
  (s.writer i).loc.pc ≠ .idle ∧ ∃ k, ¬ (s.group.file i).Full k

instance (s : Stream) (i : ℕ) : Decidable (s.CanGoOn i) := inferInstanceAs (Decidable (_ ∧ _))

end Stream

/-- The streams under the schedule, with the file whose turn it is. -/
structure Prompt where
  stream : Stream
  turn : ℕ

namespace Prompt

/-- One step of the schedule; the result is that of the consumer with the output file.  A turn is the call
of `write_buf` with the next piece and its first iteration. -/
def step (p : Prompt) : Prompt ⊕ (ℤ × OutFile) :=
  let s := p.stream
  match s.judge.pc with
  | .done ret => .inr (ret, s.out)
  | _ =>
    if ∃ k, s.group.bufFullNum k = s.group.fileNum then .inl { p with stream := s.judgeIteration }
    else
      match (List.range s.group.fileNum).find? fun i => s.CanGoOn i with
      | some i => .inl { p with stream := s.coarseStep (.writer i) }
      | none =>
        .inl ⟨(s.coarseStep (.writer p.turn)).coarseStep (.writer p.turn),
          (p.turn + 1) % s.group.fileNum⟩

/-- The start. -/
def init (n N : ℕ) (pieces : ℕ → List (List Byte)) : Prompt := ⟨.init n N pieces, 0⟩

end Prompt

/-! ### The consumer's round -/

/-- `buf_flag[k] = 0` of the files from `j` to below `n`. -/
def TGroupFileInfo.clearFlags (g : TGroupFileInfo) (k : Fin 2) (j n : ℕ) : TGroupFileInfo :=
  { g with file := fun i =>
      if j ≤ i ∧ i < n then (g.file i).setBuf k { (g.file i).buf k with flag := .empty } else g.file i }

namespace Stream

theorem finishRound_go {t : ℕ} {s : Stream} (h : s.judge.pc ≠ .test 0) (h' : ∀ r, s.judge.pc ≠ .done r) :
    finishRound (t + 1) s = finishRound t s.judgeStep := by
  rw [finishRound]
  split
  · rename_i r hr
    exact absurd hr (h' r)
  · exact if_neg h

theorem finishRound_stop {t : ℕ} {s : Stream} (h : s.judge.pc = .test 0 ∨ ∃ r, s.judge.pc = .done r) :
    finishRound t s = s := by
  cases t with
  | zero => rfl
  | succ t =>
    rw [finishRound]
    split
    · rfl
    · rename_i hno
      exact if_pos (h.resolve_right fun ⟨r, hr⟩ => hno r hr)

/-- Where the consumer goes from the test of its loop. -/
def afterLoop (g : TGroupFileInfo) : JudgePc :=
  if g.xorFlag = 0 ∧ g.correctFlag = 0 then .test 0 else .done (verdict g)

theorem afterLoop_stops (g : TGroupFileInfo) :
    afterLoop g = .test 0 ∨ ∃ r, afterLoop g = .done r := by
  unfold afterLoop
  split_ifs
  · exact Or.inl rfl
  · exact Or.inr ⟨_, rfl⟩

/-- The consumer resets the flags of all files and tests the condition of its loop. -/
theorem finishRound_resetFlag {k : Fin 2} {n : ℕ} (r j t : ℕ) (s : Stream) (hr : j + r = n)
    (hj : s.judge = ⟨.resetFlag k j, n⟩) :
    finishRound (r + 2 + t) s =
      { s with group := s.group.clearFlags k j n, judge := ⟨afterLoop s.group, n⟩ } := by
  have hpc : s.judge.pc = .resetFlag k j := by rw [hj]
  have hnum : s.judge.fileNum = n := by rw [hj]
  induction r generalizing j s with
  | zero =>
    obtain rfl : j = n := hr
    have hloop : s.judgeStep = { s with judge := ⟨.loop, j⟩ } := by
      simp [judgeStep, ORaidServer.judgeStep, hj]
    have hend : s.judgeStep.judgeStep = { s with judge := ⟨afterLoop s.group, j⟩ } := by
      rw [hloop]
      unfold judgeStep ORaidServer.judgeStep afterLoop
      dsimp only
      split_ifs <;> rfl
    have hnone : s.group.clearFlags k j j = s.group := by
      unfold TGroupFileInfo.clearFlags
      have : ∀ i, ¬ (j ≤ i ∧ i < j) := fun i => by omega
      simp only [this, if_false]
    rw [show 0 + 2 + t = t + 1 + 1 by omega, finishRound_go (by simp [hpc]) (by simp [hpc]),
      finishRound_go (by simp [hloop]) (by simp [hloop]), hend, finishRound_stop (afterLoop_stops _),
      hnone]
  | succ r ih =>
    have hlt : j < n := by omega
    have hstep : s.judgeStep =
        { s with group := s.group.clearFlag k j, judge := ⟨.resetFlag k (j + 1), n⟩ } := by
      simp [judgeStep, ORaidServer.judgeStep, hj, hlt]
    rw [show r + 1 + 2 + t = r + 2 + t + 1 by omega, finishRound_go (by simp [hpc]) (by simp [hpc]),
      hstep, ih (j + 1) _ (by omega) rfl rfl rfl]
    have hfile : (s.group.clearFlag k j).clearFlags k (j + 1) n = s.group.clearFlags k j n := by
      unfold TGroupFileInfo.clearFlags TGroupFileInfo.clearFlag TGroupFileInfo.setFile
      congr 1
      funext i
      rcases eq_or_ne i j with rfl | hij
      · simp [hlt]
      · have hle : j + 1 ≤ i ↔ j ≤ i := by omega
        simp [Function.update_of_ne hij, hle]
    rw [hfile]
    rfl

/-- The state after the consumer's round for buffer `k`. -/
def afterRound (s : Stream) (n : ℕ) (k : Fin 2) : Stream :=
  let r := (bufXor n s.group s.out k).2
  { s with
    group := { r.1 with bufFullNum := Function.update r.1.bufFullNum k 0 }.clearFlags k 0 n
    out := r.2
    judge := ⟨afterLoop r.1, n⟩ }

/-- **The consumer's round** for buffer `k`. -/
theorem judgeIteration_eq {s : Stream} {n : ℕ} {k : Fin 2} (hj : s.judge = ⟨.test 0, n⟩)
    (hn : s.group.fileNum = n) (hk : s.group.bufFullNum k = n)
    (hother : k = 1 → s.group.bufFullNum 0 ≠ n) : s.judgeIteration = s.afterRound n k := by
  -- from `buf_xor` on
  have hxor : ∀ t (s' : Stream), s' = { s with judge := ⟨.xor k, n⟩ } →
      finishRound (n + 4 + t) s' = s.afterRound n k := by
    rintro t s' rfl
    rw [show n + 4 + t = n + 2 + t + 1 + 1 by omega, finishRound_go (by simp) (by simp),
      finishRound_go (by simp [judgeStep, ORaidServer.judgeStep])
        (by simp [judgeStep, ORaidServer.judgeStep])]
    exact finishRound_resetFlag n 0 t _ (by omega) rfl
  unfold judgeIteration
  rw [hn]
  obtain rfl | rfl : k = 0 ∨ k = 1 := by omega
  · have htest : s.judgeStep = { s with judge := ⟨.xor 0, n⟩ } := by
      simp [judgeStep, ORaidServer.judgeStep, hj, hk]
    rw [show n + 6 = n + 4 + 2 by omega]
    exact hxor 2 _ htest
  · have htest : s.judgeStep = { s with judge := ⟨.test 1, n⟩ } := by
      simp [judgeStep, ORaidServer.judgeStep, hj, hother rfl]
    have htest1 : s.judgeStep.judgeStep = { s with judge := ⟨.xor 1, n⟩ } := by
      rw [htest]
      simp [judgeStep, ORaidServer.judgeStep, hk]
    rw [show n + 6 = n + 4 + 1 + 1 by omega, finishRound_go (by simp [htest]) (by simp [htest])]
    exact hxor 1 _ htest1

end Stream

end ORaidServer
