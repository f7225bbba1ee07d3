import ORaidServer.Group.BufXor

/-!
# `judge_xor_condition`

The consumer of a group: it waits until one of the two counters reaches `file_num`, runs `buf_xor`
on that buffer of every file, resets the counter and then the flag of each file, and goes on until
`xor_flag` or `correct_flag` is set.  As for `write_buf`, a step is what runs between two points at
which other threads can.

What a step does to the flags, the counters and the place of the consumer is said once, whatever the
sizes of the buffers and the results of the writes: `judgeStep_flag`, `judgeStep_num` and the lemmas
on the program counter.
-/

namespace ORaidServer

/-- Where the consumer stands. -/
inductive JudgePc
  /-- before `if (buf_full_num[k] == file_num)` -/
  | test (k : Fin 2)
  /-- before the call of `buf_xor` for buffer `k` -/
  | xor (k : Fin 2)
  /-- before `buf_full_num[k] = 0` -/
  | resetNum (k : Fin 2)
  /-- before `buf_flag[k] = 0` of file `i` -/
  | resetFlag (k : Fin 2) (i : ℕ)
  /-- before the test of `while` -/
  | loop
  /-- returned -/
  | done (ret : ℤ)
  deriving DecidableEq, Repr

/-- The program counter and the local copy of `file_num`. -/
structure JudgeLocal where
  pc : JudgePc
  fileNum : ℕ
  deriving DecidableEq, Repr

/-- The return value, after the loop. -/
def verdict (g : TGroupFileInfo) : ℤ :=
  if g.correctFlag ≠ 0 then errorCreatTransmissionDataConnection
  else if g.fileSize ≠ g.xorSize then errorCreatTransmissionDataConnection
  else right

/-- `buf_flag[k] = 0` of file `i`. -/
def TGroupFileInfo.clearFlag (g : TGroupFileInfo) (k : Fin 2) (i : ℕ) : TGroupFileInfo :=
  g.setFile i ((g.file i).setBuf k { (g.file i).buf k with flag := .empty })

/-- One step of `judge_xor_condition`. -/
def judgeStep (g : TGroupFileInfo) (out : OutFile) (j : JudgeLocal) :
    TGroupFileInfo × OutFile × JudgeLocal :=
  match j.pc with
  | .test k =>
    if g.bufFullNum k = j.fileNum then (g, out, { j with pc := .xor k })
    else (g, out, { j with pc := if k = 0 then .test 1 else .loop })
  | .xor k =>
    let (_, g, out) := bufXor j.fileNum g out k
    (g, out, { j with pc := .resetNum k })
  | .resetNum k =>
    ({ g with bufFullNum := Function.update g.bufFullNum k 0 }, out, { j with pc := .resetFlag k 0 })
  | .resetFlag k i =>
    if i < j.fileNum then (g.clearFlag k i, out, { j with pc := .resetFlag k (i + 1) })
    else (g, out, { j with pc := .loop })
  | .loop =>
    if g.xorFlag = 0 ∧ g.correctFlag = 0 then (g, out, { j with pc := .test 0 })
    else (g, out, { j with pc := .done (verdict g) })
  | .done _ => (g, out, j)

section Lemmas

variable (g : TGroupFileInfo) (out : OutFile) (j : JudgeLocal)

/-- The consumer resets one flag at a time. -/
theorem judgeStep_flag (i : ℕ) (k : Fin 2) :
    (((judgeStep g out j).1.file i).buf k).flag =
      if j.pc = .resetFlag k i ∧ i < j.fileNum then .empty else ((g.file i).buf k).flag := by
  cases hpc : j.pc with
  | test k' | loop =>
    simp only [judgeStep, hpc]
    split_ifs <;> simp_all
  | xor k' =>
    simp only [judgeStep, hpc, reduceCtorEq, false_and, if_false]
    exact bufXor_flag _ _ _ _ _ _
  | resetNum k' => simp [judgeStep, hpc]
  | resetFlag k' l =>
    simp only [judgeStep, hpc, JudgePc.resetFlag.injEq]
    by_cases hl : l < j.fileNum
    · rw [if_pos hl]
      rcases eq_or_ne i l with rfl | hil
      · rcases eq_or_ne k k' with rfl | hk
        · simp [TGroupFileInfo.clearFlag, hl]
        · simp [TGroupFileInfo.clearFlag, SingleFileInfo.buf_setBuf, hk, Ne.symm hk]
      · simp [TGroupFileInfo.clearFlag, TGroupFileInfo.file_setFile, hil, Ne.symm hil]
    · rw [if_neg hl, if_neg]
      rintro ⟨⟨-, rfl⟩, hi⟩
      exact hl hi
  | done r => simp [judgeStep, hpc]

/-- The consumer changes a counter only to reset it. -/
theorem judgeStep_num (k : Fin 2) :
    (judgeStep g out j).1.bufFullNum k = if j.pc = .resetNum k then 0 else g.bufFullNum k := by
  cases hpc : j.pc with
  | test k' | loop =>
    simp only [judgeStep, hpc]
    split_ifs <;> simp_all
  | xor k' =>
    simp only [judgeStep, hpc, reduceCtorEq, if_false]
    rw [(bufXor_num j.fileNum g out k').1]
  | resetNum k' => simp [judgeStep, hpc, Function.update_apply, eq_comm]
  | resetFlag k' l =>
    simp only [judgeStep, hpc]
    split_ifs <;> first | rfl | simp_all
  | done r => simp [judgeStep, hpc]

theorem judgeStep_groupNum : (judgeStep g out j).1.fileNum = g.fileNum := by
  cases hpc : j.pc with
  | xor k =>
    simp only [judgeStep, hpc]
    exact (bufXor_num j.fileNum g out k).2.1
  | _ =>
    simp only [judgeStep, hpc]
    try split_ifs
    all_goals rfl

theorem judgeStep_localNum : (judgeStep g out j).2.2.fileNum = j.fileNum := by
  cases hpc : j.pc with
  | xor k => simp only [judgeStep, hpc]
  | _ =>
    simp only [judgeStep, hpc]
    try split_ifs
    all_goals rfl

/-- What the consumer changes of a file are its buffers and their pointers; it never takes
`correct_flag` back. -/
theorem judgeStep_frame :
    (∀ i, ∃ b p, (judgeStep g out j).1.file i =
      { g.file i with inBufInfo := ⟨b, (g.file i).inBufInfo.cpSize⟩, ptr := p }) ∧
    (judgeStep g out j).1.fileSize = g.fileSize ∧
    ((judgeStep g out j).1.correctFlag = g.correctFlag ∨ (judgeStep g out j).1.correctFlag = -1) := by
  have hsame : ∀ i, ∃ b p, g.file i =
      { g.file i with inBufInfo := ⟨b, (g.file i).inBufInfo.cpSize⟩, ptr := p } := fun i =>
    ⟨(g.file i).inBufInfo.buf, (g.file i).ptr, rfl⟩
  have hset : ∀ k m i p, ∃ b p', ((g.setInBuf0 k m).file i).withPtr p =
      { g.file i with inBufInfo := ⟨b, (g.file i).inBufInfo.cpSize⟩, ptr := p' } := by
    intro k m i p
    rw [TGroupFileInfo.setInBuf0, TGroupFileInfo.file_setFile]
    split_ifs with hi
    · subst hi
      exact ⟨_, p, rfl⟩
    · exact ⟨(g.file i).inBufInfo.buf, p, rfl⟩
  cases hpc : j.pc with
  | xor k =>
    simp only [judgeStep, hpc]
    rcases bufXor_cases j.fileNum g out k with ⟨m, -, h | h⟩ | h
    · rw [h]
      exact ⟨fun i => hset k m i ((g.setInBuf0 k m).file i).ptr, rfl, Or.inr rfl⟩
    · obtain ⟨-, hsize, -, hcorrect, -⟩ := frame_addXorSize (g.setInBuf0 k m) j.fileNum
        ((g.file 0).buf k).bufSize
      rw [h]
      refine ⟨fun i => ?_, hsize, Or.inl hcorrect⟩
      obtain ⟨p, hp⟩ := file_addXorSize (g.setInBuf0 k m) j.fileNum ((g.file 0).buf k).bufSize i
      rw [hp]
      exact hset k m i p
    · rw [h]
      exact ⟨hsame, rfl, Or.inr rfl⟩
  | resetFlag k l =>
    simp only [judgeStep, hpc]
    split_ifs
    · refine ⟨fun i => ?_, rfl, Or.inl rfl⟩
      rw [TGroupFileInfo.clearFlag, TGroupFileInfo.file_setFile]
      split_ifs with hi
      · subst hi
        exact ⟨_, (g.file i).ptr, rfl⟩
      · exact hsame i
    · exact ⟨hsame, rfl, Or.inl rfl⟩
  | test k | loop =>
    simp only [judgeStep, hpc]
    split_ifs <;> exact ⟨hsame, rfl, Or.inl rfl⟩
  | resetNum k | done r => simpa [judgeStep, hpc] using hsame

/-- The consumer raises `xor_flag` and frees the buffers of all files at once, in the call of `buf_xor` that
completes the output. -/
theorem judgeStep_completes :
    (judgeStep g out j).1.xorFlag =
        (if ∃ k, j.pc = .xor k ∧ g.Completes j.fileNum out k then 1 else g.xorFlag) ∧
      ∀ i < j.fileNum, ((judgeStep g out j).1.file i).ptr =
        if ∃ k, j.pc = .xor k ∧ g.Completes j.fileNum out k then fun _ => .released
        else (g.file i).ptr := by
  cases hpc : j.pc with
  | xor k =>
    simp only [judgeStep, hpc, JudgePc.xor.injEq, exists_eq_left']
    exact bufXor_completes j.fileNum g out k
  | resetFlag k l =>
    simp only [judgeStep, hpc, reduceCtorEq, false_and, exists_false, if_false]
    split_ifs
    · refine ⟨rfl, fun i _ => ?_⟩
      rw [TGroupFileInfo.clearFlag, TGroupFileInfo.file_setFile]
      split_ifs with hi
      · rw [hi]
        rfl
      · rfl
    · exact ⟨rfl, fun _ _ => rfl⟩
  | test k | loop =>
    simp only [judgeStep, hpc, reduceCtorEq, false_and, exists_false, if_false]
    split_ifs <;> exact ⟨rfl, fun _ _ => rfl⟩
  | resetNum k | done r => simp [judgeStep, hpc]

variable {g out j}

/-- The consumer goes to `buf_xor` only from a test that finds the counter at `file_num`. -/
theorem judgeStep_xor {k : Fin 2} (h : (judgeStep g out j).2.2.pc = .xor k) :
    j.pc = .test k ∧ g.bufFullNum k = j.fileNum := by
  cases hpc : j.pc with
  | test k' =>
    simp only [judgeStep, hpc] at h
    split_ifs at h with hnum
    cases h
    exact ⟨rfl, hnum⟩
  | _ =>
    simp only [judgeStep, hpc] at h
    try split_ifs at h
    all_goals cases h

/-- The consumer begins a round only while both flags are down. -/
theorem judgeStep_test {k : Fin 2} (h : (judgeStep g out j).2.2.pc = .test k) :
    (∃ k', j.pc = .test k') ∨ j.pc = .loop ∧ g.xorFlag = 0 ∧ g.correctFlag = 0 := by
  cases hpc : j.pc with
  | test k' => exact Or.inl ⟨k', rfl⟩
  | loop =>
    simp only [judgeStep, hpc] at h
    split_ifs at h with hflags
    exact Or.inr ⟨rfl, hflags⟩
  | _ =>
    simp only [judgeStep, hpc] at h
    try split_ifs at h
    all_goals cases h

theorem judgeStep_resetNum {k : Fin 2} (h : (judgeStep g out j).2.2.pc = .resetNum k) :
    j.pc = .xor k := by
  cases hpc : j.pc with
  | xor k' =>
    simp only [judgeStep, hpc] at h
    cases h
    rfl
  | _ =>
    simp only [judgeStep, hpc] at h
    try split_ifs at h
    all_goals cases h

/-- The consumer resets the flags of the files in order, after the counter. -/
theorem judgeStep_resetFlag {k : Fin 2} {i : ℕ} (h : (judgeStep g out j).2.2.pc = .resetFlag k i) :
    (j.pc = .resetNum k ∧ i = 0) ∨
      ∃ l, i = l + 1 ∧ j.pc = .resetFlag k l ∧ l < j.fileNum := by
  cases hpc : j.pc with
  | resetNum k' =>
    simp only [judgeStep, hpc] at h
    cases h
    exact Or.inl ⟨rfl, rfl⟩
  | resetFlag k' l =>
    simp only [judgeStep, hpc] at h
    split_ifs at h with hl
    cases h
    exact Or.inr ⟨l, rfl, rfl, hl⟩
  | _ =>
    simp only [judgeStep, hpc] at h
    try split_ifs at h
    all_goals cases h

end Lemmas

end ORaidServer
