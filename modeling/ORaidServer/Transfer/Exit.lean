import ORaidServer.Transfer.Own

/-!
# Failed transfers

A thread that leaves before it has stored the whole of its file should have raised `correct_flag`, as the
consumer has no other way to learn of it.

* `ThreadMove.exited`, the ways out of a thread;
* `Noticing`, the guard that keeps the two ways out that raise nothing to where nothing is missing;
* `noticed_of_reach`: under this guard nobody leaves with part of a file unnoticed; `not_noticed_of_step`:
  every other step of these two kinds does.
-/

namespace ORaidServer

open Guarded

/-- The ways out of a thread: `correct_flag` is up, or an allocation has failed, or the peer has closed the
connection between two messages. -/
theorem ThreadMove.exited {N xorFlag : ℤ} {c c' : ThreadCtx} {a : ThreadAct}
    (hm : ThreadMove N xorFlag c a c') (hown : c.Own) (h : c'.thread.pc = .exited) :
    c'.correctFlag = -1 ∨
      c'.file.fileIndex = c.file.fileIndex ∧
      (c.thread.pc = .exited ∧ c'.correctFlag = c.correctFlag ∨
        (∃ k, c.thread.pc = .malloc k) ∧ a = .call false ∨
        (c.Waits ∧ xorFlag ≠ 1 ∧ c.file.writeState = 0) ∧ a = .recv (.got [])) := by
  cases hm with
  | stay a => exact Or.inr ⟨rfl, Or.inl ⟨h, rfl⟩⟩
  | connected pc _ hpc =>
    exfalso
    rcases hpc with rfl | rfl | rfl <;> cases h
  | unconnected _ => exact Or.inl rfl
  | allocated k hpc hflag =>
    exfalso
    change (if k = 0 then ThreadPc.malloc 1 else ThreadPc.start) = .exited at h
    split_ifs at h
  | unallocated k ok hpc hfail =>
    rcases hfail with rfl | hflag
    · exact Or.inr ⟨rfl, Or.inr (Or.inl ⟨⟨k, hpc⟩, rfl⟩)⟩
    · exact Or.inl hflag
  | start hpc => cases h
  | notice r hw hover => rw [show c.thread.pc = .dispatch from hw.1] at h; cases h
  | lost hw hover hloop => exact Or.inl rfl
  | stray r failed hw hover hloop hended => exact absurd (hown.hasLoop hw.1) hloop
  | dismissed hw hended => exact absurd (hended.symm.trans (hown.hasLoop hw.1).2.2) Bool.noConfusion
  | closed hw hover hloop hws =>
    exact Or.inr ⟨rfl, Or.inr (Or.inr ⟨⟨hw, fun hx => hover (Or.inl hx), hws⟩, rfl⟩)⟩
  | reset r hw hover => exact absurd (hw.1.symm.trans h) (by decide)
  | fault r hw hover => cases h
  | call r buffer next hw hover => exact absurd (hw.1.symm.trans h) (by decide)
  | write next hpc _ _ => exact absurd (hpc.symm.trans h) (by decide)
  | finish next hpc _ _ => exact absurd (hpc.symm.trans h) (by decide)

namespace Transfer

/-- Part of file `i` has not been stored. -/
def Missing (s : Transfer) (i : ℕ) : Prop := ((s.group.file i).fileIndex : ℤ) < s.group.fileSize

/-- Nobody has left with part of the file missing unless `correct_flag` is up. -/
def Noticed (s : Transfer) : Prop :=
  ∀ i, (s.thread i).pc = .exited → s.Missing i → s.group.correctFlag = -1

/-- No allocation fails, and no peer closes the connection between two messages, while part of the file is
missing and `correct_flag` is down. -/
def Noticing (s : Transfer) : TransferAct → Prop
  | .thread i (.call false) => (∃ k, (s.thread i).pc = .malloc k) → s.Missing i →
      s.group.correctFlag = -1
  | .thread i (.recv (.got [])) => (s.ctx i).Waits ∧ s.group.xorFlag ≠ 1 ∧
      (s.group.file i).writeState = 0 → s.Missing i → s.group.correctFlag = -1
  | _ => True

/-- A step that does not let a thread leave unnoticed keeps the others noticed. -/
theorem Noticed.step {s : Transfer} (h : s.Noticed) (hown : s.Own) {a : TransferAct} (ha : s.Noticing a) :
    (s.step a).Noticed := by
  by_cases hthread : ∃ i b, a = .thread i b
  · obtain ⟨i, b, rfl⟩ := hthread
    rcases Nat.lt_or_ge i s.group.fileNum with hi | hi
    · obtain ⟨c, hm, hs⟩ := s.step_thread hi b
      rw [hs]
      intro j hj hmiss
      show c.correctFlag = -1
      have hkeep : s.group.correctFlag = -1 → c.correctFlag = -1 := fun hflag =>
        hm.correctFlag.elim (fun hc => hc.trans hflag) id
      rcases eq_or_ne j i with rfl | hji
      · have hpc : c.thread.pc = .exited := by simpa [setCtx] using hj
        have hpart : (c.file.fileIndex : ℤ) < s.group.fileSize := by
          simpa [Missing, setCtx, TGroupFileInfo.setFile] using hmiss
        rcases hm.exited (hown.thread j) hpc with hflag | ⟨hindex, hway⟩
        · exact hflag
        · rw [hindex] at hpart
          rcases hway with ⟨hpc', -⟩ | ⟨hpc', rfl⟩ | ⟨hw, rfl⟩
          · exact hkeep (h j hpc' hpart)
          · exact hkeep (ha hpc' hpart)
          · exact hkeep (ha hw hpart)
      · rw [Missing, s.file_setCtx_of_ne i c hji] at hmiss
        rw [s.thread_setCtx_of_ne i c hji] at hj
        exact hkeep (h j hj hmiss)
    · rw [s.step_thread_of_le hi]
      exact h
  · push Not at hthread
    obtain ⟨hindex, hsize, hflag⟩ := s.frame_step hthread
    intro j hj hmiss
    rw [Missing, hindex, hsize] at hmiss
    rcases s.thread_step hthread j with hsame | ⟨hnew, -⟩
    · rw [hsame] at hj
      exact hflag.elim (fun hc => hc.trans (h j hj hmiss)) id
    · rw [hnew] at hj
      cases hj

/-- Any other step lets a thread leave unnoticed. -/
theorem not_noticed_of_step {s : Transfer} (hown : s.Own) {a : TransferAct} (ha : ¬ s.Noticing a) {i : ℕ}
    {b : ThreadAct} (hab : a = .thread i b) (hi : i < s.group.fileNum) : ¬ (s.step a).Noticed := by
  subst hab
  have hstep : s.step (.thread i b) =
      s.setCtx i (threadStep s.group.fileSize s.group.xorFlag (s.ctx i) b) := if_pos hi
  rw [hstep]
  intro h
  have hleft : ∀ c, threadStep s.group.fileSize s.group.xorFlag (s.ctx i) b = c →
      c.thread.pc = .exited → c.file.fileIndex = (s.group.file i).fileIndex →
      c.correctFlag = s.group.correctFlag → s.Missing i → s.group.correctFlag = -1 := by
    intro c hc hpc hindex hflag hmiss
    rw [hc] at h
    rw [← hflag]
    apply h i (by simpa [setCtx] using hpc)
    show (((s.setCtx i c).group.file i).fileIndex : ℤ) < s.group.fileSize
    rw [show ((s.setCtx i c).group.file i) = c.file by simp [setCtx, TGroupFileInfo.setFile], hindex]
    exact hmiss
  cases b with
  | call ok =>
    cases ok with
    | true => exact ha trivial
    | false =>
      apply ha
      rintro ⟨k, hk⟩ hmiss
      refine hleft (((s.ctx i).setPtr k .null).goto .exited) ?_ rfl rfl rfl hmiss
      show (s.ctx i).call false = _
      unfold ThreadCtx.call
      rw [show (s.ctx i).thread.pc = .malloc k from hk]
      rfl
  | recv r =>
    cases r with
    | error => exact ha trivial
    | got bytes =>
      cases bytes with
      | cons b bytes => exact ha trivial
      | nil =>
        apply ha
        rintro ⟨hw, hx, hws⟩ hmiss
        by_contra hflag
        refine hflag (hleft ((s.ctx i).endLoop false) ?_ rfl rfl rfl hmiss)
        have hover : ¬ (s.group.xorFlag = 1 ∨ (s.ctx i).correctFlag = -1) := not_or.2 ⟨hx, hflag⟩
        have hrecv : onRecv (s.ctx i).file.wire (.got []) = .exit false :=
          if_pos ⟨rfl, hws⟩
        have hevent : threadStep s.group.fileSize s.group.xorFlag (s.ctx i) (.recv (.got [])) =
            (s.ctx i).event s.group.xorFlag (.got []) := (hown.thread i).threadStep_recv hw ..
        rw [hevent, ThreadCtx.event, if_neg hover, hrecv]
        exact ThreadCtx.leave_eq ((hown.thread i).hasLoop hw.1) false
  | proceed => exact ha trivial

theorem noticed_init (n : ℕ) (fileSize : ℤ) (filePath : ℕ → List Byte) :
    (init n fileSize filePath).Noticed := fun _ h => by cases h

instance (s : Transfer) : (a : TransferAct) → Decidable (s.Noticing a)
  | .thread i (.call false) => inferInstanceAs (Decidable ((∃ k, (s.thread i).pc = .malloc k) →
      ((s.group.file i).fileIndex : ℤ) < s.group.fileSize → s.group.correctFlag = -1))
  | .thread i (.recv (.got [])) => inferInstanceAs (Decidable
      (((s.thread i).pc = .dispatch ∧ (s.thread i).next = none) ∧ s.group.xorFlag ≠ 1 ∧
        (s.group.file i).writeState = 0 →
      ((s.group.file i).fileIndex : ℤ) < s.group.fileSize → s.group.correctFlag = -1))
  | .thread _ (.call true) | .thread _ (.recv .error) | .thread _ (.recv (.got (_ :: _)))
  | .thread _ .proceed | .fopen _ | .create _ | .judge => isTrue trivial

end Transfer

/-- In a run in which no allocation fails and no connection is closed between two messages while something
is missing, every thread that leaves early is noticed. -/
theorem noticed_of_reach {n : ℕ} {fileSize : ℤ} {filePath : ℕ → List Byte} {s : Transfer}
    (h : Reach Transfer.step Transfer.Noticing (.init n fileSize filePath) s) : s.Noticed :=
  (h.invariant (I := fun t => t.Noticed ∧ t.Own) ⟨Transfer.noticed_init n fileSize filePath, Transfer.own_init ..⟩
    fun _ a ht ha => ⟨ht.1.step ht.2 ha, ht.2.step a⟩).1

/-- The thread of one file up to the allocation of its first buffer. -/
def setupOne : List TransferAct :=
  [.fopen true, .create .created, .thread 0 (.call true), .thread 0 (.call true),
    .thread 0 (.call true)]

theorem noticed_of_reach_one :
    (run Transfer.step (.init 1 1 fun _ => [])
      (setupOne ++ [.thread 0 (.call true), .thread 0 (.call true), .thread 0 .proceed,
        .thread 0 (.recv .error)])).Noticed :=
  noticed_of_reach (Allowed.reach (by decide))

/-- Where the allocation of a buffer fails, nobody is told. -/
theorem not_noticed : ¬ ∀ n fileSize filePath s,
    Reach Transfer.step Free (.init n fileSize filePath) s → s.Noticed := by
  intro hall
  have h := hall 1 1 (fun _ => []) _ (reach_run _ (setupOne ++ [.thread 0 (.call false)])) 0
    (by decide) (by show (0 : ℤ) < 1; decide)
  exact absurd h (by decide)

end ORaidServer
