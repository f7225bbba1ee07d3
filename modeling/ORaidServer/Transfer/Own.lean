import ORaidServer.Transfer.Threads

/-!
# Whose loop it is

A thread addresses its socket, its event and its loop through the record of its file.  In the run of one transfer
the record holds the thread's own.

* `ThreadCtx.Own`, the invariant of a thread, and `ThreadMove.own`;
* `Transfer.Own`, that of a transfer, with its step lemma, and `own_of_reach`.
-/

namespace ORaidServer

/-- The record holds the thread's own socket, event and loop while it is in that loop, which nobody else ends. -/
structure ThreadCtx.Own (c : ThreadCtx) : Prop where
  ended : c.ended c.thread.request = true → c.thread.pc = .exited
  fd : c.thread.pc = .dispatch → c.file.fd = some c.thread.request
  evAccept : c.thread.pc = .dispatch → c.file.evAccept = some c.thread.request
  base : c.thread.pc = .dispatch → c.file.base = some c.thread.request

namespace ThreadCtx.Own

variable {c c' : ThreadCtx}

theorem ended_eq_false (h : c.Own) (hpc : c.thread.pc ≠ .exited) : c.ended c.thread.request = false := by
  cases he : c.ended c.thread.request with
  | false => rfl
  | true => exact absurd (h.ended he) hpc

theorem hasLoop (h : c.Own) (hpc : c.thread.pc = .dispatch) : c.HasLoop :=
  ⟨h.evAccept hpc, h.base hpc, h.ended_eq_false (by rw [hpc]; exact ThreadPc.noConfusion)⟩

/-- A read event of a thread that waits takes its course. -/
theorem threadStep_recv (h : c.Own) (hw : c.Waits) (fileSize xorFlag : ℤ) (r : RecvResult) :
    threadStep fileSize xorFlag c (.recv r) = c.event xorFlag r := if_pos ⟨hw, (h.hasLoop hw.1).2.2⟩

/-- Only the place of the thread, its record and its event matter. -/
theorem frame (h : c.Own) (hrequest : c'.thread.request = c.thread.request) (hpc : c'.thread.pc = c.thread.pc)
    (hended : c'.ended = c.ended) (hfd : c'.file.fd = c.file.fd) (hev : c'.file.evAccept = c.file.evAccept)
    (hbase : c'.file.base = c.file.base) : c'.Own := by
  refine ⟨fun he => ?_, fun hd => ?_, fun hd => ?_, fun hd => ?_⟩
  · rw [hrequest, hended] at he
    exact hpc.trans (h.ended he)
  · exact (hfd.trans (h.fd (hpc.symm.trans hd))).trans (congrArg some hrequest.symm)
  · exact (hev.trans (h.evAccept (hpc.symm.trans hd))).trans (congrArg some hrequest.symm)
  · exact (hbase.trans (h.base (hpc.symm.trans hd))).trans (congrArg some hrequest.symm)

theorem of_exited (hpc : c.thread.pc = .exited) : c.Own := by
  refine ⟨fun _ => hpc, fun hd => ?_, fun hd => ?_, fun hd => ?_⟩ <;>
    exact absurd (hpc.symm.trans hd) ThreadPc.noConfusion

/-- A thread that is not in its loop, and has not left it. -/
theorem outside {pc : ThreadPc} (h : c.ended c.thread.request = false) (hpc : pc ≠ .dispatch) {f : ℤ}
    {x : SingleFileInfo} : Own { c with file := x, correctFlag := f, thread.pc := pc } := by
  refine ⟨fun he => ?_, fun hd => absurd hd hpc, fun hd => absurd hd hpc, fun hd => absurd hd hpc⟩
  exact absurd (he.symm.trans h) Bool.noConfusion

end ThreadCtx.Own

/-- What a thread does with its own loop in the record keeps it so. -/
theorem ThreadMove.own {fileSize xorFlag : ℤ} {c c' : ThreadCtx} {a : ThreadAct}
    (hm : ThreadMove fileSize xorFlag c a c') (h : c.Own) : c'.Own := by
  have hsetup : c.thread.pc = .socket ∨ c.thread.pc = .connect ∨ c.thread.pc = .header →
      c.ended c.thread.request = false := by
    intro hpc
    apply h.ended_eq_false
    rcases hpc with hpc | hpc | hpc <;> rw [hpc] <;> exact ThreadPc.noConfusion
  have hdispatch : c.thread.pc = .dispatch → c.ended c.thread.request = false := fun hpc => (h.hasLoop hpc).2.2
  cases hm with
  | stay a => exact h
  | connected pc hpc hto =>
    refine ThreadCtx.Own.outside (hsetup hpc) ?_
    rcases hto with rfl | rfl | rfl <;> exact ThreadPc.noConfusion
  | unconnected hpc => exact ThreadCtx.Own.outside (hsetup hpc) ThreadPc.noConfusion
  | allocated k hpc _ =>
    refine ThreadCtx.Own.outside (h.ended_eq_false (by rw [hpc]; exact ThreadPc.noConfusion)) ?_
    split_ifs <;> exact ThreadPc.noConfusion
  | unallocated k ok hpc _ =>
    exact ThreadCtx.Own.outside (h.ended_eq_false (by rw [hpc]; exact ThreadPc.noConfusion)) ThreadPc.noConfusion
  | start hpc =>
    refine ⟨fun he => ?_, fun _ => rfl, fun _ => rfl, fun _ => rfl⟩
    rw [show c.start.ended c.start.thread.request = false from Function.update_self ..] at he
    cases he
  | notice r _ _ | reset r _ _ | call r _ _ _ _ | finish next _ _ _ => exact h.frame rfl rfl rfl rfl rfl rfl
  | lost _ _ _ | closed _ _ _ _ => exact ThreadCtx.Own.of_exited rfl
  | stray r failed hw _ hloop _ => exact absurd (h.hasLoop hw.1) hloop
  | dismissed hw hended => exact absurd (hended.symm.trans (hdispatch hw.1)) Bool.noConfusion
  | fault r hw _ => exact ThreadCtx.Own.outside (hdispatch hw.1) ThreadPc.noConfusion
  | write next hpc _ _ =>
    obtain ⟨b, i, hframe⟩ := writeBufStep_frame fileSize c.writeCtx
    exact h.frame rfl rfl rfl ((congrArg SingleFileInfo.fd hframe).trans rfl)
      ((congrArg SingleFileInfo.evAccept hframe).trans rfl) ((congrArg SingleFileInfo.base hframe).trans rfl)

/-! ### The transfer -/

namespace Transfer

/-- Every thread finds its own socket, event and loop in the record of its file. -/
structure Own (s : Transfer) : Prop where
  thread : ∀ i, (s.ctx i).Own
  unborn : ∀ i, s.main = .fopen ∨ (∃ l, s.main = .create l ∧ l ≤ i) → (s.thread i).pc = .unborn

theorem own_init (n : ℕ) (fileSize : ℤ) (filePath : ℕ → List Byte) : (init n fileSize filePath).Own :=
  ⟨fun _ => ⟨Bool.noConfusion, ThreadPc.noConfusion, ThreadPc.noConfusion, ThreadPc.noConfusion⟩, fun _ _ => rfl⟩

/-- The next thread to be created comes after the ones that are. -/
theorem unborn_nextMain {s : Transfer} {i j : ℕ}
    (h : s.nextMain i = .fopen ∨ ∃ l, s.nextMain i = .create l ∧ l ≤ j) : i ≤ j := by
  unfold nextMain at h
  split_ifs at h
  · rcases h with h | ⟨l, h, hl⟩
    · cases h
    · cases h
      exact hl
  · rcases h with h | ⟨l, h, -⟩ <;> cases h

theorem not_unborn_returned {ret : ℤ} {j : ℕ} :
    ¬ (MainPc.returned ret = .fopen ∨ ∃ l, MainPc.returned ret = .create l ∧ l ≤ j) := by
  rintro (h | ⟨l, h, -⟩) <;> cases h

theorem Own.step_thread {s : Transfer} (h : s.Own) (i : ℕ) (b : ThreadAct) : (s.step (.thread i b)).Own := by
  rcases Nat.lt_or_ge i s.group.fileNum with hi | hi
  · obtain ⟨c, hm, hs⟩ := s.step_thread hi b
    rw [hs]
    refine ⟨fun j => ?_, fun j hj => ?_⟩ <;> rcases eq_or_ne j i with rfl | hji
    · rw [s.ctx_setCtx_self]
      exact hm.own (h.thread j)
    · have hfile := s.file_setCtx_of_ne i c hji
      have hthread := s.thread_setCtx_of_ne i c hji
      exact (h.thread j).frame (congrArg FileThread.request hthread) (congrArg FileThread.pc hthread)
        (Function.update_of_ne hji ..) (congrArg SingleFileInfo.fd hfile)
        (congrArg SingleFileInfo.evAccept hfile) (congrArg SingleFileInfo.base hfile)
    · have hinert : (s.ctx j).thread.pc.Inert := by
        rw [show (s.ctx j).thread.pc = .unborn from h.unborn j hj]
        trivial
      rw [show (s.setCtx j c).thread j = c.thread from Function.update_self .., hm.eq_of_inert hinert]
      exact h.unborn j hj
    · rw [s.thread_setCtx_of_ne i c hji]
      exact h.unborn j hj
  · rw [s.step_thread_of_le hi]
    exact h

theorem Own.judgeStep {s : Transfer} (h : s.Own) (j : JudgeLocal) : (s.judgeStep j).Own := by
  refine ⟨fun i => ?_, fun i hi => ?_⟩
  · obtain ⟨b, p, hb⟩ := (judgeStep_frame s.group s.out j).1 i
    have hfile : ((s.judgeStep j).ctx i).file = (ORaidServer.judgeStep s.group s.out j).1.file i := rfl
    rw [hb] at hfile
    exact (h.thread i).frame rfl rfl rfl ((congrArg SingleFileInfo.fd hfile).trans rfl)
      ((congrArg SingleFileInfo.evAccept hfile).trans rfl) ((congrArg SingleFileInfo.base hfile).trans rfl)
  · exfalso
    unfold Transfer.judgeStep at hi
    dsimp only at hi
    split at hi <;> rcases hi with hi | ⟨l, hi, -⟩ <;> cases hi

theorem Own.create {s : Transfer} (h : s.Own) {i : ℕ} (hmain : s.main = .create i) (r : CreateResult) :
    (s.create i r).Own := by
  cases r with
  | created =>
    have hunborn : ∀ j, i ≤ j → (s.thread j).pc = .unborn := fun j hj => h.unborn j (Or.inr ⟨i, hmain, hj⟩)
    refine ⟨fun j => ?_, fun j hj => ?_⟩
    · rcases eq_or_ne j i with rfl | hji
      · have hended : (s.ctx j).ended (s.ctx j).thread.request = false :=
          (h.thread j).ended_eq_false (by
            rw [show (s.ctx j).thread.pc = .unborn from hunborn j le_rfl]
            exact ThreadPc.noConfusion)
        have hctx : (s.create j .created).ctx j = { s.ctx j with thread.pc := .socket } := by
          simp [Transfer.create, ctx]
        rw [hctx]
        exact ThreadCtx.Own.outside hended ThreadPc.noConfusion
      · have hthread : (s.create i .created).thread j = s.thread j := Function.update_of_ne hji ..
        exact (h.thread j).frame (congrArg FileThread.request hthread) (congrArg FileThread.pc hthread)
          rfl rfl rfl rfl
    · have hij : i + 1 ≤ j := unborn_nextMain hj
      rw [show (s.create i .created).thread j = s.thread j from Function.update_of_ne (by omega) ..]
      exact hunborn j (by omega)
  | noArg | noThread =>
    exact ⟨fun j => (h.thread j).frame rfl rfl rfl rfl rfl rfl, fun j hj => absurd hj not_unborn_returned⟩

/-- Every step keeps it so. -/
theorem Own.step {s : Transfer} (h : s.Own) (a : TransferAct) : (s.step a).Own := by
  cases a with
  | thread i b => exact h.step_thread i b
  | judge =>
    cases hmain : s.main with
    | judge j =>
      rw [Transfer.step, hmain]
      exact h.judgeStep j
    | _ =>
      rw [Transfer.step, hmain]
      exact h
  | fopen ok =>
    cases hmain : s.main with
    | fopen =>
      rw [Transfer.step, hmain]
      cases ok with
      | true => exact ⟨h.thread, fun j _ => h.unborn j (Or.inl hmain)⟩
      | false => exact ⟨h.thread, fun j hj => absurd hj not_unborn_returned⟩
    | _ =>
      rw [Transfer.step, hmain]
      exact h
  | create r =>
    cases hmain : s.main with
    | create i =>
      rw [Transfer.step, hmain]
      exact h.create hmain r
    | _ =>
      rw [Transfer.step, hmain]
      exact h

/-- In every run of a transfer each thread finds its own. -/
theorem own_of_reach {C : Transfer → TransferAct → Prop} {n : ℕ} {fileSize : ℤ} {filePath : ℕ → List Byte}
    {s : Transfer} (h : Guarded.Reach step C (init n fileSize filePath) s) : s.Own :=
  h.invariant (own_init n fileSize filePath) fun _ a ht _ => ht.step a

end Transfer

end ORaidServer
