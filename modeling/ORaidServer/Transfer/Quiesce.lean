import ORaidServer.Transfer.Release

/-!
# After the return

`create_client_connect_data_server` returns without waiting for its threads.  They keep addressing the group by
the index of their file, and the next request clears the group under them.

* `Transfer.afterStep`, the threads that are left, with the requests to come and what their threads set up;
* `TGroupFileInfo.SameFields`, that nothing in the group has changed but what its pointers point to;
* `quiescent_iff`: the threads leave the group alone from the return on only if all of them are gone.
-/

namespace ORaidServer

open Guarded

/-- The fields of `g'` are those of `g`; what a pointer points to may have been freed. -/
structure TGroupFileInfo.SameFields (g g' : TGroupFileInfo) : Prop where
  rest : g' = { g with file := g'.file }
  file : ∀ i, ∃ p, g'.file i = (g.file i).withPtr p
  ptr : ∀ i k, (g'.file i).ptr k = (g.file i).ptr k ∨ (g'.file i).ptr k = .released

theorem TGroupFileInfo.SameFields.refl (g : TGroupFileInfo) : g.SameFields g :=
  ⟨rfl, fun i => ⟨(g.file i).ptr, rfl⟩, fun _ _ => Or.inl rfl⟩

/-- What a thread finds when that of request `r + 1` has set up the record of its file. -/
def ThreadCtx.taken (c : ThreadCtx) (r : ℕ) : ThreadCtx :=
  let c' := { c with thread := .new (r + 1) }
  { ((c'.setPtr 0 (.live (r + 1))).setPtr 1 (.live (r + 1))).start with thread := c.thread }

namespace Transfer

/-- What may happen after the return. -/
inductive AfterAct
  /-- a step of the thread of file `i` -/
  | thread (i : ℕ) (a : ThreadAct)
  /-- the next request clears the group and fills it in -/
  | request (n : ℕ) (fileSize : ℤ) (filePath : ℕ → List Byte)
  /-- a thread of request `r + 1` has its buffers for file `i` and adds its event -/
  | connect (r i : ℕ)

/-- One step after the return, for the threads of a group of `n` files. -/
def afterStep (n : ℕ) (s : Transfer) : AfterAct → Transfer
  | .thread i a =>
    if i < n then s.setCtx i (threadStep s.group.fileSize s.group.xorFlag (s.ctx i) a) else s
  | .request m fileSize filePath =>
    match s.main with
    | .returned _ => { s with group := (init m fileSize filePath).group }
    | _ => s
  | .connect r i =>
    match s.main with
    | .returned _ => if i < s.group.fileNum then s.setCtx i ((s.ctx i).taken r) else s
    | _ => s

/-- From here on no step of a thread changes the group, whatever the threads do and however many requests
follow. -/
def Quiescent (s : Transfer) : Prop :=
  ∀ t, Reach (afterStep s.group.fileNum) Free s t → ∀ i a,
    t.group.SameFields (afterStep s.group.fileNum t (.thread i a)).group

theorem setCtx_ctx (s : Transfer) (i : ℕ) : s.setCtx i (s.ctx i) = s := by
  simp [setCtx, ctx, TGroupFileInfo.setFile]

/-- What the thread of file `i` has left alone. -/
theorem sameFields_setCtx {s : Transfer} {i : ℕ} {c : ThreadCtx}
    (h : s.group.SameFields (s.setCtx i c).group) :
    (c.num = s.group.bufFullNum ∧ c.correctFlag = s.group.correctFlag) ∧
      (∀ k, (c.file.buf k).flag = ((s.group.file i).buf k).flag) ∧
      ∀ k, c.file.ptr k = (s.group.file i).ptr k ∨ c.file.ptr k = .released := by
  have hself : (s.setCtx i c).group.file i = c.file := TGroupFileInfo.file_setFile_self ..
  refine ⟨⟨?_, ?_⟩, fun k => ?_, fun k => ?_⟩
  · exact congrArg TGroupFileInfo.bufFullNum h.rest
  · exact congrArg TGroupFileInfo.correctFlag h.rest
  · obtain ⟨p, hp⟩ := h.file i
    rw [hself] at hp
    rw [hp]
    rfl
  · rw [← hself]
    exact h.ptr i k

section Steps

variable {s : Transfer} {n : ℕ}

theorem afterStep_thread {i : ℕ} (hi : i < n) (a : ThreadAct) :
    afterStep n s (.thread i a) =
      s.setCtx i (threadStep s.group.fileSize s.group.xorFlag (s.ctx i) a) := if_pos hi

/-- The group cleared for a request of `m` files. -/
def cleared (m : ℕ) (s : Transfer) : Transfer := { s with group := (init m 0 fun _ => []).group }

theorem afterStep_request {ret : ℤ} (hret : s.main = .returned ret) (m : ℕ) :
    afterStep n s (.request m 0 fun _ => []) = s.cleared m := by
  unfold afterStep
  dsimp only
  split
  · rfl
  · rename_i hmain
    exact absurd hret (hmain ret)

theorem afterStep_connect {ret : ℤ} (hret : s.main = .returned ret) {i : ℕ} (hi : i < s.group.fileNum) (r : ℕ) :
    afterStep n s (.connect r i) = s.setCtx i ((s.ctx i).taken r) := by
  unfold afterStep
  dsimp only
  split
  · exact if_pos hi
  · rename_i hmain
    exact absurd hret (hmain ret)

theorem main_afterStep (a : AfterAct) : (afterStep n s a).main = s.main := by
  unfold afterStep
  cases a with
  | thread i a =>
    dsimp only
    split_ifs <;> rfl
  | request m fileSize filePath =>
    dsimp only
    split <;> rfl
  | connect r i =>
    dsimp only
    split
    · split_ifs <;> rfl
    · rfl

/-- Threads that are not there change nothing. -/
theorem afterStep_eq_of_inert (hinert : ∀ i < n, (s.thread i).pc.Inert) (i : ℕ) (a : ThreadAct) :
    afterStep n s (.thread i a) = s := by
  rcases Nat.lt_or_ge i n with hi | hi
  · have hm := threadStep_move s.group.fileSize s.group.xorFlag (s.ctx i) a
    rw [afterStep_thread hi, hm.eq_of_inert (hinert i hi), setCtx_ctx]
  · exact if_neg (Nat.not_lt.2 hi)

end Steps

/-! ### Threads that are left -/

/-- What the thread of a file finds when the group has been cleared. -/
def blank (ended : ℕ → Bool) (th : FileThread) : ThreadCtx := ⟨zeroFile [], fun _ => 0, 0, th, ended⟩

/-- Nothing that `sameFields_setCtx` looks at differs from the cleared group. -/
structure Untouched (c : ThreadCtx) : Prop where
  num : c.num = fun _ => 0
  correctFlag : c.correctFlag = 0
  flag : ∀ k, (c.file.buf k).flag = .empty
  ptr : ∀ k r, c.file.ptr k ≠ .live r

/-- In some state after `s` thread `i` meets the cleared group as `th`. -/
def Meets (s : Transfer) (i : ℕ) (th : FileThread) : Prop :=
  ∃ t, Reach (afterStep s.group.fileNum) Free s t ∧ t.main = s.main ∧ t.ctx i = blank (s.ended i) th ∧
    t.group.fileSize = 0 ∧ t.group.xorFlag = 0 ∧ t.group.fileNum = s.group.fileNum

section Meets

variable {s : Transfer} {i : ℕ} {th : FileThread}

theorem reach_cleared {ret : ℤ} (hret : s.main = .returned ret) {t : Transfer}
    (ht : Reach (afterStep s.group.fileNum) Free s t) (hmain : t.main = s.main) :
    Reach (afterStep s.group.fileNum) Free s (t.cleared s.group.fileNum) := by
  rw [← afterStep_request (n := s.group.fileNum) (hmain.trans hret)]
  exact ht.tail trivial

/-- The thread as it is meets the group that the next request has cleared. -/
theorem meets_self {ret : ℤ} (hret : s.main = .returned ret) : s.Meets i (s.thread i) :=
  ⟨s.cleared s.group.fileNum, reach_cleared hret .refl rfl, rfl, rfl, rfl, rfl, rfl⟩

theorem Meets.step (h : s.Meets i th) (hi : i < s.group.fileNum) {a : ThreadAct} {th' : FileThread}
    (hth : threadStep 0 0 (blank (s.ended i) th) a = blank (s.ended i) th') : s.Meets i th' := by
  obtain ⟨t, ht, hmain, hctx, hsize, hflag, hnum⟩ := h
  refine ⟨_, ht.tail (a := .thread i a) trivial, (main_afterStep _).trans hmain, ?_⟩
  rw [afterStep_thread hi, hctx, hsize, hflag, hth]
  exact ⟨ctx_setCtx_self .., hsize, hflag, hnum⟩

/-- A thread whose call of `write_buf` has returned waits again, with a further request. -/
theorem Meets.finish {ret : ℤ} (hret : s.main = .returned ret) (h : s.Meets i th)
    (hi : i < s.group.fileNum) (hpc : th.pc = .dispatch) {next : AfterWrite}
    (hnext : th.next = some next) (hidle : th.loc.pc = .idle) :
    s.Meets i { th with next := none } := by
  obtain ⟨t, ht, hmain, hctx, hsize, hflag, -⟩ := h
  have hfinish : threadStep t.group.fileSize t.group.xorFlag (blank (s.ended i) th) .proceed =
      (blank (s.ended i) th).finish next := by
    unfold threadStep
    simp [blank, hpc, hnext, hidle]
  have hthread : (afterStep s.group.fileNum t (.thread i .proceed)).thread i = { th with next := none } := by
    rw [afterStep_thread hi, hctx, hfinish]
    exact Function.update_self ..
  have hended : (afterStep s.group.fileNum t (.thread i .proceed)).ended i = s.ended i := by
    rw [afterStep_thread hi, hctx, hfinish]
    exact Function.update_self ..
  refine ⟨_, reach_cleared hret (ht.tail (a := .thread i .proceed) trivial)
    ((main_afterStep _).trans hmain), (main_afterStep _).trans hmain, ?_, rfl, rfl, rfl⟩
  rw [← hthread, ← hended]
  rfl

/-- A thread of a quiescent group does not touch the group of the next request. -/
theorem Meets.untouched (h : s.Meets i th) (hi : i < s.group.fileNum) (hq : s.Quiescent)
    (a : ThreadAct) : Untouched (threadStep 0 0 (blank (s.ended i) th) a) := by
  obtain ⟨t, ht, -, hctx, hsize, hflag, -⟩ := h
  have hsame := hq t ht i a
  rw [afterStep_thread hi, hctx, hsize, hflag] at hsame
  obtain ⟨⟨hnum, hcorrect⟩, hflags, hptr⟩ := sameFields_setCtx hsame
  have hfile : t.group.file i = zeroFile [] := congrArg ThreadCtx.file hctx
  rw [hfile] at hflags hptr
  refine ⟨hnum.trans (congrArg ThreadCtx.num hctx), hcorrect.trans (congrArg ThreadCtx.correctFlag hctx),
    hflags, fun k r hk => ?_⟩
  rcases hptr k with hp | hp
  · have hnull : Ptr.null = .live r := hp.symm.trans hk
    cases hnull
  · have hreleased : Ptr.released = .live r := hp.symm.trans hk
    cases hreleased

/-- A read event of a thread whose record another one has set up, with an error of `recv`: the event of the other
one is removed. -/
theorem threadStep_taken {fileSize : ℤ} {e : ℕ → Bool} (hw : (blank e th).Waits) (he : e th.request = false)
    (r : ℕ) : (threadStep fileSize 0 ((blank e th).taken r) (.recv .error)).correctFlag = -1 := by
  have hended : ((blank e th).taken r).ended (r + 1) = false := Function.update_self ..
  have hown : ((blank e th).taken r).ended th.request = false := by
    show Function.update e (r + 1) false th.request = false
    rw [Function.update_apply]
    split_ifs
    · rfl
    · exact he
  have hevent : threadStep fileSize 0 ((blank e th).taken r) (.recv .error) =
      ((blank e th).taken r).event 0 .error := if_pos ⟨hw, hown⟩
  have hover : ¬ ((0 : ℤ) = 1 ∨ ((blank e th).taken r).correctFlag = -1) := by
    show ¬ ((0 : ℤ) = 1 ∨ (0 : ℤ) = -1)
    decide
  have hleave : ((blank e th).taken r).event 0 .error = ((blank e th).taken r).leave true := if_neg hover
  rw [hevent, hleave]
  show (if ((blank e th).taken r).ended (r + 1) then _ else _ : ThreadCtx).correctFlag = -1
  rw [hended]
  rfl

/-- Where a thread waits for its event, it receives from the socket that a thread of the next request has put into
the record, and notes the error in the group. -/
theorem Meets.not_waits {ret : ℤ} (hret : s.main = .returned ret) (h : s.Meets i th) (hi : i < s.group.fileNum)
    (hq : s.Quiescent) (hended : s.ended i th.request = false) : ¬ (blank (s.ended i) th).Waits := by
  intro hw
  obtain ⟨t, ht, hmain, hctx, -, hflag, hnum⟩ := h
  have htaken := ht.tail (a := AfterAct.connect 0 i) trivial
  rw [afterStep_connect (hmain.trans hret) (hnum.symm ▸ hi), hctx] at htaken
  have hsame := hq _ htaken i (.recv .error)
  rw [afterStep_thread hi, ctx_setCtx_self] at hsame
  have hcorrect := (sameFields_setCtx hsame).1.2
  rw [show (t.setCtx i ((blank (s.ended i) th).taken 0)).group.xorFlag = 0 from hflag,
    threadStep_taken hw hended] at hcorrect
  have hminus : (-1 : ℤ) = 0 := hcorrect
  exact absurd hminus (by decide)

/-- The call of `write_buf` in the cleared group. -/
def blankCall (th : FileThread) : FileCtx := ⟨zeroFile [], fun _ => 0, th.loc⟩

theorem threadStep_blank {next : AfterWrite} (hpc : th.pc = .dispatch) (hnext : th.next = some next)
    (hne : th.loc.pc ≠ .idle) :
    threadStep 0 0 (blank (s.ended i) th) .proceed =
      (blank (s.ended i) th).setWriteCtx (writeBufStep 0 (blankCall th)) := by
  unfold threadStep
  simp only [blank, hpc, hnext]
  exact if_neg hne

/-- A step of `write_buf` that leaves the cleared group as it is. -/
theorem Meets.write (h : s.Meets i th) (hi : i < s.group.fileNum) {next : AfterWrite}
    (hpc : th.pc = .dispatch) (hnext : th.next = some next) (hne : th.loc.pc ≠ .idle) {l : WriteLocal}
    (hl : writeBufStep 0 (blankCall th) = ⟨zeroFile [], fun _ => 0, l⟩) :
    s.Meets i { th with loc := l } := by
  apply h.step hi (a := .proceed)
  rw [threadStep_blank hpc hnext hne, hl]
  rfl

/-- A thread of a quiescent group is not inside of `write_buf`: with the flags of the cleared group it would go
on, make a buffer writable, mark it or count it. -/
theorem Meets.idle (h : s.Meets i th) (hi : i < s.group.fileNum) (hq : s.Quiescent)
    (hpc : th.pc = .dispatch) {next : AfterWrite} (hnext : th.next = some next) :
    th.loc.pc = .idle := by
  have hun : ∀ {l : WriteLocal}, s.Meets i { th with loc := l } → l.pc ≠ .idle →
      Untouched ((blank (s.ended i) th).setWriteCtx (writeBufStep 0 ⟨zeroFile [], fun _ => 0, l⟩)) := by
    intro l hl hne
    have hstep := hl.untouched hi hq .proceed
    have hwrite : threadStep 0 0 (blank (s.ended i) { th with loc := l }) .proceed = _ :=
      threadStep_blank hpc hnext hne
    rw [hwrite] at hstep
    exact hstep
  have hmark : ∀ {l k more}, s.Meets i { th with loc := l } → l.pc ≠ .mark k more := by
    intro l k more hl hloc
    have hflag := (hun hl (by simp [hloc])).flag k
    simp [ThreadCtx.setWriteCtx, writeBufStep, hloc] at hflag
  have hstore : ∀ {l k more v}, s.Meets i { th with loc := l } → l.pc ≠ .store k more v := by
    intro l k more v hl hloc
    have hnum := congrFun (hun hl (by simp [hloc])).num k
    simp [ThreadCtx.setWriteCtx, writeBufStep, hloc] at hnum
  have htail0 : ∀ {l}, s.Meets i { th with loc := l } → l.pc ≠ .tail0 := by
    intro l hl hloc
    have hflag := (hun hl (by simp [hloc])).flag 0
    simp [ThreadCtx.setWriteCtx, writeBufStep, hloc, zeroFile, SingleFileInfo.buf, makeWritable,
      SingleFileInfo.setBuf] at hflag
  have htail1 : ∀ {l}, s.Meets i { th with loc := l } → l.pc ≠ .tail1 := by
    intro l hl hloc
    have hflag := (hun hl (by simp [hloc])).flag 1
    simp [ThreadCtx.setWriteCtx, writeBufStep, hloc, zeroFile, SingleFileInfo.buf, makeWritable,
      SingleFileInfo.setBuf] at hflag
  by_contra hne
  cases hloc : th.loc.pc with
  | idle => exact hne hloc
  | mark k more => exact hmark (l := th.loc) h hloc
  | store k more v => exact hstore (l := th.loc) h hloc
  | tail0 => exact htail0 (l := th.loc) h hloc
  | tail1 => exact htail1 (l := th.loc) h hloc
  | load k more =>
    have hread : writeBufStep 0 (blankCall th) =
        ⟨zeroFile [], fun _ => 0, { th.loc with pc := .store k more 0 }⟩ := by
      simp [writeBufStep, blankCall, hloc]
    exact hstore (h.write hi hpc hnext hne hread) rfl
  | head =>
    have hpass : writeBufStep 0 (blankCall th) =
        ⟨zeroFile [], fun _ => 0, { th.loc with pc := .tail0 }⟩ := by
      simp [writeBufStep, blankCall, hloc, zeroFile, SingleFileInfo.buf]
    exact htail0 (h.write hi hpc hnext hne hpass) rfl

/-- Nor is it before its event loop: the calls that are left there end in an error, an allocation or new
flags. -/
theorem Meets.not_setup (h : s.Meets i th) (hi : i < s.group.fileNum) (hq : s.Quiescent)
    (hs : th.pc.Setup) : th.pc = .unborn := by
  have hcall : threadStep 0 0 (blank (s.ended i) th) (.call false) ≠ (blank (s.ended i) th).fail := by
    intro hfail
    have hcorrect := (h.untouched hi hq (.call false)).correctFlag
    rw [hfail] at hcorrect
    have hminus : (-1 : ℤ) = 0 := hcorrect
    exact absurd hminus (by decide)
  cases hpc : th.pc with
  | unborn => rfl
  | socket | connect | header =>
    refine absurd ?_ hcall
    show (blank (s.ended i) th).call false = _
    unfold ThreadCtx.call
    rw [show (blank (s.ended i) th).thread.pc = _ from hpc]
    rfl
  | malloc k =>
    have hptr := (h.untouched hi hq (.call true)).ptr k th.request
    refine absurd ?_ hptr
    show ((blank (s.ended i) th).call true).file.ptr k = .live th.request
    unfold ThreadCtx.call
    rw [show (blank (s.ended i) th).thread.pc = _ from hpc]
    exact Function.update_self ..
  | start =>
    have hflag := (h.untouched hi hq .proceed).flag 0
    have hstart : threadStep 0 0 (blank (s.ended i) th) .proceed = (blank (s.ended i) th).start := by
      unfold threadStep
      rw [show (blank (s.ended i) th).thread.pc = _ from hpc]
    rw [hstart] at hflag
    cases hflag
  | dispatch | faulted | exited =>
    rw [hpc] at hs
    exact hs.elim

end Meets

end Transfer

/-- After the return the threads of a group leave the group alone, whatever happens from then on, just if none
of them is left. -/
theorem quiescent_iff {n : ℕ} {fileSize : ℤ} {filePath : ℕ → List Byte} {s : Transfer} {ret : ℤ}
    (h : Reach Transfer.step Free (.init n fileSize filePath) s) (hret : s.main = .returned ret) :
    s.Quiescent ↔ ∀ i < n, (s.thread i).pc.Inert := by
  have hnum : s.group.fileNum = n :=
    (h.invariant (Transfer.BufInv.init n fileSize filePath) fun _ a ht _ => ht.step a).fileNum
  constructor
  · intro hq i hi
    have hi' : i < s.group.fileNum := hnum ▸ hi
    have hm : s.Meets i (s.thread i) := Transfer.meets_self hret
    cases hpc : (s.thread i).pc with
    | unborn | faulted | exited => trivial
    | dispatch =>
      exfalso
      have hended := ((Transfer.own_of_reach h).thread i).ended_eq_false (by
        rw [show (s.ctx i).thread.pc = .dispatch from hpc]
        exact ThreadPc.noConfusion)
      cases hnext : (s.thread i).next with
      | none => exact hm.not_waits hret hi' hq hended ⟨hpc, hnext⟩
      | some next =>
        have hidle := hm.idle hi' hq hpc hnext
        exact (hm.finish hret hi' hpc hnext hidle).not_waits hret hi' hq hended ⟨hpc, rfl⟩
    | _ =>
      have hborn := hm.not_setup hi' hq (by rw [hpc]; trivial)
      exact absurd (hpc.symm.trans hborn) ThreadPc.noConfusion
  · intro hinert t ht i a
    have hkeep : ∀ j < s.group.fileNum, (t.thread j).pc.Inert := by
      refine ht.invariant (I := fun u => ∀ j < s.group.fileNum, (u.thread j).pc.Inert)
        (fun j hj => hinert j (hnum ▸ hj)) fun u b hu _ j hj => ?_
      cases b with
      | thread l act =>
        rw [Transfer.afterStep_eq_of_inert hu]
        exact hu j hj
      | request m N path =>
        unfold Transfer.afterStep
        dsimp only
        split <;> exact hu j hj
      | connect r l =>
        unfold Transfer.afterStep
        dsimp only
        split
        · split_ifs
          · show (Function.update u.thread l (u.thread l) j).pc.Inert
            rw [Function.update_eq_self]
            exact hu j hj
          · exact hu j hj
        · exact hu j hj
    rw [Transfer.afterStep_eq_of_inert hkeep]
    exact .refl _

/-- The threads are created, the last of them has no socket, and the consumer gives up. -/
def giveUp (n : ℕ) : List TransferAct :=
  .fopen true :: List.replicate n (.create .created) ++
    .thread (n - 1) (.call false) :: List.replicate 3 .judge

theorem quiescent_iff_one :
    (run Transfer.step (.init 1 5 fun _ => []) (giveUp 1)).Quiescent :=
  (quiescent_iff (reach_run _ _) rfl).2 (by decide)

/-- The thread of another file goes on with its connection and allocates its buffers after the return. -/
theorem not_quiescent : ¬ ∀ n fileSize filePath s ret,
    Reach Transfer.step Free (.init n fileSize filePath) s → s.main = .returned ret →
      s.Quiescent := by
  intro hall
  have hq := hall 2 5 (fun _ => []) _ errorCreatTransmissionDataConnection
    (reach_run _ (giveUp 2)) rfl
  have hptr := (hq _ (reach_run _ (List.replicate 3 (.thread 0 (.call true)))) 0 (.call true)).ptr 0 0
  exact absurd hptr (by decide)

end ORaidServer
