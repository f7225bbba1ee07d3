import ORaidServer.Lib.Interleave
import ORaidServer.Transfer.Clients
import ORaidServer.Transfer.Watch

/-!
# Two requests at once

Two clients of the shared memory, their steps in any order.  A client relies on what it has written to
`g_tDataDerverInfo` until it has read it for the last time, and on `g_tgroupFile`, with the sockets, events and
buffers that its records hold, from its `memset` until it returns.

* `Client.UsesIp` and the like, where a client still uses a field, and `Agrees`, equality as far as it does;
* `Agrees.step`, the step lemma: the client does the same on memories that agree;
* `LeavesAlone`, a step of the second client that the first does not notice, and `allowed_apart`: requests that
  come one after the other take such steps only;
* `returned_alone`: if all steps of the second client are such, the first returns what it returns alone, with
  the same output file.
-/

namespace ORaidServer

open CString Guarded Interleave

/-- Thread `i` is still to be created. -/
def MainPc.ToCreate (i : ℕ) : MainPc → Prop
  | .fopen => True
  | .create j => j ≤ i
  | .judge _ | .returned _ => False

namespace Client

/-- A thread is still to connect to the data server. -/
def Connects (c : Client) : Prop :=
  ∃ i < c.aSetOfFiles.length, c.main.ToCreate i ∨ (c.thread i).pc = .socket ∨ (c.thread i).pc = .connect

/-- `data_server_ip` was set, and is still to be read. -/
def UsesIp (c : Client) : Prop :=
  match c.pc with
  | .port | .method | .rest => c.sign = true
  | .choose => c.ret = right
  | .urlIp | .urlPort | .urlMethod => True
  | .post | .clear | .path _ | .fileSize | .fileNum | .transfer => c.Connects
  | .ip | .here | .returned _ | .faulted => False

/-- `data_server_port` was set, and is still to be read. -/
def UsesPort (c : Client) : Prop :=
  match c.pc with
  | .method | .rest => c.sign = true
  | .choose => c.ret = right
  | .urlIp | .urlPort | .urlMethod => True
  | .post | .clear | .path _ | .fileSize | .fileNum | .transfer => c.Connects
  | .ip | .port | .here | .returned _ | .faulted => False

/-- `data_server_method` was set, and is still to be read. -/
def UsesMethod (c : Client) : Prop :=
  match c.pc with
  | .rest => c.sign = true
  | .choose => c.ret = right
  | .urlIp | .urlPort | .urlMethod => True
  | _ => False

/-- `g_tgroupFile` was cleared. -/
def UsesGroup (c : Client) : Prop :=
  match c.pc with
  | .path _ | .fileSize | .fileNum | .transfer => True
  | _ => False

/-- The thread of file `i` looks at the event that was made for `request`. -/
def Watches (c : Client) (g : Globals) (i request : ℕ) : Prop := ((c.view g).ctx i).Watches request

theorem Watches.congr {c : Client} {g g' : Globals} {i request : ℕ} (h : c.Watches g i request)
    (hgroup : g.group = g'.group) : c.Watches g' i request :=
  Or.imp_left (fun hev => (congrArg (fun x => (x.file i).evAccept) hgroup).symm.trans hev) h

/-- None of its threads is in its loop before the transfer. -/
def Idle (c : Client) : Prop := c.pc ≠ .transfer → ∀ i, (c.thread i).pc ≠ .dispatch

end Client

/-- The same client on memories that are equal in what it still uses, and in the file `p`. -/
structure Agrees (p : Path) (s t : Client × Globals) : Prop where
  client : s.1 = t.1
  ip : s.1.UsesIp → s.2.server.dataServerIp = t.2.server.dataServerIp
  port : s.1.UsesPort → s.2.server.dataServerPort = t.2.server.dataServerPort
  method : s.1.UsesMethod → s.2.server.dataServerMethod = t.2.server.dataServerMethod
  group : s.1.UsesGroup → s.2.group = t.2.group
  ended : s.1.UsesGroup → ∀ i r, s.1.Watches s.2 i r → s.2.ended i r = t.2.ended i r
  file : s.2.file p = t.2.file p

/-! ### The client does the same on memories that agree -/

namespace Agrees

variable {p : Path} {c : Client} {g g' : Globals} {s t u : Client × Globals}

theorem refl (p : Path) (s : Client × Globals) : Agrees p s s :=
  ⟨rfl, fun _ => rfl, fun _ => rfl, fun _ => rfl, fun _ => rfl, fun _ _ _ _ => rfl, rfl⟩

theorem symm (h : Agrees p s t) : Agrees p t s where
  client := h.client.symm
  ip hu := (h.ip (h.client ▸ hu)).symm
  port hu := (h.port (h.client ▸ hu)).symm
  method hu := (h.method (h.client ▸ hu)).symm
  group hu := (h.group (h.client ▸ hu)).symm
  ended hu i r hw := by
    have hu' : s.1.UsesGroup := h.client ▸ hu
    exact (h.ended hu' i r (Client.Watches.congr (h.client ▸ hw) (h.group hu').symm)).symm
  file := h.file.symm

theorem trans (h : Agrees p s t) (h' : Agrees p t u) : Agrees p s u where
  client := h.client.trans h'.client
  ip hu := (h.ip hu).trans (h'.ip (h.client ▸ hu))
  port hu := (h.port hu).trans (h'.port (h.client ▸ hu))
  method hu := (h.method hu).trans (h'.method (h.client ▸ hu))
  group hu := (h.group hu).trans (h'.group (h.client ▸ hu))
  ended hu i r hw := (h.ended hu i r hw).trans
    (h'.ended (h.client ▸ hu) i r (Client.Watches.congr (h.client ▸ hw) (h.group hu)))
  file := h.file.trans h'.file

/-- A client that uses no more than before, and not the group, agrees again. -/
theorem mono {c' : Client} (h : Agrees p (c, g) (c, g')) (hip : c'.UsesIp → c.UsesIp)
    (hport : c'.UsesPort → c.UsesPort) (hmethod : c'.UsesMethod → c.UsesMethod)
    (hgroup : ¬ c'.UsesGroup) : Agrees p (c', g) (c', g') where
  client := rfl
  ip hu := h.ip (hip hu)
  port hu := h.port (hport hu)
  method hu := h.method (hmethod hu)
  group hu := (hgroup hu).elim
  ended hu := (hgroup hu).elim
  file := h.file

/-- A handler that is gone uses nothing any more. -/
theorem of_gone (hpc : c.pc = .here ∨ (∃ ret, c.pc = .returned ret) ∨ c.pc = .faulted)
    (hfile : g.file p = g'.file p) : Agrees p (c, g) (c, g') := by
  have hip : ¬ c.UsesIp := by
    unfold Client.UsesIp
    rcases hpc with hpc | ⟨ret, hpc⟩ | hpc <;> simp [hpc]
  have hport : ¬ c.UsesPort := by
    unfold Client.UsesPort
    rcases hpc with hpc | ⟨ret, hpc⟩ | hpc <;> simp [hpc]
  have hmethod : ¬ c.UsesMethod := by
    unfold Client.UsesMethod
    rcases hpc with hpc | ⟨ret, hpc⟩ | hpc <;> simp [hpc]
  have hgroup : ¬ c.UsesGroup := by
    unfold Client.UsesGroup
    rcases hpc with hpc | ⟨ret, hpc⟩ | hpc <;> simp [hpc]
  exact ⟨rfl, fun hu => (hip hu).elim, fun hu => (hport hu).elim, fun hu => (hmethod hu).elim,
    fun hu => (hgroup hu).elim, fun hu => (hgroup hu).elim, hfile⟩

/-- The choice of a branch is the same: it is made on the address only for a job that is right. -/
theorem choose (h : Agrees p (c, g) (c, g')) (hpc : c.pc = .choose) :
    Agrees p (c.choose g.server.dataServerIp, g) (c.choose g'.server.dataServerIp, g') := by
  unfold Client.choose
  by_cases hret : c.ret = right
  · have hip : g.server.dataServerIp = g'.server.dataServerIp := h.ip (by simpa [Client.UsesIp, hpc])
    rw [hip, if_pos hret, if_pos hret]
    split_ifs
    · refine h.mono (fun _ => ?_) (fun _ => ?_) (fun _ => ?_) fun hu => hu.elim
      · simpa only [Client.UsesIp, hpc]
      · simpa only [Client.UsesPort, hpc]
      · simpa only [Client.UsesMethod, hpc]
    · exact of_gone (Or.inl rfl) h.file
  · rw [if_neg hret, if_neg hret, ite_self, ite_self]
    exact of_gone (Or.inr (Or.inl ⟨_, rfl⟩)) h.file

/-- While the group is filled in, no record comes to hold another event. -/
theorem filled (h : Agrees p (c, g) (c, g')) (hpc : (∃ i, c.pc = .path i) ∨ c.pc = .fileSize ∨ c.pc = .fileNum)
    {pc : ClientPc} (hpc' : (∃ i, pc = .path i) ∨ pc = .fileSize ∨ pc = .fileNum ∨ pc = .transfer)
    {x : TGroupFileInfo} (hx : ∀ j, (x.file j).evAccept = (g.group.file j).evAccept) :
    Agrees p (c.goto pc, { g with group := x }) (c.goto pc, { g' with group := x }) := by
  have huses : c.UsesGroup ∧ (c.Connects → c.UsesIp) ∧ (c.Connects → c.UsesPort) := by
    rcases hpc with ⟨i, hpc⟩ | hpc | hpc <;> simp [Client.UsesGroup, Client.UsesIp, Client.UsesPort, hpc]
  obtain ⟨hgroup, hip, hport⟩ := huses
  have hused : ((c.goto pc).UsesIp → c.Connects) ∧ ((c.goto pc).UsesPort → c.Connects) ∧
      ¬ (c.goto pc).UsesMethod := by
    rcases hpc' with ⟨i, rfl⟩ | rfl | rfl | rfl <;> exact ⟨id, id, id⟩
  refine ⟨rfl, fun hu => h.ip (hip (hused.1 hu)), fun hu => h.port (hport (hused.2.1 hu)),
    fun hu => (hused.2.2 hu).elim, fun _ => rfl, fun _ i r hw => h.ended hgroup i r ?_, h.file⟩
  rcases hw with hev | hd
  · exact Or.inl ((hx i).symm.trans hev)
  · exact Or.inr hd

/-- What the handler does by itself. -/
theorem proceed (h : Agrees p (c, g) (c, g')) (hidle : c.Idle) : Agrees p (c.proceed g) (c.proceed g') := by
  have hip : c.UsesIp → g.server.dataServerIp = g'.server.dataServerIp := h.ip
  have hport : c.UsesPort → g.server.dataServerPort = g'.server.dataServerPort := h.port
  have hmethod : c.UsesMethod → g.server.dataServerMethod = g'.server.dataServerMethod := h.method
  have hgroup : c.UsesGroup → g.group = g'.group := h.group
  have hfile : g.file p = g'.file p := h.file
  cases hpc : c.pc with
  | ip =>
    rcases c.copyField_cases "data_server_ip" 32 .port with hcopy | ⟨s, found, hcopy⟩
    · simp only [Client.proceed, hpc, hcopy]
      exact of_gone (Or.inr (Or.inr rfl)) hfile
    · simp only [Client.proceed, hpc, hcopy]
      refine ⟨rfl, fun hu => ?_, fun hu => hu.elim, fun hu => hu.elim, fun hu => hu.elim, fun hu => hu.elim, hfile⟩
      have hfound : found = true := (Bool.and_eq_true_iff.1 hu).2
      simp [hfound]
  | port =>
    simp only [Client.UsesIp, hpc] at hip
    rcases c.copyField_cases "data_server_port" 16 .method with hcopy | ⟨s, found, hcopy⟩
    · simp only [Client.proceed, hpc, hcopy]
      exact of_gone (Or.inr (Or.inr rfl)) hfile
    · simp only [Client.proceed, hpc, hcopy]
      refine ⟨rfl, fun hu => hip (Bool.and_eq_true_iff.1 hu).1, fun hu => ?_, fun hu => hu.elim,
        fun hu => hu.elim, fun hu => hu.elim, hfile⟩
      have hfound : found = true := (Bool.and_eq_true_iff.1 hu).2
      simp [hfound]
  | method =>
    simp only [Client.UsesIp, hpc] at hip
    simp only [Client.UsesPort, hpc] at hport
    rcases c.copyField_cases "data_server_method" 128 .rest with hcopy | ⟨s, found, hcopy⟩
    · simp only [Client.proceed, hpc, hcopy]
      exact of_gone (Or.inr (Or.inr rfl)) hfile
    · simp only [Client.proceed, hpc, hcopy]
      refine ⟨rfl, fun hu => hip (Bool.and_eq_true_iff.1 hu).1, fun hu => hport (Bool.and_eq_true_iff.1 hu).1,
        fun hu => ?_, fun hu => hu.elim, fun hu => hu.elim, hfile⟩
      have hfound : found = true := (Bool.and_eq_true_iff.1 hu).2
      simp [hfound]
  | rest =>
    simp only [Client.proceed, hpc]
    rcases c.readRest_cases with hread | ⟨files, ret, hread, hsign⟩
    · rw [hread]
      exact of_gone (Or.inr (Or.inr rfl)) hfile
    · rw [hread]
      refine h.mono (fun hu => ?_) (fun hu => ?_) (fun hu => ?_) fun hu => hu.elim
      · simpa only [Client.UsesIp, hpc] using hsign hu
      · simpa only [Client.UsesPort, hpc] using hsign hu
      · simpa only [Client.UsesMethod, hpc] using hsign hu
  | choose =>
    simp only [Client.proceed, hpc]
    exact h.choose hpc
  | urlIp =>
    simp only [Client.UsesIp, hpc, true_implies] at hip
    simp only [Client.proceed, hpc, hip]
    refine h.mono (fun _ => ?_) (fun _ => ?_) (fun _ => ?_) fun hu => hu.elim
    · simp only [Client.UsesIp, hpc]
    · simp only [Client.UsesPort, hpc]
    · simp only [Client.UsesMethod, hpc]
  | urlPort =>
    simp only [Client.UsesPort, hpc, true_implies] at hport
    simp only [Client.proceed, hpc, hport]
    refine h.mono (fun _ => ?_) (fun _ => ?_) (fun _ => ?_) fun hu => hu.elim
    · simp only [Client.UsesIp, hpc]
    · simp only [Client.UsesPort, hpc]
    · simp only [Client.UsesMethod, hpc]
  | urlMethod =>
    simp only [Client.UsesMethod, hpc, true_implies] at hmethod
    simp only [Client.proceed, hpc, hmethod]
    refine h.mono (fun _ => ?_) (fun _ => ?_) (fun hu => hu.elim) fun hu => hu.elim
    · simp only [Client.UsesIp, hpc]
    · simp only [Client.UsesPort, hpc]
  | clear =>
    simp only [Client.UsesIp, hpc] at hip
    simp only [Client.UsesPort, hpc] at hport
    simp only [Client.proceed, hpc]
    refine ⟨rfl, hip, hport, fun hu => hu.elim, fun _ => rfl, fun _ i r hw => ?_, hfile⟩
    rcases hw with hev | ⟨hd, -⟩
    · cases hev
    · exact absurd hd (hidle (by rw [hpc]; exact ClientPc.noConfusion) i)
  | path i =>
    simp only [Client.UsesGroup, hpc, true_implies] at hgroup
    simp only [Client.proceed, hpc, Client.copyPath, ← hgroup]
    split
    · exact h.filled (Or.inl ⟨i, hpc⟩) (Or.inr (Or.inl rfl)) fun _ => rfl
    · split
      · exact of_gone (Or.inr (Or.inr rfl)) hfile
      · refine h.filled (Or.inl ⟨i, hpc⟩) (Or.inl ⟨i + 1, rfl⟩) fun j => ?_
        rw [TGroupFileInfo.file_setFile]
        split_ifs with hj
        · rw [hj]
        · rfl
  | fileSize =>
    simp only [Client.UsesGroup, hpc, true_implies] at hgroup
    simp only [Client.proceed, hpc, ← hgroup]
    exact h.filled (Or.inr (Or.inl hpc)) (Or.inr (Or.inr (Or.inl rfl))) fun _ => rfl
  | fileNum =>
    simp only [Client.UsesGroup, hpc, true_implies] at hgroup
    simp only [Client.proceed, hpc, ← hgroup]
    exact h.filled (Or.inr (Or.inr hpc)) (Or.inr (Or.inr (Or.inr rfl))) fun _ => rfl
  | post | transfer | here | returned ret | faulted =>
    simp only [Client.proceed, hpc]
    exact h

/-- The reading of the answer. -/
theorem post (cJSONParse : List Byte → Option Json.Value) (h : Agrees p (c, g) (c, g')) (hpc : c.pc = .post)
    (replies : ℕ → Response) : Agrees p (c.post cJSONParse replies, g) (c.post cJSONParse replies, g') := by
  unfold Client.post
  split
  · exact of_gone (Or.inr (Or.inr rfl)) h.file
  · split_ifs
    · refine h.mono (fun hu => ?_) (fun hu => ?_) (fun hu => hu.elim) fun hu => hu.elim
      · simp only [Client.UsesIp, hpc]
        exact hu
      · simp only [Client.UsesPort, hpc]
        exact hu
    · exact of_gone (Or.inr (Or.inl ⟨_, rfl⟩)) h.file

end Agrees

/-! ### The transfer -/

section Transfer

variable {c : Client} {g g' : Globals}

/-- A thread does not go back to where it connects. -/
theorem connects_threadStep {fileSize xorFlag : ℤ} {x : ThreadCtx} {a : ThreadAct}
    (h : (threadStep fileSize xorFlag x a).thread.pc = .socket ∨
      (threadStep fileSize xorFlag x a).thread.pc = .connect) :
    x.thread.pc = .socket ∨ x.thread.pc = .connect := by
  cases a with
  | call ok =>
    unfold threadStep ThreadCtx.call at h
    cases hpc : x.thread.pc with
    | socket => exact Or.inl rfl
    | connect => exact Or.inr rfl
    | header =>
      exfalso
      cases ok <;> simp [hpc, ThreadCtx.goto, ThreadCtx.fail] at h
    | malloc k =>
      exfalso
      simp only [hpc, ThreadCtx.malloc] at h
      split_ifs at h <;> simp [ThreadCtx.goto] at h
    | _ => simp [hpc] at h
  | recv r =>
    have hm := threadStep_move fileSize xorFlag x (.recv r)
    generalize threadStep fileSize xorFlag x (.recv r) = x' at h hm
    cases hm with
    | stay a | notice r _ _ | reset r _ _ | call r _ _ _ _ => exact h
    | lost _ _ _ | closed _ _ _ _ | fault r _ _ => simp [ThreadCtx.goto, ThreadCtx.endLoop] at h
    | stray r failed _ _ _ _ =>
      exfalso
      rcases x.pc_leave failed with hpc | hpc | hpc <;> rw [hpc] at h <;> simp at h
  | proceed =>
    have hm := threadStep_move fileSize xorFlag x .proceed
    generalize threadStep fileSize xorFlag x .proceed = x' at h hm
    cases hm with
    | stay a | write next _ _ _ | finish next _ _ _ => exact h
    | start _ => simp [ThreadCtx.start] at h
    | dismissed _ _ => simp [ThreadCtx.goto] at h

theorem not_toCreate_judgeStep (s : Transfer) (j : JudgeLocal) (i : ℕ) : ¬ (s.judgeStep j).main.ToCreate i := by
  unfold Transfer.judgeStep
  dsimp only
  split <;> exact id

/-- What is still to connect after a step was so before. -/
theorem Client.Connects.of_transfer {a : TransferAct} (h : (c.transfer g a).1.Connects) : c.Connects := by
  obtain ⟨i, hi, hconnect⟩ := h
  rw [(c.frame_transfer g a).2.2.1] at hi
  refine ⟨i, hi, ?_⟩
  cases a with
  | fopen ok =>
    cases hmain : c.main with
    | fopen => exact Or.inl trivial
    | _ => simpa only [Client.transfer, hmain] using hconnect
  | create r =>
    cases hmain : c.main with
    | create j =>
      cases r with
      | created =>
        simp only [Client.transfer, hmain, Client.create] at hconnect
        rcases eq_or_ne i j with rfl | hij
        · exact Or.inl le_rfl
        · rw [Function.update_of_ne hij] at hconnect
          refine hconnect.imp_left fun hmore => ?_
          unfold Client.nextMain at hmore
          split_ifs at hmore
          · exact (Nat.le_succ j).trans hmore
          · exact hmore.elim
      | noArg | noThread =>
        simp only [Client.transfer, hmain, Client.create] at hconnect
        exact Or.inr (hconnect.resolve_left id)
    | _ => simpa only [Client.transfer, hmain] using hconnect
  | judge =>
    cases hmain : c.main with
    | judge j =>
      simp only [Client.transfer, hmain, Client.put] at hconnect
      exact Or.inr (hconnect.resolve_left (not_toCreate_judgeStep _ _ _))
    | _ => simpa only [Client.transfer, hmain] using hconnect
  | thread j a =>
    unfold Client.transfer at hconnect
    dsimp only at hconnect
    split_ifs at hconnect
    · refine hconnect.imp_right fun hthread => ?_
      rcases eq_or_ne i j with rfl | hij
      · simp only [Client.put, Transfer.setCtx, Function.update_self] at hthread
        exact connects_threadStep hthread
      · simp only [Client.put, Transfer.setCtx, Function.update_of_ne hij] at hthread
        exact hthread
    · exact hconnect

/-- Two updates of files that agree. -/
theorem update_file {p q : Path} {file file' : Path → List Byte} (h : file p = file' p) (content : List Byte) :
    Function.update file q content p = Function.update file' q content p := by
  rw [Function.update_apply, Function.update_apply, h]

/-- What the threads ask for is the same. -/
theorem Agrees.contact {p : Path} (h : Agrees p (c, g) (c, g')) (hpc : c.pc = .transfer) {i : ℕ}
    (hi : i < c.aSetOfFiles.length) (a : ThreadAct) : c.contact g i a = c.contact g' i a := by
  cases a with
  | call ok =>
    have hgroup : g.group = g'.group := h.group (by simp [Client.UsesGroup, hpc])
    unfold Client.contact
    dsimp only
    cases hthread : (c.thread i).pc with
    | connect =>
      have huses : c.Connects := ⟨i, hi, Or.inr (Or.inr hthread)⟩
      have hip : g.server.dataServerIp = g'.server.dataServerIp :=
        h.ip (by simpa [Client.UsesIp, hpc] using huses)
      have hport : g.server.dataServerPort = g'.server.dataServerPort :=
        h.port (by simpa [Client.UsesPort, hpc] using huses)
      rw [hip, hport]
    | header => rw [hgroup]
    | _ => rfl
  | recv r | proceed => rfl

/-- A step of a thread is the same. -/
theorem Agrees.thread {p : Path} (h : Agrees p (c, g) (c, g')) (hpc : c.pc = .transfer) {i : ℕ}
    (hi : i < c.aSetOfFiles.length) (a : ThreadAct) :
    (c.transfer g (.thread i a)).1 = (c.transfer g' (.thread i a)).1 ∧
      (c.transfer g (.thread i a)).2.group = (c.transfer g' (.thread i a)).2.group ∧
        ∀ j r, (c.transfer g (.thread i a)).1.Watches (c.transfer g (.thread i a)).2 j r →
          (c.transfer g (.thread i a)).2.ended j r = (c.transfer g' (.thread i a)).2.ended j r := by
  have huses : c.UsesGroup := by simp [Client.UsesGroup, hpc]
  have hgroup : g.group = g'.group := h.group huses
  have hctx : (c.view g').ctx i = ((c.view g).ctx i).withEnded (g'.ended i) := by
    simp only [Client.view, Transfer.ctx, ThreadCtx.withEnded, hgroup]
  have hsees : ((c.view g).ctx i).Sees (g'.ended i) := fun r hr => h.ended huses i r hr
  obtain ⟨m, hstep, hsees'⟩ := threadStep_ended hsees g.group.fileSize g.group.xorFlag a
  rw [← hctx] at hstep
  have htransfer : ∀ g : Globals, c.transfer g (.thread i a) =
      ({ c.put ((c.view g).setCtx i (threadStep g.group.fileSize g.group.xorFlag ((c.view g).ctx i) a)) with
          contacts := c.contacts ++ c.contact g i a },
        { g with
          group := ((c.view g).setCtx i
            (threadStep g.group.fileSize g.group.xorFlag ((c.view g).ctx i) a)).group
          ended := ((c.view g).setCtx i
            (threadStep g.group.fileSize g.group.xorFlag ((c.view g).ctx i) a)).ended }) := fun _ => if_pos hi
  rw [htransfer g, htransfer g', ← hgroup, hstep, ← h.contact hpc hi a]
  generalize threadStep g.group.fileSize g.group.xorFlag ((c.view g).ctx i) a = x at hsees'
  refine ⟨rfl, ?_, fun j r hw => ?_⟩
  · simp only [Transfer.setCtx, Client.view, ThreadCtx.withEnded, hgroup]
  · rcases eq_or_ne j i with rfl | hji
    · have hw' : x.Watches r := by
        have hself := (c.view g).ctx_setCtx_self j x
        exact hself ▸ hw
      have hsame := hsees' r hw'
      simpa [Transfer.setCtx, ThreadCtx.withEnded] using hsame
    · have hw' : c.Watches g j r := by
        rcases hw with hev | ⟨hd, hr⟩
        · left
          exact (congrArg SingleFileInfo.evAccept ((c.view g).file_setCtx_of_ne i x hji)).symm.trans hev
        · right
          have hthread := (c.view g).thread_setCtx_of_ne i x hji
          exact ⟨(congrArg FileThread.pc hthread).symm.trans hd, hr.trans (congrArg FileThread.request hthread)⟩
      simpa [Transfer.setCtx, Client.view, hji] using h.ended huses j r hw'

theorem Agrees.transfer {p : Path} (h : Agrees p (c, g) (c, g')) (hpc : c.pc = .transfer) (a : TransferAct) :
    Agrees p (c.transfer g a) (c.transfer g' a) := by
  have huses : c.UsesGroup := by simp [Client.UsesGroup, hpc]
  have hgroup : g.group = g'.group := h.group huses
  have hfile : g.file p = g'.file p := h.file
  have hended : ∀ i r, c.Watches g i r → g.ended i r = g'.ended i r := h.ended huses
  have hsame : (c.transfer g a).1 = (c.transfer g' a).1 ∧
      (c.transfer g a).2.group = (c.transfer g' a).2.group ∧
        (∀ i r, (c.transfer g a).1.Watches (c.transfer g a).2 i r →
          (c.transfer g a).2.ended i r = (c.transfer g' a).2.ended i r) ∧
        (c.transfer g a).2.file p = (c.transfer g' a).2.file p := by
    cases a with
    | fopen ok =>
      unfold Client.transfer
      rw [← hgroup]
      cases c.main with
      | fopen =>
        cases ok with
        | false => exact ⟨rfl, hgroup, hended, hfile⟩
        | true => exact ⟨rfl, hgroup, hended, update_file hfile _⟩
      | _ => exact ⟨rfl, hgroup, hended, hfile⟩
    | create r =>
      unfold Client.transfer
      cases c.main with
      | create i =>
        dsimp only
        unfold Client.create
        rw [← hgroup]
        cases r with
        | created =>
          refine ⟨rfl, hgroup, fun j r hw => hended j r ?_, hfile⟩
          rcases hw with hev | ⟨hd, hr⟩
          · exact Or.inl hev
          · change (Function.update c.thread i _ j).pc = _ at hd
            change r = (Function.update c.thread i _ j).request at hr
            rcases eq_or_ne j i with rfl | hji
            · rw [Function.update_self] at hd
              cases hd
            · rw [Function.update_of_ne hji] at hd hr
              exact Or.inr ⟨hd, hr⟩
        | noArg => exact ⟨rfl, hgroup, hended, hfile⟩
        | noThread => exact ⟨rfl, rfl, hended, hfile⟩
      | _ => exact ⟨rfl, hgroup, hended, hfile⟩
    | judge =>
      unfold Client.transfer
      cases c.main with
      | judge j =>
        have hjudge : (c.view g').judgeStep j = { (c.view g).judgeStep j with ended := g'.ended } := by
          simp only [Transfer.judgeStep, Client.view, hgroup]
        dsimp only
        rw [hjudge]
        refine ⟨rfl, rfl, fun i r hw => hended i r ?_, update_file hfile _⟩
        rcases hw with hev | hd
        · left
          obtain ⟨b, q, hb⟩ := (judgeStep_frame g.group c.out j).1 i
          have hfile' : ((c.view g).judgeStep j).group.file i = (judgeStep g.group c.out j).1.file i := rfl
          rw [hb] at hfile'
          exact ((congrArg SingleFileInfo.evAccept hfile').trans rfl).symm.trans hev
        · exact Or.inr hd
      | _ => exact ⟨rfl, hgroup, hended, hfile⟩
    | thread i a =>
      by_cases hi : i < c.aSetOfFiles.length
      · obtain ⟨hclient, hgroup', hended'⟩ := h.thread hpc hi a
        refine ⟨hclient, hgroup', hended', ?_⟩
        unfold Client.transfer
        dsimp only
        rw [if_pos hi, if_pos hi]
        exact hfile
      · unfold Client.transfer
        dsimp only
        rw [if_neg hi, if_neg hi]
        exact ⟨rfl, hgroup, hended, hfile⟩
  obtain ⟨hserver, hpc', -⟩ := c.frame_transfer g a
  obtain ⟨hserver', -⟩ := c.frame_transfer g' a
  refine ⟨hsame.1, fun hu => ?_, fun hu => ?_, fun hu => ?_, fun _ => hsame.2.1, fun _ => hsame.2.2.1, hsame.2.2.2⟩
  · rw [hserver, hserver']
    simp only [Client.UsesIp, hpc', hpc] at hu
    exact h.ip (by simpa only [Client.UsesIp, hpc] using hu.of_transfer)
  · rw [hserver, hserver']
    simp only [Client.UsesPort, hpc', hpc] at hu
    exact h.port (by simpa only [Client.UsesPort, hpc] using hu.of_transfer)
  · simp only [Client.UsesMethod, hpc', hpc] at hu

/-- **The step lemma.**  The client does the same on memories that agree, which then agree again. -/
theorem Agrees.step {p : Path} {s t : Client × Globals} (cJSONParse : List Byte → Option Json.Value)
    (h : Agrees p s t) (hidle : s.1.Idle) (a : ClientAct) :
    Agrees p (Client.step cJSONParse s a) (Client.step cJSONParse t a) := by
  obtain ⟨c, g⟩ := s
  obtain ⟨c', g'⟩ := t
  obtain rfl : c = c' := h.client
  cases a with
  | proceed => exact h.proceed hidle
  | posts replies =>
    unfold Client.step
    dsimp only
    split_ifs with hpc
    · exact h.post cJSONParse hpc replies
    · exact h
  | openFile ret output =>
    unfold Client.step
    dsimp only
    split_ifs with hpc
    · exact Agrees.of_gone (Or.inr (Or.inl ⟨ret, rfl⟩)) (update_file h.file output)
    · exact h
  | transfer a =>
    unfold Client.step
    dsimp only
    split_ifs with hpc
    · have hgroup : g.group = g'.group := h.group (by simp [Client.UsesGroup, hpc])
      rw [← hgroup]
      exact h.transfer hpc (a.act g.group)
    · exact h

theorem thread_proceed (c : Client) (g : Globals) : (c.proceed g).1.thread = c.thread := by
  unfold Client.proceed
  cases c.pc with
  | ip | port | method =>
    dsimp only
    unfold Client.copyField
    split <;> rfl
  | rest =>
    dsimp only
    rcases c.readRest_cases with h | ⟨files, ret, h, -⟩
    · rw [h]
      rfl
    · rw [h]
  | choose =>
    dsimp only [Client.choose]
    split_ifs <;> rfl
  | path i =>
    dsimp only
    unfold Client.copyPath
    split
    · rfl
    · split <;> rfl
  | _ => rfl

/-- Only in the transfer does a thread come into its loop. -/
theorem Client.Idle.step (cJSONParse : List Byte → Option Json.Value) (h : c.Idle) (a : ClientAct) :
    (Client.step cJSONParse (c, g) a).1.Idle := by
  have hkeep : ∀ c' : Client, c'.thread = c.thread → c.pc ≠ .transfer → c'.Idle := by
    intro c' hthread hpc _ i
    rw [hthread]
    exact h hpc i
  cases a with
  | proceed =>
    by_cases hpc : c.pc = .transfer
    · have hstay : Client.step cJSONParse (c, g) .proceed = (c, g) := by simp [Client.step, Client.proceed, hpc]
      rw [hstay]
      exact h
    · exact hkeep _ (thread_proceed c g) hpc
  | posts replies =>
    unfold Client.step Client.post
    dsimp only
    split_ifs with hpc
    · have hpc' : c.pc ≠ .transfer := by rw [hpc]; exact ClientPc.noConfusion
      split
      · exact hkeep _ rfl hpc'
      · split_ifs <;> exact hkeep _ rfl hpc'
    · exact h
  | openFile ret output =>
    unfold Client.step
    dsimp only
    split_ifs with hpc
    · exact hkeep _ rfl (by rw [hpc]; exact ClientPc.noConfusion)
    · exact h
  | transfer a =>
    unfold Client.step
    dsimp only
    split_ifs with hpc
    · exact fun hne => absurd ((c.frame_transfer g (a.act g.group)).2.1.trans hpc) hne
    · exact h

end Transfer

/-! ### After the return -/

theorem Client.returned_eq_some_iff {c : Client} {ret : ℤ} : c.returned = some ret ↔
    c.pc = .returned ret ∨ c.pc = .transfer ∧ c.main = .returned ret := by
  unfold Client.returned
  cases c.pc with
  | transfer => cases c.main <;> simp
  | _ => simp

/-- A handler that has returned changes neither its return code nor a file. -/
theorem Client.returned_step {c : Client} {ret : ℤ} (cJSONParse : List Byte → Option Json.Value) (g : Globals)
    (h : c.returned = some ret) (a : ClientAct) :
    (step cJSONParse (c, g) a).1.returned = some ret ∧ (step cJSONParse (c, g) a).2.file = g.file := by
  rcases returned_eq_some_iff.1 h with hpc | ⟨hpc, hmain⟩
  · have hstay : step cJSONParse (c, g) a = (c, g) := by cases a <;> simp [step, proceed, hpc]
    rw [hstay]
    exact ⟨h, rfl⟩
  · cases a with
    | transfer a =>
      have hsame : (c.transfer g (a.act g.group)).1.main = c.main ∧
          (c.transfer g (a.act g.group)).2.file = g.file := by
        unfold transfer
        cases a.act g.group with
        | fopen ok | create r | judge => simp only [hmain, and_self]
        | thread i a =>
          dsimp only
          split_ifs <;> exact ⟨rfl, rfl⟩
      unfold step
      dsimp only
      rw [if_pos hpc]
      exact ⟨returned_eq_some_iff.2 (Or.inr ⟨(c.frame_transfer g (a.act g.group)).2.1.trans hpc,
        hsame.1.trans hmain⟩), hsame.2⟩
    | proceed => simpa [step, proceed, hpc] using h
    | posts replies => simpa [step, hpc] using h
    | openFile ret' output => simpa [step, hpc] using h

/-! ### Two clients -/

section Pair

variable (cJSONParse : List Byte → Option Json.Value)

/-- The step frees the buffers of a file that are freed already. -/
def FreesAgain (s : Client × Globals) : ClientAct → Prop
  | .transfer (.recv i _) => s.1.pc = .transfer ∧ i < s.1.aSetOfFiles.length ∧
      (((s.1.view s.2).ctx i).Waits ∧ s.2.ended i (s.1.thread i).request = false) ∧
        ((s.1.view s.2).ctx i).Over s.2.group.xorFlag ∧ ∃ k, (s.2.group.file i).ptr k = .released
  | .transfer .judge => s.1.pc = .transfer ∧ ∃ k fileNum, s.1.main = .judge ⟨.xor k, fileNum⟩ ∧
      s.2.group.Completes fileNum s.1.out k ∧ ∃ i < fileNum, ∃ k', (s.2.group.file i).ptr k' = .released
  | _ => False

/-- The step commits no invalid access. -/
def Inside (s : Client × Globals) (b : ClientAct) : Prop :=
  ¬ (Client.step cJSONParse s b).1.Faulted ∧ ¬ FreesAgain s b

/-- A step of the second client that commits no invalid access and changes nothing that the first still uses, nor
the file `p`. -/
def LeavesAlone (p : Path) (s : Pair Client Client Globals) : ClientAct ⊕ ClientAct → Prop
  | .inl _ => True
  | .inr b =>
    let t := Client.step cJSONParse s.other b
    Inside cJSONParse s.other b ∧ (s.first.returned = none → Agrees p s.own (s.first, t.2)) ∧
      s.memory.file p = t.2.file p

/-- For clients with different output files: the second commits no invalid access and changes nothing of
`g_tDataDerverInfo` and `g_tgroupFile` that the first still uses, nor the events that its threads look at. -/
theorem leavesAlone_iff {p : Path} {s : Pair Client Client Globals} (hp : p ≠ s.second.outputPath)
    (b : ClientAct) : LeavesAlone cJSONParse p s (.inr b) ↔
      Inside cJSONParse s.other b ∧ (s.first.returned = none →
        (s.first.UsesIp → s.memory.server.dataServerIp =
          (Client.step cJSONParse s.other b).2.server.dataServerIp) ∧
        (s.first.UsesPort → s.memory.server.dataServerPort =
          (Client.step cJSONParse s.other b).2.server.dataServerPort) ∧
        (s.first.UsesMethod → s.memory.server.dataServerMethod =
          (Client.step cJSONParse s.other b).2.server.dataServerMethod) ∧
        (s.first.UsesGroup → s.memory.group = (Client.step cJSONParse s.other b).2.group) ∧
        (s.first.UsesGroup → ∀ i r, s.first.Watches s.memory i r →
          s.memory.ended i r = (Client.step cJSONParse s.other b).2.ended i r)) := by
  have hfile := (Client.file_step_of_ne cJSONParse s.second s.memory hp b).symm
  unfold LeavesAlone
  apply and_congr_right
  intro _
  constructor
  · rintro ⟨hagrees, -⟩ hret
    obtain ⟨-, hip, hport, hmethod, hgroup, hended, -⟩ := hagrees hret
    exact ⟨hip, hport, hmethod, hgroup, hended⟩
  · intro h
    refine ⟨fun hret => ?_, hfile⟩
    obtain ⟨hip, hport, hmethod, hgroup, hended⟩ := h hret
    exact ⟨rfl, hip, hport, hmethod, hgroup, hended, hfile⟩

/-- Before its first step, and after its return, a client is disturbed by nothing but an invalid access. -/
theorem leavesAlone_of_apart {p : Path} {s : Pair Client Client Globals} (hp : p ≠ s.second.outputPath)
    (hfirst : s.first.pc = .ip ∨ s.first.returned.isSome) {b : ClientAct}
    (hinside : Inside cJSONParse s.other b) : LeavesAlone cJSONParse p s (.inr b) := by
  refine (leavesAlone_iff cJSONParse hp b).2 ⟨hinside, fun hnone => ?_⟩
  rcases hfirst with hpc | hret
  · simp [Client.UsesIp, Client.UsesPort, Client.UsesMethod, Client.UsesGroup, hpc]
  · rw [hnone] at hret
    cases hret

/-- The second may do there whatever it does without one. -/
theorem allowed_apart {p : Path} {s : Pair Client Client Globals} (hp : p ≠ s.second.outputPath)
    (hfirst : s.first.pc = .ip ∨ s.first.returned.isSome) {bs : List ClientAct}
    (h : Allowed (Client.step cJSONParse) (Inside cJSONParse) s.other bs) :
    Allowed (Interleave.step (Client.step cJSONParse) (Client.step cJSONParse)) (LeavesAlone cJSONParse p) s
      (bs.map .inr) := by
  induction bs generalizing s with
  | nil => trivial
  | cons b bs ih =>
    have hp' : p ≠ (Client.step cJSONParse s.other b).1.outputPath := by
      rw [Pair.other, Client.outputPath_step]
      exact hp
    exact ⟨leavesAlone_of_apart cJSONParse hp hfirst h.1, ih hp' hfirst h.2⟩

/-- The two runs agree, or the client has returned in both, with the same result. -/
def Related (p : Path) (s t : Client × Globals) : Prop :=
  s.1.Idle ∧ (Agrees p s t ∨ s.1.returned.isSome ∧ s.1.returned = t.1.returned ∧ s.2.file p = t.2.file p)

variable {cJSONParse} {p : Path}

theorem Related.result {s t : Client × Globals} (h : Related p s t) :
    s.1.returned = t.1.returned ∧ s.2.file p = t.2.file p := by
  rcases h with ⟨-, h | ⟨-, hret, hfile⟩⟩
  · exact ⟨congrArg Client.returned h.client, h.file⟩
  · exact ⟨hret, hfile⟩

theorem Related.step {s t : Client × Globals} {a : ClientAct} (h : Related p s t) :
    Related p (Client.step cJSONParse s a) (Client.step cJSONParse t a) := by
  refine ⟨h.1.step cJSONParse a, ?_⟩
  rcases h with ⟨hidle, h | ⟨hsome, hret, hfile⟩⟩
  · exact Or.inl (h.step cJSONParse hidle a)
  · obtain ⟨ret, hs⟩ := Option.isSome_iff_exists.1 hsome
    obtain ⟨hs', hfile'⟩ := Client.returned_step cJSONParse s.2 hs a
    obtain ⟨ht', hfile''⟩ := Client.returned_step cJSONParse t.2 (hret.symm.trans hs) a
    refine Or.inr ⟨?_, hs'.trans ht'.symm, ?_⟩
    · rw [hs']
      rfl
    · rw [hfile', hfile'', hfile]

theorem Related.of_leavesAlone {s : Pair Client Client Globals} {t : Client × Globals} {b : ClientAct}
    (hb : LeavesAlone cJSONParse p s (.inr b)) (h : Related p s.own t) :
    Related p (Interleave.step (Client.step cJSONParse) (Client.step cJSONParse) s (.inr b)).own t := by
  obtain ⟨-, hagrees, hfile⟩ := hb
  refine ⟨h.1, ?_⟩
  rcases h with ⟨-, h | ⟨hsome, hret, hfile'⟩⟩
  · cases hs : s.first.returned with
    | none => exact Or.inl ((hagrees hs).symm.trans h)
    | some ret =>
      refine Or.inr ⟨?_, congrArg Client.returned h.client, hfile.symm.trans h.file⟩
      rw [show (Interleave.step _ _ s (.inr b)).own.1.returned = some ret from hs]
      rfl
  · exact Or.inr ⟨hsome, hret, hfile.symm.trans hfile'⟩

end Pair

/-! ### Two requests for one file each -/

section Example

/-- A job with one file. -/
def oneByteJob (outputFileName : String) : CJson :=
  .other [(some (lit "data_server_ip"), .string (lit "10.0.0.7")),
    (some (lit "data_server_port"), .string (lit "8080")),
    (some (lit "data_server_method"), .string (lit "file")),
    (some (lit "output_file_name"), .string (lit outputFileName)),
    (some (lit "file_name_total"), .other [(none, .other [(some (lit "file_path"), .string (lit "x"))])])]

/-- The address of this server. -/
def localServer : List Byte := lit "10.0.0.1"

/-- The shared memory when the server is started. -/
def initialGlobals : Globals := ⟨⟨[], [], []⟩, zeroGroup, fun _ _ => false, fun _ => []⟩

/-- The answer that the file has one byte. -/
def oneByteReply : Response := ⟨200, lit "\x7b\"file_total_size\":\"1\"\x7d"⟩

/-- The steps until the thread of the file waits for its first message. -/
def untilConnected : List ClientAct :=
  List.replicate 8 .proceed ++ .posts (fun _ => oneByteReply) :: List.replicate 5 .proceed ++
    .transfer (.fopen true) :: .transfer (.create .created) ::
      List.replicate 5 (.transfer (.call 0 true)) ++ [.transfer (.proceed 0)]

/-- What has arrived: the byte `65` on the socket of the first request, `66` on that of the second. -/
def arrived : Option ℕ → RecvResult
  | some 0 => .got (mkHeader 0 1 ++ [65])
  | some 1 => .got (mkHeader 0 1 ++ [66])
  | _ => .error

/-- The thread receives its file and stores it. -/
def receives : List ClientAct :=
  .transfer (.recv 0 arrived) :: List.replicate 5 (.transfer (.proceed 0))

/-- The consumer writes the output and returns. -/
def consumes : List ClientAct := List.replicate 6 (.transfer .judge)

/-- Both connect, the second last, and then the first goes on. -/
def mixedSteps : List (ClientAct ⊕ ClientAct) :=
  untilConnected.map .inl ++ untilConnected.map .inr ++ (receives ++ consumes).map .inl

/-- The second writes its data server before the first arrives. -/
def laterSteps : List (ClientAct ⊕ ClientAct) :=
  .inr .proceed :: .inr .proceed :: .inr .proceed :: (untilConnected ++ receives ++ consumes).map .inl

theorem allowed_laterSteps : Allowed (Interleave.step (Client.step Json.parse) (Client.step Json.parse))
    (LeavesAlone Json.parse (Client.start 0 localServer (some (oneByteJob "a")) []).outputPath)
    ⟨.start 0 localServer (some (oneByteJob "a")) [], .start 1 localServer (some (oneByteJob "b")) [],
      initialGlobals⟩ laterSteps := by
  have hpath : (Client.start 0 localServer (some (oneByteJob "a")) []).outputPath ≠
      (Client.start 1 localServer (some (oneByteJob "b")) []).outputPath := by decide
  have hinside : Allowed (Client.step Json.parse) (Inside Json.parse)
      (.start 1 localServer (some (oneByteJob "b")) [], initialGlobals) (List.replicate 3 .proceed) :=
    ⟨⟨by decide, id⟩, ⟨by decide, id⟩, ⟨by decide, id⟩, trivial⟩
  have hbefore := allowed_apart Json.parse (s := ⟨.start 0 localServer (some (oneByteJob "a")) [],
    .start 1 localServer (some (oneByteJob "b")) [], initialGlobals⟩) hpath (Or.inl rfl) hinside
  exact hbefore.append (allowed_map_inl (fun _ _ => trivial) _ (untilConnected ++ receives ++ consumes))

end Example

end ORaidServer
