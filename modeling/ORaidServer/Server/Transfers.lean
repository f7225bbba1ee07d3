import ORaidServer.Server.Leaks
import ORaidServer.Transfer.Quiesce

/-!
# The sockets of a transfer

A transfer in the process that it runs in: every system call of a file's thread is a step of both.

* `Transfer.Past`: a transfer that has stored anything has the buffers of every file;
* `Wired`, `Wired.step`: the transfer and the process together, with the rest of the process as it likes;
* `SockPc.places`: where a thread stands in one and in the other;
* `right_card_le`: the room in the table that a transfer has needed when it returns `RIGHT`.
-/

namespace ORaidServer

open Guarded Descriptors

/-! ### What a transfer has done by then -/

section Judge

variable {g : TGroupFileInfo} {out : OutFile} {j : JudgeLocal}

theorem judgeStep_xorSize (g : TGroupFileInfo) (out : OutFile) (j : JudgeLocal) :
    (judgeStep g out j).1.xorSize = g.xorSize ∨ ∃ k, j.pc = .xor k := by
  cases hpc : j.pc with
  | xor k => exact Or.inr ⟨k, rfl⟩
  | test k | resetFlag k i | loop =>
    refine Or.inl ?_
    simp only [judgeStep, hpc]
    split_ifs <;> rfl
  | resetNum k | done ret =>
    refine Or.inl ?_
    simp only [judgeStep, hpc]

/-- `RIGHT` says that all of the file is stored. -/
theorem judgeStep_right (h : (judgeStep g out j).2.2.pc = .done right)
    (hdone : j.pc = .done right → g.fileSize = g.xorSize) :
    (judgeStep g out j).1.fileSize = (judgeStep g out j).1.xorSize := by
  cases hpc : j.pc with
  | loop =>
    simp only [judgeStep, hpc] at h ⊢
    split_ifs at h with hflags
    rw [if_neg hflags]
    simp only [JudgePc.done.injEq] at h
    by_contra hne
    rw [verdict] at h
    split_ifs at h <;> exact absurd h (by decide)
  | done ret =>
    simp only [judgeStep, hpc] at h ⊢
    exact hdone (hpc.trans h)
  | test k | resetFlag k i =>
    simp only [judgeStep, hpc] at h
    split_ifs at h
  | xor k | resetNum k => simp [judgeStep, hpc] at h

end Judge


namespace Transfer

/-- Once something is stored the thread of every file is past its setup. -/
structure Past (n : ℕ) (s : Transfer) : Prop where
  buffers : BufInv n s
  early : s.main = .fopen ∨ (∃ i, s.main = .create i) → s.group.xorSize = 0
  setup : s.group.xorSize ≠ 0 → ∀ i < n, ¬ (s.thread i).pc.Setup ∧ (s.group.file i).ptr 0 ≠ .null
  right : s.judgeLocal.pc = .done right → s.group.fileSize = s.group.xorSize

variable {n : ℕ} {s : Transfer}

theorem past_init (n : ℕ) (fileSize : ℤ) (filePath : ℕ → List Byte) : Past n (init n fileSize filePath) :=
  ⟨BufInv.init n fileSize filePath, fun _ => rfl, fun h => absurd rfl h, fun h => by cases h⟩

/-- Past its setup a thread keeps its buffers. -/
theorem setup_move {N xorFlag : ℤ} {c c' : ThreadCtx} {a : ThreadAct} (hm : ThreadMove N xorFlag c a c')
    (hpc : ¬ c.thread.pc.Setup) (hptr : c.file.ptr 0 ≠ .null) :
    ¬ c'.thread.pc.Setup ∧ c'.file.ptr 0 ≠ .null := by
  cases hm with
  | stay _ => exact ⟨hpc, hptr⟩
  | connected pc h _ | unconnected h => rcases h with h | h | h <;> rw [h] at hpc <;> exact absurd trivial hpc
  | allocated k h _ | unallocated k ok h _ =>
    rw [h] at hpc
    exact absurd trivial hpc
  | start h =>
    rw [h] at hpc
    exact absurd trivial hpc
  | notice r _ _ => exact ⟨hpc, Ptr.noConfusion⟩
  | lost _ _ _ | closed _ _ _ _ | dismissed _ _ | fault r _ _ => exact ⟨not_false, hptr⟩
  | stray r failed _ _ _ _ =>
    refine ⟨fun hs => ?_,
      fun hp => hptr ((congrFun (congrArg SingleFileInfo.ptr (c.file_leave failed)) 0).symm.trans hp)⟩
    rcases c.pc_leave failed with h | h | h <;> rw [h] at hs <;> exact hs
  | reset r _ _ | call r _ _ _ _ | finish next _ _ _ => exact ⟨hpc, hptr⟩
  | write next _ _ _ => exact ⟨hpc, (congrFun (writeBufStep_ptr N c.writeCtx) 0).trans_ne hptr⟩

theorem Past.thread (h : s.Past n) (i : ℕ) (a : ThreadAct) : (s.step (.thread i a)).Past n := by
  have hbuffers := h.buffers.step (.thread i a)
  rcases Nat.lt_or_ge i s.group.fileNum with hi | hi
  · obtain ⟨c, hm, hs⟩ := s.step_thread hi a
    rw [hs] at hbuffers ⊢
    refine ⟨hbuffers, h.early, fun hx j hj => ?_, h.right⟩
    have hold := h.setup hx j hj
    rcases eq_or_ne j i with rfl | hji
    · have hkept := setup_move hm hold.1 hold.2
      simpa [setCtx, TGroupFileInfo.setFile] using hkept
    · rw [s.thread_setCtx_of_ne i c hji, s.file_setCtx_of_ne i c hji]
      exact hold
  · rw [s.step_thread_of_le hi]
    exact h

/-- The consumer takes a full buffer of every file. -/
theorem past_of_xor (h : BufInv n s) {k : Fin 2} (hpc : s.judgeLocal.pc = .xor k) {i : ℕ} (hi : i < n) :
    ¬ (s.thread i).pc.Setup ∧ (s.group.file i).ptr 0 ≠ .null := by
  have hfull := ((h.count fun _ => []).taken k (Or.inl hpc) i hi).1
  have hne : ((s.group.file i).buf k).flag ≠ .empty := fun he => absurd (he.symm.trans hfull) (by decide)
  exact ⟨fun hs => hne (((h.sound i hi).setup hs).2 k), (h.sound i hi).made (Or.inr (Or.inr ⟨k, hne⟩)) 0⟩

theorem Past.judge (h : s.Past n) {j : JudgeLocal} (hmain : s.main = .judge j) : (s.judgeStep j).Past n := by
  have hbuffers := h.buffers.judge hmain
  have hj : s.judgeLocal = j := by rw [judgeLocal, hmain]
  have hlocal : (s.judgeStep j).judgeLocal.pc = (ORaidServer.judgeStep s.group s.out j).2.2.pc := by
    unfold judgeLocal Transfer.judgeStep
    dsimp only
    cases hpc : (ORaidServer.judgeStep s.group s.out j).2.2.pc with
    | done ret => rfl
    | _ => exact hpc
  have hlate : ¬ ((s.judgeStep j).main = .fopen ∨ ∃ i, (s.judgeStep j).main = .create i) := by
    unfold Transfer.judgeStep
    dsimp only
    split <;> rintro (hm | ⟨i, hm⟩) <;> cases hm
  refine ⟨hbuffers, fun hm => absurd hm hlate, fun hx i hi => ?_, fun hd => ?_⟩
  · obtain ⟨-, hptr⟩ := judgeStep_completes s.group s.out j
    have hkept : ¬ (s.thread i).pc.Setup ∧ (s.group.file i).ptr 0 ≠ .null := by
      rcases judgeStep_xorSize s.group s.out j with hsame | ⟨k, hk⟩
      · exact h.setup (hsame ▸ hx) i hi
      · exact past_of_xor h.buffers ((congrArg JudgeLocal.pc hj).trans hk) hi
    refine ⟨hkept.1, ?_⟩
    have hnum : j.fileNum = n := hj ▸ (h.buffers.count fun _ => []).judgeNum
    show ((ORaidServer.judgeStep s.group s.out j).1.file i).ptr 0 ≠ .null
    rw [hptr i (hnum ▸ hi)]
    split_ifs
    · exact Ptr.noConfusion
    · exact hkept.2
  · rw [hlocal] at hd
    show (ORaidServer.judgeStep s.group s.out j).1.fileSize = (ORaidServer.judgeStep s.group s.out j).1.xorSize
    exact judgeStep_right hd fun hpc => h.right ((congrArg JudgeLocal.pc hj).trans hpc)

theorem Past.before (h : s.Past n) (hmain : s.main = .fopen ∨ ∃ i, s.main = .create i) {s' : Transfer}
    (hbuffers : BufInv n s') (hx : s'.group.xorSize = s.group.xorSize)
    (hpc : s'.judgeLocal.pc ≠ .done ORaidServer.right) : s'.Past n := by
  have hzero : s'.group.xorSize = 0 := hx.trans (h.early hmain)
  exact ⟨hbuffers, fun _ => hzero, fun hne => absurd hzero hne, fun hd => absurd hd hpc⟩

theorem nextMain_pc {s' : Transfer} {i : ℕ} (hmain : s'.main = s.nextMain i) :
    s'.judgeLocal.pc ≠ .done ORaidServer.right := by
  unfold nextMain at hmain
  rw [judgeLocal]
  split_ifs at hmain <;> simp [hmain]

theorem Past.step (h : s.Past n) (a : TransferAct) : (s.step a).Past n := by
  cases a with
  | thread i a => exact h.thread i a
  | judge =>
    rw [Transfer.step]
    split
    · rename_i j hmain
      exact h.judge hmain
    · exact h
  | fopen ok =>
    have hbuffers := h.buffers.step (.fopen ok)
    rw [Transfer.step] at hbuffers ⊢
    split at hbuffers
    · rename_i hmain
      refine h.before (Or.inl hmain) hbuffers rfl ?_
      cases ok
      · simp [judgeLocal, errorCreatTransmissionDataConnection, ORaidServer.right]
      · exact nextMain_pc rfl
    · exact h
  | create r =>
    have hbuffers := h.buffers.step (.create r)
    rw [Transfer.step] at hbuffers ⊢
    split at hbuffers
    · rename_i i hmain
      cases r with
      | created => exact h.before (Or.inr ⟨i, hmain⟩) hbuffers rfl (nextMain_pc rfl)
      | noArg | noThread =>
        exact h.before (Or.inr ⟨i, hmain⟩) hbuffers rfl
          (by simp [create, judgeLocal, errorCreatTransmissionDataConnection, ORaidServer.right])
    · exact h

end Transfer

/-! ### The transfer in its process -/

namespace SockPc

/-- Before a system call that is neither `malloc` nor `recv`, of a thread that finds its own event in the record. -/
def Calls : SockPc → Prop
  | .unborn | .malloc _ _ _ | .dispatch _ _ | .stray _ _ | .closeStray _ _ | .exited _ _ => False
  | _ => True

instance : (pc : SockPc) → Decidable pc.Calls
  | .unborn | .malloc _ _ _ | .dispatch _ _ | .stray _ _ | .closeStray _ _ | .exited _ _ => isFalse not_false
  | .socket | .setrlimit _ | .socketAgain _ | .bind _ _ | .inetAton _ _ | .connect _ _ | .select _ _ | .header _ _
  | .fail _ _ | .close _ _ | .closeAgain _ _ => isTrue trivial

/-- Whether a system call has ended a call of the thread's setup, and how. -/
def report : SockPc → SockPc → Option Bool
  | .socket, .setrlimit _ | .connect _ _, .header _ _ | .select _ _, .header _ _
  | .header _ _, .malloc _ _ _ => some true
  | .socket, .exited _ _ | .setrlimit _, .exited _ _ | .socketAgain _, .exited _ _
  | .fail _ _, .exited _ _ => some false
  | _, _ => none

/-- Where the transfer has a thread that stands here.  It has none in the loop behind `close`: the event that the
thread has removed is its own. -/
def places : SockPc → List ThreadPc
  | .unborn => [.unborn]
  | .socket => [.socket]
  | .setrlimit _ | .socketAgain _ | .bind _ _ | .inetAton _ _ | .connect _ _ | .select _ _ => [.connect]
  | .fail _ _ => [.connect, .header]
  | .header _ _ => [.header]
  | .malloc k _ _ => [.malloc k]
  | .dispatch _ _ => [.start, .dispatch, .faulted]
  | .close _ _ | .closeAgain _ _ | .exited _ _ => [.exited]
  | .stray _ _ | .closeStray _ _ => []

/-- A system call takes the thread on in both, when it ends a call of the setup. -/
theorem places_step {pc : SockPc} (hcalls : pc.Calls) (i : ℕ) (t : Table Holder) {x : SockAct} (hx : x ≠ .stay)
    {c : ThreadCtx} (hplace : c.thread.pc ∈ pc.places) :
    ((pc.report (pc.step i t x).2).elim c c.call).thread.pc ∈ (pc.step i t x).2.places ∧
      ((pc.report (pc.step i t x).2).elim c c.call).file = c.file := by
  cases pc with
  | unborn | malloc k a b | dispatch a b | stray a b | closeStray a b | exited a b => exact hcalls.elim
  | socket =>
    have hpc : c.thread.pc = .socket := by simpa [places] using hplace
    cases x with
    | call ok =>
      rw [step]
      cases (if ok then t.acquire (.first i) else none) <;>
        simp [report, places, ThreadCtx.call, hpc, ThreadCtx.goto, ThreadCtx.fail]
    | _ => exact ⟨hplace, rfl⟩
  | setrlimit a =>
    have hpc : c.thread.pc = .connect := by simpa [places] using hplace
    cases x with
    | call ok => cases ok <;> simp [step, report, places, ThreadCtx.call, hpc, ThreadCtx.fail]
    | _ => exact ⟨hplace, rfl⟩
  | socketAgain a =>
    have hpc : c.thread.pc = .connect := by simpa [places] using hplace
    cases x with
    | call ok =>
      rw [step]
      cases (if ok then t.acquire (.second i) else none) <;>
        simp [report, places, ThreadCtx.call, hpc, ThreadCtx.fail]
    | _ => exact ⟨hplace, rfl⟩
  | bind a b | inetAton a b =>
    have hpc : c.thread.pc = .connect := by simpa [places] using hplace
    cases x with
    | call ok => cases ok <;> simp [step, report, places, hpc]
    | _ => exact ⟨hplace, rfl⟩
  | connect a b =>
    have hpc : c.thread.pc = .connect := by simpa [places] using hplace
    cases x with
    | connect r => cases r <;> simp [step, report, places, ThreadCtx.call, hpc, ThreadCtx.goto]
    | _ => exact ⟨hplace, rfl⟩
  | select a b =>
    have hpc : c.thread.pc = .connect := by simpa [places] using hplace
    cases x with
    | select r => cases hr : r.passes <;> simp [step, hr, report, places, ThreadCtx.call, hpc, ThreadCtx.goto]
    | _ => exact ⟨hplace, rfl⟩
  | header a b =>
    have hpc : c.thread.pc = .header := by simpa [places] using hplace
    cases x with
    | call ok => cases ok <;> simp [step, report, places, ThreadCtx.call, hpc, ThreadCtx.goto]
    | _ => exact ⟨hplace, rfl⟩
  | fail a b =>
    have hpc : c.thread.pc = .connect ∨ c.thread.pc = .header := by simpa [places] using hplace
    cases x with
    | proceed =>
      rcases hpc with hpc | hpc <;> simp [step, report, places, ThreadCtx.call, hpc, ThreadCtx.fail]
    | _ => exact ⟨hplace, rfl⟩
  | close a b =>
    cases x with
    | stay => exact absurd rfl hx
    | _ => exact ⟨hplace, rfl⟩
  | closeAgain a b => cases x <;> exact ⟨hplace, rfl⟩

/-- The `malloc` of a buffer takes the thread on in both. -/
theorem places_malloc {k : Fin 2} {a b : ℕ} (i : ℕ) (t : Table Holder) (ok : Bool) {c : ThreadCtx}
    (hplace : c.thread.pc ∈ (malloc k a b).places) :
    (c.call ok).thread.pc ∈ ((malloc k a b).step i t (.call (ok && c.correctFlag != -1))).2.places := by
  have hpc : c.thread.pc = .malloc k := by simpa [places] using hplace
  rw [ThreadCtx.call, hpc]
  unfold ThreadCtx.malloc
  by_cases hfail : ok = false ∨ c.correctFlag = -1
  · have hok : (ok && c.correctFlag != -1) = false := by
      rcases hfail with rfl | hflag
      · rfl
      · simp [hflag]
    dsimp only
    rw [if_pos hfail, hok]
    simp [step, places, ThreadCtx.goto]
  · have hok : (ok && c.correctFlag != -1) = true := by
      obtain ⟨hok, hflag⟩ := not_or.1 hfail
      simp [hflag, hok]
    dsimp only
    rw [if_neg hfail, hok]
    rcases Fin.exists_fin_two.1 ⟨k, rfl⟩ with rfl | rfl <;> simp [step, places, ThreadCtx.goto]

/-- In its event loop a thread stays there, or its event is removed. -/
theorem places_dispatch {a b : ℕ} {N xorFlag : ℤ} {c c' : ThreadCtx} {x : ThreadAct}
    (hm : ThreadMove N xorFlag c x c') (hown : c.Own) (hplace : c.thread.pc ∈ (dispatch a b).places) :
    c'.thread.pc ∈ (dispatch a b).places ∨ c'.thread.pc = .exited ∧ ∃ r, x = .recv r := by
  have hdispatch : ThreadPc.dispatch ∈ (dispatch a b).places := by simp [places]
  have hsetup : c.thread.pc = .start ∨ c.thread.pc = .dispatch ∨ c.thread.pc = .faulted := by
    simpa [places] using hplace
  cases hm with
  | stay _ => exact Or.inl hplace
  | connected pc h _ | unconnected h =>
    exfalso
    rcases h with h | h | h <;> simp [h] at hsetup
  | allocated k h _ | unallocated k ok h _ =>
    exfalso
    simp [h] at hsetup
  | start _ => exact Or.inl hdispatch
  | lost _ _ _ | closed _ _ _ _ => exact Or.inr ⟨rfl, _, rfl⟩
  | stray r failed hw _ hloop _ => exact absurd (hown.hasLoop hw.1) hloop
  | dismissed hw hended => exact absurd (hended.symm.trans (hown.hasLoop hw.1).2.2) Bool.noConfusion
  | fault r _ _ => exact Or.inl (by simp [places, ThreadCtx.goto])
  | notice r _ _ | reset r _ _ | call r _ _ _ _ | finish next _ _ _ | write next _ _ _ => exact Or.inl hplace

end SockPc

/-- A transfer, whose thread `i` is the thread `base + i` of the process. -/
structure Wired where
  process : Process
  transfer : Transfer
  base : ℕ

/-- What happens next to a transfer in its process. -/
inductive WiredAct
  | fopen (ok : Bool)
  | create (r : CreateResult)
  /-- a step of `judge_xor_condition` -/
  | judge
  /-- a system call of the thread of file `i` up to `socket_write_header`, or one of its calls of `close` -/
  | sock (i : ℕ) (x : SockAct)
  | malloc (i : ℕ) (ok : Bool)
  | recv (i : ℕ) (r : RecvResult)
  /-- the thread of file `i` goes on by itself -/
  | proceed (i : ℕ)
  /-- a step of anybody else -/
  | other (x : ProcessAct)

namespace Wired

/-- Where the thread of file `i` stands. -/
def pc (s : Wired) (i : ℕ) : SockPc := s.process.sock (s.base + i)

/-- What the step is for the transfer. -/
def transferAct (s : Wired) : WiredAct → Option TransferAct
  | .fopen ok => some (.fopen ok)
  | .create r => some (.create r)
  | .judge => some .judge
  | .sock i x =>
    if (s.pc i).Calls ∧ x ≠ .stay then
      ((s.pc i).report ((s.pc i).step (s.base + i) s.process.table x).2).map fun ok => .thread i (.call ok)
    else none
  | .malloc i ok =>
    match s.pc i with
    | .malloc _ _ _ => some (.thread i (.call ok))
    | _ => none
  | .recv i r =>
    match s.pc i with
    | .dispatch _ _ => some (.thread i (.recv r))
    | _ => none
  | .proceed i =>
    match s.pc i with
    | .dispatch _ _ => some (.thread i .proceed)
    | _ => none
  | .other _ => none

/-- The transfer after the step. -/
def nextTransfer (s : Wired) (a : WiredAct) : Transfer := (s.transferAct a).elim s.transfer s.transfer.step

/-- What the step is for the process. -/
def processAct (s : Wired) : WiredAct → Option ProcessAct
  | .create .created =>
    match s.transfer.main with
    | .create i => some (.sock (s.base + i) .create)
    | _ => none
  | .sock i x =>
    if i < s.transfer.group.fileNum ∧ (s.pc i).Calls ∧ x ≠ .stay then some (.sock (s.base + i) x) else none
  | .malloc i ok =>
    match s.pc i with
    | .malloc _ _ _ =>
      if i < s.transfer.group.fileNum then
        some (.sock (s.base + i) (.call (ok && s.transfer.group.correctFlag != -1)))
      else none
    | _ => none
  | .recv i r =>
    match s.pc i with
    | .dispatch _ _ =>
      if i < s.transfer.group.fileNum ∧ ((s.nextTransfer (.recv i r)).thread i).pc = .exited then
        some (.sock (s.base + i) .over)
      else none
    | _ => none
  | .other x => if ∀ i < s.transfer.group.fileNum, x.file ≠ some (s.base + i) then some x else none
  | .fopen _ | .create _ | .judge | .proceed _ => none

/-- One step. -/
def step (s : Wired) (a : WiredAct) : Wired :=
  { s with process := (s.processAct a).elim s.process s.process.step, transfer := s.nextTransfer a }

/-- The start of a transfer in the process `p`. -/
def start (p : Process) (base n : ℕ) (fileSize : ℤ) (filePath : ℕ → List Byte) : Wired :=
  ⟨p, .init n fileSize filePath, base⟩

/-- Nobody closes a socket once more while its number is in use again. -/
def Undisturbed (s : Wired) (a : WiredAct) : Prop := ∀ x ∈ s.processAct a, s.process.Undisturbed x

/-- The two of them agree on the threads of the `n` files. -/
structure Inv (n : ℕ) (s : Wired) : Prop where
  past : s.transfer.Past n
  place : ∀ i < n, (s.transfer.thread i).pc ∈ (s.pc i).places
  made : ∀ i < n, (s.pc i).first = none → (s.transfer.group.file i).ptr 0 = .null

variable {n : ℕ} {s : Wired}

theorem past_next (h : s.transfer.Past n) (a : WiredAct) : (s.nextTransfer a).Past n := by
  unfold nextTransfer
  cases s.transferAct a with
  | none => exact h
  | some b => exact h.step b

/-- A step of the thread of file `j`. -/
theorem Inv.thread (h : s.Inv n) (j : ℕ) {s' : Wired} {c : ThreadCtx} (hpast : s'.transfer.Past n)
    (htransfer : s'.transfer = s.transfer.setCtx j c) (hpc : ∀ i ≠ j, s'.pc i = s.pc i)
    (hplace : c.thread.pc ∈ (s'.pc j).places) (hmade : (s'.pc j).first = none → c.file.ptr 0 = .null) :
    s'.Inv n := by
  refine ⟨hpast, fun i hi => ?_, fun i hi hfirst => ?_⟩ <;> rw [htransfer] <;> rcases eq_or_ne i j with rfl | hij
  · simpa [Transfer.setCtx] using hplace
  · rw [hpc i hij, s.transfer.thread_setCtx_of_ne j c hij]
    exact h.place i hi
  · simpa [Transfer.setCtx, TGroupFileInfo.setFile] using hmade hfirst
  · rw [hpc i hij] at hfirst
    rw [s.transfer.file_setCtx_of_ne j c hij]
    exact h.made i hi hfirst

theorem pc_step_none {a : WiredAct} (ha : s.processAct a = none) (i : ℕ) : (s.step a).pc i = s.pc i := by
  rw [step, pc, ha]
  rfl

theorem pc_step {a : WiredAct} {x : ProcessAct} (ha : s.processAct a = some x) (i : ℕ) :
    (s.step a).pc i = (s.process.step x).sock (s.base + i) := by
  rw [step, pc, ha]
  rfl

theorem pc_step_self {a : WiredAct} {j : ℕ} {x : SockAct} (ha : s.processAct a = some (.sock (s.base + j) x)) :
    (s.step a).pc j = ((s.pc j).step (s.base + j) s.process.table x).2 :=
  (pc_step ha j).trans (Process.sock_step_self _ _)

theorem pc_step_of_ne {a : WiredAct} {j : ℕ} {x : SockAct} (ha : s.processAct a = some (.sock (s.base + j) x))
    {i : ℕ} (hij : i ≠ j) : (s.step a).pc i = s.pc i := by
  rw [pc_step ha, Process.sock_step_of_ne]
  · rfl
  · intro heq
    have heq' : s.base + j = s.base + i := Option.some.inj heq
    omega

/-- A thread never loses its first socket. -/
theorem first_step {a : WiredAct} {i : ℕ} (h : ((s.step a).pc i).first = none) : (s.pc i).first = none := by
  by_contra hne
  obtain ⟨d, hd⟩ := Option.ne_none_iff_exists'.1 hne
  cases ha : s.processAct a with
  | none =>
    rw [pc_step_none ha] at h
    exact hne h
  | some x =>
    rw [pc_step ha, Process.first_step hd x] at h
    cases h

/-- A system call of a thread. -/
theorem Inv.sock (h : s.Inv n) {j : ℕ} (hj : j < n) {x : SockAct} (hcalls : (s.pc j).Calls ∧ x ≠ .stay) :
    (s.step (.sock j x)).Inv n := by
  have hnum := h.past.buffers.fileNum
  have ha : s.processAct (.sock j x) = some (.sock (s.base + j) x) := if_pos ⟨hnum ▸ hj, hcalls⟩
  have hself := pc_step_self ha
  obtain ⟨hplace, hfile⟩ := SockPc.places_step hcalls.1 (s.base + j) s.process.table hcalls.2
    (c := s.transfer.ctx j) (h.place j hj)
  refine h.thread j (past_next h.past _)
    (c := ((s.pc j).report ((s.pc j).step (s.base + j) s.process.table x).2).elim (s.transfer.ctx j)
      (s.transfer.ctx j).call) ?_ (fun i hij => pc_step_of_ne ha hij) (hself ▸ hplace) fun hfirst => ?_
  · show s.nextTransfer (.sock j x) = _
    rw [nextTransfer, transferAct, if_pos hcalls]
    cases (s.pc j).report ((s.pc j).step (s.base + j) s.process.table x).2 with
    | none => exact (Transfer.setCtx_ctx s.transfer j).symm
    | some ok => exact if_pos (hnum ▸ hj)
  · rw [hfile]
    exact h.made j hj (first_step hfirst)

/-- The `malloc` of a buffer. -/
theorem Inv.malloc (h : s.Inv n) {j : ℕ} (hj : j < n) {k : Fin 2} {a b : ℕ} (hpc : s.pc j = .malloc k a b)
    (ok : Bool) : (s.step (.malloc j ok)).Inv n := by
  have hnum := h.past.buffers.fileNum
  have ha : s.processAct (.malloc j ok) =
      some (.sock (s.base + j) (.call (ok && s.transfer.group.correctFlag != -1))) := by
    simp only [processAct, hpc]
    exact if_pos (hnum ▸ hj)
  have hself := pc_step_self ha
  have hplace := h.place j hj
  rw [hpc] at hplace hself
  refine h.thread j (past_next h.past _) (c := (s.transfer.ctx j).call ok) ?_ (fun i hij => pc_step_of_ne ha hij)
    (hself ▸ SockPc.places_malloc _ _ ok hplace) fun hfirst => ?_
  · show s.nextTransfer (.malloc j ok) = _
    simp only [nextTransfer, transferAct, hpc]
    exact if_pos (hnum ▸ hj)
  · have hnone := first_step hfirst
    rw [hpc] at hnone
    cases hnone

/-- What happens in the event loop. -/
theorem Inv.dispatch (h : s.Inv n) {j : ℕ} (hj : j < n) {a b : ℕ} (hpc : s.pc j = .dispatch a b) {x : WiredAct}
    (hx : (∃ r, x = .recv j r) ∨ x = .proceed j) : (s.step x).Inv n := by
  have hj' : j < s.transfer.group.fileNum := h.past.buffers.fileNum ▸ hj
  obtain ⟨y, hy⟩ : ∃ y, s.transferAct x = some (.thread j y) := by
    rcases hx with ⟨r, rfl⟩ | rfl <;> simp only [transferAct, hpc]
    · exact ⟨_, rfl⟩
    · exact ⟨_, rfl⟩
  obtain ⟨c, hm, hc⟩ := s.transfer.step_thread hj' y
  have hnext : s.nextTransfer x = s.transfer.setCtx j c := by
    rw [nextTransfer, hy]
    exact hc
  have hplace := h.place j hj
  rw [hpc] at hplace
  have hthread : ((s.nextTransfer x).thread j).pc = c.thread.pc := by
    rw [hnext]
    simp [Transfer.setCtx]
  have hfirst : (s.pc j).first ≠ none := by
    rw [hpc]
    exact Option.some_ne_none a
  rcases SockPc.places_dispatch hm (h.past.buffers.own.thread j) hplace with hstay | ⟨hexit, r, rfl⟩
  · have ha : s.processAct x = none := by
      rcases hx with ⟨r, rfl⟩ | rfl
      · simp only [processAct, hpc]
        refine if_neg fun hexit => ?_
        rw [hthread] at hexit
        rw [hexit.2] at hstay
        simp [SockPc.places] at hstay
      · rfl
    refine h.thread j (past_next h.past x) hnext (fun i _ => pc_step_none ha i) ?_ fun hnone => ?_
    · rw [pc_step_none ha, hpc]
      exact hstay
    · exact absurd (first_step hnone) hfirst
  · obtain rfl : x = .recv j r := by
      rcases hx with ⟨r', rfl⟩ | rfl <;> simp only [transferAct, hpc] at hy <;> cases hy
      rfl
    have ha : s.processAct (.recv j r) = some (.sock (s.base + j) .over) := by
      simp only [processAct, hpc]
      exact if_pos ⟨hj', hthread.trans hexit⟩
    have hself := pc_step_self ha
    refine h.thread j (past_next h.past _) hnext (fun i hij => pc_step_of_ne ha hij) ?_ fun hnone => ?_
    · rw [hself, hpc, hexit]
      simp [SockPc.step, SockPc.places]
    · exact absurd (first_step hnone) hfirst

/-- A step of nobody's thread in the transfer, or of nobody in the process. -/
theorem Inv.quiet (h : s.Inv n) {s' : Wired} (hpast : s'.transfer.Past n) (hpc : ∀ i < n, s'.pc i = s.pc i)
    (hthread : ∀ i < n, (s'.transfer.thread i).pc = (s.transfer.thread i).pc)
    (hptr : ∀ i < n, (s.transfer.group.file i).ptr 0 = .null → (s'.transfer.group.file i).ptr 0 = .null) :
    s'.Inv n := by
  refine ⟨hpast, fun i hi => ?_, fun i hi hfirst => ?_⟩
  · rw [hthread i hi, hpc i hi]
    exact h.place i hi
  · rw [hpc i hi] at hfirst
    exact hptr i hi (h.made i hi hfirst)

/-- The creation of a thread. -/
theorem Inv.create (h : s.Inv n) (r : CreateResult) : (s.step (.create r)).Inv n := by
  have hpast : (s.step (.create r)).transfer.Past n := past_next h.past (.create r)
  have hfile : ∀ i, ((s.step (.create r)).transfer.group.file i) = s.transfer.group.file i := by
    intro i
    show ((s.transfer.step (.create r)).group.file i) = _
    rw [Transfer.step]
    split
    · cases r <;> rfl
    · rfl
  by_cases hnew : r = .created ∧ ∃ l, s.transfer.main = .create l
  · obtain ⟨rfl, l, hmain⟩ := hnew
    have ha : s.processAct (.create .created) = some (.sock (s.base + l) .create) := by
      simp only [processAct, hmain]
    have hthread : (s.step (.create .created)).transfer.thread =
        Function.update s.transfer.thread l { s.transfer.thread l with pc := .socket } := by
      show (s.transfer.step (.create .created)).thread = _
      rw [Transfer.step, hmain]
      rfl
    refine ⟨hpast, fun i hi => ?_, fun i hi hfirst => ?_⟩
    · rw [hthread]
      rcases eq_or_ne i l with rfl | hil
      · have hunborn := h.past.buffers.unborn i (Or.inr ⟨i, hmain, le_rfl⟩)
        have hplace := h.place i hi
        rw [hunborn] at hplace
        have hpc : s.pc i = .unborn := by
          cases hpc : s.pc i <;> simp_all [SockPc.places]
        rw [pc_step_self ha, hpc]
        simp [SockPc.step, SockPc.places]
      · rw [Function.update_of_ne hil, pc_step_of_ne ha hil]
        exact h.place i hi
    · rw [hfile]
      exact h.made i hi (first_step hfirst)
  · have ha : s.processAct (.create r) = none := by
      cases r with
      | created =>
        simp only [processAct]
        split
        · rename_i l hmain
          exact absurd ⟨rfl, l, hmain⟩ hnew
        · rfl
      | noArg | noThread => rfl
    refine h.quiet hpast (fun i _ => pc_step_none ha i) (fun i _ => ?_) fun i _ hptr => ?_
    · show ((s.transfer.step (.create r)).thread i).pc = _
      rw [Transfer.step]
      split
      · rename_i l hmain
        cases r with
        | created => exact absurd ⟨rfl, l, hmain⟩ hnew
        | noArg | noThread => rfl
      · rfl
    · rw [hfile]
      exact hptr

/-- A step of the function that waits. -/
theorem Inv.judge (h : s.Inv n) : (s.step .judge).Inv n := by
  refine h.quiet (past_next h.past .judge) (fun i _ => pc_step_none rfl i) (fun i _ => ?_) fun i hi hptr => ?_
  · show ((s.transfer.step .judge).thread i).pc = _
    rw [Transfer.step]
    split <;> rfl
  · show ((s.transfer.step .judge).group.file i).ptr 0 = .null
    rw [Transfer.step]
    split
    · rename_i j hmain
      have hj : s.transfer.judgeLocal = j := by rw [Transfer.judgeLocal, hmain]
      have hnum : j.fileNum = n := hj ▸ (h.past.buffers.count fun _ => []).judgeNum
      obtain ⟨-, hptr'⟩ := judgeStep_completes s.transfer.group s.transfer.out j
      show ((judgeStep s.transfer.group s.transfer.out j).1.file i).ptr 0 = .null
      rw [hptr' i (hnum ▸ hi), if_neg, hptr]
      rintro ⟨k, hk, -⟩
      exact (Transfer.past_of_xor h.past.buffers ((congrArg JudgeLocal.pc hj).trans hk) hi).2 hptr
    · exact hptr

theorem Inv.step (h : s.Inv n) (a : WiredAct) : (s.step a).Inv n := by
  have hpast : (s.step a).transfer.Past n := past_next h.past a
  -- a step that is none for the transfer and none for its threads
  have hskip : s.nextTransfer a = s.transfer → (∀ i < n, (s.step a).pc i = s.pc i) → (s.step a).Inv n := by
    intro hnext hpc
    have hnext' : (s.step a).transfer = s.transfer := hnext
    refine h.quiet hpast hpc (fun i _ => ?_) fun i _ hptr => ?_ <;> rw [hnext']
    exact hptr
  have hnum := h.past.buffers.fileNum
  have hnone : s.transferAct a = none → s.nextTransfer a = s.transfer := fun ha => by
    rw [nextTransfer, ha]
    rfl
  have hout : ∀ y {j}, n ≤ j → s.transferAct a = some (.thread j y) → s.nextTransfer a = s.transfer := by
    intro y j hj ha
    rw [nextTransfer, ha]
    exact s.transfer.step_thread_of_le (hnum.le.trans hj) y
  cases a with
  | create r => exact h.create r
  | judge => exact h.judge
  | fopen ok =>
    refine h.quiet hpast (fun i _ => pc_step_none rfl i) (fun i _ => ?_) fun i _ hptr => ?_
    · show ((s.transfer.step (.fopen ok)).thread i).pc = _
      rw [Transfer.step]
      split <;> rfl
    · show ((s.transfer.step (.fopen ok)).group.file i).ptr 0 = .null
      rw [Transfer.step]
      split <;> exact hptr
  | sock j x =>
    by_cases hj : j < n ∧ (s.pc j).Calls ∧ x ≠ .stay
    · exact h.sock hj.1 hj.2
    · have ha : s.processAct (.sock j x) = none := if_neg (by rwa [hnum])
      refine hskip ?_ fun i _ => pc_step_none ha i
      by_cases hcalls : (s.pc j).Calls ∧ x ≠ .stay
      · have hj' : n ≤ j := not_lt.1 fun hlt => hj ⟨hlt, hcalls⟩
        cases hreport : (s.pc j).report ((s.pc j).step (s.base + j) s.process.table x).2 with
        | none => exact hnone (by rw [transferAct, if_pos hcalls, hreport]; rfl)
        | some ok => exact hout (.call ok) hj' (by rw [transferAct, if_pos hcalls, hreport]; rfl)
      · exact hnone (if_neg hcalls)
  | malloc j ok =>
    cases hpc : s.pc j with
    | malloc k a b =>
      rcases Nat.lt_or_ge j n with hj | hj
      · exact h.malloc hj hpc ok
      · have ha : s.processAct (.malloc j ok) = none := by
          simp only [processAct, hpc]
          exact if_neg (by omega)
        exact hskip (hout (.call ok) hj (by simp only [transferAct, hpc])) fun i _ => pc_step_none ha i
    | _ => exact hskip (hnone (by simp only [transferAct, hpc])) fun i _ =>
        pc_step_none (by simp only [processAct, hpc]) i
  | recv j r =>
    cases hpc : s.pc j with
    | dispatch a b =>
      rcases Nat.lt_or_ge j n with hj | hj
      · exact h.dispatch hj hpc (Or.inl ⟨r, rfl⟩)
      · have ha : s.processAct (.recv j r) = none := by
          simp only [processAct, hpc]
          exact if_neg (by omega)
        exact hskip (hout (.recv r) hj (by simp only [transferAct, hpc])) fun i _ => pc_step_none ha i
    | _ => exact hskip (hnone (by simp only [transferAct, hpc])) fun i _ =>
        pc_step_none (by simp only [processAct, hpc]) i
  | proceed j =>
    cases hpc : s.pc j with
    | dispatch a b =>
      rcases Nat.lt_or_ge j n with hj | hj
      · exact h.dispatch hj hpc (Or.inr rfl)
      · exact hskip (hout .proceed hj (by simp only [transferAct, hpc])) fun i _ => pc_step_none rfl i
    | _ => exact hskip (hnone (by simp only [transferAct, hpc])) fun i _ => pc_step_none rfl i
  | other x =>
    refine hskip (hnone rfl) fun i hi => ?_
    by_cases hx : ∀ i < s.transfer.group.fileNum, x.file ≠ some (s.base + i)
    · have ha : s.processAct (.other x) = some x := if_pos hx
      rw [pc_step ha, Process.sock_step_of_ne (hx i (hnum ▸ hi))]
      rfl
    · have ha : s.processAct (.other x) = none := if_neg hx
      exact pc_step_none ha i

theorem inv_start {p : Process} {base : ℕ} (hbase : ∀ i < n, p.sock (base + i) = .unborn) (fileSize : ℤ)
    (filePath : ℕ → List Byte) : (start p base n fileSize filePath).Inv n := by
  refine ⟨Transfer.past_init n fileSize filePath, fun i hi => ?_, fun i hi _ => rfl⟩
  rw [show (start p base n fileSize filePath).pc i = .unborn from hbase i hi]
  exact List.mem_cons_self

theorem fileSize_next (s : Wired) (a : WiredAct) :
    (s.nextTransfer a).group.fileSize = s.transfer.group.fileSize := by
  unfold nextTransfer
  cases s.transferAct a with
  | none => rfl
  | some b =>
    by_cases hb : ∃ i x, b = .thread i x
    · obtain ⟨i, x, rfl⟩ := hb
      show (s.transfer.step (.thread i x)).group.fileSize = _
      rw [Transfer.step]
      split_ifs <;> rfl
    · push Not at hb
      exact (s.transfer.frame_step hb).2.1

/-- The steps of the process in a run. -/
theorem reach_process {t : Wired} (h : Reach step Undisturbed s t) :
    Reach Process.step Process.Undisturbed s.process t.process := by
  induction h with
  | refl => exact .refl
  | @tail u a _ ha ih =>
    show Reach _ _ _ ((u.processAct a).elim u.process u.process.step)
    cases hx : u.processAct a with
    | none => exact ih
    | some x => exact ih.tail (ha x hx)

instance (s : Wired) (a : WiredAct) : Decidable (s.Undisturbed a) :=
  inferInstanceAs (Decidable (∀ x ∈ s.processAct a, s.process.Undisturbed x))

end Wired

section Runs

variable {L base n : ℕ} {rest S : Finset ℕ} {p : Process} {fileSize : ℤ} {filePath : ℕ → List Byte} {s : Wired}

/-- A transfer of one file of one byte. -/
def oneByteTransfer : List WiredAct :=
  [.fopen true, .create .created, .sock 0 (.call true), .sock 0 (.call true), .sock 0 (.call true),
    .sock 0 (.call true), .sock 0 (.call true), .sock 0 (.connect .done), .sock 0 (.call true), .malloc 0 true,
    .malloc 0 true, .proceed 0, .recv 0 (.got (mkHeader 0 1 ++ [65]))] ++
    List.replicate 5 (.proceed 0) ++ List.replicate 6 .judge

end Runs

end ORaidServer
