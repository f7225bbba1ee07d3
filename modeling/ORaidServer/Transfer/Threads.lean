import ORaidServer.Group.Judge
import ORaidServer.Lib.Guarded
import ORaidServer.Wire.Callback

/-!
# The transfer of a group

`create_client_connect_data_server` with the threads that it creates, one per file, each running
`process_in_new_thread_file_num`: a connection is set up, the two buffers are allocated, and from then on
every read event of the connection calls `socket_read_file_data`.

* `ThreadCtx`, what a thread reads and writes, and `threadStep`, one step of it;
* `ThreadMove`, what a step of a thread can do;
* `Transfer`, the group with its threads and the function that created them, and `Transfer.step`;
* lemmas that say what a step of a thread leaves alone.

What the outside world does is part of the step: the result of a call, the result of `recv` on the descriptor
that the record of the file holds.
-/

namespace ORaidServer

/-- Where a thread stands. -/
inductive ThreadPc
  /-- not created yet -/
  | unborn
  /-- before `socket` -/
  | socket
  /-- before `connect_to_server` -/
  | connect
  /-- before `socket_write_header` -/
  | header
  /-- before the `malloc` of buffer `k` -/
  | malloc (k : Fin 2)
  /-- before the flags are set up and the event is added -/
  | start
  /-- in the event loop -/
  | dispatch
  /-- gone after an access outside of the received bytes -/
  | faulted
  /-- returned, or about to return because its event is removed -/
  | exited
  deriving DecidableEq, Repr

/-- A thread: the request that has created it, its place, its `write_buf` call, and, during a callback, what is
left to do after that call.  `noticed` is not in the source and no modelled function reads it: it records that a
callback of this thread has found the group over and has freed the buffers. -/
structure FileThread where
  request : ℕ
  pc : ThreadPc
  loc : WriteLocal
  next : Option AfterWrite
  noticed : Bool
  deriving DecidableEq, Repr

/-- A thread that a request is to create. -/
def FileThread.new (request : ℕ) : FileThread := ⟨request, .unborn, ⟨.idle, [], false⟩, none, false⟩

/-- What the thread of a file reads and writes.  `ended` says of which requests the event of this file is removed
and freed and the loop is told to leave. -/
structure ThreadCtx where
  file : SingleFileInfo
  num : Fin 2 → ℕ
  correctFlag : ℤ
  thread : FileThread
  ended : ℕ → Bool

/-- What happens next to a thread. -/
inductive ThreadAct
  /-- the next call of its setup succeeds or not -/
  | call (ok : Bool)
  /-- the read event, with the result of `recv` -/
  | recv (r : RecvResult)
  /-- it goes on by itself -/
  | proceed
  deriving DecidableEq, Repr

namespace ThreadCtx

/-- Go on at `pc`. -/
def goto (c : ThreadCtx) (pc : ThreadPc) : ThreadCtx := { c with thread.pc := pc }

/-- Raise `correct_flag` and leave. -/
def fail (c : ThreadCtx) : ThreadCtx := { c with correctFlag := -1, thread.pc := .exited }

/-- The part that `write_buf` works on. -/
def writeCtx (c : ThreadCtx) : FileCtx := ⟨c.file, c.num, c.thread.loc⟩

/-- `write_buf` has taken a step. -/
def setWriteCtx (c : ThreadCtx) (w : FileCtx) : ThreadCtx :=
  { c with file := w.info, num := w.num, thread.loc := w.loc }

/-- The pointer to buffer `k` is another one.  What was stored is not there any more; the content of the new
block, which is indeterminate, is zero here. -/
def setPtr (c : ThreadCtx) (k : Fin 2) (p : Ptr) : ThreadCtx :=
  let b := c.file.buf k
  { c with
    file := (c.file.setBuf k { b with bytes := List.replicate b.bufSize 0 }).withPtr
      (Function.update c.file.ptr k p) }

/-- The `malloc` of buffer `k` and the test after it.  The error branch compares `correct_flag` with `-1`
where it means to set it. -/
def malloc (c : ThreadCtx) (k : Fin 2) (ok : Bool) : ThreadCtx :=
  let c' := c.setPtr k (if ok then .live c.thread.request else .null)
  if ok = false ∨ c.correctFlag = -1 then c'.goto .exited
  else c'.goto (if k = 0 then .malloc 1 else .start)

/-- A call of the setup, with its result. -/
def call (c : ThreadCtx) (ok : Bool) : ThreadCtx :=
  match c.thread.pc with
  | .socket => if ok then c.goto .connect else c.fail
  | .connect => if ok then c.goto .header else c.fail
  | .header => if ok then c.goto (.malloc 0) else c.fail
  | .malloc k => c.malloc k ok
  | _ => c

/-- `buf_flag[0] = 1`, `buf_flag[1] = 0`, the record takes the socket, a new event and a new loop, and the event
is added. -/
def start (c : ThreadCtx) : ThreadCtx :=
  { c with
    file := ((c.file.setBuf 0 { c.file.buf 0 with flag := .writing }).setBuf 1
      { c.file.buf 1 with flag := .empty }).setLoop c.thread.request
    ended := Function.update c.ended c.thread.request false
    thread.pc := .dispatch }

/-- `event_del`, `event_base_loopexit` and `free` on the event and the loop that the record holds, whoever has put
them there.  The thread leaves its loop if they are its own; `event_del` of `NULL`, or of an event that was freed,
is an invalid access. -/
def leave (c : ThreadCtx) (failed : Bool) : ThreadCtx :=
  match c.file.evAccept, c.file.base with
  | some ev, some base =>
    if c.ended ev then c.goto .faulted
    else
      let ended := Function.update (Function.update c.ended ev true) base true
      { c with
        correctFlag := if failed then -1 else c.correctFlag
        ended := ended
        thread.pc := if ended c.thread.request then .exited else .dispatch }
  | _, _ => c.goto .faulted

/-- `socket_read_file_data` up to the call of `write_buf`, with the result of `recv`.  A call with a negative
length copies that many bytes: what it does from there on is undefined. -/
def event (xorFlag : ℤ) (c : ThreadCtx) (r : RecvResult) : ThreadCtx :=
  if xorFlag = 1 ∨ c.correctFlag = -1 then
    { c with file := c.file.withPtr fun _ => .released, thread.noticed := true }
  else
    match onRecv c.file.wire r with
    | .exit failed => c.leave failed
    | .skip => c
    | .reset _ => { c with file := c.file.setWire { c.file.wire with writeState := 0 } }
    | .write buffer length next =>
      if length < 0 then c.goto .faulted
      else { c with thread.loc := .call buffer, thread.next := some next }

/-- The rest of the callback when `write_buf` has returned. -/
def finish (c : ThreadCtx) (next : AfterWrite) : ThreadCtx :=
  { c with file := c.file.setWire (afterWrite c.file.wire next).1, thread.next := none }

end ThreadCtx

/-- A thread waits for its next read event. -/
def ThreadCtx.Waits (c : ThreadCtx) : Prop := c.thread.pc = .dispatch ∧ c.thread.next = none

/-- The group is over for the threads. -/
def ThreadCtx.Over (xorFlag : ℤ) (c : ThreadCtx) : Prop := xorFlag = 1 ∨ c.correctFlag = -1

instance (c : ThreadCtx) : Decidable c.Waits := inferInstanceAs (Decidable (_ ∧ _))

instance (xorFlag : ℤ) (c : ThreadCtx) : Decidable (c.Over xorFlag) :=
  inferInstanceAs (Decidable (_ ∨ _))

/-- One step of a thread, for the declared size of the files and the flag that only the consumer
writes. -/
def threadStep (fileSize xorFlag : ℤ) (c : ThreadCtx) : ThreadAct → ThreadCtx
  | .call ok => c.call ok
  | .recv r => if c.Waits ∧ c.ended c.thread.request = false then c.event xorFlag r else c
  | .proceed =>
    match c.thread.pc, c.thread.next with
    | .start, _ => c.start
    | .dispatch, some next =>
      if c.thread.loc.pc = .idle then c.finish next
      else c.setWriteCtx (writeBufStep fileSize c.writeCtx)
    -- somebody else has ended the loop
    | .dispatch, none => if c.ended c.thread.request then c.goto .exited else c
    | _, _ => c

/-- Its event and its loop are those of the record. -/
def ThreadCtx.HasLoop (c : ThreadCtx) : Prop :=
  c.file.evAccept = some c.thread.request ∧ c.file.base = some c.thread.request ∧
    c.ended c.thread.request = false

/-- It leaves its own loop. -/
def ThreadCtx.endLoop (c : ThreadCtx) (failed : Bool) : ThreadCtx :=
  { c with
    correctFlag := if failed then -1 else c.correctFlag
    ended := Function.update c.ended c.thread.request true
    thread.pc := .exited }

/-- A new block changes no flag. -/
theorem ThreadCtx.flag_setPtr (c : ThreadCtx) (k : Fin 2) (p : Ptr) (k' : Fin 2) :
    ((c.setPtr k p).file.buf k').flag = (c.file.buf k').flag := by
  show ((c.file.setBuf k _).buf k').flag = _
  rw [SingleFileInfo.buf_setBuf]
  split_ifs with hk
  · rw [hk]
  · rfl

/-- What a step of a thread can do. -/
inductive ThreadMove (fileSize xorFlag : ℤ) (c : ThreadCtx) : ThreadAct → ThreadCtx → Prop
  | stay (a : ThreadAct) : ThreadMove fileSize xorFlag c a c
  | connected (pc : ThreadPc) : c.thread.pc = .socket ∨ c.thread.pc = .connect ∨ c.thread.pc = .header →
      pc = .connect ∨ pc = .header ∨ pc = .malloc 0 →
      ThreadMove fileSize xorFlag c (.call true) (c.goto pc)
  | unconnected : c.thread.pc = .socket ∨ c.thread.pc = .connect ∨ c.thread.pc = .header →
      ThreadMove fileSize xorFlag c (.call false) c.fail
  | allocated (k : Fin 2) : c.thread.pc = .malloc k → c.correctFlag ≠ -1 →
      ThreadMove fileSize xorFlag c (.call true)
        ((c.setPtr k (.live c.thread.request)).goto (if k = 0 then .malloc 1 else .start))
  | unallocated (k : Fin 2) (ok : Bool) : c.thread.pc = .malloc k → ok = false ∨ c.correctFlag = -1 →
      ThreadMove fileSize xorFlag c (.call ok)
        ((c.setPtr k (if ok then .live c.thread.request else .null)).goto .exited)
  | start : c.thread.pc = .start → ThreadMove fileSize xorFlag c .proceed c.start
  | notice (r : RecvResult) : c.Waits → c.Over xorFlag →
      ThreadMove fileSize xorFlag c (.recv r)
        { c with file := c.file.withPtr fun _ => .released, thread.noticed := true }
  | lost : c.Waits → ¬ c.Over xorFlag → c.HasLoop →
      ThreadMove fileSize xorFlag c (.recv .error) (c.endLoop true)
  | closed : c.Waits → ¬ c.Over xorFlag → c.HasLoop → c.file.writeState = 0 →
      ThreadMove fileSize xorFlag c (.recv (.got [])) (c.endLoop false)
  | stray (r : RecvResult) (failed : Bool) : c.Waits → ¬ c.Over xorFlag → ¬ c.HasLoop →
      c.ended c.thread.request = false → ThreadMove fileSize xorFlag c (.recv r) (c.leave failed)
  | dismissed : c.Waits → c.ended c.thread.request = true →
      ThreadMove fileSize xorFlag c .proceed (c.goto .exited)
  | reset (r : RecvResult) : c.Waits → ¬ c.Over xorFlag →
      ThreadMove fileSize xorFlag c (.recv r)
        { c with file := c.file.setWire { c.file.wire with writeState := 0 } }
  | fault (r : RecvResult) : c.Waits → ¬ c.Over xorFlag →
      ThreadMove fileSize xorFlag c (.recv r) (c.goto .faulted)
  | call (r : RecvResult) (buffer : List Byte) (next : AfterWrite) : c.Waits → ¬ c.Over xorFlag →
      ThreadMove fileSize xorFlag c (.recv r)
        { c with thread.loc := .call buffer, thread.next := some next }
  | write (next : AfterWrite) : c.thread.pc = .dispatch → c.thread.next = some next →
      c.thread.loc.pc ≠ .idle →
      ThreadMove fileSize xorFlag c .proceed (c.setWriteCtx (writeBufStep fileSize c.writeCtx))
  | finish (next : AfterWrite) : c.thread.pc = .dispatch → c.thread.next = some next →
      c.thread.loc.pc = .idle → ThreadMove fileSize xorFlag c .proceed (c.finish next)

theorem threadStep_call_move (fileSize xorFlag : ℤ) (c : ThreadCtx) (ok : Bool) :
    ThreadMove fileSize xorFlag c (.call ok) (c.call ok) := by
  unfold ThreadCtx.call
  cases hpc : c.thread.pc with
  | socket =>
    cases ok
    · exact .unconnected (Or.inl hpc)
    · exact .connected _ (Or.inl hpc) (Or.inl rfl)
  | connect =>
    cases ok
    · exact .unconnected (Or.inr (Or.inl hpc))
    · exact .connected _ (Or.inr (Or.inl hpc)) (Or.inr (Or.inl rfl))
  | header =>
    cases ok
    · exact .unconnected (Or.inr (Or.inr hpc))
    · exact .connected _ (Or.inr (Or.inr hpc)) (Or.inr (Or.inr rfl))
  | malloc k =>
    unfold ThreadCtx.malloc
    by_cases hfail : ok = false ∨ c.correctFlag = -1
    · dsimp only
      rw [if_pos hfail]
      exact .unallocated k ok hpc hfail
    · dsimp only
      rw [if_neg hfail]
      obtain ⟨hok, hflag⟩ := not_or.1 hfail
      obtain rfl : ok = true := by simpa using hok
      exact .allocated k hpc hflag
  | _ => exact .stay _

/-- With its own loop in the record, the end of the connection is the end of that loop. -/
theorem ThreadCtx.leave_eq {c : ThreadCtx} (h : c.HasLoop) (failed : Bool) : c.leave failed = c.endLoop failed := by
  obtain ⟨hev, hbase, hended⟩ := h
  unfold ThreadCtx.leave ThreadCtx.endLoop
  rw [hev, hbase]
  simp [hended]

theorem threadStep_event_move (fileSize xorFlag : ℤ) {c : ThreadCtx} (hw : c.Waits)
    (hended : c.ended c.thread.request = false) (r : RecvResult) :
    ThreadMove fileSize xorFlag c (.recv r) (c.event xorFlag r) := by
  unfold ThreadCtx.event
  by_cases hover : xorFlag = 1 ∨ c.correctFlag = -1
  · rw [if_pos hover]
    exact .notice r hw hover
  · rw [if_neg hover]
    cases r with
    | error =>
      by_cases hloop : c.HasLoop
      · dsimp only [onRecv]
        rw [ThreadCtx.leave_eq hloop]
        exact .lost hw hover hloop
      · exact .stray _ true hw hover hloop hended
    | got bytes =>
      unfold onRecv
      dsimp only
      split_ifs with h1 h2 h3 h4
      · obtain rfl := List.length_eq_zero_iff.1 h1.1
        by_cases hloop : c.HasLoop
        · dsimp only
          rw [ThreadCtx.leave_eq hloop]
          exact .closed hw hover hloop h1.2
        · exact .stray _ false hw hover hloop hended
      · dsimp only
        split_ifs
        · exact .fault _ hw hover
        · exact .call _ _ _ hw hover
      · exact .stay _
      · exact .reset _ hw hover
      · dsimp only
        split_ifs
        · exact .fault _ hw hover
        · exact .call _ _ _ hw hover

theorem threadStep_move (fileSize xorFlag : ℤ) (c : ThreadCtx) (a : ThreadAct) :
    ThreadMove fileSize xorFlag c a (threadStep fileSize xorFlag c a) := by
  cases a with
  | call ok => exact threadStep_call_move fileSize xorFlag c ok
  | recv r =>
    unfold threadStep
    dsimp only
    split_ifs with hw
    · exact threadStep_event_move fileSize xorFlag hw.1 hw.2 r
    · exact .stay _
  | proceed =>
    unfold threadStep
    cases hpc : c.thread.pc with
    | start => exact .start hpc
    | dispatch =>
      cases hnext : c.thread.next with
      | none =>
        dsimp only
        split_ifs with hended
        · exact .dismissed ⟨hpc, hnext⟩ hended
        · exact .stay _
      | some next =>
        dsimp only
        split_ifs with hidle
        · exact .finish next hpc hnext hidle
        · exact .write next hpc hnext hidle
    | _ => exact .stay _

theorem ThreadCtx.file_leave (c : ThreadCtx) (failed : Bool) : (c.leave failed).file = c.file := by
  unfold ThreadCtx.leave
  split
  · split_ifs <;> rfl
  · rfl

theorem ThreadCtx.pc_leave (c : ThreadCtx) (failed : Bool) : (c.leave failed).thread.pc = .faulted ∨
    (c.leave failed).thread.pc = .exited ∨ (c.leave failed).thread.pc = .dispatch := by
  unfold ThreadCtx.leave
  split
  · rename_i ev base _ _
    by_cases hended : c.ended ev = true
    · rw [if_pos hended]
      exact Or.inl rfl
    · rw [if_neg hended]
      dsimp only
      split_ifs
      · exact Or.inr (Or.inl rfl)
      · exact Or.inr (Or.inr rfl)
  · exact Or.inl rfl

theorem ThreadCtx.correctFlag_leave (c : ThreadCtx) (failed : Bool) :
    (c.leave failed).correctFlag = c.correctFlag ∨ (c.leave failed).correctFlag = -1 := by
  unfold ThreadCtx.leave
  split
  · split_ifs
    · exact Or.inl rfl
    · exact Or.inr rfl
    · exact Or.inl rfl
  · exact Or.inl rfl

/-- A thread never takes `correct_flag` back. -/
theorem ThreadMove.correctFlag {fileSize xorFlag : ℤ} {c c' : ThreadCtx} {a : ThreadAct}
    (hm : ThreadMove fileSize xorFlag c a c') :
    c'.correctFlag = c.correctFlag ∨ c'.correctFlag = -1 := by
  cases hm with
  | unconnected _ | lost _ _ _ => exact Or.inr rfl
  | stray r failed _ _ _ _ => exact c.correctFlag_leave failed
  | _ => exact Or.inl rfl

/-- Not created yet, or gone. -/
def ThreadPc.Inert : ThreadPc → Prop
  | .unborn | .faulted | .exited => True
  | _ => False

instance : (pc : ThreadPc) → Decidable pc.Inert
  | .unborn | .faulted | .exited => isTrue trivial
  | .socket | .connect | .header | .malloc _ | .start | .dispatch => isFalse not_false

/-- A thread that is not there does nothing. -/
theorem ThreadMove.eq_of_inert {fileSize xorFlag : ℤ} {c c' : ThreadCtx} {a : ThreadAct}
    (hm : ThreadMove fileSize xorFlag c a c') (h : c.thread.pc.Inert) : c' = c := by
  cases hm with
  | stay a => rfl
  | connected pc hpc _ | unconnected hpc => rcases hpc with hpc | hpc | hpc <;> exact (hpc ▸ h).elim
  | allocated k hpc _ | unallocated k ok hpc _ => exact (hpc ▸ h).elim
  | start hpc => exact (hpc ▸ h).elim
  | notice r hw _ | reset r hw _ | fault r hw _ | call r _ _ hw _ => exact (hw.1 ▸ h).elim
  | lost hw _ _ | closed hw _ _ _ | stray r _ hw _ _ _ | dismissed hw _ => exact (hw.1 ▸ h).elim
  | write next hpc _ _ | finish next hpc _ _ => exact (hpc ▸ h).elim

/-! ### The group with its threads -/

/-- Where `create_client_connect_data_server` stands. -/
inductive MainPc
  /-- before `fopen` -/
  | fopen
  /-- before the creation of thread `i` -/
  | create (i : ℕ)
  /-- in `judge_xor_condition` -/
  | judge (j : JudgeLocal)
  /-- returned -/
  | returned (ret : ℤ)
  deriving DecidableEq, Repr

/-- How the creation of a thread ends. -/
inductive CreateResult
  | created
  /-- no memory for the argument -/
  | noArg
  /-- `pthread_create` fails -/
  | noThread
  deriving DecidableEq, Repr

/-- The shared group, the threads, the function that waits for them, the output file, and for each file the
requests whose event is removed. -/
structure Transfer where
  group : TGroupFileInfo
  thread : ℕ → FileThread
  main : MainPc
  out : OutFile
  ended : ℕ → ℕ → Bool

/-- What happens next in a transfer. -/
inductive TransferAct
  /-- the result of `fopen` -/
  | fopen (ok : Bool)
  /-- the result of creating the next thread -/
  | create (r : CreateResult)
  /-- a step of `judge_xor_condition` -/
  | judge
  /-- a step of the thread of file `i` -/
  | thread (i : ℕ) (a : ThreadAct)
  deriving DecidableEq, Repr

namespace Transfer

/-- What thread `i` works on. -/
def ctx (s : Transfer) (i : ℕ) : ThreadCtx :=
  ⟨s.group.file i, s.group.bufFullNum, s.group.correctFlag, s.thread i, s.ended i⟩

/-- The state after thread `i` changed what it works on. -/
def setCtx (s : Transfer) (i : ℕ) (c : ThreadCtx) : Transfer :=
  { s with
    group := { s.group.setFile i c.file with bufFullNum := c.num, correctFlag := c.correctFlag }
    thread := Function.update s.thread i c.thread
    ended := Function.update s.ended i c.ended }

/-- The next thread to be created, or the wait for the threads. -/
def nextMain (s : Transfer) (i : ℕ) : MainPc :=
  if i < s.group.fileNum then .create i else .judge ⟨.test 0, s.group.fileNum⟩

/-- The creation of thread `i`. -/
def create (s : Transfer) (i : ℕ) : CreateResult → Transfer
  | .created =>
    { s with
      thread := Function.update s.thread i { s.thread i with pc := .socket }
      main := s.nextMain (i + 1) }
  | .noArg => { s with main := .returned errorCreatTransmissionDataConnection }
  | .noThread =>
    { s with
      group := { s.group with correctFlag := -1 }
      main := .returned errorCreatTransmissionDataConnection }

/-- A step of the consumer. -/
def judgeStep (s : Transfer) (j : JudgeLocal) : Transfer :=
  let (g, out, j) := ORaidServer.judgeStep s.group s.out j
  { s with
    group := g
    out := out
    main := match j.pc with
      | .done ret => .returned ret
      | _ => .judge j }

/-- One step. -/
def step (s : Transfer) : TransferAct → Transfer
  | .fopen ok =>
    match s.main with
    | .fopen =>
      { s with main := if ok then s.nextMain 0 else .returned errorCreatTransmissionDataConnection }
    | _ => s
  | .create r =>
    match s.main with
    | .create i => s.create i r
    | _ => s
  | .judge =>
    match s.main with
    | .judge j => s.judgeStep j
    | _ => s
  | .thread i a =>
    if i < s.group.fileNum then
      s.setCtx i (threadStep s.group.fileSize s.group.xorFlag (s.ctx i) a)
    else s

/-- The record of a file after `memset(&g_tgroupFile, 0, sizeof(g_tgroupFile))`, with its path. -/
def zeroFile (filePath : List Byte) : SingleFileInfo where
  inBufInfo := ⟨fun _ => ⟨[], .empty, 0⟩, 0⟩
  ptr := fun _ => .null
  fd := none
  evAccept := none
  base := none
  writeState := 0
  writeIndex := 0
  writeTotalSize := 0
  filePath := filePath
  fileIndex := 0

/-- The start, with the group filled in for `n` files of `fileSize` bytes. -/
def init (n : ℕ) (fileSize : ℤ) (filePath : ℕ → List Byte) : Transfer where
  group :=
    { file := fun i => zeroFile (filePath i), fileSize := fileSize, fileNum := n, xorSize := 0,
      bufFullNum := fun _ => 0, xorFlag := 0, correctFlag := 0 }
  thread := fun _ => .new 0
  main := .fopen
  out := ⟨[], []⟩
  ended := fun _ _ => false

section Lemmas

variable (s : Transfer) (i : ℕ)

theorem ctx_setCtx_self (c : ThreadCtx) : (s.setCtx i c).ctx i = c := by
  simp [ctx, setCtx, TGroupFileInfo.setFile]

theorem file_setCtx_of_ne {j : ℕ} (c : ThreadCtx) (h : j ≠ i) :
    (s.setCtx i c).group.file j = s.group.file j := by simp [setCtx, TGroupFileInfo.setFile, h]

theorem thread_setCtx_of_ne {j : ℕ} (c : ThreadCtx) (h : j ≠ i) :
    (s.setCtx i c).thread j = s.thread j := by simp [setCtx, h]

/-- A thread step of the system is a move of that thread. -/
theorem step_thread {i : ℕ} (hi : i < s.group.fileNum) (a : ThreadAct) :
    ∃ c, ThreadMove s.group.fileSize s.group.xorFlag (s.ctx i) a c ∧
      s.step (.thread i a) = s.setCtx i c :=
  ⟨_, threadStep_move _ _ _ _, if_pos hi⟩

theorem step_thread_of_le {i : ℕ} (hi : s.group.fileNum ≤ i) (a : ThreadAct) :
    s.step (.thread i a) = s := if_neg (Nat.not_lt.2 hi)

/-- A step that is not a thread's leaves the threads alone, except that one may be created. -/
theorem thread_step {a : TransferAct} (ha : ∀ i b, a ≠ .thread i b) (j : ℕ) :
    (s.step a).thread j = s.thread j ∨
      (s.step a).thread j = { s.thread j with pc := .socket } ∧ s.main = .create j := by
  unfold step
  cases a with
  | fopen ok => cases s.main <;> exact Or.inl rfl
  | create r =>
    cases hmain : s.main with
    | create l =>
      cases r with
      | created =>
        rcases eq_or_ne j l with rfl | hj
        · exact Or.inr ⟨Function.update_self .., rfl⟩
        · exact Or.inl (Function.update_of_ne hj ..)
      | noArg | noThread => exact Or.inl rfl
    | _ => exact Or.inl rfl
  | judge => cases s.main <;> exact Or.inl rfl
  | thread i b => exact absurd rfl (ha i b)

/-- A step that is not a thread's changes of the group what a step of the consumer changes, or raises
`correct_flag`. -/
theorem group_step {a : TransferAct} (ha : ∀ i b, a ≠ .thread i b) :
    (s.step a).group = s.group ∨ (s.step a).group = { s.group with correctFlag := -1 } ∨
      ∃ j, s.main = .judge j ∧ (s.step a).group = (ORaidServer.judgeStep s.group s.out j).1 := by
  unfold step
  cases a with
  | fopen ok => cases s.main <;> exact Or.inl rfl
  | create r =>
    cases s.main with
    | create l =>
      cases r with
      | created | noArg => exact Or.inl rfl
      | noThread => exact Or.inr (Or.inl rfl)
    | _ => exact Or.inl rfl
  | judge =>
    cases hmain : s.main with
    | judge j => exact Or.inr (Or.inr ⟨j, rfl, rfl⟩)
    | _ => exact Or.inl rfl
  | thread i b => exact absurd rfl (ha i b)

/-- Such a step neither takes `correct_flag` back nor changes how much of a file is stored. -/
theorem frame_step {a : TransferAct} (ha : ∀ i b, a ≠ .thread i b) :
    (∀ j, ((s.step a).group.file j).fileIndex = (s.group.file j).fileIndex) ∧
      (s.step a).group.fileSize = s.group.fileSize ∧
      ((s.step a).group.correctFlag = s.group.correctFlag ∨ (s.step a).group.correctFlag = -1) := by
  rcases s.group_step ha with h | h | ⟨j, -, h⟩
  · rw [h]
    exact ⟨fun _ => rfl, rfl, Or.inl rfl⟩
  · rw [h]
    exact ⟨fun _ => rfl, rfl, Or.inr rfl⟩
  · obtain ⟨hfile, hsize, hflag⟩ := judgeStep_frame s.group s.out j
    rw [h]
    refine ⟨fun i => ?_, hsize, hflag⟩
    obtain ⟨b, p, hb⟩ := hfile i
    rw [hb]

end Lemmas

end Transfer

end ORaidServer
