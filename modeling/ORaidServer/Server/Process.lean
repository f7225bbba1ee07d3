import ORaidServer.Group.Types
import ORaidServer.Lib.Descriptors
import ORaidServer.Lib.Guarded
import Mathlib.Algebra.Order.Ring.Nat
import Mathlib.Data.Int.Notation

/-!
# The descriptors of the server

The whole process as far as descriptors go: the thread that accepts clients, the thread of each client, the thread
of each file of the transfers, with its two sockets, and everything else that opens files.

* `SockPc`, `SockPc.step`: `process_in_new_thread_file_num` with `connect_to_server`, one system call at a time;
* `AcceptPc`, `AcceptPc.step`: `process_in_new_thread_when_accepted` and the end of `buffered_on_read`;
* `Process`, `Process.step`: any number of them, in any order;
* `SockMove`, `AcceptMove`, what a step can do to the descriptors.
-/

namespace ORaidServer

open Guarded Descriptors

/-- `MAX_CONNECT_SOCKET_NUM` -/
def maxConnectSocketNum : ℕ := 65536

/-- Who has opened a descriptor. -/
inductive Holder
  /-- log files, output files, event loops, the listening socket -/
  | rest
  /-- the `socket` call of `process_in_new_thread_file_num`, in the thread of file `i` -/
  | first (i : ℕ)
  /-- the `socket` call of `connect_to_server`, in the thread of file `i` -/
  | second (i : ℕ)
  /-- the `accept` of client `j` -/
  | client (j : ℕ)
  deriving DecidableEq, Repr

/-! ### The thread of a file -/

/-- Where the thread of a file stands, with the descriptors it has got. -/
inductive SockPc
  | unborn
  /-- before `socket` in `process_in_new_thread_file_num` -/
  | socket
  /-- before `setrlimit` -/
  | setrlimit (a : ℕ)
  /-- before `socket` in `connect_to_server`, whose result overwrites `a` -/
  | socketAgain (a : ℕ)
  | bind (a b : ℕ)
  | inetAton (a b : ℕ)
  | connect (a b : ℕ)
  | select (a b : ℕ)
  /-- before `socket_write_header` -/
  | header (a b : ℕ)
  /-- before the `malloc` of buffer `k` -/
  | malloc (k : Fin 2) (a b : ℕ)
  /-- in the event loop -/
  | dispatch (a b : ℕ)
  /-- before its only `close`: that of an error branch, or the one behind `event_base_dispatch` when another thread
  has ended its loop -/
  | fail (a b : ℕ)
  /-- before the `close` of `socket_read_file_data`, which has removed the event that the record holds -/
  | close (a b : ℕ)
  /-- in the event loop still, its socket closed: the event was that of another thread -/
  | stray (a b : ℕ)
  /-- before a further `close` of `socket_read_file_data` -/
  | closeStray (a b : ℕ)
  /-- before the `close` behind `event_base_dispatch` -/
  | closeAgain (a b : ℕ)
  /-- returned, with what it has not closed -/
  | exited (a b : Option ℕ)
  deriving DecidableEq, Repr

/-- How `connect` ends. -/
inductive ConnectResult
  | done
  /-- `EINPROGRESS` -/
  | inProgress
  | failed
  deriving DecidableEq, Repr

/-- How `select` ends: an error, or the sets that the socket is in. -/
inductive SelectResult
  | error
  | ready (readable writable : Bool)
  deriving DecidableEq, Repr

/-- `connect_to_server` goes on when one set has the socket and it is `wset`, and when both have it. -/
def SelectResult.passes : SelectResult → Bool
  | .error => false
  | .ready readable writable =>
    let res := readable.toNat + writable.toNat
    if res = 0 then false else if res = 1 then writable else true

/-- What happens next to the thread of a file. -/
inductive SockAct
  /-- it is created -/
  | create
  /-- its next call succeeds or not; before `malloc`, whether it goes on -/
  | call (ok : Bool)
  | connect (r : ConnectResult)
  | select (r : SelectResult)
  /-- `socket_read_file_data` removes the event in the record of the file -/
  | over
  /-- it goes on by itself; behind `close`, out of its event loop -/
  | proceed
  /-- behind `close` it stays in its event loop -/
  | stay
  /-- another thread has ended its event loop -/
  | leave
  deriving DecidableEq, Repr

namespace SockPc

/-- The descriptor of its first socket. -/
def first : SockPc → Option ℕ
  | .unborn | .socket => none
  | .setrlimit a | .socketAgain a | .bind a _ | .inetAton a _ | .connect a _ | .select a _ | .header a _
  | .malloc _ a _ | .dispatch a _ | .fail a _ | .close a _ | .stray a _ | .closeStray a _
  | .closeAgain a _ => some a
  | .exited a _ => a

/-- The descriptor of its second socket, until it is closed for the first time. -/
def second : SockPc → Option ℕ
  | .unborn | .socket | .setrlimit _ | .socketAgain _ | .stray _ _ | .closeStray _ _ | .closeAgain _ _ => none
  | .bind _ b | .inetAton _ b | .connect _ b | .select _ b | .header _ b | .malloc _ _ b | .dispatch _ b
  | .fail _ b | .close _ b => some b
  | .exited _ b => b

/-- What a step closes that the thread has closed before. -/
def closing : SockPc → SockAct → Option ℕ
  | .closeAgain _ b, .proceed | .closeStray _ b, .proceed | .closeStray _ b, .stay => some b
  | _, _ => none

/-- One step of the thread of file `i`. -/
def step (i : ℕ) (t : Table Holder) : SockPc → SockAct → Table Holder × SockPc
  | .unborn, .create => (t, .socket)
  | .socket, .call ok =>
    match if ok then t.acquire (.first i) else none with
    | some (t', a) => (t', .setrlimit a)
    | none => (t, .exited none none)
  | .setrlimit a, .call ok =>
    if ok then ({ t with limit := maxConnectSocketNum }, .socketAgain a) else (t, .exited (some a) none)
  | .socketAgain a, .call ok =>
    match if ok then t.acquire (.second i) else none with
    | some (t', b) => (t', .bind a b)
    | none => (t, .exited (some a) none)
  | .bind a b, .call ok => (t, if ok then .inetAton a b else .fail a b)
  | .inetAton a b, .call ok => (t, if ok then .connect a b else .fail a b)
  | .connect a b, .connect .done => (t, .header a b)
  | .connect a b, .connect .inProgress => (t, .select a b)
  | .connect a b, .connect .failed => (t, .fail a b)
  | .select a b, .select r => (t, if r.passes then .header a b else .fail a b)
  | .header a b, .call ok => (t, if ok then .malloc 0 a b else .fail a b)
  | .malloc k a b, .call ok =>
    (t, if ok then (if k = 0 then .malloc 1 a b else .dispatch a b) else .exited (some a) (some b))
  | .dispatch a b, .over => (t, .close a b)
  | .dispatch a b, .leave => (t, .fail a b)
  | .fail a b, .proceed => (t.close b, .exited (some a) none)
  | .close a b, .proceed => (t.close b, .closeAgain a b)
  | .close a b, .stay => (t.close b, .stray a b)
  | .stray a b, .over => (t, .closeStray a b)
  | .stray a b, .leave => (t, .closeAgain a b)
  | .closeStray a b, .proceed => (t.close b, .closeAgain a b)
  | .closeStray a b, .stay => (t.close b, .stray a b)
  | .closeAgain a b, .proceed => (t.close b, .exited (some a) none)
  | pc, _ => (t, pc)

end SockPc

/-- What a step of the thread of file `i` can do to the descriptors. -/
inductive SockMove (i : ℕ) (t : Table Holder) (pc : SockPc) (x : SockAct) : Table Holder → SockPc → Prop
  | keep (pc' : SockPc) : pc'.first = pc.first → pc'.second = pc.second → SockMove i t pc x t pc'
  | limit (a : ℕ) : pc = .setrlimit a →
      SockMove i t pc x { t with limit := maxConnectSocketNum } (.socketAgain a)
  | first (a : ℕ) (t' : Table Holder) : pc = .socket → t.acquire (.first i) = some (t', a) →
      SockMove i t pc x t' (.setrlimit a)
  | second (a b : ℕ) (t' : Table Holder) : pc = .socketAgain a → t.acquire (.second i) = some (t', b) →
      SockMove i t pc x t' (.bind a b)
  | close (b : ℕ) (pc' : SockPc) : pc.second = some b → pc'.first = pc.first → pc'.second = none →
      SockMove i t pc x (t.close b) pc'
  | closeAgain (b : ℕ) (pc' : SockPc) : pc.closing x = some b → pc'.first = pc.first → pc'.second = pc.second →
      SockMove i t pc x (t.close b) pc'

/-- A further `close` of the same socket. -/
theorem SockPc.step_of_closing {pc : SockPc} {x : SockAct} {b : ℕ} (h : pc.closing x = some b) (i : ℕ)
    (t : Table Holder) : (pc.step i t x).1 = t.close b ∧ (pc.step i t x).2.first = pc.first ∧
      (pc.step i t x).2.second = pc.second := by
  unfold closing at h
  split at h
  · cases h
    exact ⟨rfl, rfl, rfl⟩
  · cases h
    exact ⟨rfl, rfl, rfl⟩
  · cases h
    exact ⟨rfl, rfl, rfl⟩
  · cases h

theorem SockPc.step_move (i : ℕ) (t : Table Holder) (pc : SockPc) (x : SockAct) :
    SockMove i t pc x (pc.step i t x).1 (pc.step i t x).2 := by
  cases pc with
  | socket =>
    cases x with
    | call ok =>
      rw [SockPc.step]
      cases hopen : (if ok then t.acquire (.first i) else none) with
      | none => exact .keep _ rfl rfl
      | some r =>
        cases ok
        · cases hopen
        · exact .first r.2 r.1 rfl hopen
    | _ => exact .keep _ rfl rfl
  | setrlimit a =>
    cases x with
    | call ok =>
      cases ok
      · exact .keep _ rfl rfl
      · exact .limit a rfl
    | _ => exact .keep _ rfl rfl
  | socketAgain a =>
    cases x with
    | call ok =>
      rw [SockPc.step]
      cases hopen : (if ok then t.acquire (.second i) else none) with
      | none => exact .keep _ rfl rfl
      | some r =>
        cases ok
        · cases hopen
        · exact .second a r.2 r.1 rfl hopen
    | _ => exact .keep _ rfl rfl
  | unborn | dispatch a b | stray a b => cases x <;> exact .keep _ rfl rfl
  | bind a b | inetAton a b | header a b =>
    cases x with
    | call ok => cases ok <;> exact .keep _ rfl rfl
    | _ => exact .keep _ rfl rfl
  | malloc k a b =>
    cases x with
    | call ok =>
      cases ok
      · exact .keep _ rfl rfl
      · rw [SockPc.step, if_pos rfl]
        split_ifs <;> exact .keep _ rfl rfl
    | _ => exact .keep _ rfl rfl
  | connect a b =>
    cases x with
    | connect r => cases r <;> exact .keep _ rfl rfl
    | _ => exact .keep _ rfl rfl
  | select a b =>
    cases x with
    | select r =>
      rw [SockPc.step]
      split_ifs <;> exact .keep _ rfl rfl
    | _ => exact .keep _ rfl rfl
  | fail a b =>
    cases x with
    | proceed => exact .close b _ rfl rfl rfl
    | _ => exact .keep _ rfl rfl
  | close a b =>
    cases x with
    | proceed | stay => exact .close b _ rfl rfl rfl
    | _ => exact .keep _ rfl rfl
  | closeStray a b =>
    cases x with
    | proceed | stay => exact .closeAgain b _ rfl rfl rfl
    | _ => exact .keep _ rfl rfl
  | closeAgain a b =>
    cases x with
    | proceed => exact .closeAgain b _ rfl rfl rfl
    | _ => exact .keep _ rfl rfl
  | exited a b => cases x <;> exact .keep _ rfl rfl

/-! ### The thread of a client -/

/-- Where the thread of a client stands, with its descriptor. -/
inductive AcceptPc
  | unborn
  /-- accepted, before `pthread_create` -/
  | accepted (d : ℕ)
  /-- before `setnonblocking` -/
  | setnonblocking (d : ℕ)
  /-- before `calloc` -/
  | calloc (d : ℕ)
  /-- in the event loop -/
  | dispatch (d : ℕ)
  /-- before the `close` of `buffered_on_read`, which has removed the event -/
  | close (d : ℕ)
  /-- returned, with what it has not closed -/
  | exited (d : Option ℕ)
  deriving DecidableEq, Repr

/-- What happens next to the thread of a client. -/
inductive AcceptAct
  /-- its next call succeeds or not -/
  | call (ok : Bool)
  /-- the read event, with the result of `read` -/
  | read (ret : ℤ)
  /-- it goes on by itself -/
  | proceed
  deriving DecidableEq, Repr

namespace AcceptPc

/-- Its descriptor, as long as it is not closed. -/
def fd : AcceptPc → Option ℕ
  | .unborn => none
  | .accepted d | .setnonblocking d | .calloc d | .dispatch d | .close d => some d
  | .exited d => d

/-- One step of the thread of a client.  `write_offset` is `0` for good, so a read without bytes removes the
event; any other read leaves the descriptor alone. -/
def step (t : Table Holder) : AcceptPc → AcceptAct → Table Holder × AcceptPc
  | .setnonblocking d, .call ok => (t, if ok then .calloc d else .exited (some d))
  | .calloc d, .call ok => (t, if ok then .dispatch d else .exited (some d))
  | .dispatch d, .read ret => (t, if ret ≤ 0 then .close d else .dispatch d)
  | .close d, .proceed => (t.close d, .exited none)
  | pc, _ => (t, pc)

end AcceptPc

/-- What a step of the thread of a client can do to the descriptors. -/
inductive AcceptMove (t : Table Holder) (pc : AcceptPc) : Table Holder → AcceptPc → Prop
  | keep (pc' : AcceptPc) : pc'.fd = pc.fd → AcceptMove t pc t pc'
  | close (d : ℕ) : pc = .close d → AcceptMove t pc (t.close d) (.exited none)

theorem AcceptPc.step_move (t : Table Holder) (pc : AcceptPc) (x : AcceptAct) :
    AcceptMove t pc (pc.step t x).1 (pc.step t x).2 := by
  cases pc with
  | close d =>
    cases x with
    | proceed => exact .close d rfl
    | _ => exact .keep _ rfl
  | setnonblocking d | calloc d =>
    cases x with
    | call ok => cases ok <;> exact .keep _ rfl
    | _ => exact .keep _ rfl
  | dispatch d =>
    cases x with
    | read ret =>
      rw [AcceptPc.step]
      split_ifs <;> exact .keep _ rfl
    | _ => exact .keep _ rfl
  | unborn | accepted d | exited d => cases x <;> exact .keep _ rfl

/-! ### The process -/

/-- The descriptors, and where everybody stands. -/
structure Process where
  table : Table Holder
  /-- what the rest of the process has open -/
  rest : Finset ℕ
  sock : ℕ → SockPc
  client : ℕ → AcceptPc
  /-- the clients accepted so far -/
  accepted : ℕ
  /-- between `accept` and `pthread_create`, for client `accepted - 1` -/
  spawning : Bool

/-- Who takes the next step, and how it ends. -/
inductive ProcessAct
  /-- the rest of the process opens something -/
  | openRest
  /-- the rest of the process closes what it has open -/
  | closeRest (d : ℕ)
  /-- `on_accept` up to `accept` -/
  | accept (ok : Bool)
  /-- `pthread_create` in `on_accept`, whose result is not read -/
  | spawn (ok : Bool)
  | sock (i : ℕ) (x : SockAct)
  | client (j : ℕ) (x : AcceptAct)
  deriving DecidableEq, Repr

/-- The file whose thread takes the step. -/
def ProcessAct.file : ProcessAct → Option ℕ
  | .sock i _ => some i
  | _ => none

namespace Process

/-- One step. -/
def step (s : Process) : ProcessAct → Process
  | .openRest =>
    match s.table.acquire .rest with
    | some (t, d) => { s with table := t, rest := insert d s.rest }
    | none => s
  | .closeRest d => if d ∈ s.rest then { s with table := s.table.close d, rest := s.rest.erase d } else s
  | .accept ok =>
    if s.spawning then s
    else
      match if ok then s.table.acquire (.client s.accepted) else none with
      | some (t, d) =>
        { s with
          table := t
          client := Function.update s.client s.accepted (.accepted d)
          accepted := s.accepted + 1
          spawning := true }
      | none => s
  | .spawn ok =>
    match s.spawning, s.client (s.accepted - 1) with
    | true, .accepted d =>
      { s with
        client := Function.update s.client (s.accepted - 1)
          (if ok then .setnonblocking d else .exited (some d))
        spawning := false }
    | _, _ => s
  | .sock i x =>
    let (t, pc) := (s.sock i).step i s.table x
    { s with table := t, sock := Function.update s.sock i pc }
  | .client j x =>
    let (t, pc) := (s.client j).step s.table x
    { s with table := t, client := Function.update s.client j pc }

/-- The start, with the descriptors `rest` open. -/
def init (limit : ℕ) (rest : Finset ℕ) : Process where
  table := ⟨fun d => if d ∈ rest then some .rest else none, limit⟩
  rest := rest
  sock := fun _ => .unborn
  client := fun _ => .unborn
  accepted := 0
  spawning := false

/-- What each party has open, by its own account. -/
def holds (s : Process) : Holder → ℕ → Prop
  | .rest, d => d ∈ s.rest
  | .first i, d => (s.sock i).first = some d
  | .second i, d => (s.sock i).second = some d
  | .client j, d => (s.client j).fd = some d

instance (s : Process) : (k : Holder) → (d : ℕ) → Decidable (s.holds k d)
  | .rest, d => inferInstanceAs (Decidable (d ∈ s.rest))
  | .first i, d => inferInstanceAs (Decidable ((s.sock i).first = some d))
  | .second i, d => inferInstanceAs (Decidable ((s.sock i).second = some d))
  | .client j, d => inferInstanceAs (Decidable ((s.client j).fd = some d))

end Process

end ORaidServer
