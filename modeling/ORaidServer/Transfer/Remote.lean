import ORaidServer.Transfer.Alone
import ORaidServer.Transfer.Network

/-!
# A remote request from end to end

A handler that no other one disturbs, from the reading of the job to the return, with the data server that answers
its posts and sends the files.

* `Session` and `Session.step`: the handler, the shared memory and the connections;
* `DataServer`, what the data server does for a job;
* `Stage`, the invariant: how far the handler has come, `Stage.step` and `stage_of_reach`;
* `output_of_returned`: what is in the output file when the handler returns `RIGHT`, and what was asked for.
-/

namespace ORaidServer

open ByteMem CString Guarded

/-- The step of the transfer of a handler that is alone.  Each of its threads finds its own socket in the record of
its file (`own_of_reach`), so that there is one result of `recv`. -/
def TransferAct.alone : TransferAct → GroupAct
  | .fopen ok => .fopen ok
  | .create r => .create r
  | .judge => .judge
  | .thread i (.call ok) => .call i ok
  | .thread i .proceed => .proceed i
  | .thread i (.recv r) => .recv i fun _ => r

theorem TransferAct.act_alone (a : TransferAct) (g : TGroupFileInfo) : a.alone.act g = a := by
  cases a with
  | thread i b => cases b <;> rfl
  | _ => rfl

/-- A handler alone on the shared memory, and the results of `recv` still to come on its connections. -/
structure Session where
  client : Client
  globals : Globals
  inbox : ℕ → List (List Byte)

/-- What happens next. -/
inductive SessionAct
  /-- the handler goes on by itself -/
  | proceed
  /-- the posts are answered -/
  | posts
  /-- `open_file` returns, the output file having that content -/
  | openFile (ret : ℤ) (output : List Byte)
  /-- a step of the transfer -/
  | transfer (a : NetworkAct)
  deriving DecidableEq, Repr

namespace Session

/-- The transfer with its connections. -/
def network (s : Session) : Network := ⟨s.client.view s.globals, s.inbox⟩

/-- A step of the handler. -/
def act (cJSONParse : List Byte → Option Json.Value) (s : Session) (a : ClientAct) : Session :=
  let (client, globals) := Client.step cJSONParse (s.client, s.globals) a
  { s with client := client, globals := globals }

/-- One step, the replies to the posts being given. -/
def step (cJSONParse : List Byte → Option Json.Value) (replies : ℕ → Response) (s : Session) : SessionAct → Session
  | .proceed => s.act cJSONParse .proceed
  | .posts => s.act cJSONParse (.posts replies)
  | .openFile ret output => s.act cJSONParse (.openFile ret output)
  | .transfer a =>
    if s.client.pc = .transfer then
      match Network.transferAct s.inbox a with
      | none => s
      | some b => { s.act cJSONParse (.transfer b.alone) with inbox := (s.network.step a).inbox }
    else s

/-- The start, the requests being numbered from this one on. -/
def start (localAddr : List Byte) (json : CJson) (g : Globals) (inbox : ℕ → List (List Byte)) : Session :=
  ⟨.start 0 localAddr (some json) [], { g with ended := fun _ _ => false }, inbox⟩

end Session

/-- What the data server with the files `disk` does for a job on `paths`: it answers with their size, which is `N`
for all of them, and sends them. -/
structure DataServer (cJSONParse : List Byte → Option Json.Value) (info : DataServerInfo) (paths : List (List Byte))
    (disk : List Byte → List Byte) (N : ℕ) (replies : ℕ → Response) (inbox : ℕ → List (List Byte)) : Prop where
  size : ∀ p, preFlight cJSONParse info paths replies = some p → p.ret = right → p.fileSize = N
  sends : Sends paths.length N (fun i => disk (paths.getD i [])) inbox

/-! ### How far the handler has come -/

/-- Nothing of the transfer has begun. -/
structure Client.Fresh (c : Client) : Prop where
  main : c.main = .fopen
  thread : c.thread = fun _ => .new 0
  out : c.out = ⟨[], []⟩
  contacts : c.contacts = []

/-- The handler goes on by other steps than its own, or not at all. -/
def ClientPc.Rests : ClientPc → Prop
  | .post | .transfer | .here | .returned _ | .faulted => True
  | _ => False

/-- The group, while it is filled in for `paths`. -/
def Filled (paths : List (List Byte)) (N : ℕ) (group : TGroupFileInfo) : ClientPc → Prop
  | .clear => True
  | .path i => i ≤ paths.length ∧ group = Client.pathGroup paths i
  | .fileSize => group = Client.pathGroup paths paths.length
  | .fileNum => group = { Client.pathGroup paths paths.length with fileSize := N }
  | _ => False

/-- All the paths are in place. -/
theorem file_pathGroup_all (paths : List (List Byte)) :
    (Client.pathGroup paths paths.length).file = fun i => Transfer.zeroFile (paths.getD i []) := by
  funext i
  rw [Client.file_pathGroup]
  split_ifs with hi
  · rfl
  · rw [List.getD_eq_default _ _ (not_lt.1 hi)]

/-- What the handler has asked for so far is what the job says. -/
def Asked (info : DataServerInfo) (paths : List (List Byte)) (contacts : List (ℕ × Contact)) : Prop :=
  ∀ x ∈ contacts, x.2 = .connect info.dataServerIp info.dataServerPort ∨
    ∃ path, paths[x.1]? = some path ∧ x.2 = .header path

section Lemmas

variable {cJSONParse : List Byte → Option Json.Value} {c : Client} {g : Globals}

theorem contacts_proceed (c : Client) (g : Globals) : (c.proceed g).1.contacts = c.contacts := by
  unfold Client.proceed
  cases c.pc with
  | ip | port | method =>
    dsimp only
    unfold Client.copyField
    split <;> rfl
  | rest =>
    dsimp only
    rcases c.readRest_cases with h | ⟨files, ret, h, -⟩
    · rw [h]
      rfl
    · rw [h]
  | choose =>
    dsimp only [Client.choose]
    split_ifs <;> rfl
  | path i =>
    dsimp only
    unfold Client.copyPath
    split
    · rfl
    · split <;> rfl
  | _ => rfl

/-- A handler that rests does nothing by itself. -/
theorem proceed_of_rests (h : c.pc.Rests) : c.proceed g = (c, g) := by
  unfold Client.proceed
  cases hpc : c.pc with
  | post | transfer | here | returned ret | faulted => rfl
  | _ =>
    rw [hpc] at h
    exact h.elim

theorem run_of_rests (h : c.pc.Rests) (k : ℕ) :
    run (Client.step cJSONParse) (c, g) (List.replicate k .proceed) = (c, g) := by
  induction k with
  | zero => rfl
  | succ k ih =>
    rw [List.replicate_succ, run_cons,
      show Client.step cJSONParse (c, g) .proceed = (c, g) from proceed_of_rests h, ih]

/-- There is one place where a handler that goes on by itself comes to rest. -/
theorem eq_of_rests {s t u : Client × Globals} {k l : ℕ}
    (ht : run (Client.step cJSONParse) s (List.replicate k .proceed) = t) (hrt : t.1.pc.Rests)
    (hu : run (Client.step cJSONParse) s (List.replicate l .proceed) = u) (hru : u.1.pc.Rests) : t = u := by
  have hrun : ∀ k l, run (Client.step cJSONParse) s (List.replicate (k + l) .proceed) =
      run (Client.step cJSONParse) (run (Client.step cJSONParse) s (List.replicate k .proceed))
        (List.replicate l .proceed) := fun k l => by rw [List.replicate_add, run_append]
  have hkl := hrun k l
  have hlk := hrun l k
  rw [ht, run_of_rests hrt] at hkl
  rw [hu, run_of_rests hru, Nat.add_comm, hkl] at hlk
  exact hlk

end Lemmas

/-! ### The names of the files -/

section FilePath

variable {s : Transfer} {c c' : ThreadCtx}

theorem ThreadMove.filePath {fileSize xorFlag : ℤ} {a : ThreadAct} (hm : ThreadMove fileSize xorFlag c a c') :
    c'.file.filePath = c.file.filePath := by
  cases hm with
  | write next _ _ _ =>
    obtain ⟨b, i, h⟩ := writeBufStep_frame fileSize c.writeCtx
    exact (congrArg SingleFileInfo.filePath h).trans rfl
  | stray r failed _ _ _ _ => exact congrArg SingleFileInfo.filePath (c.file_leave failed)
  | _ => rfl

/-- A transfer keeps the names of its files. -/
theorem Transfer.filePath_step (s : Transfer) (a : TransferAct) (i : ℕ) :
    ((s.step a).group.file i).filePath = (s.group.file i).filePath := by
  by_cases ha : ∃ j b, a = .thread j b
  · obtain ⟨j, b, rfl⟩ := ha
    rcases Nat.lt_or_ge j s.group.fileNum with hj | hj
    · obtain ⟨c, hm, hs⟩ := s.step_thread hj b
      rw [hs]
      rcases eq_or_ne i j with rfl | hij
      · exact (congrArg (·.file.filePath) (s.ctx_setCtx_self i c)).trans hm.filePath
      · rw [s.file_setCtx_of_ne j c hij]
    · rw [s.step_thread_of_le hj]
  · rcases s.group_step (a := a) fun j b h => ha ⟨j, b, h⟩ with h | h | ⟨j, -, h⟩
    · rw [h]
    · rw [h]
    · obtain ⟨b, p, hb⟩ := (judgeStep_frame s.group s.out j).1 i
      rw [h, hb]

theorem Network.filePath_of_reach {n : ℕ} {fileSize : ℤ} {filePath : ℕ → List Byte} {inbox : ℕ → List (List Byte)}
    {s : Network} (h : Reach Network.step Free (.init n fileSize filePath inbox) s) (i : ℕ) :
    (s.transfer.group.file i).filePath = filePath i := by
  refine h.invariant (I := fun s => (s.transfer.group.file i).filePath = filePath i) rfl fun s a hs _ => ?_
  rw [s.transfer_step]
  cases Network.transferAct s.inbox a with
  | none => exact hs
  | some b => exact (s.transfer.filePath_step b i).trans hs

end FilePath

/-! ### The stages of a request -/

/-- The job of a request and the data server that it names. -/
structure Remote where
  localAddr : List Byte
  json : CJson
  globals : Globals
  need : NeedXor
  disk : List Byte → List Byte
  size : ℕ
  replies : ℕ → Response
  inbox : ℕ → List (List Byte)

namespace Remote

/-- The names of the files. -/
def paths (r : Remote) : List (List Byte) := r.need.job.aSetOfFiles

/-- The start of the handler. -/
def start (r : Remote) : Session := .start r.localAddr r.json r.globals r.inbox

/-- The job is read from the request, its data server is another host, and does what it is asked for. -/
structure Served (r : Remote) (cJSONParse : List Byte → Option Json.Value) : Prop where
  need : getJsonNeedXorFileInfo (some r.json) r.globals.server = some r.need
  remote : r.localAddr ≠ r.need.server.dataServerIp
  server : DataServer cJSONParse r.need.server r.paths r.disk r.size r.replies r.inbox

/-- How far the handler has come. -/
inductive Stage (r : Remote) (cJSONParse : List Byte → Option Json.Value) (s : Session) : Prop
  /-- before the posts -/
  | reading (k : ℕ) (hrun : run (Client.step cJSONParse) (r.start.client, r.start.globals)
      (List.replicate k .proceed) = (s.client, s.globals)) (hcontacts : s.client.contacts = [])
      (hin : s.inbox = r.inbox)
  /-- it has left with an error -/
  | gone (hpc : s.client.pc = .faulted ∨ ∃ ret, s.client.pc = .returned ret ∧ ret ≠ right)
      (hcontacts : s.client.contacts = [])
  /-- the group is filled in -/
  | filling (hfresh : s.client.Fresh) (hpaths : s.client.aSetOfFiles = r.paths) (hsize : s.client.fileSize = r.size)
      (hserver : s.globals.server = r.need.server) (hended : s.globals.ended = fun _ _ => false)
      (hgroup : Filled r.paths r.size s.globals.group s.client.pc) (hin : s.inbox = r.inbox)
  /-- the files are transferred -/
  | transferring (hpc : s.client.pc = .transfer) (hpaths : s.client.aSetOfFiles = r.paths)
      (hsize : s.client.fileSize = r.size) (hserver : s.globals.server = r.need.server)
      (hreach : Reach Network.step Free (.init r.paths.length r.size (r.paths.getD · []) r.inbox) s.network)
      (hfile : s.client.main = .fopen ∨ (∃ ret, s.client.main = .returned ret ∧ ret ≠ right) ∨
        s.globals.file s.client.outputPath = s.client.outputFile)
      (hasked : Asked r.need.server r.paths s.client.contacts)

section Stages

variable {r : Remote} {cJSONParse : List Byte → Option Json.Value} {s : Session}

/-- The handler reads the job. -/
theorem proceed_of_served (h : r.Served cJSONParse) :
    r.start.client.outputFileName = r.need.job.outputFileName ∧
      ∃ sign, run (Client.step cJSONParse) (r.start.client, r.start.globals) (List.replicate 4 .proceed) =
        ({ r.start.client with
            pc := .choose, sign := sign, ret := r.need.ret, aSetOfFiles := r.need.job.aSetOfFiles },
          { r.start.globals with server := r.need.server }) :=
  Client.run_proceed_job cJSONParse h.need

/-- Where the handler comes to rest first: it has left with an error, or is about to post. -/
theorem rests_of_served (h : r.Served cJSONParse) : ∃ k t,
    run (Client.step cJSONParse) (r.start.client, r.start.globals) (List.replicate k .proceed) = t ∧
      ((∃ ret, t.1.pc = .returned ret ∧ ret ≠ right) ∨
        t.1.pc = .post ∧ t.1.Fresh ∧ t.1.aSetOfFiles = r.paths ∧ t.1.seen = r.need.server ∧
          t.2.server = r.need.server ∧ t.2.ended = fun _ _ => false) := by
  -- the job has been read
  obtain ⟨c, g, hrun, hpc, hlocal, hret, hfresh, hpaths, hserver, hended⟩ : ∃ c g,
      run (Client.step cJSONParse) (r.start.client, r.start.globals) (List.replicate 4 .proceed) = (c, g) ∧
        c.pc = .choose ∧ c.localAddr = r.localAddr ∧ c.ret = r.need.ret ∧ c.Fresh ∧ c.aSetOfFiles = r.paths ∧
        g.server = r.need.server ∧ g.ended = fun _ _ => false := by
    obtain ⟨-, sign, hrun⟩ := proceed_of_served h
    exact ⟨_, _, hrun, rfl, rfl, rfl, ⟨rfl, rfl, rfl, rfl⟩, rfl, rfl, rfl⟩
  have hchoose : run (Client.step cJSONParse) (r.start.client, r.start.globals) (List.replicate (4 + 1) .proceed) =
      (if r.need.ret = right then c.goto .urlIp else c.leave r.need.ret, g) := by
    have hip : c.localAddr ≠ g.server.dataServerIp := by
      rw [hlocal, hserver]
      exact h.remote
    rw [List.replicate_add, run_append, hrun, List.replicate_one, run_cons, run_nil, Client.step, Client.proceed, hpc]
    dsimp only
    rw [Client.choose, if_pos hip, hret]
  by_cases hright : r.need.ret = right
  · rw [if_pos hright] at hchoose
    refine ⟨4 + 1 + 3, ({ c.goto .urlIp with pc := .post, seen := g.server }, g), ?_, Or.inr ⟨rfl, ?_⟩⟩
    · rw [List.replicate_add, run_append, hchoose]
      exact Client.run_proceed_url cJSONParse rfl
    · exact ⟨⟨hfresh.main, hfresh.thread, hfresh.out, hfresh.contacts⟩, hpaths, hserver, hserver, hended⟩
  · rw [if_neg hright] at hchoose
    exact ⟨4 + 1, _, hchoose, Or.inl ⟨r.need.ret, rfl, hright⟩⟩

/-- The handler that rests before the posts is about to post, or has left. -/
theorem Stage.rests_of_reading (h : r.Served cJSONParse) {k : ℕ}
    (hrun : run (Client.step cJSONParse) (r.start.client, r.start.globals) (List.replicate k .proceed) =
      (s.client, s.globals)) (hrests : s.client.pc.Rests) :
    (∃ ret, s.client.pc = .returned ret ∧ ret ≠ right) ∨
      s.client.pc = .post ∧ s.client.Fresh ∧ s.client.aSetOfFiles = r.paths ∧ s.client.seen = r.need.server ∧
        s.globals.server = r.need.server ∧ s.globals.ended = fun _ _ => false := by
  obtain ⟨l, t, ht, hcases⟩ := rests_of_served h
  have hrt : t.1.pc.Rests := by
    rcases hcases with ⟨ret, hpc, -⟩ | ⟨hpc, -⟩
    · rw [hpc]
      trivial
    · rw [hpc]
      trivial
  obtain rfl := eq_of_rests hrun hrests ht hrt
  exact hcases

theorem act_eq {a : ClientAct} {c : Client} {g : Globals}
    (h : Client.step cJSONParse (s.client, s.globals) a = (c, g)) : s.act cJSONParse a = ⟨c, g, s.inbox⟩ := by
  rw [Session.act, h]

/-- What happens elsewhere than where the handler is changes nothing. -/
theorem step_eq_self {a : SessionAct} {replies : ℕ → Response} (hproceed : a = .proceed → s.client.pc.Rests)
    (hposts : a = .posts → s.client.pc ≠ .post) (hfile : ∀ ret output, a = .openFile ret output → s.client.pc ≠ .here)
    (htransfer : ∀ b, a = .transfer b → s.client.pc ≠ .transfer) : s.step cJSONParse replies a = s := by
  cases a with
  | proceed =>
    have hstep : Client.step cJSONParse (s.client, s.globals) .proceed = (s.client, s.globals) :=
      proceed_of_rests (hproceed rfl)
    exact act_eq hstep
  | posts =>
    have hstep : Client.step cJSONParse (s.client, s.globals) (.posts replies) = (s.client, s.globals) :=
      if_neg (hposts rfl)
    exact act_eq hstep
  | openFile ret output =>
    have hstep : Client.step cJSONParse (s.client, s.globals) (.openFile ret output) = (s.client, s.globals) :=
      if_neg (hfile ret output rfl)
    exact act_eq hstep
  | transfer b => exact if_neg (htransfer b rfl)

/-- The posts are answered. -/
theorem Stage.posts (h : r.Served cJSONParse) (hpc : s.client.pc = .post) (hfresh : s.client.Fresh)
    (hpaths : s.client.aSetOfFiles = r.paths) (hseen : s.client.seen = r.need.server)
    (hserver : s.globals.server = r.need.server) (hended : s.globals.ended = fun _ _ => false)
    (hin : s.inbox = r.inbox) : r.Stage cJSONParse (s.step cJSONParse r.replies .posts) := by
  have hstep : Client.step cJSONParse (s.client, s.globals) (.posts r.replies) =
      (s.client.post cJSONParse r.replies, s.globals) := if_pos hpc
  rw [Session.step, act_eq hstep]
  unfold Client.post
  rw [hseen, hpaths]
  cases hpre : preFlight cJSONParse r.need.server r.paths r.replies with
  | none => exact .gone (Or.inl rfl) hfresh.contacts
  | some p =>
    dsimp only
    split_ifs with hright
    · exact .filling ⟨hfresh.main, hfresh.thread, hfresh.out, hfresh.contacts⟩ rfl
        (h.server.size p hpre hright) hserver hended trivial hin
    · exact .gone (Or.inr ⟨p.ret, rfl, hright⟩) hfresh.contacts

/-- The group is filled in. -/
theorem Stage.fill (hfresh : s.client.Fresh) (hpaths : s.client.aSetOfFiles = r.paths)
    (hsize : s.client.fileSize = r.size) (hserver : s.globals.server = r.need.server)
    (hended : s.globals.ended = fun _ _ => false) (hgroup : Filled r.paths r.size s.globals.group s.client.pc)
    (hin : s.inbox = r.inbox) :
    r.Stage cJSONParse (s.step cJSONParse r.replies .proceed) := by
  have hstep : s.step cJSONParse r.replies .proceed =
      ⟨(s.client.proceed s.globals).1, (s.client.proceed s.globals).2, s.inbox⟩ := rfl
  rw [hstep]
  unfold Client.proceed
  cases hpc : s.client.pc with
  | clear =>
    exact .filling ⟨hfresh.main, hfresh.thread, hfresh.out, hfresh.contacts⟩ hpaths hsize hserver hended
      ⟨Nat.zero_le _, rfl⟩ hin
  | path i =>
    rw [hpc] at hgroup
    obtain ⟨hi, hgroup⟩ := hgroup
    dsimp only [Client.copyPath]
    rw [hpaths, hgroup]
    cases hget : r.paths[i]? with
    | none =>
      obtain rfl : i = r.paths.length := le_antisymm hi (List.getElem?_eq_none_iff.1 hget)
      exact .filling ⟨hfresh.main, hfresh.thread, hfresh.out, hfresh.contacts⟩ hpaths hsize hserver hended rfl hin
    | some path =>
      obtain ⟨hlt, rfl⟩ := List.getElem?_eq_some_iff.1 hget
      dsimp only
      cases hcopy : (if i < 50 then strcpy 1024 r.paths[i] else none) with
      | none => exact .gone (Or.inl rfl) hfresh.contacts
      | some path =>
        have hroom : i < 50 := by
          by_contra hroom
          rw [if_neg hroom] at hcopy
          cases hcopy
        rw [if_pos hroom] at hcopy
        obtain rfl := eq_of_strcpy hcopy
        exact .filling ⟨hfresh.main, hfresh.thread, hfresh.out, hfresh.contacts⟩ hpaths hsize hserver hended
          ⟨hlt, Client.setFile_pathGroup hlt⟩ hin
  | fileSize =>
    rw [hpc] at hgroup
    refine .filling ⟨hfresh.main, hfresh.thread, hfresh.out, hfresh.contacts⟩ hpaths hsize hserver hended ?_ hin
    show { s.globals.group with fileSize := s.client.fileSize } = _
    rw [show s.globals.group = _ from hgroup, hsize]
  | fileNum =>
    rw [hpc] at hgroup
    refine .transferring rfl hpaths hsize hserver ?_ (Or.inl hfresh.main) ?_
    · have hnet : (⟨s.client.goto .transfer,
          { s.globals with group.fileNum := s.client.aSetOfFiles.length }, s.inbox⟩ : Session).network =
            .init r.paths.length r.size (r.paths.getD · []) r.inbox := by
        show Network.mk ⟨{ s.globals.group with fileNum := s.client.aSetOfFiles.length }, s.client.thread,
          s.client.main, s.client.out, s.globals.ended⟩ s.inbox = _
        rw [show s.globals.group = _ from hgroup, hpaths, hfresh.thread, hfresh.main, hfresh.out, hended, hin,
          Network.init, Transfer.init, ← file_pathGroup_all]
        rfl
      rw [hnet]
      exact .refl
    · intro x hx
      rw [show (s.client.goto .transfer).contacts = [] from hfresh.contacts] at hx
      cases hx
  | _ =>
    rw [hpc] at hgroup
    exact hgroup.elim

/-- The content of the output file is what the handler has written, unless it has failed before. -/
theorem file_transfer {c : Client} {g : Globals} (b : TransferAct)
    (h : c.main = .fopen ∨ (∃ ret, c.main = .returned ret ∧ ret ≠ right) ∨ g.file c.outputPath = c.outputFile) :
    (c.transfer g b).1.main = .fopen ∨ (∃ ret, (c.transfer g b).1.main = .returned ret ∧ ret ≠ right) ∨
      (c.transfer g b).2.file (c.transfer g b).1.outputPath = (c.transfer g b).1.outputFile := by
  have herror : errorCreatTransmissionDataConnection ≠ right := by decide
  unfold Client.transfer
  cases b with
  | fopen ok =>
    cases hmain : c.main with
    | fopen =>
      cases ok with
      | true => exact Or.inr (Or.inr (Function.update_self ..))
      | false => exact Or.inr (Or.inl ⟨_, rfl, herror⟩)
    | _ =>
      rw [hmain] at h
      dsimp only
      rwa [hmain]
  | create t =>
    cases hmain : c.main with
    | create i =>
      have hfile : g.file c.outputPath = c.outputFile := by
        rcases h with h | ⟨ret, h, -⟩ | h
        · rw [hmain] at h
          cases h
        · rw [hmain] at h
          cases h
        · exact h
      cases t with
      | created => exact Or.inr (Or.inr hfile)
      | noArg | noThread => exact Or.inr (Or.inl ⟨_, rfl, herror⟩)
    | _ =>
      rw [hmain] at h
      dsimp only
      rwa [hmain]
  | judge =>
    cases hmain : c.main with
    | judge j => exact Or.inr (Or.inr (Function.update_self ..))
    | _ =>
      rw [hmain] at h
      dsimp only
      rwa [hmain]
  | thread i a =>
    dsimp only
    split_ifs
    · exact h
    · exact h

theorem fileSize_transfer (c : Client) (g : Globals) (b : TransferAct) :
    (c.transfer g b).1.fileSize = c.fileSize := by
  unfold Client.transfer
  cases b with
  | fopen ok =>
    cases c.main with
    | fopen => cases ok <;> rfl
    | _ => rfl
  | create t =>
    cases c.main with
    | create i => cases t <;> rfl
    | _ => rfl
  | judge => cases c.main <;> rfl
  | thread i a =>
    dsimp only
    split_ifs <;> rfl

/-- A thread asks the data server of the job for its file of the job. -/
theorem asked_transfer {c : Client} {g : Globals} {info : DataServerInfo} {paths : List (List Byte)}
    (b : TransferAct) (h : Asked info paths c.contacts) (hserver : g.server = info) (hpaths : c.aSetOfFiles = paths)
    (hname : ∀ i, (g.group.file i).filePath = paths.getD i []) : Asked info paths (c.transfer g b).1.contacts := by
  unfold Client.transfer
  cases b with
  | fopen ok =>
    cases c.main with
    | fopen => cases ok <;> exact h
    | _ => exact h
  | create t =>
    cases c.main with
    | create i => cases t <;> exact h
    | _ => exact h
  | judge => cases c.main <;> exact h
  | thread i a =>
    dsimp only
    split_ifs with hi
    · intro x hx
      rcases List.mem_append.1 hx with hx | hx
      · exact h x hx
      · unfold Client.contact at hx
        cases a with
        | call ok =>
          cases hpc : (c.thread i).pc with
          | connect =>
            rw [hpc, hserver] at hx
            rw [List.mem_singleton.1 hx]
            exact Or.inl rfl
          | header =>
            rw [hpc, hname] at hx
            rw [hpaths] at hi
            rw [List.mem_singleton.1 hx]
            refine Or.inr ⟨paths[i], List.getElem?_eq_getElem hi, ?_⟩
            rw [List.getD_eq_getElem _ _ hi]
          | _ =>
            rw [hpc] at hx
            cases hx
        | _ => cases hx
    · exact h

/-- The transfer goes on. -/
theorem Stage.transfer (hpc : s.client.pc = .transfer) (hpaths : s.client.aSetOfFiles = r.paths)
    (hsize : s.client.fileSize = r.size) (hserver : s.globals.server = r.need.server)
    (hreach : Reach Network.step Free (.init r.paths.length r.size (r.paths.getD · []) r.inbox) s.network)
    (hfile : s.client.main = .fopen ∨ (∃ ret, s.client.main = .returned ret ∧ ret ≠ right) ∨
      s.globals.file s.client.outputPath = s.client.outputFile)
    (hasked : Asked r.need.server r.paths s.client.contacts) (a : NetworkAct) :
    r.Stage cJSONParse (s.step cJSONParse r.replies (.transfer a)) := by
  rw [Session.step, if_pos hpc]
  have hnext := s.network.transfer_step a
  cases hb : Network.transferAct s.inbox a with
  | none => exact .transferring hpc hpaths hsize hserver hreach hfile hasked
  | some b =>
    rw [show s.network.inbox = s.inbox from rfl, hb] at hnext
    have hstep : Client.step cJSONParse (s.client, s.globals) (.transfer b.alone) =
        s.client.transfer s.globals b := by
      rw [Client.step, if_pos hpc, b.act_alone]
    have hnum : s.globals.group.fileNum = s.client.aSetOfFiles.length := by
      rw [hpaths]
      exact (Network.bufInv_of_reach hreach).fileNum
    have hview := s.client.view_transfer hnum b
    obtain ⟨hserver', hpc', hpaths', -⟩ := s.client.frame_transfer s.globals b
    have hnet : (⟨s.client.view s.globals, s.inbox⟩ : Network).step a =
        ⟨(s.client.transfer s.globals b).1.view (s.client.transfer s.globals b).2,
          (s.network.step a).inbox⟩ := congrArg₂ Network.mk (hnext.trans hview.symm) rfl
    dsimp only
    rw [act_eq (hstep.trans Prod.mk.eta.symm)]
    refine .transferring (hpc'.trans hpc) (hpaths'.trans hpaths) ((fileSize_transfer _ _ b).trans hsize)
      (hserver'.trans hserver) ?_ (file_transfer b hfile)
      (asked_transfer b hasked hserver hpaths (Network.filePath_of_reach hreach))
    have htail := hreach.tail (a := a) trivial
    rwa [show s.network.step a = _ from hnet] at htail

/-- **A step of the request.** -/
theorem Stage.step (h : r.Served cJSONParse) (hs : r.Stage cJSONParse s) (a : SessionAct) :
    r.Stage cJSONParse (s.step cJSONParse r.replies a) := by
  -- where it does not change anything
  have hself : (a = .proceed → s.client.pc.Rests) → (a = .posts → s.client.pc ≠ .post) →
      (∀ ret output, a = .openFile ret output → s.client.pc ≠ .here) →
      (∀ b, a = .transfer b → s.client.pc ≠ .transfer) → r.Stage cJSONParse (s.step cJSONParse r.replies a) := by
    intro hproceed hposts hfile htransfer
    rw [step_eq_self hproceed hposts hfile htransfer]
    exact hs
  cases hs with
  | reading k hrun hcontacts hin =>
    have hrests := Stage.rests_of_reading (s := s) h hrun
    have hpost : ∀ pc, s.client.pc = pc → pc.Rests → (∀ ret, pc ≠ .returned ret) → pc = .post := by
      rintro pc rfl hr hne
      rcases hrests hr with ⟨ret, hleft, -⟩ | ⟨hpc, -⟩
      · exact absurd hleft (hne ret)
      · exact hpc
    have hhere : s.client.pc ≠ .here := fun hpc =>
      absurd (hpost _ hpc trivial fun ret => ClientPc.noConfusion) ClientPc.noConfusion
    have htransfer : s.client.pc ≠ .transfer := fun hpc =>
      absurd (hpost _ hpc trivial fun ret => ClientPc.noConfusion) ClientPc.noConfusion
    cases a with
    | proceed =>
      refine .reading (k + 1) ?_ ((contacts_proceed s.client s.globals).trans hcontacts) hin
      rw [List.replicate_succ', run_append, hrun, run_cons, run_nil]
      rfl
    | posts =>
      by_cases hpc : s.client.pc = .post
      · rcases hrests (hpc ▸ trivial) with ⟨ret, hleft, -⟩ | ⟨-, hfresh, hpaths, hseen, hserver, hended⟩
        · rw [hpc] at hleft
          cases hleft
        · exact Stage.posts h hpc hfresh hpaths hseen hserver hended hin
      · exact hself SessionAct.noConfusion (fun _ => hpc) (fun _ _ => SessionAct.noConfusion)
          fun _ => SessionAct.noConfusion
    | openFile ret output =>
      exact hself SessionAct.noConfusion SessionAct.noConfusion (fun _ _ _ => hhere) fun _ => SessionAct.noConfusion
    | transfer b =>
      exact hself SessionAct.noConfusion SessionAct.noConfusion (fun _ _ => SessionAct.noConfusion)
        fun _ _ => htransfer
  | gone hpc hcontacts =>
    have hleft : s.client.pc.Rests ∧ s.client.pc ≠ .post ∧ s.client.pc ≠ .here ∧ s.client.pc ≠ .transfer := by
      rcases hpc with hpc | ⟨ret, hpc, -⟩
      · rw [hpc]
        exact ⟨trivial, ClientPc.noConfusion, ClientPc.noConfusion, ClientPc.noConfusion⟩
      · rw [hpc]
        exact ⟨trivial, ClientPc.noConfusion, ClientPc.noConfusion, ClientPc.noConfusion⟩
    exact hself (fun _ => hleft.1) (fun _ => hleft.2.1) (fun _ _ _ => hleft.2.2.1) fun _ _ => hleft.2.2.2
  | filling hfresh hpaths hsize hserver hended hgroup hin =>
    have helse : ∀ pc, ¬ Filled r.paths r.size s.globals.group pc → s.client.pc ≠ pc := fun pc hno hpc =>
      hno (hpc ▸ hgroup)
    cases a with
    | proceed => exact Stage.fill hfresh hpaths hsize hserver hended hgroup hin
    | posts =>
      exact hself SessionAct.noConfusion (fun _ => helse _ not_false) (fun _ _ => SessionAct.noConfusion)
        fun _ => SessionAct.noConfusion
    | openFile ret output =>
      exact hself SessionAct.noConfusion SessionAct.noConfusion (fun _ _ _ => helse _ not_false)
        fun _ => SessionAct.noConfusion
    | transfer b =>
      exact hself SessionAct.noConfusion SessionAct.noConfusion (fun _ _ => SessionAct.noConfusion)
        fun _ _ => helse _ not_false
  | transferring hpc hpaths hsize hserver hreach hfile hasked =>
    cases a with
    | transfer b => exact Stage.transfer hpc hpaths hsize hserver hreach hfile hasked b
    | proceed =>
      exact hself (fun _ => hpc ▸ trivial) SessionAct.noConfusion (fun _ _ => SessionAct.noConfusion)
        fun _ => SessionAct.noConfusion
    | posts =>
      exact hself SessionAct.noConfusion (fun _ => by rw [hpc]; exact ClientPc.noConfusion)
        (fun _ _ => SessionAct.noConfusion) fun _ => SessionAct.noConfusion
    | openFile ret output =>
      exact hself SessionAct.noConfusion SessionAct.noConfusion
        (fun _ _ _ => by rw [hpc]; exact ClientPc.noConfusion) fun _ => SessionAct.noConfusion

theorem stage_of_reach (h : r.Served cJSONParse)
    (hreach : Reach (Session.step cJSONParse r.replies) Free r.start s) : r.Stage cJSONParse s :=
  hreach.invariant (.reading 0 rfl rfl rfl) fun _ a hs _ => hs.step h a

/-- The path of the output file stays, and no other file is written. -/
theorem outputPath_of_reach (h : r.Served cJSONParse)
    (hreach : Reach (Session.step cJSONParse r.replies) Free r.start s) :
    s.client.outputPath = outputPath r.need.job.outputFileName ∧
      ∀ p ≠ outputPath r.need.job.outputFileName, s.globals.file p = r.globals.file p := by
  have hstart : r.start.client.outputPath = outputPath r.need.job.outputFileName :=
    congrArg outputPath (proceed_of_served h).1
  refine hreach.invariant (I := fun s => s.client.outputPath = outputPath r.need.job.outputFileName ∧
    ∀ p ≠ outputPath r.need.job.outputFileName, s.globals.file p = r.globals.file p) ⟨hstart, fun _ _ => rfl⟩ ?_
  rintro s a ⟨hpath, hfile⟩ -
  have hact : ∀ b inbox, ({ s.act cJSONParse b with inbox := inbox } : Session).client.outputPath =
      outputPath r.need.job.outputFileName ∧ ∀ p ≠ outputPath r.need.job.outputFileName,
        ({ s.act cJSONParse b with inbox := inbox } : Session).globals.file p = r.globals.file p := fun b _ =>
    ⟨(s.client.outputPath_step cJSONParse s.globals b).trans hpath, fun p hp =>
      (s.client.file_step_of_ne cJSONParse s.globals (hpath ▸ hp) b).trans (hfile p hp)⟩
  cases a with
  | proceed => exact hact .proceed s.inbox
  | posts => exact hact (.posts r.replies) s.inbox
  | openFile ret output => exact hact (.openFile ret output) s.inbox
  | transfer b =>
    unfold Session.step
    dsimp only
    split_ifs
    · split
      · exact ⟨hpath, hfile⟩
      · exact hact _ _
    · exact ⟨hpath, hfile⟩

/-- What is asked for is what the job says. -/
theorem Stage.asked (hs : r.Stage cJSONParse s) : Asked r.need.server r.paths s.client.contacts := by
  have hnone : s.client.contacts = [] → Asked r.need.server r.paths s.client.contacts := by
    intro hnil x hx
    rw [hnil] at hx
    cases hx
  cases hs with
  | reading _ _ hcontacts _ | gone _ hcontacts => exact hnone hcontacts
  | filling hfresh _ _ _ _ _ _ => exact hnone hfresh.contacts
  | transferring _ _ _ _ _ _ hasked => exact hasked

/-- `RIGHT` is returned from the transfer only, and then the output file is as long as the files, or longer. -/
theorem Stage.right (h : r.Served cJSONParse) (hs : r.Stage cJSONParse s) (hret : s.client.returned = some right) :
    Reach Network.step Free (.init r.paths.length r.size (r.paths.getD · []) r.inbox) s.network ∧
      s.client.main = .returned right ∧ s.globals.file s.client.outputPath =
        s.client.out.data ++ List.replicate (r.size - s.client.out.data.length) 0 := by
  have hpc := Client.returned_eq_some_iff.1 hret
  cases hs with
  | reading k hrun _ _ =>
    have hrests : s.client.pc.Rests := by rcases hpc with hpc | ⟨hpc, -⟩ <;> rw [hpc] <;> trivial
    rcases rests_of_reading h hrun hrests with ⟨ret, hleft, hne⟩ | ⟨hpost, -⟩
    · rcases hpc with hpc | ⟨hpc, -⟩ <;> rw [hpc] at hleft <;> cases hleft
      exact absurd rfl hne
    · rcases hpc with hpc | ⟨hpc, -⟩ <;> rw [hpc] at hpost <;> cases hpost
  | gone hleft _ =>
    rcases hleft with hleft | ⟨ret, hleft, hne⟩
    · rcases hpc with hpc | ⟨hpc, -⟩ <;> rw [hpc] at hleft <;> cases hleft
    · rcases hpc with hpc | ⟨hpc, -⟩ <;> rw [hpc] at hleft <;> cases hleft
      exact absurd rfl hne
  | filling _ _ _ _ _ hgroup _ => rcases hpc with hpc | ⟨hpc, -⟩ <;> rw [hpc] at hgroup <;> exact hgroup.elim
  | transferring htransfer _ hsize _ hreach hfile _ =>
    have hmain : s.client.main = .returned ORaidServer.right := by
      rcases hpc with hpc | ⟨-, hmain⟩
      · rw [htransfer] at hpc
        cases hpc
      · exact hmain
    refine ⟨hreach, hmain, ?_⟩
    rcases hfile with hmain' | ⟨ret, hmain', hne⟩ | hfile
    · rw [hmain] at hmain'
      cases hmain'
    · rw [hmain] at hmain'
      cases hmain'
      exact absurd rfl hne
    · rw [hfile, Client.outputFile, hsize, Int.toNat_natCast]

end Stages

/-! ### Two files of one byte -/

/-- A job with two files. -/
def twoFileJob : CJson :=
  .other [(some (lit "data_server_ip"), .string (lit "10.0.0.7")),
    (some (lit "data_server_port"), .string (lit "8080")),
    (some (lit "data_server_method"), .string (lit "file")),
    (some (lit "output_file_name"), .string (lit "a")),
    (some (lit "file_name_total"), .other [(none, .other [(some (lit "file_path"), .string (lit "x"))]),
      (none, .other [(some (lit "file_path"), .string (lit "y"))])])]

/-- The content of a file on the data server. -/
def twoFileDisk (path : List Byte) : List Byte := if path = lit "x" then [5] else [3]

/-- A file in one message. -/
def oneByteMessage (b : Byte) : Message := .mk' 0 [b] Nat.one_pos (by simp)

/-- The job, its data server and what that one sends. -/
def twoFiles : Remote where
  localAddr := localServer
  json := twoFileJob
  globals := initialGlobals
  need := ⟨right, ⟨lit "10.0.0.7", lit "8080", lit "file"⟩, ⟨[lit "x", lit "y"], lit "a"⟩⟩
  disk := twoFileDisk
  size := 1
  replies := fun _ => oneByteReply
  inbox := fun i => [(oneByteMessage (if i = 0 then 5 else 3)).bytes]

theorem served_twoFiles : twoFiles.Served Json.parse := by
  refine ⟨by decide +kernel, by decide, ?_, ?_⟩
  · intro p hp _
    have hpre : preFlight Json.parse twoFiles.need.server twoFiles.paths twoFiles.replies = some ⟨right, 1, 1⟩ := by
      decide +kernel
    rw [hpre] at hp
    cases hp
    rfl
  · have hlt : ∀ i < twoFiles.paths.length, i = 0 ∨ i = 1 := fun i hi => by
      have : i < 2 := hi
      omega
    refine ⟨fun i hi => ?_, fun i hi c hc => ?_, fun i hi => ?_⟩
    · rcases hlt i hi with rfl | rfl <;> rfl
    · rw [List.mem_singleton.1 hc, Message.length_bytes]
      rcases hlt i hi with rfl | rfl <;> decide
    · refine ⟨[oneByteMessage (if i = 0 then 5 else 3)], ?_, rfl, ?_⟩
      · rcases hlt i hi with rfl | rfl <;> rfl
      · simp [Aligned, lengths, twoFiles, oneByteMessage, Message.mk']

/-- Thread `i` connects, receives its file and stores it. -/
def receivesFile (i : ℕ) : List SessionAct :=
  List.replicate 5 (.transfer (.call i true)) ++
    .transfer (.proceed i) :: .transfer (.arrive i) :: List.replicate 5 (.transfer (.proceed i))

/-- The whole request. -/
def twoFileSteps : List SessionAct :=
  List.replicate 8 .proceed ++ .posts :: List.replicate 6 .proceed ++
    .transfer (.fopen true) :: .transfer (.create .created) :: .transfer (.create .created) ::
      receivesFile 0 ++ receivesFile 1 ++ List.replicate 7 (.transfer .judge)

end Remote

end ORaidServer
