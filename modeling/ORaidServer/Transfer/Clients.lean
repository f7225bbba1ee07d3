import ORaidServer.Http.PreFlight
import ORaidServer.Http.Tables
import ORaidServer.Raid.OpenFile
import ORaidServer.Transfer.Threads

/-!
# A request as a client of the shared memory

`buffered_on_read` from the reading of the job on, with all that it calls, cut into the steps between which the
handler of another connection can run: each connection has a thread of its own, and all of them share
`g_tDataDerverInfo` and `g_tgroupFile`.

* `Globals`, the shared memory, and `Client`, what is local to a handler and to the threads that it creates;
* `Client.step`, one step, and `Client.returned`, the return code;
* `run_proceed_job`, `run_proceed_url`, `run_proceed_group`: undisturbed, the steps come to what
  `getJsonNeedXorFileInfo`, `preFlight` and `Transfer.init` do at once;
* `view_transfer`: from then on they are those of `Transfer.step`;
* `file_run_of_ne`: a client writes no file but its own.
-/

namespace ORaidServer

open CString Guarded

/-- What all requests share: `g_tDataDerverInfo`, `g_tgroupFile`, the events of the threads, by file and request,
that are removed, and the output files. -/
structure Globals where
  server : DataServerInfo
  group : TGroupFileInfo
  ended : ℕ → ℕ → Bool
  file : Path → List Byte

/-- Where a handler stands. -/
inductive ClientPc
  /-- before `strcpy` to `data_server_ip` -/
  | ip
  /-- before `strcpy` to `data_server_port` -/
  | port
  /-- before `strcpy` to `data_server_method` -/
  | method
  /-- before the output file and the paths are read -/
  | rest
  /-- before the comparison of `data_server_ip` with the local address -/
  | choose
  /-- before `data_server_ip` is copied to the target -/
  | urlIp
  /-- before `data_server_port` is copied to the target -/
  | urlPort
  /-- before `data_server_method` is copied to the target -/
  | urlMethod
  /-- before the posts -/
  | post
  /-- before `memset(&g_tgroupFile, 0, sizeof(g_tgroupFile))` -/
  | clear
  /-- before `strcpy` to `file_path` of file `i` -/
  | path (i : ℕ)
  /-- before `file_size` is set -/
  | fileSize
  /-- before `file_num` is set -/
  | fileNum
  /-- in `create_client_connect_data_server`, from `fopen` on -/
  | transfer
  /-- before `open_file` -/
  | here
  /-- has returned without a transfer -/
  | returned (ret : ℤ)
  /-- gone after an access outside of an array -/
  | faulted
  deriving DecidableEq, Repr

/-- What a thread asks the data server for. -/
inductive Contact
  | connect (ip port : List Byte)
  | header (filePath : List Byte)
  deriving DecidableEq, Repr

/-- A handler with the threads that it creates.  `contacts` is not in the source and no modelled function reads
it: it records what the threads have asked for. -/
structure Client where
  localAddr : List Byte
  json : CJson
  pc : ClientPc
  sign : Bool
  ret : ℤ
  aSetOfFiles : List (List Byte)
  seen : DataServerInfo
  fileSize : ℤ
  main : MainPc
  thread : ℕ → FileThread
  out : OutFile
  contacts : List (ℕ × Contact)

/-- What happens next in a transfer.  With a read event comes what `recv` would give on the socket of each request's
thread; it is called on the one that the record of the file holds. -/
inductive GroupAct
  | fopen (ok : Bool)
  | create (r : CreateResult)
  | judge
  | call (i : ℕ) (ok : Bool)
  | proceed (i : ℕ)
  | recv (i : ℕ) (socket : Option ℕ → RecvResult)

/-- The step that it is for the group `g`. -/
def GroupAct.act (g : TGroupFileInfo) : GroupAct → TransferAct
  | .fopen ok => .fopen ok
  | .create r => .create r
  | .judge => .judge
  | .call i ok => .thread i (.call ok)
  | .proceed i => .thread i .proceed
  | .recv i socket => .thread i (.recv (socket (g.file i).fd))

/-- What happens next to a client. -/
inductive ClientAct
  /-- the handler goes on by itself -/
  | proceed
  /-- the replies to the posts -/
  | posts (replies : ℕ → Response)
  /-- `open_file` returns, the output file having that content -/
  | openFile (ret : ℤ) (output : List Byte)
  /-- a step of the transfer -/
  | transfer (a : GroupAct)

/-- `g_tgroupFile` after the `memset`. -/
def zeroGroup : TGroupFileInfo where
  file := fun _ => Transfer.zeroFile []
  fileSize := 0
  fileNum := 0
  xorSize := 0
  bufFullNum := fun _ => 0
  xorFlag := 0
  correctFlag := 0

namespace Client

/-- The handler of a request, which has been parsed, with the results of the calls that will write the output. -/
def start (request : ℕ) (localAddr : List Byte) (json : Option CJson) (results : List ℕ) : Client where
  localAddr := localAddr
  json := json.getD (.other [])
  pc := if json.isSome then .ip else .choose
  sign := true
  ret := if json.isSome then right else errorCjsonParse
  aSetOfFiles := []
  seen := ⟨[], [], []⟩
  fileSize := 0
  main := .fopen
  thread := fun _ => .new request
  out := ⟨[], results⟩
  contacts := []

/-- `output_file_name` -/
def outputFileName (c : Client) : List Byte := (findString c.json (lit "output_file_name")).getD []

/-- The path of the output file. -/
def outputPath (c : Client) : Path := ORaidServer.outputPath c.outputFileName

/-- Go on at `pc`. -/
def goto (c : Client) (pc : ClientPc) : Client := { c with pc := pc }

/-- Leave a handler without a transfer. -/
def leave (c : Client) (ret : ℤ) : Client := { c with pc := .returned ret }

/-- `strcpy` of an item of the request to a field of `g_tDataDerverInfo` that holds `old`. -/
def copyField (c : Client) (string : String) (size : ℕ) (old : List Byte) (pc : ClientPc) :
    Client × List Byte :=
  match copyItem c.json string size old with
  | none => (c.goto .faulted, old)
  | some (s, found) => ({ c with pc := pc, sign := c.sign && found }, s)

/-- The rest of `get_json_need_xor_file_info`. -/
def readRest (c : Client) : Client :=
  match copyItem c.json "output_file_name" 1024 [], fileNameTotal c.json with
  | some output, some paths =>
    { c with
      pc := .choose
      aSetOfFiles := paths.1
      ret := if c.sign && output.2 && paths.2 then right else errorCjsonFormat }
  | _, _ => c.goto .faulted

/-- `strcmp(inet_ntoa(local_addr.sin_addr), g_tDataDerverInfo.data_server_ip)` and the branch taken. -/
def choose (c : Client) (ip : List Byte) : Client :=
  if c.localAddr ≠ ip then
    if c.ret = right then c.goto .urlIp else c.leave c.ret
  else if c.ret = right then c.goto .here else c.leave c.ret

/-- The posts and the reading of the answer. -/
def post (cJSONParse : List Byte → Option Json.Value) (c : Client) (replies : ℕ → Response) : Client :=
  match preFlight cJSONParse c.seen c.aSetOfFiles replies with
  | none => c.goto .faulted
  | some p => if p.ret = right then { c with pc := .clear, fileSize := p.fileSize } else c.leave p.ret

/-- `strcpy` to `single_file_array[i].file_path`, or the end of that loop. -/
def copyPath (c : Client) (g : TGroupFileInfo) (i : ℕ) : Client × TGroupFileInfo :=
  match c.aSetOfFiles[i]? with
  | none => (c.goto .fileSize, g)
  | some filePath =>
    match if i < 50 then strcpy 1024 filePath else none with
    | none => (c.goto .faulted, g)
    | some s => (c.goto (.path (i + 1)), g.setFile i { g.file i with filePath := s })

/-- The handler goes on by itself. -/
def proceed (c : Client) (g : Globals) : Client × Globals :=
  match c.pc with
  | .ip =>
    let (c, s) := c.copyField "data_server_ip" 32 g.server.dataServerIp .port
    (c, { g with server.dataServerIp := s })
  | .port =>
    let (c, s) := c.copyField "data_server_port" 16 g.server.dataServerPort .method
    (c, { g with server.dataServerPort := s })
  | .method =>
    let (c, s) := c.copyField "data_server_method" 128 g.server.dataServerMethod .rest
    (c, { g with server.dataServerMethod := s })
  | .rest => (c.readRest, g)
  | .choose => (c.choose g.server.dataServerIp, g)
  | .urlIp => ({ c with pc := .urlPort, seen.dataServerIp := g.server.dataServerIp }, g)
  | .urlPort => ({ c with pc := .urlMethod, seen.dataServerPort := g.server.dataServerPort }, g)
  | .urlMethod => ({ c with pc := .post, seen.dataServerMethod := g.server.dataServerMethod }, g)
  | .clear => (c.goto (.path 0), { g with group := zeroGroup })
  | .path i =>
    let (c, group) := c.copyPath g.group i
    (c, { g with group := group })
  | .fileSize => (c.goto .fileNum, { g with group.fileSize := c.fileSize })
  | .fileNum => (c.goto .transfer, { g with group.fileNum := c.aSetOfFiles.length })
  | .post | .transfer | .here | .returned _ | .faulted => (c, g)

/-! ### The transfer -/

/-- The transfer that a client sees. -/
def view (c : Client) (g : Globals) : Transfer := ⟨g.group, c.thread, c.main, c.out, g.ended⟩

/-- The client after its threads, its handler and its output have changed. -/
def put (c : Client) (s : Transfer) : Client := { c with thread := s.thread, main := s.main, out := s.out }

/-- The next thread to be created, or the wait for the threads, which reads `file_num`. -/
def nextMain (c : Client) (group : TGroupFileInfo) (i : ℕ) : MainPc :=
  if i < c.aSetOfFiles.length then .create i else .judge ⟨.test 0, group.fileNum⟩

/-- The content of the output file, which `truncate` has made as long as the files are said to be. -/
def outputFile (c : Client) : List Byte :=
  c.out.data ++ List.replicate (c.fileSize.toNat - c.out.data.length) 0

/-- The output file takes the content it has for the client. -/
def write (c : Client) (g : Globals) : Globals :=
  { g with file := Function.update g.file c.outputPath c.outputFile }

/-- What thread `i` asks the data server for in a step. -/
def contact (c : Client) (g : Globals) (i : ℕ) : ThreadAct → List (ℕ × Contact)
  | .call _ =>
    match (c.thread i).pc with
    | .connect => [(i, .connect g.server.dataServerIp g.server.dataServerPort)]
    | .header => [(i, .header (g.group.file i).filePath)]
    | _ => []
  | .recv _ | .proceed => []

/-- The creation of thread `i`. -/
def create (c : Client) (g : Globals) (i : ℕ) : CreateResult → Client × Globals
  | .created =>
    ({ c with
      thread := Function.update c.thread i { c.thread i with pc := .socket }
      main := c.nextMain g.group (i + 1) }, g)
  | .noArg => ({ c with main := .returned errorCreatTransmissionDataConnection }, g)
  | .noThread =>
    ({ c with main := .returned errorCreatTransmissionDataConnection }, { g with group.correctFlag := -1 })

/-- A step of `create_client_connect_data_server`, or of one of its threads. -/
def transfer (c : Client) (g : Globals) : TransferAct → Client × Globals
  | .fopen ok =>
    match c.main with
    | .fopen =>
      if ok then ({ c with main := c.nextMain g.group 0 }, c.write g)
      else ({ c with main := .returned errorCreatTransmissionDataConnection }, g)
    | _ => (c, g)
  | .create r =>
    match c.main with
    | .create i => c.create g i r
    | _ => (c, g)
  | .judge =>
    match c.main with
    | .judge j =>
      let s := (c.view g).judgeStep j
      (c.put s, (c.put s).write { g with group := s.group })
    | _ => (c, g)
  | .thread i a =>
    if i < c.aSetOfFiles.length then
      let s := (c.view g).setCtx i
        (threadStep g.group.fileSize g.group.xorFlag ((c.view g).ctx i) a)
      ({ c.put s with contacts := c.contacts ++ c.contact g i a }, { g with group := s.group, ended := s.ended })
    else (c, g)

/-- One step of a client. -/
def step (cJSONParse : List Byte → Option Json.Value) (s : Client × Globals) : ClientAct → Client × Globals
  | .proceed => s.1.proceed s.2
  | .posts replies => if s.1.pc = .post then (s.1.post cJSONParse replies, s.2) else s
  | .openFile ret output =>
    if s.1.pc = .here then
      (s.1.leave ret, { s.2 with file := Function.update s.2.file s.1.outputPath output })
    else s
  | .transfer a => if s.1.pc = .transfer then s.1.transfer s.2 (a.act s.2.group) else s

/-- The return code, once there is one. -/
def returned (c : Client) : Option ℤ :=
  match c.pc, c.main with
  | .returned ret, _ => some ret
  | .transfer, .returned ret => some ret
  | _, _ => none

/-- The handler or one of its threads has gone beyond an array. -/
def Faulted (c : Client) : Prop :=
  c.pc = .faulted ∨ ∃ i < c.aSetOfFiles.length, (c.thread i).pc = .faulted

instance : DecidablePred Client.Faulted := fun _ => inferInstanceAs (Decidable (_ ∨ _))

/-! ### What a step can do -/

section Lemmas

variable (cJSONParse : List Byte → Option Json.Value) (c : Client) (g : Globals)

/-- A field that is not found keeps what it holds, and is remembered. -/
theorem copyField_cases (string : String) (size : ℕ) (pc : ClientPc) :
    (∀ old, c.copyField string size old pc = (c.goto .faulted, old)) ∨
      ∃ s found, ∀ old, c.copyField string size old pc =
        ({ c with pc := pc, sign := c.sign && found }, if found then s else old) := by
  unfold copyField
  cases hitem : copyItem c.json string size [] with
  | none =>
    refine Or.inl fun old => ?_
    rw [copyItem_eq, hitem]
    rfl
  | some item =>
    refine Or.inr ⟨item.1, item.2, fun old => ?_⟩
    rw [copyItem_eq, hitem]
    rfl

/-- The rest of the request is read without a look at the shared memory. -/
theorem readRest_cases : c.readRest = c.goto .faulted ∨
    ∃ files ret, c.readRest = { c with pc := .choose, aSetOfFiles := files, ret := ret } ∧
      (ret = right → c.sign = true) := by
  unfold readRest
  cases copyItem c.json "output_file_name" 1024 [] with
  | none => exact Or.inl rfl
  | some output =>
    cases fileNameTotal c.json with
    | none => exact Or.inl rfl
    | some paths =>
      refine Or.inr ⟨paths.1, _, rfl, fun hret => ?_⟩
      split_ifs at hret with hall
      · simp only [Bool.and_eq_true] at hall
        exact hall.1.1
      · exact absurd hret (by decide)

theorem json_proceed : (c.proceed g).1.json = c.json := by
  unfold proceed
  cases c.pc with
  | ip | port | method =>
    dsimp only
    unfold copyField
    split <;> rfl
  | rest =>
    dsimp only
    rcases c.readRest_cases with h | ⟨files, ret, h, -⟩
    · rw [h]
      rfl
    · rw [h]
  | choose =>
    dsimp only [choose]
    split_ifs <;> rfl
  | path i =>
    dsimp only
    unfold copyPath
    split
    · rfl
    · split <;> rfl
  | _ => rfl

/-- A transfer leaves the data server, the job and the place of the handler alone. -/
theorem frame_transfer (a : TransferAct) :
    (c.transfer g a).2.server = g.server ∧ (c.transfer g a).1.pc = c.pc ∧
      (c.transfer g a).1.aSetOfFiles = c.aSetOfFiles ∧ (c.transfer g a).1.json = c.json := by
  unfold transfer
  cases a with
  | fopen ok =>
    cases c.main with
    | fopen => cases ok <;> exact ⟨rfl, rfl, rfl, rfl⟩
    | _ => exact ⟨rfl, rfl, rfl, rfl⟩
  | create r =>
    cases c.main with
    | create i => cases r <;> exact ⟨rfl, rfl, rfl, rfl⟩
    | _ => exact ⟨rfl, rfl, rfl, rfl⟩
  | judge => cases c.main <;> exact ⟨rfl, rfl, rfl, rfl⟩
  | thread i a =>
    dsimp only
    split_ifs <;> exact ⟨rfl, rfl, rfl, rfl⟩

/-- A client keeps the name of its output file. -/
theorem outputPath_step (a : ClientAct) : (step cJSONParse (c, g) a).1.outputPath = c.outputPath := by
  have hjson : (step cJSONParse (c, g) a).1.json = c.json := by
    cases a with
    | proceed => exact json_proceed c g
    | posts replies =>
      unfold step post
      dsimp only
      split_ifs
      · split
        · rfl
        · split_ifs <;> rfl
      · rfl
    | openFile ret output =>
      unfold step
      dsimp only
      split_ifs <;> rfl
    | transfer a =>
      unfold step
      dsimp only
      split_ifs
      · exact (c.frame_transfer g (a.act g.group)).2.2.2
      · rfl
  unfold outputPath outputFileName
  rw [hjson]

theorem file_proceed : (c.proceed g).2.file = g.file := by
  unfold proceed
  cases c.pc <;> rfl

/-- A client writes no file but its own. -/
theorem file_step_of_ne {p : Path} (hp : p ≠ c.outputPath) (a : ClientAct) :
    (step cJSONParse (c, g) a).2.file p = g.file p := by
  have hupdate : ∀ content, Function.update g.file c.outputPath content p = g.file p := fun content =>
    Function.update_of_ne hp content g.file
  cases a with
  | proceed => exact congrFun (file_proceed c g) p
  | posts replies =>
    unfold step
    dsimp only
    split_ifs <;> rfl
  | openFile ret output =>
    unfold step
    dsimp only
    split_ifs
    · exact hupdate output
    · rfl
  | transfer a =>
    unfold step transfer
    dsimp only
    split_ifs
    · cases a.act g.group with
      | fopen ok =>
        cases c.main with
        | fopen =>
          cases ok
          · rfl
          · exact hupdate _
        | _ => rfl
      | create r =>
        cases c.main with
        | create i => cases r <;> rfl
        | _ => rfl
      | judge =>
        cases c.main with
        | judge j => exact hupdate _
        | _ => rfl
      | thread i a =>
        dsimp only
        split_ifs <;> rfl
    · rfl

/-- Nor does it in a whole run. -/
theorem file_run_of_ne {p : Path} (hp : p ≠ c.outputPath) (as : List ClientAct) :
    (run (step cJSONParse) (c, g) as).2.file p = g.file p := by
  induction as generalizing c g with
  | nil => rfl
  | cons a as ih =>
    have hp' : p ≠ (step cJSONParse (c, g) a).1.outputPath := by rwa [outputPath_step]
    exact (ih _ _ hp').trans (file_step_of_ne cJSONParse c g hp a)

end Lemmas

/-! ### Steps without a disturbance -/

section Undisturbed

variable (cJSONParse : List Byte → Option Json.Value) {c : Client} {g : Globals}

/-- The steps that read the job leave what `get_json_need_xor_file_info` leaves. -/
theorem run_proceed_job {request : ℕ} {localAddr : List Byte} {json : CJson} {results : List ℕ} {need : NeedXor}
    (h : getJsonNeedXorFileInfo (some json) g.server = some need) :
    (start request localAddr (some json) results).outputFileName = need.job.outputFileName ∧
      ∃ sign, run (step cJSONParse) (start request localAddr (some json) results, g) (List.replicate 4 .proceed) =
        ({ start request localAddr (some json) results with
            pc := .choose, sign := sign, ret := need.ret, aSetOfFiles := need.job.aSetOfFiles },
          { g with server := need.server }) := by
  simp only [getJsonNeedXorFileInfo, Option.bind_eq_some_iff, Option.map_eq_some_iff] at h
  obtain ⟨ip, hip, port, hport, method, hmethod, output, houtput, paths, hpaths, rfl⟩ := h
  constructor
  · unfold outputFileName findString
    unfold copyItem at houtput
    change ((cJSON_GetObjectItem json _).bind _).getD [] = _
    cases hitem : cJSON_GetObjectItem json (lit "output_file_name") with
    | none =>
      rw [hitem] at houtput
      cases houtput
      rfl
    | some item =>
      rw [hitem] at houtput
      obtain ⟨s, hs, rfl⟩ := Option.map_eq_some_iff.1 houtput
      obtain ⟨t, ht, hcopy⟩ := Option.bind_eq_some_iff.1 hs
      rw [Option.bind_some, ht, eq_of_strcpy hcopy]
      rfl
  · refine ⟨ip.2 && port.2 && method.2, ?_⟩
    simp [List.replicate, Guarded.run, step, proceed, start, copyField, readRest, hip, hport, hmethod,
      houtput, hpaths]

/-- The steps that build the target copy the data server. -/
theorem run_proceed_url (h : c.pc = .urlIp) : run (step cJSONParse) (c, g) (List.replicate 3 .proceed) =
    ({ c with pc := .post, seen := g.server }, g) := by
  simp [List.replicate, Guarded.run, step, proceed, h]

/-- `g_tgroupFile` with the first `i` paths, and nothing else. -/
def pathGroup (aSetOfFiles : List (List Byte)) (i : ℕ) : TGroupFileInfo :=
  { zeroGroup with file := fun j => Transfer.zeroFile (if j < i then aSetOfFiles.getD j [] else []) }

theorem file_pathGroup (aSetOfFiles : List (List Byte)) (i j : ℕ) : (pathGroup aSetOfFiles i).file j =
    Transfer.zeroFile (if j < i then aSetOfFiles.getD j [] else []) := rfl

/-- The entry that comes next takes its path. -/
theorem setFile_pathGroup {aSetOfFiles : List (List Byte)} {i : ℕ} (hi : i < aSetOfFiles.length) :
    (pathGroup aSetOfFiles i).setFile i { (pathGroup aSetOfFiles i).file i with filePath := aSetOfFiles[i] } =
      pathGroup aSetOfFiles (i + 1) := by
  have hfile : Function.update (pathGroup aSetOfFiles i).file i
      { (pathGroup aSetOfFiles i).file i with filePath := aSetOfFiles[i] } =
        (pathGroup aSetOfFiles (i + 1)).file := by
    funext j
    rcases lt_trichotomy j i with hj | rfl | hj
    · rw [Function.update_of_ne hj.ne, file_pathGroup, file_pathGroup, if_pos hj,
        if_pos (hj.trans i.lt_succ_self)]
    · rw [Function.update_self, file_pathGroup, file_pathGroup, if_pos j.lt_succ_self,
        List.getD_eq_getElem _ _ hi]
      rfl
    · rw [Function.update_of_ne hj.ne', file_pathGroup, file_pathGroup, if_neg (not_lt.2 hj.le),
        if_neg (not_lt.2 hj)]
  unfold TGroupFileInfo.setFile
  rw [hfile]
  rfl

/-- The loop on the paths, as far as the table has room for them. -/
theorem run_copyPath (htable : (singleFileArray c.aSetOfFiles).isSome) {i : ℕ}
    (hi : i ≤ c.aSetOfFiles.length) :
    run (step cJSONParse) (c.goto (.path 0), { g with group := zeroGroup }) (List.replicate i .proceed) =
      (c.goto (.path i), { g with group := pathGroup c.aSetOfFiles i }) := by
  induction i with
  | zero => simp [pathGroup, zeroGroup]
  | succ i ih =>
    obtain ⟨hfit, hlen⟩ := isSome_fill_iff.1 htable
    have hlt : i < c.aSetOfFiles.length := hi
    have hroom : i < 50 := by
      rcases hlen with hnil | hlen
      · rw [hnil] at hlt
        exact absurd hlt (Nat.not_lt_zero i)
      · omega
    have hcopy := strcpy_of_lt (isSome_strcpy_iff.1 (hfit _ (List.getElem_mem hlt)))
    have hget : c.aSetOfFiles[i]? = some c.aSetOfFiles[i] := List.getElem?_eq_getElem hlt
    rw [List.replicate_succ', run_append, ih hlt.le, run_cons, run_nil]
    simp only [step, proceed, goto, copyPath, hget, if_pos hroom, hcopy, setFile_pathGroup hlt]

/-- The steps that fill in the group leave it as a transfer finds it. -/
theorem run_proceed_group (h : c.pc = .clear) (htable : (singleFileArray c.aSetOfFiles).isSome) :
    run (step cJSONParse) (c, g) (List.replicate (1 + (c.aSetOfFiles.length + 3)) .proceed) =
      (c.goto .transfer, { g with
        group := (Transfer.init c.aSetOfFiles.length c.fileSize fun i => c.aSetOfFiles.getD i []).group }) := by
  have hclear : step cJSONParse (c, g) .proceed = (c.goto (.path 0), { g with group := zeroGroup }) := by
    simp [step, proceed, h]
  have hend : c.aSetOfFiles[c.aSetOfFiles.length]? = none := List.getElem?_eq_none le_rfl
  have hfile : (pathGroup c.aSetOfFiles c.aSetOfFiles.length).file =
      fun i => Transfer.zeroFile (c.aSetOfFiles.getD i []) := by
    funext j
    rw [file_pathGroup]
    split_ifs with hj
    · rfl
    · rw [List.getD_eq_default _ _ (not_lt.1 hj)]
  rw [List.replicate_add, List.replicate_add, run_append, run_append, List.replicate_one, run_cons, run_nil,
    hclear, run_copyPath cJSONParse htable le_rfl]
  simp only [List.replicate, run_cons, run_nil, step, proceed, goto, copyPath, hend, hfile]
  rfl

/-- A step of a transfer, with the number of files in place, is one of `Transfer.step`. -/
theorem view_transfer (hnum : g.group.fileNum = c.aSetOfFiles.length) (a : TransferAct) :
    (c.transfer g a).1.view (c.transfer g a).2 = (c.view g).step a := by
  cases a with
  | fopen ok =>
    cases hmain : c.main with
    | fopen =>
      cases ok with
      | false => simp [transfer, Transfer.step, view, hmain]
      | true => simp [transfer, Transfer.step, view, hmain, write, nextMain, Transfer.nextMain, hnum]
    | _ => simp [transfer, Transfer.step, view, hmain]
  | create r =>
    cases hmain : c.main with
    | create i =>
      cases r <;>
        simp [transfer, create, Transfer.step, Transfer.create, view, hmain, nextMain, Transfer.nextMain, hnum]
    | _ => simp [transfer, Transfer.step, view, hmain]
  | judge =>
    cases hmain : c.main with
    | judge j =>
      simp only [transfer, Transfer.step, view, hmain]
      rfl
    | _ => simp [transfer, Transfer.step, view, hmain]
  | thread i a =>
    have hview : (c.view g).group = g.group := rfl
    unfold transfer Transfer.step
    dsimp only
    rw [hview, hnum]
    split_ifs <;> rfl

end Undisturbed

end Client

end ORaidServer
