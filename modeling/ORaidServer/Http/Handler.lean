import ORaidServer.Http.Input
import ORaidServer.Http.Json
import ORaidServer.Http.Output

/-!
# The requests of a connection

`buffered_on_read` of `oraid_server.cpp`, the callback for data on a client's connection.

* `Environment`, what the callback calls that is not part of the model, and `Connection`, its state;
* `bufferedOnRead`, and `run`, the callbacks for the results of `read` one after another;
* `reading`, what a result is taken for, and `bufferedOnRead_of_isHttp`, that a result has no other effect;
* `sameAsWhole_iff`: a request that comes in pieces is answered like the whole exactly where one piece is
  taken for what the whole is taken for, and the others are not taken for requests.
-/

namespace ORaidServer

open CString

/-- `BUF_MAX` -/
def bufMax : ℕ := 1024 * 16

/-- `recvbuf`, zero-filled before the `read`. -/
def recvbuf (recv : List Byte) : List Byte := recv ++ List.replicate (bufMax - recv.length) 0

/-- The methods that a request may start with. -/
def httpMethods : List (List Byte) :=
  [lit "GET", lit "HEAD", lit "POST", lit "PUT", lit "DELETE", lit "CONNECT", lit "OPTIONS", lit "TRACE"]

/-- The test by which what was read is taken for a request. -/
def IsHttp (recv : List Byte) : Prop :=
  recv.length > 10 ∧ ∃ m ∈ httpMethods, strncmp recv m m.length = true

instance : DecidablePred IsHttp := fun _ => inferInstanceAs (Decidable (_ ∧ _))

/-- What the world outside does for the callback: the two ways to do a job, with their results, `errno`, and
the time. -/
structure Environment (σ : Type) where
  openFile : XorJob → σ → ℤ × σ
  viaDataServer : DataServerInfo → XorJob → σ → ℤ × σ
  errno : σ → Errno
  time : σ → Moment

/-- The state that the callbacks of a connection see, the global `g_tDataDerverInfo` included, and a record
of the jobs they start and of the bytes they send. -/
structure Connection (σ : Type) where
  world : σ
  server : DataServerInfo
  closed : Bool
  jobs : List XorJob
  responses : List (List Byte)

section Callback

variable (cJSONParse : List Byte → Option CJson) (localAddr : List Byte) {σ : Type}
  (E : Environment σ)

/-- The rest of the callback, once the request and its JSON text have been read. -/
def handleRequest (c : Connection σ) (info : HttpInfo) (need : NeedXor) : Connection σ :=
  let done :=
    if localAddr ≠ need.server.dataServerIp then
      if need.ret = right then E.viaDataServer need.server need.job c.world
      else (need.ret, c.world)
    else
      if need.ret = right then E.openFile need.job c.world
      else (need.ret, c.world)
  let content := setSendJsonInfo (E.errno done.2) done.1
  { world := done.2
    server := need.server
    closed := false
    jobs := c.jobs ++ if need.ret = right then [need.job] else []
    responses := c.responses ++
      [setOutputHttpInfo (E.time done.2) content info.header info.contentType ++ [0]] }

/-- `buffered_on_read(sock, event, arg)` for a result of `read`; `none` where memory outside an array is
accessed. -/
def bufferedOnRead (c : Connection σ) (recv : List Byte) : Option (Connection σ) :=
  if c.closed then some c
  else if recv = [] then some { c with closed := true }
  else if IsHttp recv then do
    let info ← getInputHttpInfo (recvbuf recv)
    let need ← getJsonNeedXorFileInfo (cJSONParse info.content) c.server
    some (handleRequest localAddr E c info need)
  else some c

/-- The callbacks for the results of `read`. -/
def onReads : List (List Byte) → Connection σ → Option (Connection σ)
  | [], c => some c
  | recv :: reads, c => (bufferedOnRead cJSONParse localAddr E c recv).bind (onReads reads)

end Callback

/-! ### What a read is taken for -/

/-- What is to be done for a request. -/
inductive Plan
  /-- nothing: the request has an error -/
  | fail (ret : ℤ)
  /-- the files are here -/
  | openFile (job : XorJob)
  /-- the files are with a data server -/
  | viaDataServer (server : DataServerInfo) (job : XorJob)
  deriving DecidableEq, Repr

/-- The jobs that are started. -/
def Plan.jobs : Plan → List XorJob
  | fail _ => []
  | openFile job => [job]
  | viaDataServer _ job => [job]

/-- The return code, and the world afterwards. -/
def Plan.perform {σ : Type} (E : Environment σ) (world : σ) : Plan → ℤ × σ
  | fail ret => (ret, world)
  | openFile job => E.openFile job world
  | viaDataServer server job => E.viaDataServer server job world

/-- What follows from the JSON text. -/
def NeedXor.plan (localAddr : List Byte) (need : NeedXor) : Plan :=
  if need.ret = right then
    if localAddr ≠ need.server.dataServerIp then .viaDataServer need.server need.job
    else .openFile need.job
  else .fail need.ret

/-- A request as it is read: the strings that are echoed and what is to be done. -/
structure Reading where
  header : List Byte
  contentType : List Byte
  plan : Plan
  deriving DecidableEq, Repr

/-- What a read is taken for, by `get_input_http_info` and `get_json_need_xor_file_info`. -/
def reading (cJSONParse : List Byte → Option CJson) (localAddr recv : List Byte) : Option Reading := do
  let info ← getInputHttpInfo (recvbuf recv)
  let need ← getJsonNeedXorFileInfo (cJSONParse info.content) ⟨[], [], []⟩
  some ⟨info.header, info.contentType, need.plan localAddr⟩

/-- The bytes sent for a request. -/
def Reading.response {σ : Type} (E : Environment σ) (world : σ) (rd : Reading) : List Byte :=
  let done := rd.plan.perform E world
  setOutputHttpInfo (E.time done.2) (setSendJsonInfo (E.errno done.2) done.1) rd.header
    rd.contentType ++ [0]

/-- The failures among the plans are negative codes. -/
def Plan.Fair : Plan → Prop
  | fail ret => ret < 0
  | _ => True

theorem NeedXor.plan_of_right {need : NeedXor} (localAddr : List Byte) (h : need.ret = right) :
    need.plan localAddr = if localAddr ≠ need.server.dataServerIp then
      .viaDataServer need.server need.job else .openFile need.job := if_pos h

theorem NeedXor.plan_of_neg {need : NeedXor} (localAddr : List Byte) (h : need.ret < 0) :
    need.plan localAddr = .fail need.ret :=
  if_neg fun hr => absurd (hr ▸ h) (by decide)

section Callback

variable {cJSONParse : List Byte → Option CJson} {localAddr : List Byte} {σ : Type}
  {E : Environment σ} {c t : Connection σ} {recv : List Byte}

/-- What a read is taken for does not depend on the data server of an earlier request. -/
theorem reading_eq_some {rd : Reading} (server : DataServerInfo) :
    reading cJSONParse localAddr recv = some rd ↔
      ∃ info need, getInputHttpInfo (recvbuf recv) = some info ∧
        getJsonNeedXorFileInfo (cJSONParse info.content) server = some need ∧
        rd = ⟨info.header, info.contentType, need.plan localAddr⟩ := by
  have hplan : ∀ (json : Option CJson) (s s' : DataServerInfo) (need : NeedXor),
      getJsonNeedXorFileInfo json s = some need → ∃ need', getJsonNeedXorFileInfo json s' = some need' ∧
        need'.plan localAddr = need.plan localAddr := by
    intro json s s' need h
    rcases getJsonNeedXorFileInfo_cases json s s' with ⟨hn, -⟩ | ⟨m, m', hm, hm', hcase⟩
    · rw [hn] at h
      cases h
    · rw [hm] at h
      cases h
      refine ⟨m', hm', ?_⟩
      rcases hcase with ⟨-, rfl⟩ | ⟨hneg, hret⟩
      · rfl
      · rw [NeedXor.plan_of_neg _ hneg, NeedXor.plan_of_neg _ (hret.trans_lt hneg), hret]
  unfold reading
  simp only [Option.bind_eq_bind, Option.bind_eq_some_iff, Option.some.injEq]
  constructor
  · rintro ⟨info, hinfo, need, hneed, rfl⟩
    obtain ⟨need', hneed', heq⟩ := hplan _ _ server _ hneed
    exact ⟨info, need', hinfo, hneed', by rw [heq]⟩
  · rintro ⟨info, need, hinfo, hneed, rfl⟩
    obtain ⟨need', hneed', heq⟩ := hplan _ _ ⟨[], [], []⟩ _ hneed
    exact ⟨info, hinfo, need', hneed', by rw [heq]⟩

/-- The strings and the plan of a request are of the kind that shows in the response. -/
theorem reading_clean {rd : Reading} (h : reading cJSONParse localAddr recv = some rd) :
    sp ∉ rd.header ∧ cr ∉ rd.contentType ∧ rd.plan.Fair := by
  obtain ⟨info, need, hinfo, hneed, rfl⟩ := (reading_eq_some ⟨[], [], []⟩).1 h
  have hcut := cut_getInputHttpInfo hinfo
  refine ⟨hcut.header, hcut.contentType, ?_⟩
  rcases getJsonNeedXorFileInfo_cases (cJSONParse info.content) ⟨[], [], []⟩ ⟨[], [], []⟩ with
    ⟨hn, -⟩ | ⟨m, m', hm, -, hcase⟩
  · rw [hn] at hneed
    cases hneed
  · rw [hm] at hneed
    cases hneed
    rcases hcase with ⟨hret, -⟩ | ⟨hneg, -⟩
    · dsimp only
      rw [NeedXor.plan_of_right _ hret]
      split_ifs <;> trivial
    · dsimp only
      rw [NeedXor.plan_of_neg _ hneg]
      exact hneg

/-- The connection after a request has been answered. -/
structure Answers (E : Environment σ) (c : Connection σ) (rd : Reading) (t : Connection σ) : Prop where
  world : t.world = (rd.plan.perform E c.world).2
  closed : t.closed = false
  jobs : t.jobs = c.jobs ++ rd.plan.jobs
  responses : t.responses = c.responses ++ [rd.response E c.world]

theorem answers_handleRequest (info : HttpInfo) (need : NeedXor) :
    Answers E c ⟨info.header, info.contentType, need.plan localAddr⟩
      (handleRequest localAddr E c info need) := by
  have hdone : (if localAddr ≠ need.server.dataServerIp then
      if need.ret = right then E.viaDataServer need.server need.job c.world
      else (need.ret, c.world)
    else
      if need.ret = right then E.openFile need.job c.world
      else (need.ret, c.world)) = (need.plan localAddr).perform E c.world := by
    unfold NeedXor.plan
    split_ifs <;> rfl
  unfold handleRequest
  rw [hdone]
  refine ⟨rfl, rfl, ?_, rfl⟩
  unfold NeedXor.plan
  split_ifs <;> rfl

theorem ne_nil_of_isHttp (h : IsHttp recv) : recv ≠ [] := by
  rintro rfl
  exact absurd h.1 (by decide)

theorem bufferedOnRead_of_not_isHttp (hne : recv ≠ []) (h : ¬ IsHttp recv) :
    bufferedOnRead cJSONParse localAddr E c recv = some c := by
  unfold bufferedOnRead
  rw [if_neg hne, if_neg h, ite_self]

/-- A request does what it is taken for, and is answered. -/
theorem bufferedOnRead_of_isHttp (hc : c.closed = false) (h : IsHttp recv) :
    bufferedOnRead cJSONParse localAddr E c recv = some t →
      ∃ rd, reading cJSONParse localAddr recv = some rd ∧ Answers E c rd t := by
  unfold bufferedOnRead
  rw [if_neg (by simp [hc]), if_neg (ne_nil_of_isHttp h), if_pos h]
  simp only [Option.bind_eq_bind, Option.bind_eq_some_iff, Option.some.injEq]
  rintro ⟨info, hinfo, need, hneed, rfl⟩
  exact ⟨_, (reading_eq_some c.server).2 ⟨info, need, hinfo, hneed, rfl⟩, answers_handleRequest info need⟩

theorem exists_bufferedOnRead (hc : c.closed = false) (h : IsHttp recv) {rd : Reading}
    (hrd : reading cJSONParse localAddr recv = some rd) :
    ∃ t, bufferedOnRead cJSONParse localAddr E c recv = some t ∧ Answers E c rd t := by
  obtain ⟨info, need, hinfo, hneed, rfl⟩ := (reading_eq_some c.server).1 hrd
  refine ⟨_, ?_, answers_handleRequest info need⟩
  unfold bufferedOnRead
  rw [if_neg (by simp [hc]), if_neg (ne_nil_of_isHttp h), if_pos h]
  simp only [hinfo, hneed, Option.bind_eq_bind, Option.bind_some]

theorem onReads_append (reads reads' : List (List Byte)) :
    onReads cJSONParse localAddr E (reads ++ reads') c =
      (onReads cJSONParse localAddr E reads c).bind (onReads cJSONParse localAddr E reads') := by
  induction reads generalizing c with
  | nil => rfl
  | cons recv reads ih =>
    rw [List.cons_append, onReads, onReads]
    cases bufferedOnRead cJSONParse localAddr E c recv with
    | none => rfl
    | some c' => exact ih

/-- Reads that are not taken for requests do nothing. -/
theorem onReads_of_not_isHttp {reads : List (List Byte)} (hne : ∀ recv ∈ reads, recv ≠ [])
    (h : ∀ recv ∈ reads, ¬ IsHttp recv) : onReads cJSONParse localAddr E reads c = some c := by
  induction reads with
  | nil => rfl
  | cons recv reads ih =>
    rw [onReads, bufferedOnRead_of_not_isHttp (hne _ List.mem_cons_self) (h _ List.mem_cons_self)]
    exact ih (fun r hr => hne r (List.mem_cons_of_mem _ hr)) fun r hr =>
      h r (List.mem_cons_of_mem _ hr)

/-- Every read that is taken for a request is answered on its own. -/
theorem length_responses_onReads {reads : List (List Byte)} (hne : ∀ recv ∈ reads, recv ≠ [])
    (hc : c.closed = false) (h : onReads cJSONParse localAddr E reads c = some t) :
    t.responses.length = c.responses.length + (reads.filter (IsHttp ·)).length := by
  induction reads generalizing c with
  | nil =>
    cases h
    rfl
  | cons recv reads ih =>
    obtain ⟨c', hc', hrest⟩ := Option.bind_eq_some_iff.1 h
    have hne' : ∀ r ∈ reads, r ≠ [] := fun r hr => hne r (List.mem_cons_of_mem _ hr)
    by_cases hr : IsHttp recv
    · obtain ⟨rd, -, hans⟩ := bufferedOnRead_of_isHttp hc hr hc'
      rw [ih hne' hans.closed hrest, hans.responses, List.filter_cons_of_pos (by simpa using hr),
        List.length_append, List.length_singleton, List.length_cons]
      omega
    · rw [bufferedOnRead_of_not_isHttp (hne _ List.mem_cons_self) hr] at hc'
      cases hc'
      rw [ih hne' hc hrest, List.filter_cons_of_neg (by simpa using hr)]

end Callback

/-! ### Requests in pieces -/

/-- The results of `read` that a request of at most `BUF_MAX - 1` bytes comes in. -/
structure Delivery where
  reads : List (List Byte)
  ne_nil : ∀ recv ∈ reads, recv ≠ []
  length_lt : reads.flatten.length < bufMax

/-- The request. -/
def Delivery.request (d : Delivery) : List Byte := d.reads.flatten

section SameAsWhole

variable (cJSONParse : List Byte → Option CJson) (localAddr : List Byte) (d : Delivery)

/-- Whatever the environment does, the whole request in one read gets one response, and the reads of the
delivery start the same jobs and get the same response. -/
def SameAsWhole : Prop :=
  ∀ (σ : Type) (E : Environment σ) (c : Connection σ), c.closed = false →
    ∃ whole t, onReads cJSONParse localAddr E [d.request] c = some whole ∧
      onReads cJSONParse localAddr E d.reads c = some t ∧
      (∃ response, whole.responses = c.responses ++ [response]) ∧
      t.jobs = whole.jobs ∧ t.responses = whole.responses

/-- The request is taken for a request, one of the reads is taken for the same request, and the others are
not taken for requests. -/
def InOneRead : Prop :=
  IsHttp d.request ∧ ∃ pre recv post rd, d.reads = pre ++ recv :: post ∧
    (∀ r ∈ pre ++ post, ¬ IsHttp r) ∧ IsHttp recv ∧
    reading cJSONParse localAddr recv = some rd ∧ reading cJSONParse localAddr d.request = some rd

variable {cJSONParse localAddr d}

theorem sameAsWhole_of_inOneRead (h : InOneRead cJSONParse localAddr d) :
    SameAsWhole cJSONParse localAddr d := by
  obtain ⟨hreq, pre, recv, post, rd, hreads, hothers, hrecv, hrd, hwhole⟩ := h
  intro σ E c hc
  obtain ⟨whole, hw, hwans⟩ := exists_bufferedOnRead (E := E) hc hreq hwhole
  obtain ⟨t, ht, htans⟩ := exists_bufferedOnRead (E := E) hc hrecv hrd
  have hne : ∀ r ∈ pre ++ post, r ≠ [] := by
    intro r hr
    apply d.ne_nil r
    rw [hreads]
    rcases List.mem_append.1 hr with hr | hr
    · exact List.mem_append_left _ hr
    · exact List.mem_append_right _ (List.mem_cons_of_mem _ hr)
  refine ⟨whole, t, ?_, ?_, ⟨_, hwans.responses⟩, ?_, ?_⟩
  · rw [onReads, hw]
    rfl
  · rw [hreads, onReads_append,
      onReads_of_not_isHttp (fun r hr => hne r (List.mem_append_left _ hr)) fun r hr =>
        hothers r (List.mem_append_left _ hr), Option.bind_some, onReads, ht, Option.bind_some]
    exact onReads_of_not_isHttp (fun r hr => hne r (List.mem_append_right _ hr)) fun r hr =>
      hothers r (List.mem_append_right _ hr)
  · rw [htans.jobs, hwans.jobs]
  · rw [htans.responses, hwans.responses]

/-- The data server of a plan. -/
def Plan.server : Plan → DataServerInfo
  | viaDataServer server _ => server
  | _ => ⟨[], [], []⟩

/-- An environment in which the return code tells what was done, and whether with that data server. -/
def telling (server : DataServerInfo) : Environment Unit where
  openFile _ _ := (0, ())
  viaDataServer s _ _ := (if s = server then 1 else 2, ())
  errno _ := ⟨0, [], List.not_mem_nil⟩
  time _ := ⟨[], List.not_mem_nil⟩

/-- Plans with the same jobs and the same return code are the same. -/
theorem eq_of_telling {p q : Plan} (hp : p.Fair) (hq : q.Fair) (hjobs : p.jobs = q.jobs)
    (hret : (p.perform (telling p.server) ()).1 = (q.perform (telling p.server) ()).1) : p = q := by
  cases p with
  | fail ret =>
    cases q with
    | fail ret' => exact congrArg Plan.fail hret
    | openFile job => cases hjobs
    | viaDataServer server job => cases hjobs
  | openFile job =>
    cases q with
    | fail ret' => cases hjobs
    | openFile job' => exact congrArg Plan.openFile (List.cons.inj hjobs).1
    | viaDataServer server' job' =>
      simp only [Plan.perform, telling] at hret
      split_ifs at hret <;> omega
  | viaDataServer server job =>
    cases q with
    | fail ret' => cases hjobs
    | openFile job' =>
      simp only [Plan.perform, telling] at hret
      split_ifs at hret <;> omega
    | viaDataServer server' job' =>
      obtain rfl := (List.cons.inj hjobs).1
      obtain rfl : server' = server := by
        by_contra hne
        simp [Plan.perform, telling, Plan.server, hne] at hret
      rfl

/-- The response tells what a read was taken for. -/
theorem eq_of_answers {recv recv' : List Byte} {rd rd' : Reading} {c t t' : Connection Unit}
    (h : reading cJSONParse localAddr recv = some rd)
    (h' : reading cJSONParse localAddr recv' = some rd')
    (ht : Answers (telling rd.plan.server) c rd t) (ht' : Answers (telling rd.plan.server) c rd' t')
    (hjobs : t.jobs = t'.jobs) (hresponses : t.responses = t'.responses) : rd = rd' := by
  obtain ⟨hh, hc, hp⟩ := reading_clean h
  obtain ⟨hh', hc', hp'⟩ := reading_clean h'
  rw [ht.jobs, ht'.jobs] at hjobs
  rw [ht.responses, ht'.responses] at hresponses
  have hresponse := (List.cons.inj (List.append_cancel_left hresponses)).1
  obtain ⟨hheader, hcontentType, hret⟩ := eq_of_setOutputHttpInfo hh hh' hc hc' hresponse
  have hplan := eq_of_telling hp hp' (List.append_cancel_left hjobs) hret
  cases rd
  cases rd'
  cases hheader
  cases hcontentType
  cases hplan
  rfl

/-- The reads around the only one that is taken for a request. -/
theorem exists_of_length_filter {reads : List (List Byte)}
    (h : (reads.filter (IsHttp ·)).length = 1) :
    ∃ pre recv post, reads = pre ++ recv :: post ∧ IsHttp recv ∧ ∀ r ∈ pre ++ post, ¬ IsHttp r := by
  obtain ⟨recv, hrecv⟩ := List.length_eq_one_iff.1 h
  obtain ⟨pre, post, rfl, hpre, hr, hpost⟩ := List.filter_eq_cons_iff.1 hrecv
  refine ⟨pre, recv, post, rfl, by simpa using hr, fun r hmem => ?_⟩
  rcases List.mem_append.1 hmem with hmem | hmem
  · simpa using hpre r hmem
  · simpa using List.filter_eq_nil_iff.1 hpost r hmem

theorem isHttp_of_sameAsWhole (h : SameAsWhole cJSONParse localAddr d) : IsHttp d.request := by
  obtain ⟨whole, -, hwhole, -, ⟨response, hresponse⟩, -⟩ :=
    h Unit (telling ⟨[], [], []⟩) ⟨(), ⟨[], [], []⟩, false, [], []⟩ rfl
  by_contra hreq
  have hb : bufferedOnRead cJSONParse localAddr (telling ⟨[], [], []⟩)
      ⟨(), ⟨[], [], []⟩, false, [], []⟩ d.request = some whole := by
    rw [onReads] at hwhole
    obtain ⟨c', hc', hrest⟩ := Option.bind_eq_some_iff.1 hwhole
    cases hrest
    exact hc'
  unfold bufferedOnRead at hb
  rw [if_neg (by simp), if_neg hreq] at hb
  split_ifs at hb <;> cases hb <;> cases hresponse

theorem inOneRead_of_sameAsWhole (h : SameAsWhole cJSONParse localAddr d) :
    InOneRead cJSONParse localAddr d := by
  have hreq := isHttp_of_sameAsWhole h
  set c : Connection Unit := ⟨(), ⟨[], [], []⟩, false, [], []⟩
  -- the number of responses singles out one read
  obtain ⟨pre, recv, post, hreads, hrecv, hothers⟩ : ∃ pre recv post, d.reads = pre ++ recv :: post ∧
      IsHttp recv ∧ ∀ r ∈ pre ++ post, ¬ IsHttp r := by
    obtain ⟨whole, t, -, ht, ⟨response, hresponse⟩, -, heq⟩ := h Unit (telling ⟨[], [], []⟩) c rfl
    have hlen := length_responses_onReads d.ne_nil rfl ht
    rw [heq, hresponse, List.length_append, List.length_singleton] at hlen
    exact exists_of_length_filter (Nat.add_left_cancel hlen).symm
  have hne : ∀ r ∈ pre ++ post, r ≠ [] := fun r hr => d.ne_nil r (by
    rw [hreads]
    simp only [List.mem_append, List.mem_cons] at hr ⊢
    tauto)
  have hone : ∀ (E : Environment Unit) (t : Connection Unit),
      onReads cJSONParse localAddr E d.reads c = some t →
        bufferedOnRead cJSONParse localAddr E c recv = some t := by
    intro E t ht
    rw [hreads, onReads_append,
      onReads_of_not_isHttp (fun r hr => hne r (List.mem_append_left _ hr)) fun r hr =>
        hothers r (List.mem_append_left _ hr), Option.bind_some, onReads] at ht
    obtain ⟨t', ht', hrest⟩ := Option.bind_eq_some_iff.1 ht
    rw [onReads_of_not_isHttp (fun r hr => hne r (List.mem_append_right _ hr)) fun r hr =>
      hothers r (List.mem_append_right _ hr)] at hrest
    exact ht'.trans hrest
  have hall : ∀ (E : Environment Unit) (t : Connection Unit),
      onReads cJSONParse localAddr E [d.request] c = some t →
        bufferedOnRead cJSONParse localAddr E c d.request = some t := by
    intro E t ht
    obtain ⟨t', ht', hrest⟩ := Option.bind_eq_some_iff.1 ht
    exact ht'.trans hrest
  obtain ⟨rd, hrd⟩ : ∃ rd, reading cJSONParse localAddr recv = some rd := by
    obtain ⟨whole, t, -, ht, -⟩ := h Unit (telling ⟨[], [], []⟩) c rfl
    obtain ⟨rd, hrd, -⟩ := bufferedOnRead_of_isHttp rfl hrecv (hone _ t ht)
    exact ⟨rd, hrd⟩
  obtain ⟨whole, t, hwhole, ht, -, hjobs, hresponses⟩ := h Unit (telling rd.plan.server) c rfl
  obtain ⟨rd', hrd', hans⟩ := bufferedOnRead_of_isHttp rfl hrecv (hone _ t ht)
  obtain ⟨rdw, hrdw, hansw⟩ := bufferedOnRead_of_isHttp rfl hreq (hall _ whole hwhole)
  obtain rfl : rd = rd' := Option.some.inj (hrd.symm.trans hrd')
  obtain rfl := eq_of_answers hrd hrdw hans hansw hjobs hresponses
  exact ⟨hreq, pre, recv, post, rd, hreads, hothers, hrecv, hrd, hrdw⟩

/-- A request is handled as if it came in one read exactly when it does, as far as the handler can tell. -/
theorem sameAsWhole_iff : SameAsWhole cJSONParse localAddr d ↔ InOneRead cJSONParse localAddr d :=
  ⟨inOneRead_of_sameAsWhole, sameAsWhole_of_inOneRead⟩

end SameAsWhole

/-- `POST /x HTTP/1.1` and a body, of which the first read brings five bytes. -/
def splitRequest : Delivery where
  reads := [lit "POST ", lit "/x HTTP/1.1" ++ crlf ++ lit "Content-Type: t" ++ crlf ++ crlf ++ lit "\x7b\x7d"]
  ne_nil := by decide
  length_lt := by decide

/-- Neither read is taken for a request, and there is no response. -/
theorem not_sameAsWhole : ¬ SameAsWhole (fun _ => none) (lit "127.0.0.1") splitRequest ∧
    ∀ recv ∈ splitRequest.reads, ¬ IsHttp recv := by
  have hreads : ∀ recv ∈ splitRequest.reads, ¬ IsHttp recv := by decide
  refine ⟨fun h => ?_, hreads⟩
  obtain ⟨-, pre, recv, post, rd, heq, -, hrecv, -⟩ := inOneRead_of_sameAsWhole h
  exact hreads recv (heq ▸ List.mem_append_right _ List.mem_cons_self) hrecv

end ORaidServer
