import ORaidServer.Http.Handler
import ORaidServer.Http.Job
import ORaidServer.Http.Request

/-!
# From a request to its job

`buffered_on_read` of `oraid_server.cpp` on the text of a request, with what `get_input_http_info` and
`get_json_need_xor_file_info` make of it.

* `reading_text`: what a request is taken for depends on its body only, but for the strings that are echoed;
* `starts_iff`: which job a request starts, and with which data server.
-/

namespace ORaidServer

open CString

/-- The text of a request in the receive buffer ends with a NUL. -/
theorem exists_recvbuf {recv : List Byte} (h : recv.length < bufMax) :
    ∃ rest, recvbuf recv = recv ++ 0 :: rest := by
  refine ⟨List.replicate (bufMax - recv.length - 1) 0, ?_⟩
  rw [recvbuf, ← List.replicate_succ]
  congr 2
  omega

/-- What is read from a request in the receive buffer. -/
theorem getInputHttpInfo_recvbuf (q : Request) (hcr : cr ∉ q.body) (hlen : q.text.length < bufMax) :
    getInputHttpInfo (recvbuf q.text) = some ⟨q.body, q.path, q.version, q.headers.foldl lineType []⟩ := by
  obtain ⟨rest, hrest⟩ := exists_recvbuf hlen
  rw [hrest, getInputHttpInfo_text q rest hcr]

/-- What a request is taken for, the job coming from its body. -/
theorem reading_text (cJSONParse : List Byte → Option CJson) (localAddr : List Byte) (q : Request)
    (hcr : cr ∉ q.body) (hlen : q.text.length < bufMax) : reading cJSONParse localAddr q.text =
      (getJsonNeedXorFileInfo (cJSONParse q.body) ⟨[], [], []⟩).map fun need =>
        ⟨q.version, q.headers.foldl lineType [], need.plan localAddr⟩ := by
  rw [reading, getInputHttpInfo_recvbuf q hcr hlen, Option.map_eq_bind]
  rfl

/-- **The job of a request.**  A request whose body has no carriage return starts a job, with a data server,
if and only if the body is a JSON text in which all strings of the job and of the data server are found, and each
is shorter than the array that it is copied to. -/
theorem starts_iff (localAddr : List Byte) (q : Request) (hcr : cr ∉ q.body) (hlen : q.text.length < bufMax)
    (hhttp : IsHttp q.text) {σ : Type} (E : Environment σ) {c : Connection σ} (hc : c.closed = false)
    (server : DataServerInfo) (job : XorJob) :
    (∃ t, bufferedOnRead (fun s => (Json.parse s).map .ofJson) localAddr E c q.text = some t ∧ t.server = server ∧
        t.jobs = c.jobs ++ [job]) ↔
      ∃ v, Json.parse q.body = some v ∧ FoundJob (.ofJson v) server job ∧ server.dataServerIp.length < 32 ∧
        server.dataServerPort.length < 16 ∧ server.dataServerMethod.length < 128 ∧
        job.outputFileName.length < 1024 := by
  have hread : bufferedOnRead (fun s => (Json.parse s).map .ofJson) localAddr E c q.text =
      (getJsonNeedXorFileInfo ((Json.parse q.body).map .ofJson) c.server).map
        (handleRequest localAddr E c ⟨q.body, q.path, q.version, q.headers.foldl lineType []⟩) := by
    unfold bufferedOnRead
    rw [if_neg (by simp [hc]), if_neg (ne_nil_of_isHttp hhttp), if_pos hhttp, getInputHttpInfo_recvbuf q hcr hlen,
      Option.map_eq_bind]
    rfl
  have hformat : errorCjsonFormat ≠ right := by decide
  have hparse : errorCjsonParse ≠ right := by decide
  rw [hread]
  constructor
  · rintro ⟨t, ht, hserver, hjobs⟩
    obtain ⟨need, hneed, rfl⟩ := Option.map_eq_some_iff.1 ht
    obtain ⟨hret, hjob⟩ : need.ret = right ∧ need.job = job := by
      have h := List.append_cancel_left hjobs
      split_ifs at h with hret
      exact ⟨hret, (List.cons.inj h).1⟩
    cases hv : Json.parse q.body with
    | none =>
      rw [hv] at hneed
      cases hneed
      exact absurd hret hparse
    | some v =>
      rw [hv] at hneed
      have hitems := foundItems_of_getJsonNeedXorFileInfo hneed
      obtain ⟨server', job', hfound, hcode⟩ | ⟨-, need', hcode, hneg⟩ :=
        getJsonNeedXorFileInfo_of_foundItems hitems c.server
      · obtain rfl := Option.some.inj (hneed.symm.trans hcode)
        obtain rfl : server' = server := hserver
        obtain rfl : job' = job := hjob
        exact ⟨v, rfl, hfound, hfound.foundItems_iff.1 hitems⟩
      · obtain rfl := Option.some.inj (hneed.symm.trans hcode)
        exact absurd (hneg.symm.trans hret) hformat
  · rintro ⟨v, hv, hfound, hfits⟩
    obtain ⟨server', job', hfound', hcode⟩ | ⟨hnone, -⟩ :=
      getJsonNeedXorFileInfo_of_foundItems (hfound.foundItems_iff.2 hfits) c.server
    · obtain ⟨rfl, rfl⟩ := hfound.unique hfound'
      rw [hv, Option.map_some, hcode]
      exact ⟨_, rfl, rfl, rfl⟩
    · exact absurd ⟨server, job, hfound⟩ hnone

/-- A request to post a text of at most 1023 bytes. -/
def postOf (body : List Byte) (h0 : 0 ∉ body) (hlt : body.length < 1024) : Request where
  method := lit "POST"
  path := lit "oraid"
  version := lit "HTTP/1.1"
  headers := [lit "Content-Type: application/json"]
  body := body
  sp_notMem := by decide
  cr_notMem := by decide
  nul_notMem := ⟨by decide, by decide, by decide, by decide, h0⟩
  typed := by decide
  line_lt := by decide
  path_lt := by decide
  version_lt := by decide
  header_lt := by decide
  type_lt := by decide
  body_lt := hlt

/-- The text of a job for the files of this server. -/
def localJob (output : String) (path₀ path₁ : String) : List Byte :=
  lit "\x7b\"data_server_ip\":\"127.0.0.1\",\"data_server_port\":\"1\",\"data_server_method\":\"\"," ++
    lit "\"output_file_name\":\"" ++ lit output ++ lit "\",\"file_name_total\":[\x7b\"file_path\":\"" ++ lit path₀ ++
    lit "\"\x7d,\x7b\"file_path\":\"" ++ lit path₁ ++ lit "\"\x7d]\x7d"

/-- The job for `/in/a` and `/in/b`. -/
def plainJob : XorJob := ⟨[lit "/in/a", lit "/in/b"], lit "p"⟩

example : (bufferedOnRead (fun s => (Json.parse s).map .ofJson) (lit "127.0.0.1") (telling ⟨[], [], []⟩)
    ⟨(), ⟨[], [], []⟩, false, [], []⟩
    (postOf (localJob "p" "/in/a" "/in/b") (by decide +kernel) (by decide +kernel)).text).map (fun t =>
      (t.server, t.jobs)) = some (⟨lit "127.0.0.1", lit "1", []⟩, [plainJob]) := by decide +kernel

end ORaidServer
