import ORaidServer.Http.Input

/-!
# Requests and what is read from them

A rendered request and what `get_input_http_info` makes of its text.

* `Request`, the parts of a request with the bounds of the arrays they are copied to, and `Request.text`;
* `scan_headers`, the loop on header lines;
* `inverts_iff`: the parts are read back exactly where the body has no carriage return and the
  `Content-Type` lines all have a space after the colon, as far as that matters.
-/

namespace ORaidServer

open CString Loop

/-- The value of a line `Content-Type: value`. -/
def contentTypeValue (line : List Byte) : Option (List Byte) :=
  if strncmp line (lit "Content-Type: ") 14 = true ∧ line.length > 14 then some (line.drop 14)
  else none

/-- A request.  Every part is shorter than the array it is copied to. -/
structure Request where
  method : List Byte
  path : List Byte
  version : List Byte
  headers : List (List Byte)
  body : List Byte
  sp_notMem : sp ∉ method ∧ sp ∉ path ∧ sp ∉ version
  cr_notMem : cr ∉ method ∧ cr ∉ path ∧ cr ∉ version ∧ ∀ l ∈ headers, cr ∉ l
  nul_notMem : 0 ∉ method ∧ 0 ∉ path ∧ 0 ∉ version ∧ (∀ l ∈ headers, 0 ∉ l) ∧ 0 ∉ body
  typed : ∃ l ∈ headers, (contentTypeValue l).isSome
  line_lt : method.length + path.length + version.length + 3 < 1024
  path_lt : path.length < 256
  version_lt : version.length < 256
  header_lt : ∀ l ∈ headers, l.length < 1024
  type_lt : ∀ l ∈ headers, IsContentType l → (l.drop 14).length < 256
  body_lt : body.length < 1024

namespace Request

variable (q : Request)

/-- The request line. -/
def line : List Byte := q.method ++ sp :: (lit "/" ++ q.path ++ sp :: q.version)

/-- The text of the request. -/
def text : List Byte :=
  q.line ++ crlf ++ q.headers.flatMap (· ++ crlf) ++ crlf ++ q.body

/-- The value of the last `Content-Type` line. -/
def contentType : List Byte := (q.headers.filterMap contentTypeValue).getLast?.getD []

/-- The parts are read back from the text, whatever follows its NUL in memory. -/
def Inverts (rest : List Byte) : Prop :=
  getInputHttpInfo (q.text ++ 0 :: rest) = some ⟨q.body, q.path, q.version, q.contentType⟩

/-- The body has no carriage return, and the last line that passes the test for a `Content-Type`
line goes on, after the byte that is skipped, with the value of the last `Content-Type: ` line. -/
structure Plain : Prop where
  body : cr ∉ q.body
  last : ∀ l, (q.headers.filter (IsContentType ·)).getLast? = some l → l.drop 14 = q.contentType

end Request

/-! ### The request line -/

theorem sizeT_natCast {n : ℕ} (h : n < 2 ^ 64) : sizeT n = n := by
  rw [sizeT]
  omega

theorem notMem_line {q : Request} {b : Byte} (hm : b ∉ q.method) (hp : b ∉ q.path)
    (hv : b ∉ q.version) (hsp : b ≠ sp) (hslash : b ∉ lit "/") : b ∉ q.line := by
  rw [Request.line, List.mem_append, List.mem_cons, List.mem_append, List.mem_append, List.mem_cons]
  rintro (h | h | (h | h) | h | h)
  exacts [hm h, hsp h, hslash h, hp h, hsp h, hv h]

theorem requestLine_line (q : Request) :
    requestLine q.line .empty = some ⟨[], q.path, q.version, []⟩ := by
  obtain ⟨hm, -, hv⟩ := q.sp_notMem
  have hfirst : strchr sp q.line = some (sp :: (lit "/" ++ q.path ++ sp :: q.version)) :=
    strchr_append _ hm
  have hlast : strrchr sp q.line = some (sp :: q.version) := by
    have : q.line = (q.method ++ sp :: (lit "/" ++ q.path)) ++ sp :: q.version := by
      simp [Request.line]
    rw [this]
    exact strrchr_append _ hv
  have hlen : (((sp :: (lit "/" ++ q.path ++ sp :: q.version)).length : ℤ) -
      (sp :: q.version).length - 2) = q.path.length := by
    have : (lit "/").length = 1 := rfl
    rw [List.length_cons, List.length_append, List.length_append, List.length_cons, this]
    omega
  have hmethod : strncpy 256 ((sp :: (lit "/" ++ q.path ++ sp :: q.version)).drop 2)
      (sizeT ((sp :: (lit "/" ++ q.path ++ sp :: q.version)).length -
        (sp :: q.version).length - 2)) = some q.path := by
    rw [hlen, sizeT_natCast (q.path_lt.trans (by decide))]
    exact strncpy_append _ q.nul_notMem.2.1 q.path_lt
  have hheader : (if (sp :: q.version).length > 1 then strcpy 256 ((sp :: q.version).drop 1)
      else some HttpInfo.empty.header) = some q.version := by
    split_ifs with h
    · exact strcpy_of_lt q.version_lt
    · rw [List.length_cons] at h
      have : q.version = [] := List.length_eq_zero_iff.1 (by omega)
      rw [this]
      rfl
  simp only [requestLine, hfirst, hlast, hmethod, hheader, Option.bind_some, Option.map_some]
  rfl

/-! ### The header lines -/

/-- What `content_type` is after another line. -/
def lineType (t line : List Byte) : List Byte := if IsContentType line then line.drop 14 else t

theorem headerLine_of_lt {line : List Byte} (info : HttpInfo)
    (h : IsContentType line → (line.drop 14).length < 256) :
    headerLine line info = some { info with contentType := lineType info.contentType line } := by
  unfold headerLine lineType
  split_ifs with hl
  · rw [strcpy_of_lt (h hl), Option.map_some]
  · rfl

theorem foldl_lineType (t : List Byte) (lines : List (List Byte)) :
    lines.foldl lineType t =
      ((lines.filter (IsContentType ·)).getLast?.map (List.drop 14)).getD t := by
  induction lines using List.reverseRecOn with
  | nil => rfl
  | append_singleton lines l ih =>
    rw [List.foldl_append, List.foldl_cons, List.foldl_nil, ih, List.filter_append]
    unfold lineType
    by_cases hl : IsContentType l
    · simp [hl]
    · simp [hl]

/-- The loop on the lines after the first. -/
theorem scan_headers {buffer pre rest : List Byte} {lines : List (List Byte)} (info : HttpInfo)
    {r : Option HttpInfo} (hb : buffer = pre ++ lines.flatMap (· ++ crlf) ++ rest)
    (hpre : pre.length ≠ 0) (hcr : ∀ l ∈ lines, cr ∉ l) (h0 : ∀ l ∈ lines, 0 ∉ l)
    (hlen : ∀ l ∈ lines, l.length < 1024)
    (htype : ∀ l ∈ lines, IsContentType l → (l.drop 14).length < 256) :
    Returns (inputStep buffer) ⟨pre.length, pre.length, info⟩ r ↔
      Returns (inputStep buffer)
        ⟨(pre ++ lines.flatMap (· ++ crlf)).length, (pre ++ lines.flatMap (· ++ crlf)).length,
          { info with contentType := lines.foldl lineType info.contentType }⟩ r := by
  induction lines generalizing pre info with
  | nil => simp
  | cons l lines ih =>
    have hhead := headerLine_of_lt info (htype l List.mem_cons_self)
    have hb1 : buffer = pre ++ l ++ cr :: lf :: (lines.flatMap (· ++ crlf) ++ rest) := by
      simp [hb, crlf]
    have hb2 : buffer = (pre ++ l ++ crlf) ++ lines.flatMap (· ++ crlf) ++ rest := by simp [hb]
    have hline := scan_line (r := r) (h0 l List.mem_cons_self) (hlen l List.mem_cons_self)
      (hcr l List.mem_cons_self) info hb1 ((if_neg hpre).trans hhead)
    have hrest := ih { info with contentType := lineType info.contentType l } hb2 (by simp [crlf])
      (fun l' hl' => hcr l' (List.mem_cons_of_mem _ hl'))
      (fun l' hl' => h0 l' (List.mem_cons_of_mem _ hl'))
      (fun l' hl' => hlen l' (List.mem_cons_of_mem _ hl'))
      (fun l' hl' => htype l' (List.mem_cons_of_mem _ hl'))
    rw [hline]
    apply hrest.trans
    rw [List.flatMap_cons, List.foldl_cons]
    simp only [List.append_assoc]

/-! ### The whole text -/

theorem not_isContentType_nil : ¬ IsContentType [] := fun h => absurd h.1 (by decide)

/-- What is read from a request whose body has no carriage return. -/
theorem getInputHttpInfo_text (q : Request) (rest : List Byte) (hcr : cr ∉ q.body) :
    getInputHttpInfo (q.text ++ 0 :: rest) =
      some ⟨q.body, q.path, q.version, q.headers.foldl lineType []⟩ := by
  set buffer := q.text ++ 0 :: rest
  obtain ⟨hcm, hcp, hcv, hch⟩ := q.cr_notMem
  obtain ⟨h0m, h0p, h0v, h0h, h0b⟩ := q.nul_notMem
  have hline0 : 0 ∉ q.line := notMem_line h0m h0p h0v (by decide) (by decide)
  have hlinecr : cr ∉ q.line := notMem_line hcm hcp hcv (by decide) (by decide)
  have hlinelen : q.line.length < 1024 := by
    have := q.line_lt
    have hslash : (lit "/").length = 1 := rfl
    simp only [Request.line, List.length_append, List.length_cons, hslash]
    omega
  -- the empty line is read as one more header line
  set lines := q.headers ++ [[]]
  have hlines : ∀ {P : List Byte → Prop}, (∀ l ∈ q.headers, P l) → P [] → ∀ l ∈ lines, P l := by
    intro P h hnil l hl
    rcases List.mem_append.1 hl with hl | hl
    · exact h l hl
    · rwa [List.mem_singleton.1 hl]
  have hb1 : buffer = [] ++ q.line ++ cr :: lf :: (lines.flatMap (· ++ crlf) ++ q.body ++ 0 :: rest) := by
    simp [buffer, lines, Request.text, crlf]
  have hb2 : buffer = (q.line ++ crlf) ++ lines.flatMap (· ++ crlf) ++ (q.body ++ 0 :: rest) := by
    simp [buffer, lines, Request.text]
  have hb3 : buffer = (q.line ++ crlf ++ lines.flatMap (· ++ crlf)) ++ q.body ++ 0 :: rest := by
    simp [buffer, lines, Request.text]
  set r := some (HttpInfo.mk q.body q.path q.version (q.headers.foldl lineType []))
  have hfirst := scan_line (r := r) hline0 hlinelen hlinecr .empty hb1 (requestLine_line q)
  have hmid := scan_headers (r := r) ⟨[], q.path, q.version, []⟩ hb2 (by simp [crlf])
    (hlines hch List.not_mem_nil) (hlines h0h List.not_mem_nil) (hlines q.header_lt (by simp))
    (hlines q.type_lt fun h => absurd h not_isContentType_nil)
  have hend := scan_end (r := r) h0b q.body_lt hcr
    ⟨[], q.path, q.version, lines.foldl lineType []⟩ hb3
  refine getInputHttpInfo_eq (hfirst.2 (hmid.2 (hend.2 ?_)))
  rw [List.foldl_append, List.foldl_cons, List.foldl_nil, lineType,
    if_neg not_isContentType_nil]

theorem exists_getLast_of_typed (q : Request) :
    ∃ l, (q.headers.filter (IsContentType ·)).getLast? = some l := by
  obtain ⟨l, hl, hv⟩ := q.typed
  have hpass : IsContentType l := by
    unfold contentTypeValue at hv
    split_ifs at hv with h
    · refine ⟨h.2, ?_⟩
      have := congrArg (List.take 13) (of_decide_eq_true h.1)
      simp only [List.take_take] at this
      exact decide_eq_true this
    · cases hv
  have hmem : l ∈ q.headers.filter (IsContentType ·) :=
    List.mem_filter.2 ⟨hl, decide_eq_true hpass⟩
  exact ⟨_, List.getLast?_eq_some_getLast (List.ne_nil_of_mem hmem)⟩

/-- The request is read back exactly when it is plain. -/
theorem inverts_iff (q : Request) (rest : List Byte) : q.Inverts rest ↔ q.Plain := by
  obtain ⟨l, hl⟩ := exists_getLast_of_typed q
  have htype : q.headers.foldl lineType [] = l.drop 14 := by
    rw [foldl_lineType, hl]
    rfl
  constructor
  · intro h
    have hcr : cr ∉ q.body := (cut_getInputHttpInfo h).content
    rw [Request.Inverts, getInputHttpInfo_text q rest hcr, htype] at h
    refine ⟨hcr, fun l' hl' => ?_⟩
    rw [hl] at hl'
    cases hl'
    exact congrArg HttpInfo.contentType (Option.some.inj h)
  · intro h
    rw [Request.Inverts, getInputHttpInfo_text q rest h.body, htype, h.last l hl]

/-- `GET /x V`, one `Content-Type` line, and a body of two lines. -/
def twoLineRequest : Request where
  method := lit "GET"
  path := lit "x"
  version := lit "V"
  headers := [lit "Content-Type: t"]
  body := lit "1" ++ crlf ++ lit "23"
  sp_notMem := by decide
  cr_notMem := by decide
  nul_notMem := by decide
  typed := by decide
  line_lt := by decide
  path_lt := by decide
  version_lt := by decide
  header_lt := by decide
  type_lt := by decide
  body_lt := by decide

/-- Only the second line of the body is read. -/
theorem not_inverts : ¬ twoLineRequest.Inverts [] ∧
    getInputHttpInfo (twoLineRequest.text ++ [0]) =
      some ⟨lit "23", lit "x", lit "V", lit "t"⟩ := by
  refine ⟨fun h => (cut_getInputHttpInfo h).content (by decide), by decide⟩

end ORaidServer
