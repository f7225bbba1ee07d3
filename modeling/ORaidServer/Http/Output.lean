import ORaidServer.Http.Send
import ORaidServer.Lib.HttpClient

/-!
# Writing a response

`set_send_json_info` of `json.cpp` and `set_output_http_info` of `common.cpp`, which make up the answer to a
request, and the bytes that a connection carries once `Send.writeBuf` has sent the answers.

* `setSendJsonInfo`, `setOutputHttpInfo`;
* `Exchange`, what one answer is made of, `SentExchange`, one that was sent, and `written`, what the answers on a
  connection put on it;
* `framed_iff`: a client that reads the connection finds not a single response there.
-/

namespace ORaidServer

open CString HttpClient

/-- The digits of a number, as `%lu` prints it. -/
def decimal (n : ℕ) : List Byte := (Nat.toDigits 10 n).map fun c => BitVec.ofNat 8 c.toNat

/-- An integer, as `%d` prints it. -/
def intDecimal (n : ℤ) : List Byte := if n < 0 then lit "-" ++ decimal n.natAbs else decimal n.natAbs

/-- `errno` and its `strerror`. -/
structure Errno where
  num : ℤ
  text : List Byte
  cr_notMem : cr ∉ text

/-- A message that starts with `errno` and ends with its `strerror`. -/
def Errno.report (e : Errno) (message : String) : List Byte :=
  intDecimal e.num ++ lit message ++ e.text

/-- The `message` for a return code. -/
def jsonMessage (e : Errno) (ret : ℤ) : List Byte :=
  if ret = right then lit "success!"
  else if ret = errorFilePath then lit "file path error"
  else if ret = errorFileSize then lit "File sizes are inconsistent"
  else if ret = errorFileOpen then e.report ",Error opening file,"
  else if ret = errorApplyMalloc then e.report ",Request memory error,"
  else if ret = errorFreadFile then e.report ",The fread file failed,"
  else if ret = errorFwriteFile then e.report ",The fwrite file failed,"
  else if ret = errorCjsonParse then lit "error cjson parse"
  else if ret = errorOutputFile then e.report ",Error opening output file,"
  else if ret = errorMethodNotFound then lit "Error method not found"
  else lit "unknown error"

/-- `set_send_json_info(send_http_content, ret)` -/
def setSendJsonInfo (e : Errno) (ret : ℤ) : List Byte :=
  lit "\x7b\"code\":\"" ++ intDecimal ret ++ lit "\", \"message\":\"" ++ jsonMessage e ret ++ lit "\"\x7d"

/-- The text that `ctime` makes of a time, without the line feed at its end. -/
structure Moment where
  text : List Byte
  cr_notMem : cr ∉ text

/-- `ctime` -/
def Moment.ctime (m : Moment) : List Byte := m.text ++ [lf]

/-- `set_output_http_info(send_http_info, send_http_content, http_header, content_type)` -/
def setOutputHttpInfo (rawtime : Moment) (content header contentType : List Byte) : List Byte :=
  header ++ lit " 200 OK" ++ crlf ++ lit "Content-Type: " ++ contentType ++
    crlf ++ lit "Server: localhost" ++ crlf ++ lit "Content-Length: " ++ decimal content.length ++
    crlf ++ lit "Date: " ++ rawtime.ctime ++ crlf ++ content

/-! ### Sending -/

/-- What the answer to a request is made of: the strings that are echoed and the outcome. -/
structure Exchange where
  header : List Byte
  contentType : List Byte
  ret : ℤ
  errno : Errno
  time : Moment
  plain_header : cr ∉ header ∧ lf ∉ header ∧ 0 ∉ header
  plain_contentType : cr ∉ contentType ∧ lf ∉ contentType ∧ 0 ∉ contentType

namespace Exchange

/-- The JSON content. -/
def content (x : Exchange) : List Byte := setSendJsonInfo x.errno x.ret

/-- The bytes handed to `write_buf`: `strlen(send_http_info) + 1` of them. -/
def bytes (x : Exchange) : List Byte :=
  setOutputHttpInfo x.time x.content x.header x.contentType ++ [0]

end Exchange

/-- An answer as it was sent: the calls of `write` in `write_buf`, its return value and what was taken. -/
structure SentExchange extends Exchange where
  calls : List Send.WriteCall
  sendRet : ℤ
  accepted : List Byte
  ended : Send.writeBuf calls toExchange.bytes = some (sendRet, accepted)

/-- What the answers put on the connection. -/
def written (xs : List SentExchange) : List Byte := xs.flatMap SentExchange.accepted

/-- A client reads one response for each answer, with its content as the body, and nothing is left. -/
def Framed (xs : List SentExchange) : Prop :=
  readResponses xs.length (written xs) = some (xs.map fun x => x.content, [])

/-! ### The bytes sent -/

/-- The digits of a number are digits. -/
theorem notMem_decimal {b : Byte} (h : ¬ (48 ≤ b.toNat ∧ b.toNat ≤ 57)) (n : ℕ) : b ∉ decimal n := by
  intro hmem
  obtain ⟨c, hc, rfl⟩ := List.mem_map.1 hmem
  have hdigit := Char.isDigit_iff_toNat.1 (Nat.isDigit_of_mem_toDigits (by decide) (by decide) hc)
  have h0 : '0'.toNat = 48 := rfl
  have h9 : '9'.toNat = 57 := rfl
  rw [BitVec.toNat_ofNat, Nat.mod_eq_of_lt (by omega)] at h
  omega

theorem notMem_intDecimal {b : Byte} (h : ¬ (48 ≤ b.toNat ∧ b.toNat ≤ 57)) (hb : b ∉ lit "-")
    (n : ℤ) : b ∉ intDecimal n := by
  unfold intDecimal
  split_ifs
  · rw [List.mem_append, not_or]
    exact ⟨hb, notMem_decimal h _⟩
  · exact notMem_decimal h _

theorem cr_notMem_decimal (n : ℕ) : cr ∉ decimal n := notMem_decimal (by decide) n

theorem cr_notMem_append {s t : List Byte} (hs : cr ∉ s) (ht : cr ∉ t) : cr ∉ s ++ t := fun h =>
  (List.mem_append.1 h).elim hs ht

theorem cr_notMem_report (e : Errno) {message : String} (h : cr ∉ lit message) :
    cr ∉ e.report message :=
  cr_notMem_append (cr_notMem_append (notMem_intDecimal (by decide) (by decide) _) h) e.cr_notMem

theorem cr_notMem_jsonMessage (e : Errno) (ret : ℤ) : cr ∉ jsonMessage e ret := by
  have hite : ∀ {p : Prop} [Decidable p] {s t : List Byte}, cr ∉ s → cr ∉ t →
      cr ∉ if p then s else t := fun hs ht => by split <;> assumption
  unfold jsonMessage
  repeat' apply hite
  all_goals first
    | exact cr_notMem_report e (by decide)
    | decide

theorem Exchange.cr_notMem_content (x : Exchange) : cr ∉ x.content := by
  unfold content setSendJsonInfo
  have hcode := cr_notMem_append (s := lit "\x7b\"code\":\"") (by decide)
    (notMem_intDecimal (by decide) (by decide) x.ret)
  have hmessage := cr_notMem_append (cr_notMem_append hcode
    (t := lit "\", \"message\":\"") (by decide)) (cr_notMem_jsonMessage x.errno x.ret)
  exact cr_notMem_append hmessage (by decide)

/-- The lines of a response, and what follows them. -/
theorem Exchange.bytes_eq (x : Exchange) : x.bytes =
    (x.header ++ lit " 200 OK") ++ crlf ++ ((lit "Content-Type: " ++ x.contentType) ++ crlf ++
      (lit "Server: localhost" ++ crlf ++
        ((lit "Content-Length: " ++ decimal x.content.length) ++ crlf ++
          ((lit "Date: " ++ x.time.ctime) ++ crlf ++ (x.content ++ [0]))))) := by
  unfold Exchange.bytes setOutputHttpInfo
  simp only [List.append_assoc]

/-- Between the lines of a response and after them there is no empty line: the line feed of `ctime` stands
before the end of the last line, and the content follows at once. -/
theorem Exchange.not_hasEmptyLine_bytes (x : Exchange) : ¬ HasEmptyLine x.bytes := by
  rw [x.bytes_eq]
  intro h
  have h1 := h.of_line (List.append_ne_nil_of_right_ne_nil _ (by decide))
    (cr_notMem_append x.plain_header.1 (by decide))
  have h2 := h1.of_line (List.append_ne_nil_of_left_ne_nil (by decide) _)
    (cr_notMem_append (by decide) x.plain_contentType.1)
  have h3 := h2.of_line (by decide) (by decide)
  have h4 := h3.of_line (List.append_ne_nil_of_left_ne_nil (by decide) _)
    (cr_notMem_append (by decide) (cr_notMem_decimal _))
  have h5 := h4.of_line (List.append_ne_nil_of_left_ne_nil (by decide) _)
    (cr_notMem_append (by decide) (cr_notMem_append x.time.cr_notMem (by decide)))
  exact not_hasEmptyLine_of_cr_notMem (cr_notMem_append x.cr_notMem_content (by decide)) h5

/-- A response begins neither with a carriage return nor with a line feed. -/
theorem Exchange.exists_bytes (x : Exchange) : ∃ b s, x.bytes = b :: s ∧ b ≠ cr ∧ b ≠ lf := by
  obtain ⟨hcr, hlf, -⟩ := x.plain_header
  rw [x.bytes_eq]
  cases hx : x.header with
  | nil => exact ⟨sp, _, rfl, by decide, by decide⟩
  | cons b s =>
    rw [hx] at hcr hlf
    exact ⟨b, _, rfl, fun h => hcr (by simp [h]), fun h => hlf (by simp [h])⟩

/-! ### What a response says -/

theorem map_decimal (n : ℕ) : (decimal n).map (fun b => Char.ofNat b.toNat) = Nat.toDigits 10 n := by
  rw [decimal, List.map_map]
  refine (List.map_congr_left fun c hc => ?_).trans (List.map_id _)
  have hdigit := Char.isDigit_iff_toNat.1 (Nat.isDigit_of_mem_toDigits (by decide) (by decide) hc)
  have h9 : '9'.toNat = 57 := rfl
  have hval : c.toNat % 2 ^ 8 = c.toNat := Nat.mod_eq_of_lt (by omega)
  rw [Function.comp_apply, BitVec.toNat_ofNat, hval, Char.ofNat_toNat, id]

theorem decimal_injective : Function.Injective decimal := by
  intro n m h
  have hdigits := congrArg (List.map fun b : Byte => Char.ofNat b.toNat) h
  rw [map_decimal, map_decimal] at hdigits
  simpa using congrArg (Nat.ofDigitChars 10 · 0) hdigits

theorem intDecimal_injective : Function.Injective intDecimal := by
  have hminus : ∀ {k l : ℕ}, lit "-" ++ decimal k ≠ decimal l := fun {k l} h =>
    notMem_decimal (b := 45) (by decide) l (h ▸ List.mem_cons_self)
  intro n m h
  unfold intDecimal at h
  split_ifs at h with hn hm hm
  · have := decimal_injective (List.append_cancel_left h)
    omega
  · exact absurd h hminus
  · exact absurd h.symm hminus
  · have := decimal_injective h
    omega

/-- The return code can be read off the content. -/
theorem ret_eq_of_setSendJsonInfo {e e' : Errno} {ret ret' : ℤ}
    (h : setSendJsonInfo e ret = setSendJsonInfo e' ret') : ret = ret' := by
  have hquote : ∀ n, (34 : Byte) ∉ intDecimal n := notMem_intDecimal (by decide) (by decide)
  simp only [setSendJsonInfo, List.append_assoc] at h
  exact intDecimal_injective
    (append_cons_inj (c := 34) (hquote ret) (hquote ret') (List.append_cancel_left h)).1

/-- The strings that are echoed and the return code can be read off a response. -/
theorem eq_of_setOutputHttpInfo {time time' : Moment} {e e' : Errno} {ret ret' : ℤ}
    {header header' contentType contentType' : List Byte} (hh : sp ∉ header) (hh' : sp ∉ header')
    (hc : cr ∉ contentType) (hc' : cr ∉ contentType')
    (h : setOutputHttpInfo time (setSendJsonInfo e ret) header contentType ++ [0] =
      setOutputHttpInfo time' (setSendJsonInfo e' ret') header' contentType' ++ [0]) :
    header = header' ∧ contentType = contentType' ∧ ret = ret' := by
  have hok : lit " 200 OK" = sp :: lit "200 OK" := rfl
  simp only [setOutputHttpInfo, hok, crlf, List.append_assoc, List.cons_append, List.nil_append] at h
  obtain ⟨rfl, h⟩ := append_cons_inj hh hh' h
  simp only [List.append_cancel_left_eq, List.cons.injEq, true_and] at h
  obtain ⟨rfl, h⟩ := append_cons_inj hc hc' h
  simp only [List.append_cancel_left_eq, List.cons.injEq, true_and] at h
  obtain ⟨-, h⟩ := append_cons_inj (cr_notMem_decimal _) (cr_notMem_decimal _) h
  simp only [List.append_cancel_left_eq, List.cons.injEq, true_and] at h
  have hdate : ∀ m : Moment, cr ∉ m.ctime := fun m => cr_notMem_append m.cr_notMem (by decide)
  obtain ⟨-, h⟩ := append_cons_inj (hdate time) (hdate time') h
  simp only [List.cons.injEq, true_and] at h
  have hcontent := List.append_cancel_right h
  exact ⟨rfl, rfl, ret_eq_of_setSendJsonInfo hcontent⟩

/-- Nothing that is sent begins with the end of a line or has an empty line. -/
theorem not_hasEmptyLine_written (xs : List SentExchange) :
    ¬ HasEmptyLine (written xs) ∧ ∀ b ∈ (written xs).head?, b ≠ cr ∧ b ≠ lf := by
  induction xs with
  | nil => exact ⟨not_hasEmptyLine_of_cr_notMem List.not_mem_nil, by simp [written]⟩
  | cons x xs ih =>
    have hstart := Send.writeBuf_isPrefix x.ended
    obtain ⟨hrest, hhead⟩ := ih
    have hsent : ¬ HasEmptyLine x.accepted := fun h => x.not_hasEmptyLine_bytes (h.mono hstart)
    have hcons : written (x :: xs) = x.accepted ++ written xs := List.flatMap_cons
    rw [hcons]
    constructor
    · intro h
      cases hw : written xs with
      | nil =>
        rw [hw, List.append_nil] at h
        exact hsent h
      | cons b t =>
        rw [hw] at h hrest hhead
        obtain ⟨hcr, hlf⟩ := hhead b rfl
        exact (h.of_append hcr hlf).elim hsent hrest
    · obtain ⟨b, s, hx, hcr, hlf⟩ := x.exists_bytes
      cases hw : x.accepted with
      | nil => simpa using hhead
      | cons c w =>
        rw [hw, hx] at hstart
        obtain rfl := (List.cons_prefix_cons.1 hstart).1
        intro b' hb'
        obtain rfl : c = b' := by simpa using hb'
        exact ⟨hcr, hlf⟩

/-- The connection is framed as long as nothing was answered on it, whatever `write` does. -/
theorem framed_iff (xs : List SentExchange) : Framed xs ↔ xs = [] := by
  constructor
  · intro h
    cases xs with
    | nil => rfl
    | cons x xs =>
      have hnone := readResponse_eq_none (not_hasEmptyLine_written (x :: xs)).1
      rw [Framed, List.length_cons, readResponses, hnone] at h
      cases h
  · rintro rfl
    rfl

/-- What is sent for a request that succeeded. -/
def successBytes : List Byte :=
  lit "HTTP/1.1 200 OK" ++ crlf ++ lit "Content-Type: application/json" ++ crlf ++ lit "Server: localhost" ++
    crlf ++ lit "Content-Length: 34" ++ crlf ++ lit "Date: Thu Jan  1 00:00:00 1970" ++ [lf] ++ crlf ++
    lit "\x7b\"code\":\"0\", \"message\":\"success!\"\x7d" ++ [0]

/-- The answer to a request that succeeded, taken by a single call of `write`. -/
def successExchange : SentExchange where
  header := lit "HTTP/1.1"
  contentType := lit "application/json"
  ret := right
  errno := ⟨0, lit "Success", by decide⟩
  time := ⟨lit "Thu Jan  1 00:00:00 1970", by decide⟩
  plain_header := by decide
  plain_contentType := by decide
  calls := [⟨successBytes.length, 0⟩]
  sendRet := 0
  accepted := successBytes
  ended := by decide +kernel

/-- Even a single answer that is sent in full is not read. -/
theorem not_framed : ¬ Framed [successExchange] := by
  intro h
  have hnone := readResponse_eq_none (not_hasEmptyLine_written [successExchange]).1
  rw [Framed, List.length_singleton, readResponses, hnone] at h
  cases h

end ORaidServer
