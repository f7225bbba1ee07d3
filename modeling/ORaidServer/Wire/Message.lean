import ORaidServer.Basic

/-!
# Messages of the data server

The packed structures of `file_info.h` that the data connections carry.  The server sends the bytes of
a file in messages, each a `CMD_WRITE_T` of `CMD_LEN` bytes followed by `data_len` bytes of the file,
and expects a `CMD_REPLY_WRITE_T` for each.

* `CmdWrite`, the fields of a `CMD_WRITE_T` that the receiver looks at, and `CmdWrite.ofBuf`;
* `Message`, a message with what makes it well formed, and `Message.mk'`, which builds one;
* `Reply`, the fields of a `CMD_REPLY_WRITE_T` that the receiver sets.
-/

namespace ORaidServer

open ByteMem

/-- `CMD_LEN` -/
def cmdLen : ℕ := 1065

/-- `CMD_WRITE` -/
def cmdWrite : Byte := 2

/-- `READ_EXEC_ERROR` -/
def readExecError : ℕ := 0x9005

/-- The fields of a `CMD_WRITE_T` that are looked at. -/
structure CmdWrite where
  command : Byte
  dataLen : ℕ
  deriving DecidableEq, Repr

/-- The start of a zero-filled buffer read as a `CMD_WRITE_T`: `command` is at offset `16` and the
eight bytes of `data_len` at `1053`. -/
def CmdWrite.ofBuf (buf : List Byte) : CmdWrite := ⟨buf.getD 16 0, loadLE buf 1053 8⟩

/-- The fields of a `CMD_REPLY_WRITE_T` that are set; the others are `0`. -/
structure Reply where
  returnLenHighByte : Byte
  returnLenLowByte : Byte
  command : Byte
  replyValue : ℕ
  deriving DecidableEq, Repr

/-- The acknowledgement of a message of so many bytes. -/
def Reply.ack (dataLen : ℕ) : Reply := ⟨0, 0, cmdWrite, dataLen⟩

/-- The report of a failed read. -/
def Reply.readError : Reply :=
  ⟨BitVec.ofNat 8 (readExecError / 256), BitVec.ofNat 8 readExecError, 0, 0⟩

/-- A message: a header of `CMD_LEN` bytes for the payload that follows. -/
structure Message where
  header : List Byte
  payload : List Byte
  length_header : header.length = cmdLen
  header_eq : CmdWrite.ofBuf header = ⟨cmdWrite, payload.length⟩
  payload_pos : 0 < payload.length

/-- The bytes sent. -/
def Message.bytes (m : Message) : List Byte := m.header ++ m.payload

@[simp] theorem Message.length_bytes (m : Message) :
    m.bytes.length = cmdLen + m.payload.length := by
  rw [bytes, List.length_append, m.length_header]

theorem Message.length_payload_lt (m : Message) : m.payload.length < 2 ^ 64 := by
  have := loadLE_lt m.header 1053 8
  rwa [show loadLE m.header 1053 8 = m.payload.length from
    congrArg CmdWrite.dataLen m.header_eq] at this

/-- What is read from the first `CMD_LEN` bytes does not depend on those that follow. -/
theorem CmdWrite.ofBuf_append {a : List Byte} (b : List Byte) (h : cmdLen ≤ a.length) :
    CmdWrite.ofBuf (a ++ b) = CmdWrite.ofBuf a := by
  have hget : ∀ p < cmdLen, (a ++ b).getD p 0 = a.getD p 0 := by
    intro p hp
    rw [List.getD_eq_getElem?_getD, List.getD_eq_getElem?_getD,
      List.getElem?_append_left (by omega)]
  have hload : ∀ n, 1053 + n ≤ cmdLen → loadLE (a ++ b) 1053 n = loadLE a 1053 n := by
    intro n hn
    induction n with
    | zero => rfl
    | succ n ih => rw [loadLE, loadLE, ih (by omega), hget _ (by omega)]
  rw [CmdWrite.ofBuf, CmdWrite.ofBuf, hget 16 (by decide), hload 8 (by decide)]

/-- A header with first byte `b`, up to `data_len`. -/
def headerStart (b : Byte) : List Byte :=
  b :: List.replicate 15 0 ++ cmdWrite :: List.replicate 1036 0

theorem length_headerStart (b : Byte) : (headerStart b).length = 1053 := by
  rw [headerStart, List.length_append, List.length_cons, List.length_cons, List.length_replicate,
    List.length_replicate]

/-- A header with first byte `b`. -/
def mkHeader (b : Byte) (dataLen : ℕ) : List Byte :=
  headerStart b ++ (bytesLE 8 dataLen ++ List.replicate 4 0)

theorem length_mkHeader (b : Byte) (dataLen : ℕ) : (mkHeader b dataLen).length = cmdLen := by
  rw [mkHeader, List.length_append, List.length_append, length_headerStart, length_bytesLE,
    List.length_replicate, cmdLen]

theorem ofBuf_mkHeader (b : Byte) {dataLen : ℕ} (h : dataLen < 2 ^ 64) :
    CmdWrite.ofBuf (mkHeader b dataLen) = ⟨cmdWrite, dataLen⟩ := by
  have hload : loadLE (mkHeader b dataLen) 1053 8 = dataLen := by
    rw [mkHeader, ← length_headerStart b, loadLE_append, loadLE_bytesLE _ _ _ le_rfl]
    exact Nat.mod_eq_of_lt h
  rw [CmdWrite.ofBuf, hload]
  rfl

/-- A message with a header whose first byte is `b`. -/
def Message.mk' (b : Byte) (payload : List Byte) (hpos : 0 < payload.length)
    (hlt : payload.length < 2 ^ 64) : Message where
  header := mkHeader b payload.length
  payload := payload
  length_header := length_mkHeader b _
  header_eq := ofBuf_mkHeader b hlt
  payload_pos := hpos

end ORaidServer
