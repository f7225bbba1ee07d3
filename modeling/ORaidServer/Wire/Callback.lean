import ORaidServer.Group.WriteBuf
import ORaidServer.Wire.Message

/-!
# `socket_read_file_data`

The callback of the read event of a data connection.  One call receives once, decodes what it got with
the help of `write_state`, `write_index` and `write_total_size`, hands the bytes of the file to
`write_buf` and acknowledges a message that is complete.

* `WireState`, the three fields; `write_buf` leaves them alone (`writeBufStep_wire`);
* `onRecv`, what the callback does with the result of `recv`, up to the call of `write_buf`;
* `afterWrite`, what it does when `write_buf` has returned.

The value `ret` of `recv` is an `int`; where the source compares it with a `data_len` or a `size_t` it
is converted to 64 bits (`unsigned`).
-/

namespace ORaidServer

/-- `write_state`, `write_index` and `write_total_size` of a file. -/
structure WireState where
  writeState : ℕ
  writeIndex : ℕ
  writeTotalSize : ℕ
  deriving DecidableEq, Repr

/-- The state of the decoder of a file. -/
def SingleFileInfo.wire (f : SingleFileInfo) : WireState :=
  ⟨f.writeState, f.writeIndex, f.writeTotalSize⟩

/-- Another state of the decoder. -/
def SingleFileInfo.setWire (f : SingleFileInfo) (w : WireState) : SingleFileInfo :=
  { f with
    writeState := w.writeState
    writeIndex := w.writeIndex
    writeTotalSize := w.writeTotalSize }

@[simp] theorem SingleFileInfo.wire_setWire (f : SingleFileInfo) (w : WireState) :
    (f.setWire w).wire = w := rfl

/-- `write_buf` does not touch the state of the decoder. -/
theorem writeBufStep_wire (N : ℤ) (c : FileCtx) :
    (writeBufStep N c).info.wire = c.info.wire := by
  obtain ⟨b, i, h⟩ := writeBufStep_frame N c
  rw [h]
  rfl

/-- What `recv` gives: an error, or bytes, none of them when the peer has closed the connection. -/
inductive RecvResult
  | error
  | got (bytes : List Byte)
  deriving DecidableEq, Repr

/-- The conversion of an `int` to 64 unsigned bits. -/
def unsigned (z : ℤ) : ℕ := (z % 2 ^ 64).toNat

/-- What is left to do when `write_buf` returns, with the locals it needs: the end of the branch for
`write_state == 0`, or of the one for the rest of a message. -/
inductive AfterWrite
  | first (ret dataLen : ℕ)
  | second (ret : ℕ)
  deriving DecidableEq, Repr

/-- What the callback does with the result of `recv`. -/
inductive ReadPlan
  /-- remove the event and leave its loop, raising `correct_flag` if `failed` -/
  | exit (failed : Bool)
  /-- return -/
  | skip
  /-- set `write_state = 0` and send the reply -/
  | reset (reply : Reply)
  /-- call `write_buf(buffer, length, s_sub)` -/
  | write (buffer : List Byte) (length : ℤ) (next : AfterWrite)
  deriving DecidableEq, Repr

/-- The callback from `recv` up to the call of `write_buf`. -/
def onRecv (w : WireState) : RecvResult → ReadPlan
  | .error => .exit true
  | .got bytes =>
    if bytes.length = 0 ∧ w.writeState = 0 then .exit false
    else if w.writeState = 0 then
      let cmdObj := CmdWrite.ofBuf bytes
      -- `CMD_READ`, `CMD_REMOVE` and anything else do nothing
      if cmdObj.command = cmdWrite then
        .write (bytes.drop cmdLen) (bytes.length - cmdLen) (.first bytes.length cmdObj.dataLen)
      else .skip
    else if bytes.length = 0 then .reset .readError
    else .write bytes bytes.length (.second bytes.length)

/-- The callback after `write_buf`: the state of the decoder and the reply that is sent. -/
def afterWrite (w : WireState) : AfterWrite → WireState × Option Reply
  | .first ret dataLen =>
    if unsigned (ret - cmdLen) ≥ dataLen then ({ w with writeState := 0 }, some (.ack dataLen))
    else (⟨1, unsigned (ret - cmdLen), dataLen⟩, none)
  | .second ret =>
    if w.writeTotalSize ≤ unsigned (ret + w.writeIndex) then
      (⟨0, 0, 0⟩, some (.ack w.writeTotalSize))
    else ({ w with writeIndex := unsigned (ret + w.writeIndex) }, none)

end ORaidServer
