import ORaidServer.Basic
import Mathlib.Logic.Function.Basic

/-!
# The shared group of files

`tGroupFileInfo` of `get_data_client_file_data.h`: what the producer threads of one group, one per
file, share with each other and with the consumer.

* `InBuf` is one of the two buffers of a file.  The source keeps `in_buf`, `buf_size` and
  `buf_flag` apart; here `bytes` is the part of the buffer that was stored, so that `buf_size` is
  its length and the two cannot disagree.
* `InBuf.start` is not in the source and no modelled function reads it: it records at which offset
  of the file the content of the buffer begins.
* A descriptor, an event, an event loop and an allocated buffer are named by the request whose thread
  has made them: the threads of different requests that work on one file set the same fields.
* The array of files is a function on indices; the indices from `file_num` on are not used.
-/

namespace ORaidServer

/-- The two buffers of a file are indexed by `Fin 2`. -/
instance neZeroTwo : NeZero (2 : ℕ) := ⟨by decide⟩

/-- `buf_flag`: `0` empty, `1` being written, `2` full. -/
inductive BufFlag
  | empty
  | writing
  | full
  deriving DecidableEq, Repr

/-- A buffer pointer: `NULL`, allocated by the thread of a request, or freed. -/
inductive Ptr
  | null
  | live (request : ℕ)
  | released
  deriving DecidableEq, Repr

/-- There is memory behind the pointer. -/
def Ptr.Live : Ptr → Prop
  | .live _ => True
  | .null | .released => False

instance : (p : Ptr) → Decidable p.Live
  | .live _ => isTrue trivial
  | .null | .released => isFalse not_false

/-- One of the two buffers of a file. -/
structure InBuf where
  bytes : List Byte
  flag : BufFlag
  start : ℕ
  deriving DecidableEq, Repr

/-- `buf_size[k]` -/
def InBuf.bufSize (b : InBuf) : ℕ := b.bytes.length

/-- `in_file_info` -/
structure InFileInfo where
  buf : Fin 2 → InBuf
  cpSize : ℕ

/-- `single_file_info`; `ptr` is what the pointers `in_buf0` and `in_buf1` point to.  `none` is the
descriptor `0`, or `NULL`. -/
structure SingleFileInfo where
  inBufInfo : InFileInfo
  ptr : Fin 2 → Ptr
  fd : Option ℕ
  evAccept : Option ℕ
  base : Option ℕ
  writeState : ℕ
  writeIndex : ℕ
  writeTotalSize : ℕ
  filePath : List Byte
  fileIndex : ℕ

/-- `tGroupFileInfo` -/
structure TGroupFileInfo where
  file : ℕ → SingleFileInfo
  fileSize : ℤ
  fileNum : ℕ
  xorSize : ℕ
  bufFullNum : Fin 2 → ℕ
  xorFlag : ℤ
  correctFlag : ℤ

/-! ### Updates -/

/-- Replace buffer `k` of a file. -/
def SingleFileInfo.setBuf (f : SingleFileInfo) (k : Fin 2) (b : InBuf) : SingleFileInfo :=
  { f with inBufInfo := { f.inBufInfo with buf := Function.update f.inBufInfo.buf k b } }

/-- Buffer `k` of a file. -/
def SingleFileInfo.buf (f : SingleFileInfo) (k : Fin 2) : InBuf := f.inBufInfo.buf k

/-- Set `cp_size`. -/
def SingleFileInfo.setCpSize (f : SingleFileInfo) (n : ℕ) : SingleFileInfo :=
  { f with inBufInfo := { f.inBufInfo with cpSize := n } }

/-- Set `file_index`. -/
def SingleFileInfo.setFileIndex (f : SingleFileInfo) (n : ℕ) : SingleFileInfo :=
  { f with fileIndex := n }

/-- Another state of the pointers. -/
def SingleFileInfo.withPtr (f : SingleFileInfo) (p : Fin 2 → Ptr) : SingleFileInfo :=
  { f with ptr := p }

/-- The socket, the event and the event loop are those of the thread of `request`. -/
def SingleFileInfo.setLoop (f : SingleFileInfo) (request : ℕ) : SingleFileInfo :=
  { f with fd := some request, evAccept := some request, base := some request }

/-- The bytes of the file stored so far: those of the completed pieces and, while a piece is spread
over two buffers, its stored part. -/
def SingleFileInfo.stored (f : SingleFileInfo) : ℕ := f.fileIndex + f.inBufInfo.cpSize

/-- Replace the record of file `i`. -/
def TGroupFileInfo.setFile (g : TGroupFileInfo) (i : ℕ) (f : SingleFileInfo) : TGroupFileInfo :=
  { g with file := Function.update g.file i f }

section Lemmas

variable (f : SingleFileInfo) (g : TGroupFileInfo) (k : Fin 2) (b : InBuf) (i : ℕ)

@[simp] theorem SingleFileInfo.buf_setBuf_self : (f.setBuf k b).buf k = b := by
  simp [SingleFileInfo.setBuf, SingleFileInfo.buf]

theorem SingleFileInfo.buf_setBuf (k' : Fin 2) :
    (f.setBuf k b).buf k' = if k' = k then b else f.buf k' := by
  simp [SingleFileInfo.setBuf, SingleFileInfo.buf, Function.update_apply]

@[simp] theorem SingleFileInfo.stored_setBuf : (f.setBuf k b).stored = f.stored := rfl

@[simp] theorem SingleFileInfo.cpSize_setBuf :
    (f.setBuf k b).inBufInfo.cpSize = f.inBufInfo.cpSize := rfl

@[simp] theorem SingleFileInfo.fileIndex_setBuf : (f.setBuf k b).fileIndex = f.fileIndex := rfl

@[simp] theorem SingleFileInfo.buf_setCpSize (n : ℕ) (k' : Fin 2) :
    (f.setCpSize n).buf k' = f.buf k' := rfl

@[simp] theorem SingleFileInfo.buf_setLoop (request : ℕ) (k' : Fin 2) :
    (f.setLoop request).buf k' = f.buf k' := rfl

@[simp] theorem SingleFileInfo.buf_setFileIndex (n : ℕ) (k' : Fin 2) :
    (f.setFileIndex n).buf k' = f.buf k' := rfl

@[simp] theorem SingleFileInfo.cpSize_setCpSize (n : ℕ) :
    (f.setCpSize n).inBufInfo.cpSize = n := rfl

@[simp] theorem SingleFileInfo.cpSize_setFileIndex (n : ℕ) :
    (f.setFileIndex n).inBufInfo.cpSize = f.inBufInfo.cpSize := rfl

@[simp] theorem SingleFileInfo.fileIndex_setCpSize (n : ℕ) :
    (f.setCpSize n).fileIndex = f.fileIndex := rfl

@[simp] theorem SingleFileInfo.fileIndex_setFileIndex (n : ℕ) :
    (f.setFileIndex n).fileIndex = n := rfl

@[simp] theorem TGroupFileInfo.file_setFile_self (f : SingleFileInfo) :
    (g.setFile i f).file i = f := by simp [TGroupFileInfo.setFile]

theorem TGroupFileInfo.file_setFile (f : SingleFileInfo) (j : ℕ) :
    (g.setFile i f).file j = if j = i then f else g.file j := by
  simp [TGroupFileInfo.setFile, Function.update_apply]

end Lemmas

end ORaidServer
