import ORaidServer.Group.Types

/-!
# `write_buf`

A call of `write_buf(buffer, length, s_sub)` stores one received piece into the buffers of file
`s_sub`, spilling into the other buffer and waiting for the consumer where it must.  The call is
cut into the steps between which other threads can run; one iteration of its `while (1)` is the
steps from `head` to the next `head` or to `idle`.

* `WriteLocal` holds the program counter and the local variables, `FileCtx` adds what a step reads
  and writes of the shared group;
* `writeBufStep` is one step.  The two branches of the source for `in_buf0` and `in_buf1` are one
  definition, `storeInto`, and the two final `if`s are `makeWritable`.

The increment `buf_full_num[k]++` is not protected by a lock: it is a read (`load`) and a write
(`store`).
-/

namespace ORaidServer

/-- Where a `write_buf` call stands.  `more` says that the branch was the one for a piece that does
not fit, after which the loop goes on. -/
inductive WritePc
  /-- not inside a call -/
  | idle
  /-- at the top of `while (1)` -/
  | head
  /-- before `buf_flag[k] = 2` -/
  | mark (k : Fin 2) (more : Bool)
  /-- before the read of `buf_full_num[k]++` -/
  | load (k : Fin 2) (more : Bool)
  /-- before the write of `buf_full_num[k]++`, having read `v` -/
  | store (k : Fin 2) (more : Bool) (v : ℕ)
  /-- before the test that makes buffer 0 writable -/
  | tail0
  /-- before the test that makes buffer 1 writable -/
  | tail1
  deriving DecidableEq, Repr

/-- The program counter, the argument `buffer` (`length` is its length) and the local `flag`. -/
structure WriteLocal where
  pc : WritePc
  buffer : List Byte
  flag : Bool
  deriving DecidableEq, Repr

/-- What a step of `write_buf` reads and writes: its file, the two counters, its local state. -/
structure FileCtx where
  info : SingleFileInfo
  num : Fin 2 → ℕ
  loc : WriteLocal

/-- Entry of `write_buf`. -/
def WriteLocal.call (buffer : List Byte) : WriteLocal := ⟨.head, buffer, false⟩

/-- The branch taken when buffer `k` is being written: store what fits and mark the buffer full, or
store the rest of the piece and return, marking the buffer full at the end of the file. -/
def storeInto (fileSize : ℤ) (k : Fin 2) (c : FileCtx) : FileCtx :=
  let b := c.info.buf k
  if b.bufSize + c.loc.buffer.length > readBufSize then
    let cpSize := readBufSize - b.bufSize
    { c with
      info := (c.info.setBuf k
        { b with bytes := b.bytes ++ c.loc.buffer.take cpSize }).setCpSize cpSize
      loc := { c.loc with pc := .mark k true } }
  else
    let fileIndex := c.info.fileIndex + c.loc.buffer.length
    let pc := if (fileIndex : ℤ) ≥ fileSize then .mark k false else .idle
    if c.loc.flag then
      { c with
        info := ((c.info.setBuf k
          { b with bytes := b.bytes ++ c.loc.buffer.drop c.info.inBufInfo.cpSize }).setFileIndex
            fileIndex).setCpSize 0
        loc := { c.loc with pc := pc, flag := false } }
    else
      { c with
        info := (c.info.setBuf k { b with bytes := b.bytes ++ c.loc.buffer }).setFileIndex fileIndex
        loc := { c.loc with pc := pc } }

/-- `memset` the buffer, `buf_flag[k] = 1`, `buf_size[k] = 0`. -/
def makeWritable (k : Fin 2) (f : SingleFileInfo) : SingleFileInfo :=
  f.setBuf k { f.buf k with bytes := [], flag := .writing, start := f.stored }

/-- One step of `write_buf`. -/
def writeBufStep (fileSize : ℤ) (c : FileCtx) : FileCtx :=
  match c.loc.pc with
  | .idle => c
  | .head =>
    if (c.info.buf 0).flag = .writing then storeInto fileSize 0 c
    else if (c.info.buf 1).flag = .writing then storeInto fileSize 1 c
    else { c with loc.pc := .tail0 }
  | .mark k more =>
    { c with info := c.info.setBuf k { c.info.buf k with flag := .full }, loc.pc := .load k more }
  | .load k more => { c with loc.pc := .store k more (c.num k) }
  | .store k more v =>
    { c with
      num := Function.update c.num k (v + 1)
      loc := { c.loc with pc := if more then .tail0 else .idle, flag := more || c.loc.flag } }
  | .tail0 =>
    if (c.info.buf 0).flag = .empty ∧ (c.info.buf 1).flag ≠ .writing then
      { c with info := makeWritable 0 c.info, loc.pc := .tail1 }
    else { c with loc.pc := .tail1 }
  | .tail1 =>
    if (c.info.buf 1).flag = .empty ∧ (c.info.buf 0).flag ≠ .writing then
      { c with info := makeWritable 1 c.info, loc.pc := .head }
    else { c with loc.pc := .head }

theorem storeInto_frame (N : ℤ) (k : Fin 2) (c : FileCtx) :
    ∃ b i, (storeInto N k c).info = { c.info with inBufInfo := b, fileIndex := i } := by
  unfold storeInto
  dsimp only
  split_ifs <;> exact ⟨_, _, rfl⟩

/-- `write_buf` changes the buffers of its file and how much of it is stored, and nothing else in its record. -/
theorem writeBufStep_frame (N : ℤ) (c : FileCtx) :
    ∃ b i, (writeBufStep N c).info = { c.info with inBufInfo := b, fileIndex := i } := by
  unfold writeBufStep
  cases c.loc.pc with
  | head =>
    dsimp only
    split_ifs
    · exact storeInto_frame N 0 c
    · exact storeInto_frame N 1 c
    · exact ⟨_, _, rfl⟩
  | tail0 | tail1 =>
    dsimp only
    split_ifs <;> exact ⟨_, _, rfl⟩
  | _ => exact ⟨_, _, rfl⟩

/-- The branch for a piece whose rest fits stores that rest, whatever the local `flag`. -/
theorem storeInto_of_fits {N : ℤ} {k : Fin 2} {c : FileCtx}
    (hflag : c.loc.flag = false → c.info.inBufInfo.cpSize = 0)
    (hs : ¬ (c.info.buf k).bufSize + c.loc.buffer.length > readBufSize) :
    storeInto N k c =
      { c with
        info := ((c.info.setBuf k { c.info.buf k with
            bytes := (c.info.buf k).bytes ++ c.loc.buffer.drop c.info.inBufInfo.cpSize }).setFileIndex
              (c.info.fileIndex + c.loc.buffer.length)).setCpSize 0
        loc := { c.loc with
          pc := if ((c.info.fileIndex + c.loc.buffer.length : ℕ) : ℤ) ≥ N then .mark k false
            else .idle
          flag := false } } := by
  obtain ⟨⟨⟨buf, cp⟩, ptr, fd, ev, base, ws, wi, wt, path, idx⟩, num, ⟨pc, buffer, flag⟩⟩ := c
  cases flag with
  | true => simp [storeInto, hs]
  | false =>
    obtain rfl : cp = 0 := hflag rfl
    simp only [storeInto, hs]
    simp [SingleFileInfo.setBuf, SingleFileInfo.setFileIndex, SingleFileInfo.setCpSize]

theorem writeBufStep_tail0_pc {N : ℤ} {c : FileCtx} (hpc : c.loc.pc = .tail0) :
    (writeBufStep N c).loc.pc = .tail1 := by
  unfold writeBufStep
  simp only [hpc]
  split_ifs <;> rfl

theorem writeBufStep_tail1_pc {N : ℤ} {c : FileCtx} (hpc : c.loc.pc = .tail1) :
    (writeBufStep N c).loc.pc = .head := by
  unfold writeBufStep
  simp only [hpc]
  split_ifs <;> rfl

/-- At the end of an iteration a free buffer is made writable if none is being written. -/
theorem writeBufStep_tail {N : ℤ} {c : FileCtx} {k : Fin 2}
    (hpc : c.loc.pc = if k = 0 then .tail0 else .tail1) (he : (c.info.buf k).flag = .empty)
    (hno : ∀ k', (c.info.buf k').flag ≠ .writing) :
    (writeBufStep N c).info = makeWritable k c.info := by
  unfold writeBufStep
  obtain rfl | rfl : k = 0 ∨ k = 1 := by omega
  · simp [hpc, he, hno 1]
  · simp [hpc, he, hno 0]

end ORaidServer
