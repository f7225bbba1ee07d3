import ORaidServer.Group.OneFile
import ORaidServer.Wire.Callback

/-!
# The buffers under any input

The receiver of one file against a peer that sends whatever it likes: each result of `recv` goes through
the callback to `write_buf`, while the consumer frees full buffers whenever it likes.

* `Memcpy`, a `memcpy` of `write_buf` with its offsets and its length as the code computes them, and
  `storeInto_memcpy`, that it is what the model stores;
* `Receiver`, the file with the decoder and a record of the calls and copies made;
* `inBuffers_of_reach`: where every header comes in one result, all of them stay inside their buffers.
-/

namespace ORaidServer

open Guarded

/-! ### The copies of `write_buf` -/

/-- `memcpy(in_buf + dst, buf + src, count)` with a piece of `len` bytes. -/
structure Memcpy where
  dst : ℤ
  src : ℤ
  count : ℤ
  len : ℤ
  deriving DecidableEq, Repr

/-- The bytes read lie inside the piece and those written inside the buffer. -/
structure Memcpy.InBounds (m : Memcpy) : Prop where
  count : 0 ≤ m.count
  src : 0 ≤ m.src ∧ m.src + m.count ≤ m.len
  dst : 0 ≤ m.dst ∧ m.dst + m.count ≤ readBufSize

/-- The `memcpy` of the branch for buffer `k`. -/
def FileCtx.memcpyInto (c : FileCtx) (k : Fin 2) : Memcpy :=
  let bufSize := (c.info.buf k).bufSize
  let length := c.loc.buffer.length
  let cpSize := c.info.inBufInfo.cpSize
  if bufSize + length > readBufSize then ⟨bufSize, 0, readBufSize - bufSize, length⟩
  else if c.loc.flag then ⟨bufSize, cpSize, length - cpSize, length⟩
  else ⟨bufSize, 0, length, length⟩

/-- The `memcpy` that the next step of `write_buf` makes, if any. -/
def FileCtx.memcpy (c : FileCtx) : Option Memcpy :=
  match c.loc.pc with
  | .head =>
    if (c.info.buf 0).flag = .writing then some (c.memcpyInto 0)
    else if (c.info.buf 1).flag = .writing then some (c.memcpyInto 1)
    else none
  | _ => none

/-- What is stored is what the `memcpy` copies. -/
theorem storeInto_memcpy (N : ℤ) (k : Fin 2) (c : FileCtx) :
    ((storeInto N k c).info.buf k).bytes = (c.info.buf k).bytes ++
      (c.loc.buffer.drop (c.memcpyInto k).src.toNat).take (c.memcpyInto k).count.toNat := by
  unfold storeInto FileCtx.memcpyInto
  dsimp only
  by_cases hfit : (c.info.buf k).bufSize + c.loc.buffer.length > readBufSize
  · have hcount : ((readBufSize : ℤ) - (c.info.buf k).bufSize).toNat =
        readBufSize - (c.info.buf k).bufSize := by omega
    simp only [if_pos hfit, SingleFileInfo.buf_setCpSize, SingleFileInfo.buf_setBuf_self, hcount]
    rfl
  · by_cases hflag : c.loc.flag = true
    · have hcount : ((c.loc.buffer.length : ℤ) - c.info.inBufInfo.cpSize).toNat =
          c.loc.buffer.length - c.info.inBufInfo.cpSize := by omega
      simp only [if_neg hfit, if_pos hflag, SingleFileInfo.buf_setCpSize,
        SingleFileInfo.buf_setFileIndex, SingleFileInfo.buf_setBuf_self, hcount, Int.toNat_natCast]
      rw [List.take_of_length_le (by rw [List.length_drop])]
    · simp only [if_neg hfit, if_neg hflag, SingleFileInfo.buf_setFileIndex,
        SingleFileInfo.buf_setBuf_self, Int.toNat_natCast, Int.toNat_zero, List.drop_zero,
        List.take_length]

/-- The copies of a file that keeps its invariant are in bounds. -/
theorem OneFile.Inv.memcpy {N : ℤ} {s : OneFile} (h : s.Inv N) {m : Memcpy}
    (hm : s.ctx.memcpy = some m) : m.InBounds := by
  have hplace := h.place
  cases hpc : s.ctx.loc.pc with
  | head =>
    simp only [Place, hpc] at hplace
    obtain ⟨hwith, hcp, -⟩ := hplace
    have hinto : ∀ k, (s.ctx.memcpyInto k).InBounds := by
      intro k
      have hsize := h.size k
      have hcple := hwith.cpSize
      unfold FileCtx.memcpyInto
      dsimp only
      split_ifs with hfit hflag
      all_goals
        refine ⟨?_, ⟨?_, ?_⟩, ?_, ?_⟩
        all_goals
          dsimp only
          omega
    unfold FileCtx.memcpy at hm
    simp only [hpc] at hm
    split_ifs at hm
    · cases hm
      exact hinto 0
    · cases hm
      exact hinto 1
  | _ => simp [FileCtx.memcpy, hpc] at hm

/-! ### The receiver -/

/-- The file with its producer, what the callback still has to do when `write_buf` returns, whether the
event is gone, and a record: the lengths handed to `write_buf`, the copies made, the replies sent. -/
structure Receiver where
  file : OneFile
  next : Option AfterWrite
  ended : Bool
  calls : List ℤ
  copies : List Memcpy
  sent : List Reply

/-- What happens next to the receiver. -/
inductive RecvAct
  /-- the read event, with the result of its `recv` -/
  | recv (r : RecvResult)
  /-- a step of `write_buf`, or of the callback after it -/
  | step
  /-- the consumer frees buffer `k` -/
  | release (k : Fin 2)
  deriving DecidableEq, Repr

namespace Receiver

/-- The decoder of the file. -/
def wire (s : Receiver) : WireState := s.file.ctx.info.wire

/-- Another state of the decoder. -/
def setWire (s : Receiver) (w : WireState) : Receiver :=
  { s with file.ctx.info := s.file.ctx.info.setWire w }

/-- The callback for a result of `recv`, where it does not find the group over and return at once.  A
call with a negative length copies that many bytes: what it does from there on is undefined. -/
def receive (fileSize : ℤ) (s : Receiver) (r : RecvResult) : Receiver :=
  match onRecv s.wire r with
  | .exit _ => { s with ended := true }
  | .skip => s
  | .reset reply => { s.setWire { s.wire with writeState := 0 } with sent := s.sent ++ [reply] }
  | .write buffer length next =>
    if length < 0 then { s with ended := true, calls := s.calls ++ [length] }
    else
      { s with
        file := s.file.step fileSize (.call buffer)
        next := some next
        calls := s.calls ++ [length] }

/-- The callback after `write_buf`. -/
def finish (s : Receiver) (next : AfterWrite) : Receiver :=
  let (w, reply) := afterWrite s.wire next
  { s.setWire w with next := none, sent := s.sent ++ reply.toList }

/-- One step. -/
def step (fileSize : ℤ) (s : Receiver) : RecvAct → Receiver
  | .recv r => if s.ended ∨ s.next.isSome then s else s.receive fileSize r
  | .step =>
    match s.file.ctx.loc.pc, s.next with
    | .idle, none => s
    | .idle, some next => s.finish next
    | _, _ =>
      { s with
        file := s.file.step fileSize .step
        copies := s.copies ++ s.file.ctx.memcpy.toList }
  | .release k => { s with file := s.file.step fileSize (.release k) }

/-- The start of the receiver. -/
def init : Receiver := ⟨.init, none, false, [], [], []⟩

/-- `recv` delivers at most `MAXLINE` bytes. -/
def Delivers (_ : Receiver) : RecvAct → Prop
  | .recv (.got bytes) => bytes.length ≤ maxline
  | _ => True

/-- A result that is taken for the start of a `CMD_WRITE` message has all of the header. -/
def WholeHeader (s : Receiver) : RecvAct → Prop
  | .recv (.got bytes) => s.wire.writeState = 0 → (CmdWrite.ofBuf bytes).command = cmdWrite →
      cmdLen ≤ bytes.length
  | _ => True

/-- All calls and copies made so far, and the sizes of the buffers, are within their bounds. -/
structure InBuffers (s : Receiver) : Prop where
  calls : ∀ l ∈ s.calls, 0 ≤ l ∧ l ≤ (maxline : ℤ)
  copies : ∀ m ∈ s.copies, m.InBounds
  size : ∀ k, (s.file.ctx.info.buf k).bufSize ≤ readBufSize

/-- The invariant of the receiver. -/
structure Inv (N : ℤ) (s : Receiver) : Prop where
  file : s.file.Inv N
  calls : ∀ l ∈ s.calls, 0 ≤ l ∧ l ≤ (maxline : ℤ)
  copies : ∀ m ∈ s.copies, m.InBounds

namespace Inv

variable {N : ℤ} {s : Receiver}

/-- The decoder is not part of what the invariant speaks about. -/
theorem setWire (h : s.Inv N) (w : WireState) : (s.setWire w).Inv N := by
  refine ⟨h.file.keep (fun _ => Iff.rfl) (fun _ => rfl) rfl ?_, h.calls, h.copies⟩
  have hplace := h.file.place
  have hin : s.file.Within →
      OneFile.Within { s.file with ctx.info := s.file.ctx.info.setWire w } :=
    fun ⟨h1, h2, h3, h4⟩ => ⟨h1, h2, h3, h4⟩
  unfold OneFile.Place at hplace ⊢
  cases hpc : s.file.ctx.loc.pc with
  | idle =>
    simp only [hpc] at hplace ⊢
    exact hplace
  | head | tail0 | tail1 =>
    simp only [hpc] at hplace ⊢
    exact ⟨hin hplace.1, hplace.2⟩
  | mark k more =>
    cases more <;> simp only [hpc] at hplace ⊢
    · exact hplace
    · exact ⟨hplace.1, hin hplace.2.1, hplace.2.2⟩
  | load k more | store k more v =>
    cases more <;> simp only [hpc] at hplace ⊢
    · exact hplace
    · exact ⟨hplace.1, hin hplace.2⟩

/-- What the callback hands to `write_buf` when its header is whole. -/
theorem onRecv_write {w : WireState} {bytes buffer : List Byte} {length : ℤ} {next : AfterWrite}
    (h : onRecv w (.got bytes) = .write buffer length next)
    (hw : w.writeState = 0 → (CmdWrite.ofBuf bytes).command = cmdWrite → cmdLen ≤ bytes.length) :
    length = buffer.length ∧ buffer.length ≤ bytes.length := by
  unfold onRecv at h
  dsimp only at h
  split_ifs at h with h1 h2 h3 h4
  · cases h
    have := hw h2 h3
    rw [List.length_drop]
    omega
  · cases h
    exact ⟨rfl, le_rfl⟩

/-- The callback keeps the invariant. -/
theorem receive (h : s.Inv N) {r : RecvResult} (hd : s.Delivers (.recv r))
    (hw : s.WholeHeader (.recv r)) : (s.receive N r).Inv N := by
  unfold Receiver.receive
  cases hplan : onRecv s.wire r with
  | exit failed => exact ⟨h.file, h.calls, h.copies⟩
  | skip => exact h
  | reset reply =>
    have := h.setWire { s.wire with writeState := 0 }
    exact ⟨this.file, this.calls, this.copies⟩
  | write buffer length next =>
    cases r with
    | error => cases hplan
    | got bytes =>
      obtain ⟨hlen, hle⟩ := onRecv_write hplan hw
      have hmax : buffer.length ≤ maxline := hle.trans hd
      dsimp only
      rw [if_neg (by omega)]
      refine ⟨h.file.call (hmax.trans maxline_le_readBufSize), fun l hl => ?_, h.copies⟩
      rcases List.mem_append.1 hl with hl | hl
      · exact h.calls l hl
      · obtain rfl := List.mem_singleton.1 hl
        omega

/-- A step keeps the invariant if it delivers whole headers only. -/
theorem step (h : s.Inv N) {a : RecvAct} (hd : s.Delivers a) (hw : s.WholeHeader a) :
    (s.step N a).Inv N := by
  cases a with
  | recv r =>
    show (if s.ended ∨ s.next.isSome then s else s.receive N r).Inv N
    split_ifs
    · exact h
    · exact h.receive hd hw
  | step =>
    have hstep : Receiver.Inv N
        { s with
          file := s.file.step N .step
          copies := s.copies ++ s.file.ctx.memcpy.toList } := by
      refine ⟨h.file.writeStep, h.calls, fun m hm => ?_⟩
      rcases List.mem_append.1 hm with hm | hm
      · exact h.copies m hm
      · exact h.file.memcpy (Option.mem_toList.1 hm)
    unfold Receiver.step
    dsimp only
    split
    · exact h
    · next next hpc hnext =>
      have := h.setWire (afterWrite s.wire next).1
      exact ⟨this.file, this.calls, this.copies⟩
    · exact hstep
  | release k => exact ⟨h.file.release k, h.calls, h.copies⟩

end Inv

theorem inv_init (N : ℤ) : init.Inv N :=
  ⟨OneFile.inv_init N, fun _ hl => absurd hl List.not_mem_nil,
    fun _ hm => absurd hm List.not_mem_nil⟩

end Receiver

/-- In a run in which every header comes in one result, no peer makes the receiver leave its
buffers. -/
theorem inBuffers_of_reach {N : ℤ} {s : Receiver}
    (h : Reach (Receiver.step N) (fun t a => t.Delivers a ∧ t.WholeHeader a) .init s) :
    s.InBuffers := by
  have hI : s.Inv N :=
    h.invariant (Receiver.inv_init N) fun t a ht ha => ht.step ha.1 ha.2
  exact ⟨hI.calls, hI.copies, hI.file.size⟩

/-- A message of one byte, received whole and stored. -/
theorem inBuffers_of_reach_message :
    (run (Receiver.step 1) .init [.recv (.got (Message.mk' 0 [7] (by decide) (by decide)).bytes),
      .step]).InBuffers := by
  set m := Message.mk' 0 [7] (by decide) (by decide)
  have hlen : m.bytes.length = cmdLen + 1 := m.length_bytes
  have hmax : m.bytes.length ≤ maxline := hlen.trans_le (by decide)
  exact inBuffers_of_reach
    (Allowed.reach ⟨⟨hmax, fun _ _ => by omega⟩, ⟨trivial, trivial⟩, trivial⟩)

/-- A result of 17 bytes that starts with a command. -/
def shortHeader : List Byte := List.replicate 16 0 ++ [cmdWrite]

/-- A shorter result makes `length` negative. -/
theorem not_inBuffers : ¬ ∀ N s, Reach (Receiver.step N) Receiver.Delivers .init s →
    s.InBuffers := by
  intro hall
  have hr : Reach (Receiver.step 1) Receiver.Delivers .init
      (Receiver.step 1 .init (.recv (.got shortHeader))) := Reach.single (by
    show shortHeader.length ≤ maxline
    decide)
  have := (hall 1 _ hr).calls (-1048) (by decide +kernel)
  omega

end ORaidServer
