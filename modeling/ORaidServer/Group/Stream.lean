import ORaidServer.Group.Judge
import ORaidServer.Group.FileInv
import ORaidServer.Lib.Guarded
import Mathlib.Data.Fin.VecNotation

/-!
# The producers and the consumer together

The system of the `n` producers of a group, each handing the pieces of its file to `write_buf`, and
the consumer `judge_xor_condition`.  A scheduler picks who takes the next step.

* `Stream`, `Stream.step` and `Stream.init`;
* `Follows`, `InTurn` and `Atomic`, guards on the scheduler's choices in terms of the state before
  the step.
-/

namespace ORaidServer

open Guarded

/-- A producer: its current `write_buf` call and the pieces for the calls to come. -/
structure Writer where
  loc : WriteLocal
  pieces : List (List Byte)
  deriving DecidableEq, Repr

/-- The group, its producers, the consumer and the output file. -/
structure Stream where
  group : TGroupFileInfo
  writer : ℕ → Writer
  judge : JudgeLocal
  out : OutFile

/-- Who takes the next step. -/
inductive Actor
  | writer (i : ℕ)
  | judge
  deriving DecidableEq, Repr

namespace Stream

/-- What the producer of file `i` works on. -/
def ctx (s : Stream) (i : ℕ) : FileCtx :=
  ⟨s.group.file i, s.group.bufFullNum, (s.writer i).loc⟩

/-- The state after producer `i` changed what it works on. -/
def setCtx (s : Stream) (i : ℕ) (c : FileCtx) : Stream :=
  { s with
    group := { s.group.setFile i c.info with bufFullNum := c.num }
    writer := Function.update s.writer i { s.writer i with loc := c.loc } }

/-- A step of the producer of file `i`: the next call of `write_buf`, or a step of the current
one. -/
def writerStep (s : Stream) (i : ℕ) : Stream :=
  if (s.writer i).loc.pc = .idle then
    match (s.writer i).pieces with
    | [] => s
    | p :: ps => { s with writer := Function.update s.writer i ⟨.call p, ps⟩ }
  else s.setCtx i (writeBufStep s.group.fileSize (s.ctx i))

/-- A step of the consumer. -/
def judgeStep (s : Stream) : Stream :=
  let (g, out, j) := ORaidServer.judgeStep s.group s.out s.judge
  { s with group := g, out := out, judge := j }

/-- One step of the system. -/
def step (s : Stream) : Actor → Stream
  | .writer i => if i < s.group.fileNum then s.writerStep i else s
  | .judge => s.judgeStep

/-- A file whose producer has just made buffer 0 writable. -/
def readyFile : SingleFileInfo where
  inBufInfo := ⟨![⟨[], .writing, 0⟩, ⟨[], .empty, 0⟩], 0⟩
  ptr := fun _ => .live 0
  fd := some 0
  evAccept := some 0
  base := some 0
  writeState := 0
  writeIndex := 0
  writeTotalSize := 0
  filePath := []
  fileIndex := 0

/-- The start: nothing stored, the pieces of file `i` are `pieces i`. -/
def init (n fileSize : ℕ) (pieces : ℕ → List (List Byte)) : Stream where
  group :=
    { file := fun _ => readyFile, fileSize := fileSize, fileNum := n, xorSize := 0,
      bufFullNum := fun _ => 0, xorFlag := 0, correctFlag := 0 }
  writer := fun i => ⟨⟨.idle, [], false⟩, pieces i⟩
  judge := ⟨.test 0, n⟩
  out := ⟨[], []⟩

/-- `pieces` is a split of the `n` files `f`, all of length `N`, into pieces of `1..MAXLINE`
bytes. -/
structure Split (n N : ℕ) (f : ℕ → List Byte) (pieces : ℕ → List (List Byte)) : Prop where
  flatten : ∀ i < n, (pieces i).flatten = f i
  length : ∀ i < n, (f i).length = N
  piece : ∀ i < n, ∀ p ∈ pieces i, 0 < p.length ∧ p.length ≤ maxline

/-! ### Guards -/

/-- Producer `i` is about to make buffer `k` writable. -/
def Readies (s : Stream) (i : ℕ) (k : Fin 2) : Prop :=
  (s.writer i).loc.pc = (if k = 0 then .tail0 else .tail1) ∧
    ((s.group.file i).buf k).flag = .empty ∧ ∀ k', ¬ (s.group.file i).Writing k'

/-- A producer that makes buffer `k` writable for its next segment finds no other file that already
holds this segment in the other buffer. -/
def Follows (s : Stream) : Actor → Prop
  | .writer i => ∀ k, s.Readies i k → ∀ j < s.group.fileNum, ∀ k', k' ≠ k →
      ((s.group.file j).buf k').flag ≠ .empty →
      ((s.group.file j).buf k').start ≠ (s.group.file i).stored
  | .judge => True

/-- The consumer does not find `buf_full_num[k]` at `file_num` while the other buffer of every file
is full with an earlier segment. -/
def InTurn (s : Stream) : Actor → Prop
  | .writer _ => True
  | .judge => ∀ k, s.judge.pc = .test k → s.group.bufFullNum k = s.judge.fileNum →
      ¬ ∃ k', k' ≠ k ∧ ∀ i < s.group.fileNum, (s.group.file i).Full k' ∧
        ((s.group.file i).buf k').start < ((s.group.file i).buf k).start

/-- No producer reads a counter between another one's read and write of it: increments are
atomic. -/
def Atomic (s : Stream) : Actor → Prop
  | .writer i => ∀ k more, (s.writer i).loc.pc = .load k more →
      ∀ j < s.group.fileNum, ∀ more' v, (s.writer j).loc.pc ≠ .store k more' v
  | .judge => True

/-! ### Deciding the guards -/

instance (s : Stream) (i : ℕ) (k : Fin 2) : Decidable (s.Readies i k) :=
  inferInstanceAs (Decidable (_ ∧ _ ∧ ∀ k', ¬ SingleFileInfo.Writing _ k'))

instance (s : Stream) : (a : Actor) → Decidable (s.Follows a)
  | .writer i => inferInstanceAs (Decidable (∀ k, s.Readies i k → ∀ j < s.group.fileNum, ∀ k',
      k' ≠ k → ((s.group.file j).buf k').flag ≠ .empty →
        ((s.group.file j).buf k').start ≠ (s.group.file i).stored))
  | .judge => isTrue trivial

instance (s : Stream) : (a : Actor) → Decidable (s.InTurn a)
  | .writer _ => isTrue trivial
  | .judge => inferInstanceAs (Decidable (∀ k, s.judge.pc = .test k →
      s.group.bufFullNum k = s.judge.fileNum → ¬ ∃ k', k' ≠ k ∧ ∀ i < s.group.fileNum,
        (s.group.file i).Full k' ∧
          ((s.group.file i).buf k').start < ((s.group.file i).buf k).start))

instance (pc : WritePc) (k : Fin 2) : Decidable (∀ more v, pc ≠ .store k more v) :=
  match pc with
  | .store k' more v => decidable_of_iff (k' ≠ k) (by simp)
  | .idle | .head | .mark _ _ | .load _ _ | .tail0 | .tail1 => isTrue (by simp)

instance (s : Stream) : (a : Actor) → Decidable (s.Atomic a)
  | .writer i => inferInstanceAs (Decidable (∀ k more, (s.writer i).loc.pc = .load k more →
      ∀ j < s.group.fileNum, ∀ more' v, (s.writer j).loc.pc ≠ .store k more' v))
  | .judge => isTrue trivial

end Stream

end ORaidServer
