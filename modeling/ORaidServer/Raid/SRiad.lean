import ORaidServer.Stdio
import ORaidServer.Lib.Loop

/-!
# `s_riad`

The local engine, `s_riad(out_fd, file_total_size, dir_file_path_size, in_fd)`: it reads up to
`READ_SIZE` bytes of every file in whole words, exclusive-ors the words into the buffer of the first
file and writes them, and takes the bytes after the last whole word one at a time with `fgetc`.

* `Input`, a file with its buffer, and `RiadState`, the state at the top of `while (1)`;
* `RiadState.freadAll`, `RiadState.tail` and `RiadState.xorWords`, the parts of an iteration;
* `iter`, an iteration, and `sRiad`, which bounds their number by a fuel.

The source is given at least one file; here the first is kept apart from the others.
-/

namespace ORaidServer

open ByteMem

/-- An input file and what was stored in its buffer `input_buf[i]`. -/
structure Input where
  fd : InFile
  buf : List Byte
  deriving DecidableEq, Repr

/-- `fread(input_buf[i], sizeof(int), read_size, in_fd[i])` -/
def Input.fread (x : Input) (readSize : ℕ) : ℕ × Input :=
  let (num, got, fd) := x.fd.fread 4 readSize
  (num, ⟨fd, got ++ x.buf.drop got.length⟩)

/-- The local variables at the top of the loop, with the files. -/
structure RiadState where
  first : Input
  rest : List Input
  num0 : ℕ
  xorTotalSize : ℕ
  out : OutFile
  deriving DecidableEq, Repr

/-- `read_size`, in words, when so many bytes are left. -/
def chunk (left : ℕ) : ℕ := if left ≤ readSize then left / 4 else readSize / 4

/-- The reads of the files after the first, unless one gives another number of words. -/
def freadRest (num0 readSize : ℕ) : List Input → Option (List Input)
  | [] => some []
  | x :: xs =>
    let (num1, x) := x.fread readSize
    if num0 ≠ num1 then none else (freadRest num0 readSize xs).map (x :: ·)

/-- The reads of one round; `num0` keeps its value when there is nothing to read. -/
def RiadState.freadAll (s : RiadState) (readSize : ℕ) : Option RiadState :=
  if readSize = 0 then some s
  else
    let (num0, first) := s.first.fread readSize
    (freadRest num0 readSize s.rest).map fun rest => { s with first := first, rest := rest, num0 := num0 }

/-- `fseek(in_fd[i], xor_total_size, SEEK_SET)` for every file. -/
def RiadState.fseekAll (s : RiadState) : RiadState :=
  { s with
    first := { s.first with fd := s.first.fd.fseek s.xorTotalSize }
    rest := s.rest.map fun x => { x with fd := x.fd.fseek s.xorTotalSize } }

/-- The result of `fgetc` stored in a `char`; `EOF` is `-1`. -/
def toChar (c : Option Byte) : Byte := c.getD (-1)

/-- A `char` other than that of `EOF` was read from the file. -/
theorem InFile.fgetc_of_toChar {fd : InFile} (h : ¬ (toChar fd.fgetc.1).toInt = -1) :
    fd.pos < fd.content.length ∧ fd.fgetc.2 = ⟨fd.content, fd.pos + 1⟩ := by
  unfold InFile.fgetc at *
  cases hget : fd.content[fd.pos]? with
  | none =>
    rw [hget] at h
    exact absurd (show (toChar none).toInt = -1 by decide) h
  | some b => exact ⟨(List.getElem?_eq_some_iff.1 hget).1, rfl⟩

/-- `c1 = fgetc(in_fd[i]); c0 ^= c1` for the files after the first. -/
def fgetcRest (c0 : Byte) : List Input → Byte × List Input
  | [] => (c0, [])
  | x :: xs =>
    let (c1, fd) := x.fd.fgetc
    let (c0, xs) := fgetcRest (c0 ^^^ toChar c1) xs
    (c0, { x with fd := fd } :: xs)

/-- The body of the byte loop, after `c0 = fgetc(in_fd[0])`. -/
def RiadState.tailBody (s : RiadState) : RiadState :=
  let (c0, rest) := fgetcRest (toChar s.first.fd.fgetc.1) s.rest
  { s with
    first := { s.first with fd := s.first.fd.fgetc.2 }
    rest := rest
    out := (s.out.fputc c0).2
    xorTotalSize := s.xorTotalSize + 1 }

/-- `while ((c0 = fgetc(in_fd[0])) != EOF)`, the comparison being one of `int`s. -/
def RiadState.tail (s : RiadState) : RiadState :=
  if (toChar s.first.fd.fgetc.1).toInt = -1 then
    { s with first := { s.first with fd := s.first.fd.fgetc.2 } }
  else s.tailBody.tail
termination_by s.first.fd.content.length - s.first.fd.pos
decreasing_by
  rename_i h
  obtain ⟨hlt, hfd⟩ := InFile.fgetc_of_toChar h
  simp only [RiadState.tailBody, hfd]
  omega

/-- The first buffer after the exclusive or of the words read. -/
def RiadState.xored (s : RiadState) : List Byte :=
  wordPass (s.rest.map Input.buf) s.first.buf s.num0

/-- The exclusive or of the words read, their output and the accounting. -/
def RiadState.xorWords (s : RiadState) (fileTotalSize : ℕ) : RiadState ⊕ (ℤ × OutFile) :=
  let (ret, out) := s.out.fwrite s.xored 4 s.num0
  if (ret : ℤ) < 0 then .inr (errorFwriteFile, out)
  else
    let xorTotalSize := s.xorTotalSize + s.num0 * 4
    if xorTotalSize = fileTotalSize then .inr (right, out)
    else if xorTotalSize > fileTotalSize then .inr (errorXorFile, out)
    else
      .inl { s with
        first := { s.first with buf := s.xored }
        xorTotalSize := xorTotalSize
        out := out }

/-- An iteration of `while (1)`. -/
def iter (fileTotalSize : ℕ) (s : RiadState) : RiadState ⊕ (ℤ × OutFile) :=
  let readSize := chunk (fileTotalSize - s.xorTotalSize)
  match s.freadAll readSize with
  | none => .inr (errorFreadFile, s.out)
  | some s =>
    if readSize = 0 then
      let s := if fileTotalSize ≠ s.xorTotalSize then s.fseekAll else s
      let s := s.tail
      if fileTotalSize = s.xorTotalSize then .inr (right, s.out) else s.xorWords fileTotalSize
    else s.xorWords fileTotalSize

/-- The state when the loop is entered. -/
def RiadState.start (first : InFile) (rest : List InFile) (out : OutFile) : RiadState :=
  ⟨⟨first, []⟩, rest.map fun fd => ⟨fd, []⟩, 0, 0, out⟩

/-- The return value, the output file and the input buffers that are not freed. -/
structure RiadResult where
  ret : ℤ
  out : OutFile
  live : List ℕ
  deriving DecidableEq, Repr

/-- `s_riad` with so many iterations; `mallocs i` says whether the allocation of `input_buf[i]`
succeeds. -/
def sRiad (fuel fileTotalSize : ℕ) (mallocs : ℕ → Bool) (first : InFile) (rest : List InFile)
    (out : OutFile) : Option RiadResult :=
  match (List.range (rest.length + 1)).find? fun i => !mallocs i with
  | some i => some ⟨errorApplyMalloc, out, List.range i⟩
  | none =>
    (Loop.run (iter fileTotalSize) fuel (.start first rest out)).map fun r => ⟨r.1, r.2, []⟩

end ORaidServer
