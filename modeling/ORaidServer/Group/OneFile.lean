import ORaidServer.Group.Stream

/-!
# One file by itself

The producer of one file that hands over any pieces of at most `READ_BUF_SIZE` bytes, while the
consumer frees the buffers that are marked full whenever it likes.  Nothing is assumed about the
length of the file.

* `OneFile`, the file with a record of the pieces handed over and of the buffers marked full;
* `OneFile.Inv` and its step lemma `OneFile.Inv.step`;
* `byteStream_of_reach`: the buffers in the order in which they were marked, and then the one being
  written, hold what was handed over.
-/

namespace ORaidServer

open Guarded

/-- A buffer that was marked full: its content and the `file_index` of that moment. -/
structure Marked where
  bytes : List Byte
  fileIndex : ℕ
  deriving DecidableEq, Repr

/-- The file and its producer, the bytes of all pieces handed over so far, and the buffers marked full
so far. -/
structure OneFile where
  ctx : FileCtx
  handed : List Byte
  marked : List Marked

/-- What happens next to the file. -/
inductive FileAct
  /-- a call of `write_buf` with the next piece -/
  | call (piece : List Byte)
  /-- a step of the call -/
  | step
  /-- the consumer frees buffer `k` -/
  | release (k : Fin 2)
  deriving DecidableEq, Repr

/-- What a step of `write_buf` marks full. -/
def FileCtx.marks (c : FileCtx) : List Marked :=
  match c.loc.pc with
  | .mark k _ => [⟨(c.info.buf k).bytes, c.info.fileIndex⟩]
  | _ => []

/-- The content of the buffer that is being written. -/
def SingleFileInfo.writable (x : SingleFileInfo) : List Byte :=
  if x.Writing 0 then (x.buf 0).bytes else if x.Writing 1 then (x.buf 1).bytes else []

namespace OneFile

/-- One step.  A call begins only when the one before has returned, and only a full buffer is
freed. -/
def step (fileSize : ℤ) (s : OneFile) : FileAct → OneFile
  | .call piece =>
    if s.ctx.loc.pc = .idle then
      { s with ctx.loc := .call piece, handed := s.handed ++ piece }
    else s
  | .step => { s with ctx := writeBufStep fileSize s.ctx, marked := s.marked ++ s.ctx.marks }
  | .release k =>
    if s.ctx.info.Full k then
      { s with ctx.info := s.ctx.info.setBuf k { s.ctx.info.buf k with flag := .empty } }
    else s

/-- The pieces are of `1..READ_BUF_SIZE` bytes. -/
def Sized (_ : OneFile) : FileAct → Prop
  | .call piece => 0 < piece.length ∧ piece.length ≤ readBufSize
  | _ => True

instance (s : OneFile) : (a : FileAct) → Decidable (s.Sized a)
  | .call piece => inferInstanceAs (Decidable (0 < piece.length ∧ piece.length ≤ readBufSize))
  | .step | .release _ => isTrue trivial

/-- The current call: its piece is the end of what was handed over, after `file_index` bytes. -/
structure Within (s : OneFile) : Prop where
  length : s.ctx.info.fileIndex + s.ctx.loc.buffer.length = s.handed.length
  drop : s.handed.drop s.ctx.info.fileIndex = s.ctx.loc.buffer
  le : s.ctx.loc.buffer.length ≤ readBufSize
  cpSize : s.ctx.info.inBufInfo.cpSize ≤ s.ctx.loc.buffer.length

/-- What holds at each place of a call. -/
def Place (N : ℤ) (s : OneFile) : Prop :=
  match s.ctx.loc.pc with
  | .idle => s.ctx.info.inBufInfo.cpSize = 0 ∧ s.ctx.info.fileIndex = s.handed.length
  | .head | .tail0 | .tail1 => s.Within ∧
      (s.ctx.loc.flag = false → s.ctx.info.inBufInfo.cpSize = 0) ∧
      (s.ctx.loc.flag = true → ∀ k, s.ctx.info.Writing k → (s.ctx.info.buf k).bytes = [])
  | .mark k true => s.ctx.info.Writing k ∧ s.Within ∧ (s.ctx.info.buf k).bufSize = readBufSize
  | .mark k false => s.ctx.info.Writing k ∧ s.ctx.info.inBufInfo.cpSize = 0 ∧
      s.ctx.info.fileIndex = s.handed.length ∧ N ≤ s.ctx.info.fileIndex
  | .load _ true | .store _ true _ => (∀ k, ¬ s.ctx.info.Writing k) ∧ s.Within
  | .load _ false | .store _ false _ => (∀ k, ¬ s.ctx.info.Writing k) ∧
      s.ctx.info.inBufInfo.cpSize = 0 ∧ s.ctx.info.fileIndex = s.handed.length

/-- The invariant of one file. -/
structure Inv (N : ℤ) (s : OneFile) : Prop where
  one : ∀ k k', s.ctx.info.Writing k → s.ctx.info.Writing k' → k = k'
  size : ∀ k, (s.ctx.info.buf k).bufSize ≤ readBufSize
  content : (s.marked.map Marked.bytes).flatten ++ s.ctx.info.writable =
    s.handed.take s.ctx.info.stored
  full : ∀ m ∈ s.marked, (m.fileIndex : ℤ) < N → m.bytes.length = readBufSize
  place : s.Place N

end OneFile

/-! ### The buffer being written -/

section Writable

variable {x : SingleFileInfo} {k : Fin 2}

theorem writable_of_writing (h : x.Writing k) (hone : ∀ k', x.Writing k' → k = k') :
    x.writable = (x.buf k).bytes := by
  unfold SingleFileInfo.writable
  obtain rfl | rfl : k = 0 ∨ k = 1 := by omega
  · rw [if_pos h]
  · rw [if_neg fun h0 => absurd (hone 0 h0) (by decide), if_pos h]

theorem writable_of_not (h : ∀ k, ¬ x.Writing k) : x.writable = [] := by
  rw [SingleFileInfo.writable, if_neg (h 0), if_neg (h 1)]

/-- What is being written does not depend on the other fields, nor on the buffers that are not. -/
theorem writable_congr {y : SingleFileInfo} (hw : ∀ k, y.Writing k ↔ x.Writing k)
    (hb : ∀ k, x.Writing k → (y.buf k).bytes = (x.buf k).bytes) : y.writable = x.writable := by
  unfold SingleFileInfo.writable
  simp only [hw]
  split_ifs with h0 h1
  · exact hb 0 h0
  · exact hb 1 h1
  · rfl

/-- Writing into buffer `k` of a file with no other writable buffer. -/
theorem writing_setBuf {b : InBuf} (hb : b.flag = .writing) (hone : ∀ k', x.Writing k' → k = k')
    (k' : Fin 2) : (x.setBuf k b).Writing k' ↔ k = k' := by
  rw [SingleFileInfo.Writing, SingleFileInfo.buf_setBuf]
  split_ifs with h
  · exact iff_of_true hb h.symm
  · exact iff_of_false (fun hw => h (hone k' hw).symm) (Ne.symm h)

end Writable

namespace OneFile

variable {N : ℤ} {s : OneFile}

/-- The bytes stored so far, inside a call. -/
theorem Within.take (h : s.Within) (n : ℕ) :
    s.handed.take (s.ctx.info.fileIndex + n) =
      s.handed.take s.ctx.info.fileIndex ++ s.ctx.loc.buffer.take n := by
  rw [List.take_add, h.drop]

/-- What is stored when the rest of the piece is. -/
theorem Within.take_all (h : s.Within) :
    s.handed.take (s.ctx.info.fileIndex + s.ctx.loc.buffer.length) =
      s.handed.take s.ctx.info.stored ++ s.ctx.loc.buffer.drop s.ctx.info.inBufInfo.cpSize := by
  rw [SingleFileInfo.stored, h.take, h.take, List.take_length, List.append_assoc,
    List.take_append_drop]

namespace Inv

/-- The consumer frees a full buffer. -/
theorem release (h : s.Inv N) (k : Fin 2) : (s.step N (.release k)).Inv N := by
  show (if s.ctx.info.Full k then _ else s).Inv N
  split_ifs with hk
  · have hk' : (s.ctx.info.buf k).flag = .full := hk
    set x := s.ctx.info.setBuf k { s.ctx.info.buf k with flag := .empty } with hx
    have hw : ∀ k', x.Writing k' ↔ s.ctx.info.Writing k' := by
      intro k'
      rw [hx, SingleFileInfo.Writing, SingleFileInfo.buf_setBuf, SingleFileInfo.Writing]
      split_ifs with he
      · simp [he, hk']
      · exact Iff.rfl
    have hb : ∀ k', (x.buf k').bytes = (s.ctx.info.buf k').bytes := by
      intro k'
      rw [hx, SingleFileInfo.buf_setBuf]
      split_ifs with he
      · rw [he]
      · rfl
    refine ⟨fun k₁ k₂ h₁ h₂ => h.one k₁ k₂ ((hw k₁).1 h₁) ((hw k₂).1 h₂), fun k' => ?_, ?_, h.full,
      ?_⟩
    · show (x.buf k').bytes.length ≤ _
      rw [hb]
      exact h.size k'
    · show _ ++ x.writable = _
      rw [writable_congr hw fun k' _ => hb k']
      exact h.content
    · have hplace := h.place
      have hsize : ∀ k', (x.buf k').bufSize = (s.ctx.info.buf k').bufSize := fun k' =>
        congrArg List.length (hb k')
      have hin : s.Within → Within { s with ctx.info := x } := by
        rintro ⟨h1, h2, h3, h4⟩
        exact ⟨h1, h2, h3, h4⟩
      unfold Place at hplace ⊢
      cases hpc : s.ctx.loc.pc with
      | idle =>
        simp only [hpc] at hplace ⊢
        exact hplace
      | head | tail0 | tail1 =>
        simp only [hpc] at hplace ⊢
        obtain ⟨hwith, hcp, hflag⟩ := hplace
        exact ⟨hin hwith, hcp, fun hf k' hk' => (hb k').trans (hflag hf k' ((hw k').1 hk'))⟩
      | mark k' more =>
        cases more <;> simp only [hpc] at hplace ⊢
        · exact ⟨(hw k').2 hplace.1, hplace.2⟩
        · exact ⟨(hw k').2 hplace.1, hin hplace.2.1, (hsize k').trans hplace.2.2⟩
      | load k' more | store k' more v =>
        cases more <;> simp only [hpc] at hplace ⊢
        · exact ⟨fun k₁ hk₁ => hplace.1 k₁ ((hw k₁).1 hk₁), hplace.2⟩
        · exact ⟨fun k₁ hk₁ => hplace.1 k₁ ((hw k₁).1 hk₁), hin hplace.2⟩
  · exact h

/-- A call of `write_buf` begins. -/
theorem call (h : s.Inv N) {piece : List Byte} (hle : piece.length ≤ readBufSize) :
    (s.step N (.call piece)).Inv N := by
  show (if s.ctx.loc.pc = .idle then _ else s).Inv N
  split_ifs with hpc
  · have hplace := h.place
    simp only [Place, hpc] at hplace
    obtain ⟨hcp, hidx⟩ := hplace
    refine ⟨h.one, h.size, ?_, h.full, ?_⟩
    · have hst : s.ctx.info.stored = s.handed.length := by
        rw [SingleFileInfo.stored, hcp, hidx, Nat.add_zero]
      apply h.content.trans
      show _ = (s.handed ++ piece).take s.ctx.info.stored
      rw [hst, List.take_length, List.take_left]
    · refine ⟨⟨?_, ?_, hle, ?_⟩, fun _ => hcp, fun hf => by cases hf⟩
      · show s.ctx.info.fileIndex + piece.length = (s.handed ++ piece).length
        rw [hidx, List.length_append]
      · show (s.handed ++ piece).drop s.ctx.info.fileIndex = piece
        rw [hidx, List.drop_left]
      · show s.ctx.info.inBufInfo.cpSize ≤ piece.length
        rw [hcp]
        exact Nat.zero_le _
  · exact h

/-- Buffer `k`, which is being written, gets the bytes `p`. -/
theorem append (h : s.Inv N) {k : Fin 2} (hk : s.ctx.info.Writing k) {p : List Byte}
    {x : SingleFileInfo}
    (hx : ∀ k', x.buf k' = (s.ctx.info.setBuf k { s.ctx.info.buf k with
      bytes := (s.ctx.info.buf k).bytes ++ p }).buf k')
    (hle : (s.ctx.info.buf k).bufSize + p.length ≤ readBufSize)
    (hst : s.handed.take x.stored = s.handed.take s.ctx.info.stored ++ p) :
    (∀ k', x.Writing k' ↔ k = k') ∧ (∀ k', (x.buf k').bufSize ≤ readBufSize) ∧
      (s.marked.map Marked.bytes).flatten ++ x.writable = s.handed.take x.stored := by
  have hone : ∀ k', s.ctx.info.Writing k' → k = k' := fun k' hk' => h.one k k' hk hk'
  have hw : ∀ k', x.Writing k' ↔ k = k' := by
    intro k'
    refine Iff.trans ?_ (writing_setBuf (b := { s.ctx.info.buf k with
      bytes := (s.ctx.info.buf k).bytes ++ p }) hk hone k')
    rw [SingleFileInfo.Writing, hx, SingleFileInfo.Writing]
  have hxk : (x.buf k).bytes = (s.ctx.info.buf k).bytes ++ p := by
    rw [hx, SingleFileInfo.buf_setBuf_self]
  refine ⟨hw, fun k' => ?_, ?_⟩
  · rcases eq_or_ne k' k with rfl | hne
    · rw [InBuf.bufSize, hxk, List.length_append]
      exact hle
    · rw [hx, SingleFileInfo.buf_setBuf, if_neg hne]
      exact h.size k'
  · have hcontent := h.content
    rw [writable_of_writing hk hone] at hcontent
    rw [writable_of_writing ((hw k).2 rfl) fun k' hk' => (hw k').1 hk', hxk, hst, ← hcontent,
      List.append_assoc]

/-- The piece does not fit: what fits is stored. -/
theorem storeInto_split (h : s.Inv N) (hpc : s.ctx.loc.pc = .head) {k : Fin 2}
    (hk : s.ctx.info.Writing k)
    (hfit : (s.ctx.info.buf k).bufSize + s.ctx.loc.buffer.length > readBufSize) :
    OneFile.Inv N { s with ctx := ORaidServer.storeInto N k s.ctx } := by
  have hplace := h.place
  simp only [Place, hpc] at hplace
  obtain ⟨hwith, hcp, hempty⟩ := hplace
  -- the rest of a piece goes into an empty buffer, where it fits
  have hflag : s.ctx.loc.flag = false := by
    by_contra hne
    have hnil := hempty (by simpa using hne) k hk
    rw [InBuf.bufSize, hnil, List.length_nil, Nat.zero_add] at hfit
    exact absurd hwith.le (by omega)
  have hcp0 := hcp hflag
  have hsize := h.size k
  set m := readBufSize - (s.ctx.info.buf k).bufSize with hm
  have hcple : m ≤ s.ctx.loc.buffer.length := by omega
  have hlen : (s.ctx.loc.buffer.take m).length = m := List.length_take_of_le hcple
  obtain ⟨hw, hsz, hcont⟩ := h.append hk (p := s.ctx.loc.buffer.take m)
    (x := (s.ctx.info.setBuf k { s.ctx.info.buf k with
      bytes := (s.ctx.info.buf k).bytes ++ s.ctx.loc.buffer.take m }).setCpSize m)
    (fun _ => rfl) (by omega) (by
      show s.handed.take (s.ctx.info.fileIndex + m) =
        s.handed.take (s.ctx.info.fileIndex + s.ctx.info.inBufInfo.cpSize) ++ _
      rw [hcp0, Nat.add_zero, hwith.take])
  rw [show ORaidServer.storeInto N k s.ctx = _ from if_pos hfit]
  refine ⟨fun k₁ k₂ h₁ h₂ => ((hw k₁).1 h₁).symm.trans ((hw k₂).1 h₂), hsz, hcont, h.full,
    (hw k).2 rfl, ⟨hwith.length, hwith.drop, hwith.le, hcple⟩, ?_⟩
  simp only [SingleFileInfo.buf_setCpSize, SingleFileInfo.buf_setBuf_self, InBuf.bufSize,
    List.length_append]
  rw [InBuf.bufSize] at hm hsize
  rw [← hm, hlen]
  omega

/-- The rest of the piece fits and is stored. -/
theorem storeInto_fits (h : s.Inv N) (hpc : s.ctx.loc.pc = .head) {k : Fin 2}
    (hk : s.ctx.info.Writing k)
    (hfit : ¬ (s.ctx.info.buf k).bufSize + s.ctx.loc.buffer.length > readBufSize) :
    OneFile.Inv N { s with ctx := ORaidServer.storeInto N k s.ctx } := by
  have hplace := h.place
  simp only [Place, hpc] at hplace
  obtain ⟨hwith, hcp, -⟩ := hplace
  obtain ⟨hw, hsz, hcont⟩ := h.append hk (p := s.ctx.loc.buffer.drop s.ctx.info.inBufInfo.cpSize)
    (x := ((s.ctx.info.setBuf k { s.ctx.info.buf k with
      bytes := (s.ctx.info.buf k).bytes ++
        s.ctx.loc.buffer.drop s.ctx.info.inBufInfo.cpSize }).setFileIndex
          (s.ctx.info.fileIndex + s.ctx.loc.buffer.length)).setCpSize 0)
    (fun _ => rfl) (by rw [List.length_drop]; omega) hwith.take_all
  rw [storeInto_of_fits hcp hfit]
  refine ⟨fun k₁ k₂ h₁ h₂ => ((hw k₁).1 h₁).symm.trans ((hw k₂).1 h₂), hsz, hcont, h.full, ?_⟩
  by_cases hN : ((s.ctx.info.fileIndex + s.ctx.loc.buffer.length : ℕ) : ℤ) ≥ N
  · simp only [Place, if_pos hN]
    exact ⟨(hw k).2 rfl, rfl, hwith.length, hN⟩
  · simp only [Place, if_neg hN]
    exact ⟨rfl, hwith.length⟩

theorem storeInto (h : s.Inv N) (hpc : s.ctx.loc.pc = .head) {k : Fin 2}
    (hk : s.ctx.info.Writing k) : OneFile.Inv N { s with ctx := ORaidServer.storeInto N k s.ctx } := by
  by_cases hfit : (s.ctx.info.buf k).bufSize + s.ctx.loc.buffer.length > readBufSize
  · exact h.storeInto_split hpc hk hfit
  · exact h.storeInto_fits hpc hk hfit

/-- A step that changes neither what is being written nor the sizes. -/
theorem keep (h : s.Inv N) {c : FileCtx} (hw : ∀ k, c.info.Writing k ↔ s.ctx.info.Writing k)
    (hb : ∀ k, (c.info.buf k).bytes = (s.ctx.info.buf k).bytes)
    (hst : c.info.stored = s.ctx.info.stored) (hplace : Place N { s with ctx := c }) :
    OneFile.Inv N { s with ctx := c } := by
  refine ⟨fun k₁ k₂ h₁ h₂ => h.one k₁ k₂ ((hw k₁).1 h₁) ((hw k₂).1 h₂), fun k => ?_, ?_, h.full,
    hplace⟩
  · rw [InBuf.bufSize, hb]
    exact h.size k
  · show _ ++ c.info.writable = s.handed.take c.info.stored
    rw [writable_congr hw fun k _ => hb k, hst]
    exact h.content

/-- The buffer being written is marked full. -/
theorem mark (h : s.Inv N) {k : Fin 2} {more : Bool} (hpc : s.ctx.loc.pc = .mark k more) :
    (s.step N .step).Inv N := by
  have hplace := h.place
  have hk : s.ctx.info.Writing k := by
    cases more <;> simp only [Place, hpc] at hplace <;> exact hplace.1
  have hone : ∀ k', s.ctx.info.Writing k' → k = k' := fun k' hk' => h.one k k' hk hk'
  have hcontent := h.content
  rw [writable_of_writing hk hone] at hcontent
  set x := s.ctx.info.setBuf k { s.ctx.info.buf k with flag := .full } with hx
  have hstep : s.step N .step = { s with
      ctx := { s.ctx with info := x, loc.pc := .load k more }
      marked := s.marked ++ [⟨(s.ctx.info.buf k).bytes, s.ctx.info.fileIndex⟩] } := by
    simp only [OneFile.step, writeBufStep, FileCtx.marks, hpc, hx]
  have hno : ∀ k', ¬ x.Writing k' := by
    intro k' hk'
    rw [SingleFileInfo.Writing, hx, SingleFileInfo.buf_setBuf] at hk'
    split_ifs at hk' with hkk
    exact hkk (hone k' hk').symm
  rw [hstep]
  refine ⟨fun k₁ _ h₁ _ => absurd h₁ (hno k₁), fun k' => ?_, ?_, ?_, ?_⟩
  · have hbytes : (x.buf k').bytes = (s.ctx.info.buf k').bytes := by
      rw [hx, SingleFileInfo.buf_setBuf]
      split_ifs with hkk
      · rw [hkk]
      · rfl
    show (x.buf k').bytes.length ≤ _
    rw [hbytes]
    exact h.size k'
  · show _ ++ x.writable = s.handed.take s.ctx.info.stored
    rw [writable_of_not hno, List.append_nil, List.map_append, List.flatten_append]
    simpa using hcontent
  · intro m hm hlt
    rcases List.mem_append.1 hm with hm | hm
    · exact h.full m hm hlt
    · obtain rfl := List.mem_singleton.1 hm
      cases more <;> simp only [Place, hpc] at hplace
      · exact absurd hlt (not_lt.2 hplace.2.2.2)
      · exact hplace.2.2
  · cases more <;> simp only [Place, hpc] at hplace ⊢
    · exact ⟨hno, hplace.2.1, hplace.2.2.1⟩
    · obtain ⟨h1, h2, h3, h4⟩ := hplace.2.1
      exact ⟨hno, h1, h2, h3, h4⟩

/-- A free buffer is made writable where none is being written. -/
theorem ready (h : s.Inv N) {k : Fin 2} (hno : ∀ k, ¬ s.ctx.info.Writing k) {l : WriteLocal}
    (hplace : Place N { s with ctx := { s.ctx with info := makeWritable k s.ctx.info, loc := l } }) :
    OneFile.Inv N { s with ctx := { s.ctx with info := makeWritable k s.ctx.info, loc := l } } := by
  set x := makeWritable k s.ctx.info with hx
  have hk : x.Writing k := by simp [SingleFileInfo.Writing, hx, makeWritable]
  have hone : ∀ k', x.Writing k' → k = k' := by
    intro k' hk'
    by_contra hne
    apply hno k'
    simpa [SingleFileInfo.Writing, hx, makeWritable, SingleFileInfo.buf_setBuf, Ne.symm hne]
      using hk'
  have hnil : (x.buf k).bytes = [] := by simp [hx, makeWritable]
  refine ⟨fun k₁ k₂ h₁ h₂ => (hone k₁ h₁).symm.trans (hone k₂ h₂), fun k' => ?_, ?_, h.full, hplace⟩
  · show (x.buf k').bytes.length ≤ _
    rcases eq_or_ne k' k with rfl | hne
    · rw [hnil]
      exact Nat.zero_le _
    · rw [hx, makeWritable, SingleFileInfo.buf_setBuf, if_neg hne]
      exact h.size k'
  · show _ ++ x.writable = s.handed.take s.ctx.info.stored
    rw [writable_of_writing hk hone, hnil, ← h.content, writable_of_not hno]

/-- A step of `write_buf` keeps the invariant. -/
theorem writeStep (h : s.Inv N) : (s.step N .step).Inv N := by
  cases hpc : s.ctx.loc.pc with
  | mark k more => exact h.mark hpc
  | idle =>
    have hs : s.step N .step = s := by
      simp only [OneFile.step, writeBufStep, FileCtx.marks, hpc, List.append_nil]
    rw [hs]
    exact h
  | head =>
    have hplace := h.place
    simp only [Place, hpc] at hplace
    simp only [OneFile.step, writeBufStep, FileCtx.marks, hpc, List.append_nil]
    split_ifs with h0 h1
    · exact h.storeInto hpc h0
    · exact h.storeInto hpc h1
    · refine h.keep (fun _ => Iff.rfl) (fun _ => rfl) rfl ?_
      exact ⟨⟨hplace.1.length, hplace.1.drop, hplace.1.le, hplace.1.cpSize⟩, hplace.2⟩
  | load k more =>
    have hplace := h.place
    simp only [OneFile.step, writeBufStep, FileCtx.marks, hpc, List.append_nil]
    refine h.keep (fun _ => Iff.rfl) (fun _ => rfl) rfl ?_
    cases more <;> simp only [Place, hpc] at hplace ⊢
    · exact hplace
    · exact ⟨hplace.1, hplace.2.length, hplace.2.drop, hplace.2.le, hplace.2.cpSize⟩
  | store k more v =>
    have hplace := h.place
    simp only [OneFile.step, writeBufStep, FileCtx.marks, hpc, List.append_nil]
    refine h.keep (fun _ => Iff.rfl) (fun _ => rfl) rfl ?_
    cases more <;> simp only [Place, hpc] at hplace ⊢
    · exact hplace.2
    · exact ⟨⟨hplace.2.length, hplace.2.drop, hplace.2.le, hplace.2.cpSize⟩, by simp,
        fun _ k' hk' => absurd hk' (hplace.1 k')⟩
  | tail0 | tail1 =>
    have hplace := h.place
    simp only [Place, hpc] at hplace
    obtain ⟨hwith, hcp, hempty⟩ := hplace
    simp only [OneFile.step, writeBufStep, FileCtx.marks, hpc, List.append_nil]
    split_ifs with hc
    · have hno : ∀ k, ¬ s.ctx.info.Writing k := by
        intro k hk
        have hflag : (s.ctx.info.buf k).flag = .writing := hk
        obtain rfl | rfl : k = 0 ∨ k = 1 := by omega
        · simp [hflag] at hc
        · simp [hflag] at hc
      refine h.ready hno ⟨⟨hwith.length, hwith.drop, hwith.le, hwith.cpSize⟩, hcp, ?_⟩
      intro _ k' hk'
      simp only [makeWritable, SingleFileInfo.Writing, SingleFileInfo.buf_setBuf] at hk' ⊢
      split_ifs at hk' ⊢ with hkk
      · rfl
      · exact absurd hk' (hno k')
    · refine h.keep (fun _ => Iff.rfl) (fun _ => rfl) rfl ?_
      exact ⟨⟨hwith.length, hwith.drop, hwith.le, hwith.cpSize⟩, hcp, hempty⟩

/-- Every step keeps the invariant, as long as no piece is longer than a buffer. -/
theorem step (h : s.Inv N) {a : FileAct} (ha : ∀ p, a = .call p → p.length ≤ readBufSize) :
    (s.step N a).Inv N := by
  cases a with
  | call p => exact h.call (ha p rfl)
  | step => exact h.writeStep
  | release k => exact h.release k

end Inv

/-! ### Runs -/

/-- The start: buffer `0` is writable, nothing was handed over. -/
def init : OneFile := ⟨⟨Stream.readyFile, fun _ => 0, ⟨.idle, [], false⟩⟩, [], []⟩

theorem inv_init (N : ℤ) : init.Inv N := by
  have hw : ∀ k, init.ctx.info.Writing k → k = 0 := by
    intro k hk
    by_contra hne
    obtain rfl : k = 1 := by omega
    cases hk
  refine ⟨fun k k' hk hk' => (hw k hk).trans (hw k' hk').symm, fun k => ?_, rfl,
    fun m hm => absurd hm List.not_mem_nil, ⟨rfl, rfl⟩⟩
  obtain rfl | rfl : k = 0 ∨ k = 1 := by omega
  · exact Nat.zero_le _
  · exact Nat.zero_le _

/-- What a run keeps of the bytes of the file. -/
structure ByteStream (N : ℤ) (s : OneFile) : Prop where
  /-- at most one buffer is being written -/
  one : ∀ k k', (s.ctx.info.buf k).flag = .writing → (s.ctx.info.buf k').flag = .writing → k = k'
  size : ∀ k, (s.ctx.info.buf k).bufSize ≤ readBufSize
  /-- the buffers in the order in which they were marked full, and then the one being written, are the
  bytes stored so far -/
  content : (s.marked.map Marked.bytes).flatten ++ s.ctx.info.writable =
    s.handed.take s.ctx.info.stored
  stored : s.ctx.info.stored ≤ s.handed.length
  /-- a buffer marked before the end of the file was full to its last byte -/
  full : ∀ m ∈ s.marked, (m.fileIndex : ℤ) < N → m.bytes.length = readBufSize
  /-- after a call everything handed over is stored and accounted for -/
  returned : s.ctx.loc.pc = .idle →
    s.ctx.info.fileIndex = s.handed.length ∧ s.ctx.info.stored = s.handed.length

theorem Inv.stored_le (h : s.Inv N) : s.ctx.info.stored ≤ s.handed.length := by
  have hin : s.Within → s.ctx.info.stored ≤ s.handed.length := by
    intro hw
    have h1 := hw.length
    have h2 := hw.cpSize
    rw [SingleFileInfo.stored]
    omega
  have hout : s.ctx.info.inBufInfo.cpSize = 0 → s.ctx.info.fileIndex = s.handed.length →
      s.ctx.info.stored ≤ s.handed.length := by
    intro h1 h2
    rw [SingleFileInfo.stored, h1, h2, Nat.add_zero]
  have hplace := h.place
  cases hpc : s.ctx.loc.pc with
  | idle =>
    simp only [Place, hpc] at hplace
    exact hout hplace.1 hplace.2
  | head | tail0 | tail1 =>
    simp only [Place, hpc] at hplace
    exact hin hplace.1
  | mark k more =>
    cases more <;> simp only [Place, hpc] at hplace
    · exact hout hplace.2.1 hplace.2.2.1
    · exact hin hplace.2.1
  | load k more | store k more v =>
    cases more <;> simp only [Place, hpc] at hplace
    · exact hout hplace.2.1 hplace.2.2
    · exact hin hplace.2

theorem Inv.byteStream (h : s.Inv N) : s.ByteStream N := by
  refine ⟨h.one, h.size, h.content, h.stored_le, h.full, fun hpc => ?_⟩
  have hplace := h.place
  simp only [Place, hpc] at hplace
  exact ⟨hplace.2, by rw [SingleFileInfo.stored, hplace.1, hplace.2, Nat.add_zero]⟩

end OneFile

/-- `write_buf` preserves the byte stream of each file: for all pieces of `1..READ_BUF_SIZE` bytes and
whenever the consumer frees the full buffers. -/
theorem byteStream_of_reach {N : ℤ} {s : OneFile}
    (h : Reach (OneFile.step N) OneFile.Sized .init s) : s.ByteStream N := by
  refine (h.invariant (I := OneFile.Inv N) (OneFile.inv_init N) fun t a ht ha => ?_).byteStream
  refine ht.step fun p hp => ?_
  subst hp
  exact ha.2

/-- Two bytes are handed over as two pieces, and the buffer is marked at the end of the file. -/
theorem byteStream_of_reach_two :
    ((run (OneFile.step 2) .init [.call [7], .step, .call [8], .step, .step]).marked.map
      Marked.bytes).flatten = [7, 8] ∧
    (run (OneFile.step 2) .init [.call [7], .step, .call [8], .step, .step]).ByteStream 2 :=
  ⟨by decide, byteStream_of_reach (Allowed.reach (by decide))⟩

end ORaidServer
