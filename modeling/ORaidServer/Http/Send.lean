import ORaidServer.Basic

/-!
# The send loops

`write_buf` of `send_feedback_info.cpp` and `write_buf_data_server` of `get_data_client_file_data.cpp`, two
copies of one loop: the first carries the answer to the client, the second the acknowledgement that the data
server waits for.

* `SendState`, `sendBody` and `sendLoop`, the loop with its variables and its return value;
* `SendState.Kept`, which keeps the pointer, the count of bytes left and the bytes taken in step;
* `writeBuf_isPrefix`: what was taken is the start of the buffer;
* `delivers_iff_not_givesUp`: `0` stands for a complete delivery unless the loop breaks off on `EAGAIN`.
-/

namespace ORaidServer.Send

/-- `EINTR` -/
def eintr : ℤ := 4

/-- `EAGAIN` -/
def eagain : ℤ := 11

/-- `WRITE_EXEC_ERROR` -/
def writeExecError : ℤ := 0x9006

/-- What a call of `write` returns, and `errno` after it; one that takes all the bytes offered may return more. -/
structure WriteCall where
  ret : ℤ
  errno : ℤ
  deriving DecidableEq, Repr

/-- The variables of the loop, and what `write` has taken. -/
structure SendState where
  ptr : ℕ
  bytesLeft : ℤ
  accepted : List Byte
  deriving DecidableEq, Repr

/-- The state when the loop is entered. -/
def SendState.init (buffer : List Byte) : SendState := ⟨0, buffer.length, []⟩

/-- The body of `while (bytes_left > 0)`: the state after it, or the return value. -/
def sendBody (buffer : List Byte) (c : WriteCall) (s : SendState) : SendState ⊕ ℤ :=
  let writtenBytes := min c.ret s.bytesLeft
  if writtenBytes ≤ 0 then
    -- after an interruption `written_bytes` is set to zero
    if c.errno = eintr then .inl s
    else if c.errno = eagain then .inr 0
    else .inr (-writeExecError)
  else
    .inl ⟨s.ptr + writtenBytes.toNat, s.bytesLeft - writtenBytes,
      s.accepted ++ (buffer.drop s.ptr).take writtenBytes.toNat⟩

/-- The loop, with the calls of `write` to come: the return value and what was taken.  `none` where the
calls listed do not end it. -/
def sendLoop (buffer : List Byte) : List WriteCall → SendState → Option (ℤ × List Byte)
  | [], s => if 0 < s.bytesLeft then none else some (0, s.accepted)
  | c :: calls, s =>
    if 0 < s.bytesLeft then
      match sendBody buffer c s with
      | .inl t => sendLoop buffer calls t
      | .inr ret => some (ret, s.accepted)
    else some (0, s.accepted)

/-- `write_buf(fd, buffer, length)` -/
def writeBuf (calls : List WriteCall) (buffer : List Byte) : Option (ℤ × List Byte) :=
  sendLoop buffer calls (.init buffer)

/-- `write_buf_data_server(fd, buffer, length)` -/
def writeBufDataServer (calls : List WriteCall) (buffer : List Byte) : Option (ℤ × List Byte) :=
  sendLoop buffer calls (.init buffer)

/-- With these calls, `0` is returned only after the whole buffer was taken. -/
def Delivers (send : List WriteCall → List Byte → Option (ℤ × List Byte)) (calls : List WriteCall)
    (buffer : List Byte) : Prop :=
  ∀ accepted, send calls buffer = some (0, accepted) → accepted = buffer

/-- The calls that come before are interrupted or take fewer than `n` bytes together, and then one fails with
`EAGAIN`, or takes nothing while `errno` still has that value. -/
def GivesUp (n : ℤ) (calls : List WriteCall) : Prop :=
  ∃ before c after, calls = before ++ c :: after ∧ (∀ d ∈ before, d.ret ≤ 0 → d.errno = eintr) ∧
    (before.map fun d => max d.ret 0).sum < n ∧ c.ret ≤ 0 ∧ c.errno = eagain

/-! ### The loop -/

section Loop

variable {buffer : List Byte} {calls : List WriteCall} {c : WriteCall} {s t : SendState}

/-- What was taken ends where the pointer stands, and the rest is left. -/
structure SendState.Kept (buffer : List Byte) (s : SendState) : Prop where
  left : s.ptr + s.bytesLeft = buffer.length
  nonneg : 0 ≤ s.bytesLeft
  accepted : s.accepted = buffer.take s.ptr

theorem SendState.kept_init (buffer : List Byte) : (SendState.init buffer).Kept buffer where
  left := zero_add _
  nonneg := Int.natCast_nonneg _
  accepted := rfl

theorem sendBody_of_nonpos (hret : c.ret ≤ 0) : sendBody buffer c s =
    if c.errno = eintr then .inl s else if c.errno = eagain then .inr 0 else .inr (-writeExecError) :=
  if_pos (min_le_of_left_le hret)

/-- How the body can end. -/
theorem sendBody_cases (buffer : List Byte) (c : WriteCall) (hs : 0 < s.bytesLeft) :
    (c.ret ≤ 0 ∧ c.errno = eintr ∧ sendBody buffer c s = .inl s) ∨
      (c.ret ≤ 0 ∧ c.errno = eagain ∧ sendBody buffer c s = .inr 0) ∨
      (c.ret ≤ 0 ∧ c.errno ≠ eintr ∧ c.errno ≠ eagain ∧
        sendBody buffer c s = .inr (-writeExecError)) ∨
      (0 < c.ret ∧ ∃ t, sendBody buffer c s = .inl t ∧
        t.bytesLeft = s.bytesLeft - min c.ret s.bytesLeft) := by
  by_cases hret : c.ret ≤ 0
  · rw [sendBody_of_nonpos hret]
    by_cases hintr : c.errno = eintr
    · exact Or.inl ⟨hret, hintr, if_pos hintr⟩
    · rw [if_neg hintr]
      by_cases hagain : c.errno = eagain
      · exact Or.inr (Or.inl ⟨hret, hagain, if_pos hagain⟩)
      · exact Or.inr (Or.inr (Or.inl ⟨hret, hintr, hagain, if_neg hagain⟩))
  · have hmin : ¬ min c.ret s.bytesLeft ≤ 0 := by omega
    exact Or.inr (Or.inr (Or.inr ⟨not_le.1 hret, _, if_neg hmin, rfl⟩))

/-- An iteration keeps the pointer and the counts in step. -/
theorem SendState.Kept.sendBody (h : s.Kept buffer) (hbody : Send.sendBody buffer c s = .inl t) :
    t.Kept buffer := by
  obtain ⟨hleft, hnonneg, haccepted⟩ := h
  unfold Send.sendBody at hbody
  dsimp only at hbody
  split_ifs at hbody with hmin hintr
  · cases hbody
    exact ⟨hleft, hnonneg, haccepted⟩
  · cases hbody
    constructor
    · push_cast
      omega
    · show 0 ≤ s.bytesLeft - min c.ret s.bytesLeft
      omega
    · show s.accepted ++ _ = _
      rw [haccepted, ← List.take_add]

/-- A loop that gives up has bytes left. -/
theorem GivesUp.pos {n : ℤ} (h : GivesUp n calls) : 0 < n := by
  obtain ⟨before, c, after, -, -, hsum, -⟩ := h
  have hnonneg : ∀ l : List WriteCall, 0 ≤ (l.map fun d => max d.ret 0).sum := by
    intro l
    induction l with
    | nil => exact le_rfl
    | cons d l ih =>
      rw [List.map_cons, List.sum_cons]
      omega
  exact (hnonneg before).trans_lt hsum

theorem not_givesUp_nil (n : ℤ) : ¬ GivesUp n [] := by
  rintro ⟨before, c, after, hcalls, -⟩
  simp at hcalls

theorem givesUp_cons {n : ℤ} (hn : 0 < n) : GivesUp n (c :: calls) ↔
    (c.ret ≤ 0 ∧ c.errno = eagain) ∨
      (c.ret ≤ 0 → c.errno = eintr) ∧ GivesUp (n - max c.ret 0) calls := by
  constructor
  · rintro ⟨before, d, after, hcalls, hbefore, hsum, hret, herrno⟩
    cases before with
    | nil =>
      obtain ⟨rfl, -⟩ := List.cons.inj hcalls
      exact Or.inl ⟨hret, herrno⟩
    | cons e before =>
      obtain ⟨rfl, rfl⟩ := List.cons.inj hcalls
      rw [List.map_cons, List.sum_cons] at hsum
      refine Or.inr ⟨hbefore c (by simp), before, d, after, rfl, ?_, by omega, hret, herrno⟩
      exact fun e he => hbefore e (by simp [he])
  · rintro (⟨hret, herrno⟩ | ⟨hc, before, d, after, rfl, hbefore, hsum, hret, herrno⟩)
    · exact ⟨[], c, calls, rfl, by simp, by simpa using hn, hret, herrno⟩
    · refine ⟨c :: before, d, after, rfl, List.forall_mem_cons.2 ⟨hc, hbefore⟩, ?_, hret, herrno⟩
      rw [List.map_cons, List.sum_cons]
      omega

/-- The loop takes the first call if there are bytes left. -/
theorem sendLoop_cons (hs : 0 < s.bytesLeft) : sendLoop buffer (c :: calls) s =
    match sendBody buffer c s with
    | .inl t => sendLoop buffer calls t
    | .inr ret => some (ret, s.accepted) := by
  rw [sendLoop, if_pos hs]

theorem sendLoop_done (hs : ¬ 0 < s.bytesLeft) : sendLoop buffer calls s = some (0, s.accepted) := by
  cases calls <;> rw [sendLoop, if_neg hs]

/-- Wherever the loop is left, what was taken is the start of the buffer. -/
theorem SendState.Kept.isPrefix (h : s.Kept buffer) {ret : ℤ} {accepted : List Byte}
    (hrun : sendLoop buffer calls s = some (ret, accepted)) : accepted <+: buffer := by
  have hstop : ∀ {s : SendState}, s.Kept buffer → s.accepted <+: buffer := by
    intro s h
    rw [h.accepted]
    exact List.take_prefix _ _
  induction calls generalizing s with
  | nil =>
    rw [sendLoop] at hrun
    split_ifs at hrun
    cases hrun
    exact hstop h
  | cons c calls ih =>
    by_cases hs : 0 < s.bytesLeft
    · rw [sendLoop_cons hs] at hrun
      cases hbody : Send.sendBody buffer c s with
      | inl t =>
        rw [hbody] at hrun
        exact ih (h.sendBody hbody) hrun
      | inr r =>
        rw [hbody] at hrun
        cases hrun
        exact hstop h
    · rw [sendLoop_done hs] at hrun
      cases hrun
      exact hstop h

/-- Where no bytes are left, everything was delivered. -/
theorem SendState.Kept.delivers_of_done (h : s.Kept buffer) (hs : ¬ 0 < s.bytesLeft) :
    (∀ accepted, sendLoop buffer calls s = some (0, accepted) → accepted = buffer) ↔
      ¬ GivesUp s.bytesLeft calls := by
  have hleft := h.left
  have hnonneg := h.nonneg
  refine iff_of_true (fun accepted hrun => ?_) fun hgive => hs hgive.pos
  rw [sendLoop_done hs] at hrun
  cases hrun
  rw [h.accepted, List.take_of_length_le (by omega)]

/-- From any state of the loop, `0` stands for a complete delivery unless the loop gives up. -/
theorem SendState.Kept.delivers_iff (h : s.Kept buffer) :
    (∀ accepted, sendLoop buffer calls s = some (0, accepted) → accepted = buffer) ↔
      ¬ GivesUp s.bytesLeft calls := by
  -- by induction on the calls; what was taken before is in the invariant
  induction calls generalizing s with
  | nil =>
    by_cases hs : 0 < s.bytesLeft
    · refine iff_of_true (fun accepted hrun => ?_) (not_givesUp_nil _)
      rw [sendLoop, if_pos hs] at hrun
      cases hrun
    · exact h.delivers_of_done hs
  | cons c calls ih =>
    by_cases hs : 0 < s.bytesLeft
    · rw [sendLoop_cons hs, givesUp_cons hs]
      rcases sendBody_cases buffer c hs with ⟨hret, herrno, hbody⟩ | ⟨hret, herrno, hbody⟩ |
        ⟨hret, hintr, hagain, hbody⟩ | ⟨hret, t, hbody, ht⟩
      · -- interrupted: nothing has changed
        have hne : c.errno ≠ eagain := by
          rw [herrno]
          decide
        have hmax : s.bytesLeft - max c.ret 0 = s.bytesLeft := by omega
        rw [hbody, hmax, or_iff_right fun hc => hne hc.2, and_iff_right fun _ => herrno]
        exact ih h
      · -- the exit on `EAGAIN`
        rw [hbody]
        refine iff_of_false (fun hall => ?_) (not_not.2 (Or.inl ⟨hret, herrno⟩))
        have hlen := congrArg List.length (hall s.accepted rfl)
        have hleft := h.left
        rw [h.accepted, List.length_take] at hlen
        omega
      · rw [hbody]
        refine iff_of_true (fun accepted hrun => ?_) ?_
        · exact absurd (Prod.mk.inj (Option.some.inj hrun)).1 (by decide)
        · rintro (⟨-, hc⟩ | ⟨hc, -⟩)
          · exact hagain hc
          · exact hintr (hc hret)
      · -- a call that takes more than is left ends the loop as one that takes all of it
        have hkept := h.sendBody hbody
        have hgive : GivesUp (s.bytesLeft - max c.ret 0) calls ↔ GivesUp t.bytesLeft calls := by
          by_cases hmore : s.bytesLeft < c.ret
          · refine iff_of_false (fun hg => ?_) fun hg => ?_
            · have := hg.pos
              omega
            · have := hg.pos
              omega
          · have heq : s.bytesLeft - max c.ret 0 = t.bytesLeft := by omega
            rw [heq]
        rw [hbody, or_iff_right fun hc => absurd hc.1 (not_le.2 hret),
          and_iff_right fun hc => absurd hc (not_le.2 hret), hgive]
        exact ih hkept
    · exact h.delivers_of_done hs

end Loop

/-- What `write` has taken from `write_buf` is the start of the buffer. -/
theorem writeBuf_isPrefix {calls : List WriteCall} {buffer accepted : List Byte} {ret : ℤ}
    (h : writeBuf calls buffer = some (ret, accepted)) : accepted <+: buffer :=
  (SendState.kept_init buffer).isPrefix h

/-- **Success of the send loops** means complete delivery if and only if they do not give up. -/
theorem delivers_iff_not_givesUp (calls : List WriteCall) (buffer : List Byte) :
    (Delivers writeBuf calls buffer ↔ ¬ GivesUp buffer.length calls) ∧
      (Delivers writeBufDataServer calls buffer ↔ ¬ GivesUp buffer.length calls) :=
  ⟨(SendState.kept_init buffer).delivers_iff, (SendState.kept_init buffer).delivers_iff⟩

/-- A full socket buffer after the first of two bytes. -/
theorem not_delivers : ¬ ∀ calls buffer, Delivers writeBuf calls buffer ∧
    Delivers writeBufDataServer calls buffer := by
  intro hall
  have hdelivers := (hall [⟨1, 0⟩, ⟨-1, eagain⟩] [65, 66]).1 [65] (by decide)
  exact absurd hdelivers (by decide)

end ORaidServer.Send
