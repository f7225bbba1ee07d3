import ORaidServer.Basic
import ORaidServer.Lib.CString
import ORaidServer.Lib.Loop

/-!
# Reading a request

`get_input_http_info` of `common.cpp`, which takes the text of a request apart.

* `inputStep`, one iteration of its loop, and `getInputHttpInfo`;
* `scan_line` and `scan_end`, the two ways on from the start of a piece: it is cut off at a carriage
  return, or the text ends in it;
* `cut_getInputHttpInfo`: what the strings never contain, the content above all no carriage return.
-/

namespace ORaidServer

open CString Loop

/-- The strings in the four arrays that the caller passes, which are zero-filled before. -/
structure HttpInfo where
  content : List Byte
  method : List Byte
  header : List Byte
  contentType : List Byte
  deriving DecidableEq, Repr

/-- All arrays zero-filled. -/
def HttpInfo.empty : HttpInfo := ⟨[], [], [], []⟩

/-- A difference of lengths as the `size_t` it is computed in. -/
def sizeT (x : ℤ) : ℕ := (x % 2 ^ 64).toNat

/-- What is done with the first piece `buf`: `buf1` is its last space, `buf2` its first. -/
def requestLine (buf : List Byte) (info : HttpInfo) : Option HttpInfo :=
  match strrchr sp buf, strchr sp buf with
  | some buf1, none =>
    if buf1.length > 1 then (strcpy 256 (buf1.drop 1)).map fun m => { info with method := m }
    else some info
  | some buf1, some buf2 =>
    (if buf1.length > 1 then strcpy 256 (buf1.drop 1) else some info.header).bind fun header =>
      (strncpy 256 (buf2.drop 2) (sizeT (buf2.length - buf1.length - 2))).map fun method =>
        { info with header := header, method := method }
  | none, _ => some info

/-- The test by which another piece is taken for a `Content-Type` line. -/
def IsContentType (buf : List Byte) : Prop :=
  buf.length > 14 ∧ strncmp buf (lit "Content-Type:") 13 = true

instance : DecidablePred IsContentType := fun _ => inferInstanceAs (Decidable (_ ∧ _))

/-- What is done with another piece. -/
def headerLine (buf : List Byte) (info : HttpInfo) : Option HttpInfo :=
  if IsContentType buf then
    (strcpy 256 (buf.drop 14)).map fun t => { info with contentType := t }
  else some info

/-- The variables of the loop. -/
structure InputScan where
  i : ℕ
  j : ℕ
  info : HttpInfo

/-- The body of the loop at a carriage return, up to the advance. -/
def onPiece (buffer : List Byte) (s : InputScan) : Option HttpInfo := do
  let buf ← strncpy 1024 (buffer.drop s.j) (s.i - s.j)
  if s.j = 0 then requestLine buf s.info else headerLine buf s.info

/-- One iteration.  It ends with `none` where memory outside an array is accessed. -/
def inputStep (buffer : List Byte) (s : InputScan) : InputScan ⊕ Option HttpInfo :=
  match buffer[s.i]? with
  | none => .inr none
  | some b =>
    if b = 0 then
      .inr ((strncpy 1024 (buffer.drop s.j) (s.i - s.j)).map fun c => { s.info with content := c })
    else if b ≠ cr then .inl { s with i := s.i + 1 }
    else
      match onPiece buffer s with
      | none => .inr none
      | some info => .inl ⟨s.i + 2, s.i + 2, info⟩

/-- `get_input_http_info(buffer, content, method, header, content_type)` -/
def getInputHttpInfo (buffer : List Byte) : Option HttpInfo :=
  (run (inputStep buffer) (buffer.length + 2) ⟨0, 0, .empty⟩).join

/-! ### The loop -/

variable {buffer : List Byte}

theorem inputStep_next {s t : InputScan} (h : inputStep buffer s = .inl t) :
    s.i < buffer.length ∧ s.i < t.i := by
  unfold inputStep at h
  cases hb : buffer[s.i]? with
  | none => simp [hb] at h
  | some b =>
    have hi : s.i < buffer.length := (List.getElem?_eq_some_iff.1 hb).1
    simp only [hb] at h
    refine ⟨hi, ?_⟩
    split_ifs at h
    · cases h
      exact Nat.lt_succ_self _
    · cases hon : onPiece buffer s with
      | none => simp [hon] at h
      | some info =>
        simp only [hon, Sum.inl.injEq] at h
        subst h
        dsimp only
        omega

/-- The loop ends, and within the fuel that `getInputHttpInfo` gives it. -/
theorem returns_getInputHttpInfo (buffer : List Byte) :
    Returns (inputStep buffer) ⟨0, 0, .empty⟩ (getInputHttpInfo buffer) := by
  have hm : ∀ s t : InputScan, inputStep buffer s = .inl t →
      buffer.length + 1 - t.i < buffer.length + 1 - s.i := by
    intro s t h
    have := inputStep_next h
    omega
  obtain ⟨r, hr⟩ : ∃ r, run (inputStep buffer) (buffer.length + 2) ⟨0, 0, .empty⟩ = some r :=
    run_of_measure (fun s : InputScan => buffer.length + 1 - s.i) hm (Nat.lt_succ_self _)
  refine ⟨buffer.length + 2, ?_⟩
  rw [getInputHttpInfo, hr]
  rfl

theorem getInputHttpInfo_eq {r : Option HttpInfo}
    (h : Returns (inputStep buffer) ⟨0, 0, .empty⟩ r) : getInputHttpInfo buffer = r :=
  (returns_getInputHttpInfo buffer).unique h

/-- Bytes before the next carriage return or NUL are passed over. -/
theorem scan_piece {r : Option HttpInfo} {j : ℕ} {info : HttpInfo} {pre piece rest : List Byte}
    (hb : buffer = pre ++ piece ++ rest) (h0 : 0 ∉ piece)
    (hcr : cr ∉ piece) :
    Returns (inputStep buffer) ⟨pre.length, j, info⟩ r ↔
      Returns (inputStep buffer) ⟨pre.length + piece.length, j, info⟩ r := by
  induction piece generalizing pre with
  | nil => rfl
  | cons b piece ih =>
    have hget : buffer[pre.length]? = some b := by simp [hb]
    have hne0 : b ≠ 0 := fun h => h0 (by simp [h])
    have hnecr : b ≠ cr := fun h => hcr (by simp [h])
    have hstep : inputStep buffer ⟨pre.length, j, info⟩ = .inl ⟨pre.length + 1, j, info⟩ := by
      simp only [inputStep, hget, if_neg hne0, if_pos hnecr]
    have hb' : buffer = (pre ++ [b]) ++ piece ++ rest := by simp [hb]
    have hih := ih hb' (fun h => h0 (List.mem_cons_of_mem _ h))
      (fun h => hcr (List.mem_cons_of_mem _ h))
    rw [List.length_append, List.length_singleton] at hih
    rw [returns_of_next hstep, hih, List.length_cons, Nat.add_right_comm, Nat.add_assoc]

section Pieces

variable {r : Option HttpInfo} {pre piece rest : List Byte} (h0 : 0 ∉ piece)
  (hlen : piece.length < 1024) (hcr : cr ∉ piece)
include h0 hlen

/-- The copy that is made of a piece. -/
theorem strncpy_piece (x : List Byte) (hb : buffer = pre ++ piece ++ x) :
    strncpy 1024 (buffer.drop pre.length) (pre.length + piece.length - pre.length) = some piece := by
  rw [hb, List.append_assoc, List.drop_left, Nat.add_sub_cancel_left]
  exact strncpy_append _ h0 hlen

include hcr

/-- A piece that a carriage return ends. -/
theorem scan_line (info : HttpInfo) {info' : HttpInfo} {x : Byte} (hb : buffer = pre ++ piece ++ cr :: x :: rest)
    (hinfo : (if pre.length = 0 then requestLine piece info else headerLine piece info) =
      some info') :
    Returns (inputStep buffer) ⟨pre.length, pre.length, info⟩ r ↔
      Returns (inputStep buffer)
        ⟨(pre ++ piece ++ [cr, x]).length, (pre ++ piece ++ [cr, x]).length, info'⟩ r := by
  have hget : buffer[pre.length + piece.length]? = some cr := by
    rw [hb, ← List.length_append, List.getElem?_append_right le_rfl, Nat.sub_self]
    rfl
  have hon : onPiece buffer ⟨pre.length + piece.length, pre.length, info⟩ = some info' := by
    simp only [onPiece, strncpy_piece h0 hlen _ hb]
    exact hinfo
  have hstep : inputStep buffer ⟨pre.length + piece.length, pre.length, info⟩ =
      .inl ⟨pre.length + piece.length + 2, pre.length + piece.length + 2, info'⟩ := by
    simp only [inputStep, hget, if_neg (by decide : ¬ cr = 0), hon, ne_eq, not_true, if_false]
  have hend : (pre ++ piece ++ [cr, x]).length = pre.length + piece.length + 2 := by
    rw [List.length_append, List.length_append]
    rfl
  rw [scan_piece hb h0 hcr, returns_of_next hstep, hend]

/-- A piece that the end of the text ends is the content. -/
theorem scan_end (info : HttpInfo) (hb : buffer = pre ++ piece ++ 0 :: rest) :
    Returns (inputStep buffer) ⟨pre.length, pre.length, info⟩ r ↔
      some { info with content := piece } = r := by
  have hget : buffer[pre.length + piece.length]? = some 0 := by
    rw [hb, ← List.length_append, List.getElem?_append_right le_rfl, Nat.sub_self]
    rfl
  have hstep : inputStep buffer ⟨pre.length + piece.length, pre.length, info⟩ =
      .inr (some { info with content := piece }) := by
    simp only [inputStep, hget, if_true, strncpy_piece h0 hlen _ hb, Option.map_some]
  rw [scan_piece hb h0 hcr, returns_of_ret hstep]

end Pieces

/-! ### What is never read -/

/-- What can be said of the strings whatever the request: pieces are cut off at carriage returns, and the
header is what follows the last space of its piece. -/
structure HttpInfo.Cut (info : HttpInfo) : Prop where
  content : cr ∉ info.content
  header : sp ∉ info.header
  contentType : cr ∉ info.contentType

/-- There is no carriage return in the piece that is being read. -/
def InputScan.Open (buffer : List Byte) (s : InputScan) : Prop :=
  ∀ k, s.j ≤ k → k < s.i → buffer[k]? ≠ some cr

theorem InputScan.Open.cr_notMem {s : InputScan} (h : s.Open buffer) {size : ℕ} {piece : List Byte}
    (hp : strncpy size (buffer.drop s.j) (s.i - s.j) = some piece) : cr ∉ piece := by
  intro hmem
  obtain ⟨k, hk⟩ := List.mem_iff_getElem?.1 (mem_of_strncpy hp hmem)
  rw [List.getElem?_take] at hk
  split_ifs at hk with hlt
  rw [List.getElem?_drop] at hk
  exact h (s.j + k) (Nat.le_add_right _ _) (by omega) hk

theorem HttpInfo.Cut.requestLine {info info' : HttpInfo} {buf : List Byte} (h : info.Cut)
    (hr : ORaidServer.requestLine buf info = some info') : info'.Cut := by
  unfold ORaidServer.requestLine at hr
  cases hlast : strrchr sp buf with
  | none =>
    simp only [hlast, Option.some.injEq] at hr
    exact hr ▸ h
  | some buf1 =>
    obtain ⟨u, rfl, hu⟩ := eq_cons_of_strrchr hlast
    cases hfirst : strchr sp buf with
    | none =>
      simp only [hlast, hfirst] at hr
      split_ifs at hr
      · obtain ⟨m, -, rfl⟩ := Option.map_eq_some_iff.1 hr
        exact ⟨h.content, h.header, h.contentType⟩
      · exact Option.some.inj hr ▸ h
    | some buf2 =>
      simp only [hlast, hfirst, Option.bind_eq_some_iff, Option.map_eq_some_iff] at hr
      obtain ⟨header, hheader, method, -, rfl⟩ := hr
      refine ⟨h.content, ?_, h.contentType⟩
      split_ifs at hheader
      · exact eq_of_strcpy hheader ▸ hu
      · exact Option.some.inj hheader ▸ h.header

theorem HttpInfo.Cut.headerLine {info info' : HttpInfo} {buf : List Byte} (h : info.Cut)
    (hbuf : cr ∉ buf) (hr : ORaidServer.headerLine buf info = some info') : info'.Cut := by
  unfold ORaidServer.headerLine at hr
  split_ifs at hr
  · obtain ⟨t, ht, rfl⟩ := Option.map_eq_some_iff.1 hr
    refine ⟨h.content, h.header, ?_⟩
    rw [eq_of_strcpy ht]
    exact fun hmem => hbuf (List.mem_of_mem_drop hmem)
  · exact Option.some.inj hr ▸ h

/-- An iteration that comes back to the top keeps the pieces cut. -/
theorem cut_inputStep {s t : InputScan} (ho : s.Open buffer) (hc : s.info.Cut)
    (h : inputStep buffer s = .inl t) : t.Open buffer ∧ t.info.Cut := by
  unfold inputStep at h
  cases hb : buffer[s.i]? with
  | none => simp [hb] at h
  | some b =>
    simp only [hb] at h
    split_ifs at h with h0 hcr
    · cases h
      refine ⟨fun k hjk hki => ?_, hc⟩
      rcases Nat.lt_succ_iff_lt_or_eq.1 hki with hlt | rfl
      · exact ho k hjk hlt
      · rw [hb]
        exact fun heq => hcr (Option.some.inj heq)
    · cases hon : onPiece buffer s with
      | none => simp [hon] at h
      | some info =>
        simp only [hon, Sum.inl.injEq] at h
        subst h
        refine ⟨fun k hjk hki => absurd hki (Nat.not_lt.2 hjk), ?_⟩
        obtain ⟨buf, hbuf, hinfo⟩ := Option.bind_eq_some_iff.1 hon
        split_ifs at hinfo
        · exact hc.requestLine hinfo
        · exact hc.headerLine (ho.cr_notMem hbuf) hinfo

/-- Whatever follows the last carriage return and the byte after it is taken for the content. -/
theorem cut_getInputHttpInfo {info : HttpInfo} (h : getInputHttpInfo buffer = some info) :
    info.Cut := by
  have hr := returns_getInputHttpInfo buffer
  rw [h] at hr
  refine hr.induct (I := fun s => s.Open buffer ∧ s.info.Cut)
    (Q := fun r => ∀ info, r = some info → info.Cut) ?_ ?_ ?_ info rfl
  · exact fun s t hs hst => cut_inputStep hs.1 hs.2 hst
  · rintro s _ ⟨ho, hc⟩ hst info rfl
    unfold inputStep at hst
    cases hb : buffer[s.i]? with
    | none => simp [hb] at hst
    | some b =>
      simp only [hb] at hst
      split_ifs at hst with h0 hcr
      · simp only [Sum.inr.injEq, Option.map_eq_some_iff] at hst
        obtain ⟨content, hcontent, rfl⟩ := hst
        exact ⟨ho.cr_notMem hcontent, hc.header, hc.contentType⟩
      · cases hon : onPiece buffer s with
        | none => simp [hon] at hst
        | some info' => simp [hon] at hst
  · refine ⟨fun k _ hk => absurd hk (Nat.not_lt_zero k), ?_⟩
    constructor <;> exact List.not_mem_nil

end ORaidServer
