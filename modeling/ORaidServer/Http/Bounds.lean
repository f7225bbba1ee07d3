import ORaidServer.Http.Handler
import ORaidServer.Http.Request

/-!
# Requests that stay in bounds

`get_input_http_info` copies pieces of a request to arrays of fixed sizes and looks for the end of the request
without looking at the length of the buffer.  `inBounds_iff` says for which requests all of this stays inside
the arrays: those with short enough lines, and with none or at least two spaces in the first, not next to each
other.
-/

namespace ORaidServer

open CString Loop

/-- A request line from which the method and the header can be copied: it has no space, or its first and its
last are different, with a few bytes between them and behind them. -/
def RequestLineFits (line : List Byte) : Prop :=
  sp ∉ line ∨ ∃ a b c, line = a ++ sp :: (b ++ sp :: c) ∧ sp ∉ a ∧ sp ∉ c ∧
    1 ≤ b.length ∧ b.length ≤ 256 ∧ c.length < 256

/-- A header line from which the content type, if it is taken for one, can be copied. -/
def HeaderLineFits (line : List Byte) : Prop := IsContentType line → line.length < 270

/-- The bytes of a buffer from the start of a line on, the first line or another: lines that fit, each with the
byte that follows its carriage return, and then a piece that a NUL ends. -/
inductive InBounds : Bool → List Byte → Prop
  | content {first : Bool} {piece rest : List Byte} (h0 : 0 ∉ piece) (hcr : cr ∉ piece)
      (hlen : piece.length < 1024) : InBounds first (piece ++ 0 :: rest)
  | line {first : Bool} {piece rest : List Byte} {x : Byte} (h0 : 0 ∉ piece) (hcr : cr ∉ piece)
      (hlen : piece.length < 1024)
      (hfits : if first then RequestLineFits piece else HeaderLineFits piece) (h : InBounds false rest) :
      InBounds first (piece ++ cr :: x :: rest)

/-! ### The copies -/

/-- With one space in it, the length of the method is negative. -/
theorem requestLine_one_space {a c : List Byte} (ha : sp ∉ a) (hc : sp ∉ c) (info : HttpInfo) :
    requestLine (a ++ sp :: c) info = none := by
  have hsize : sizeT (((sp :: c).length : ℤ) - (sp :: c).length - 2) = 2 ^ 64 - 2 := by
    rw [sub_self]
    rfl
  simp only [requestLine, strchr_append c ha, strrchr_append a hc, hsize,
    strncpy_of_lt _ (by decide : 256 < 2 ^ 64 - 2),
    Option.map_none, Option.bind_eq_none_iff, implies_true]

/-- With two spaces or more, what is between the first and the last goes to the method, but for one byte, and
what is behind the last to the header. -/
theorem isSome_requestLine_two_spaces {a b c : List Byte} (ha : sp ∉ a) (hb : 0 ∉ b) (hc : sp ∉ c)
    (hlen : b.length < 1024) (info : HttpInfo) :
    (requestLine (a ++ sp :: (b ++ sp :: c)) info).isSome ↔
      1 ≤ b.length ∧ b.length ≤ 256 ∧ c.length < 256 := by
  have hlast : strrchr sp (a ++ sp :: (b ++ sp :: c)) = some (sp :: c) := by
    rw [show a ++ sp :: (b ++ sp :: c) = (a ++ sp :: b) ++ sp :: c by simp]
    exact strrchr_append _ hc
  have hheader : (if (sp :: c).length > 1 then strcpy 256 ((sp :: c).drop 1) else some info.header).isSome ↔
      c.length < 256 := by
    split_ifs with hlong
    · exact isSome_strcpy_iff
    · rw [List.length_cons] at hlong
      simp only [Option.isSome_some, true_iff]
      omega
  have hmethod : (strncpy 256 ((sp :: (b ++ sp :: c)).drop 2)
      (sizeT ((sp :: (b ++ sp :: c)).length - (sp :: c).length - 2))).isSome ↔ 1 ≤ b.length ∧ b.length ≤ 256 := by
    cases b with
    | nil =>
      have hsize : sizeT (((sp :: ([] ++ sp :: c)).length : ℤ) - (sp :: c).length - 2) = 2 ^ 64 - 1 := by
        rw [sizeT, List.length_cons, List.nil_append]
        omega
      rw [hsize, strncpy_of_lt _ (by decide : 256 < 2 ^ 64 - 1)]
      simp
    | cons x b =>
      have hsize : sizeT (((sp :: (x :: b ++ sp :: c)).length : ℤ) - (sp :: c).length - 2) = b.length := by
        have hb : b.length < 2 ^ 64 := by
          rw [List.length_cons] at hlen
          omega
        rw [← sizeT_natCast hb, List.length_cons, List.length_append, List.length_cons]
        congr 1
        omega
      rw [hsize]
      have hcopy := isSome_strncpy_iff 256 (sp :: c) fun hmem => hb (List.mem_cons_of_mem x hmem)
      apply hcopy.trans
      rw [List.length_cons]
      omega
  have hboth : ∀ oh om : Option (List Byte), (oh.bind fun header => om.map fun method =>
      { info with header := header, method := method }).isSome ↔ om.isSome ∧ oh.isSome := by
    intro oh om
    cases oh <;> cases om <;> simp
  rw [← hheader, ← and_assoc, ← hmethod, requestLine, hlast, strchr_append _ ha]
  exact hboth _ _

theorem isSome_requestLine_iff {line : List Byte} (h0 : 0 ∉ line) (hlen : line.length < 1024) (info : HttpInfo) :
    (requestLine line info).isSome ↔ RequestLineFits line := by
  by_cases hsp : sp ∈ line
  · obtain ⟨a, u, rfl, ha⟩ := List.eq_append_cons_of_mem hsp
    by_cases hu : sp ∈ u
    · obtain ⟨b, c, rfl, hc⟩ := exists_last_of_mem hu
      have hb : 0 ∉ b := fun hmem =>
        h0 (List.mem_append_right a (List.mem_cons_of_mem sp (List.mem_append_left _ hmem)))
      rw [isSome_requestLine_two_spaces ha hb hc (by simp at hlen; omega)]
      constructor
      · exact fun h => Or.inr ⟨a, b, c, rfl, ha, hc, h⟩
      · rintro (hnone | ⟨a', b', c', heq, ha', hc', h⟩)
        · exact absurd hsp hnone
        · obtain ⟨-, htail⟩ := append_cons_inj ha ha' heq
          have hlast := strrchr_append b hc
          rw [htail, strrchr_append b' hc'] at hlast
          obtain rfl := (List.cons.inj (Option.some.inj hlast)).2
          obtain rfl := List.append_cancel_right htail
          exact h
    · rw [requestLine_one_space ha hu]
      apply iff_of_false (by simp)
      rintro (hnone | ⟨a', b', c', heq, ha', -⟩)
      · exact hnone hsp
      · obtain ⟨-, rfl⟩ := append_cons_inj ha ha' heq
        exact hu (by simp)
  · refine iff_of_true ?_ (Or.inl hsp)
    rw [requestLine, strrchr_eq_none.2 hsp]
    rfl

theorem isSome_headerLine_iff (line : List Byte) (info : HttpInfo) :
    (headerLine line info).isSome ↔ HeaderLineFits line := by
  unfold headerLine HeaderLineFits
  split_ifs with h
  · rw [Option.isSome_map, isSome_strcpy_iff, List.length_drop]
    have := h.1
    constructor
    · intro hlt _
      omega
    · intro hlt
      have := hlt h
      omega
  · simp [h]

/-! ### The loop -/

section Scan

variable {buffer pre piece : List Byte} {info : HttpInfo}

theorem strncpy_drop {x : List Byte} (hb : buffer = pre ++ piece ++ x) :
    strncpy 1024 (buffer.drop pre.length) (pre.length + piece.length - pre.length) =
      strncpy 1024 (piece ++ x) piece.length := by
  rw [hb, List.append_assoc, List.drop_left, Nat.add_sub_cancel_left]

/-- The copies of a piece that stay inside their arrays. -/
theorem isSome_onPiece_iff {x : List Byte} (h0 : 0 ∉ piece) (hb : buffer = pre ++ piece ++ x) :
    (onPiece buffer ⟨pre.length + piece.length, pre.length, info⟩).isSome ↔
      piece.length < 1024 ∧ if pre = [] then RequestLineFits piece else HeaderLineFits piece := by
  simp only [onPiece, strncpy_drop hb, List.length_eq_zero_iff]
  by_cases hlen : piece.length < 1024
  · rw [strncpy_append x h0 hlen, and_iff_right hlen]
    by_cases hpre : pre = []
    · simp only [if_pos hpre]
      exact isSome_requestLine_iff h0 hlen info
    · simp only [if_neg hpre]
      exact isSome_headerLine_iff piece info
  · have hcopy : strncpy 1024 (piece ++ x) piece.length = none := by
      rw [← Option.not_isSome_iff_eq_none, isSome_strncpy_iff _ _ h0]
      exact hlen
    rw [hcopy]
    exact iff_of_false Bool.false_ne_true fun h => hlen h.1

/-- Beyond the buffer there is no result. -/
theorem not_returns_of_le {s : InputScan} (h : buffer.length ≤ s.i) (info : HttpInfo) :
    ¬ Returns (inputStep buffer) s (some info) := by
  have hstep : inputStep buffer s = .inr none := by
    rw [inputStep, List.getElem?_eq_none h]
  rw [returns_of_ret hstep]
  exact Option.some_ne_none info ∘ Eq.symm

/-- At a carriage return the loop goes on if the copies stay inside their arrays. -/
theorem returns_line_iff {rest : List Byte} (h0 : 0 ∉ piece) (hcr : cr ∉ piece)
    (hb : buffer = pre ++ piece ++ cr :: rest) {r : HttpInfo} :
    Returns (inputStep buffer) ⟨pre.length, pre.length, info⟩ (some r) ↔
      ∃ info', onPiece buffer ⟨pre.length + piece.length, pre.length, info⟩ = some info' ∧
        Returns (inputStep buffer)
          ⟨pre.length + piece.length + 2, pre.length + piece.length + 2, info'⟩ (some r) := by
  have hget : buffer[pre.length + piece.length]? = some cr := by
    rw [hb, ← List.length_append, List.getElem?_append_right le_rfl, Nat.sub_self]
    rfl
  rw [scan_piece hb h0 hcr]
  cases hon : onPiece buffer ⟨pre.length + piece.length, pre.length, info⟩ with
  | none =>
    have hstep : inputStep buffer ⟨pre.length + piece.length, pre.length, info⟩ = .inr none := by
      simp only [inputStep, hget, if_neg (by decide : ¬ cr = 0), hon, ne_eq, not_true, if_false]
    simp [returns_of_ret hstep]
  | some info' =>
    have hstep : inputStep buffer ⟨pre.length + piece.length, pre.length, info⟩ =
        .inl ⟨pre.length + piece.length + 2, pre.length + piece.length + 2, info'⟩ := by
      simp only [inputStep, hget, if_neg (by decide : ¬ cr = 0), hon, ne_eq, not_true, if_false]
    simp [returns_of_next hstep]

/-- At the end of the request its last piece is copied. -/
theorem length_lt_of_returns {rest : List Byte} (h0 : 0 ∉ piece) (hcr : cr ∉ piece)
    (hb : buffer = pre ++ piece ++ 0 :: rest) {r : HttpInfo}
    (h : Returns (inputStep buffer) ⟨pre.length, pre.length, info⟩ (some r)) : piece.length < 1024 := by
  have hget : buffer[pre.length + piece.length]? = some 0 := by
    rw [hb, ← List.length_append, List.getElem?_append_right le_rfl, Nat.sub_self]
    rfl
  have hstep : inputStep buffer ⟨pre.length + piece.length, pre.length, info⟩ =
      .inr ((strncpy 1024 (piece ++ 0 :: rest) piece.length).map fun c => { info with content := c }) := by
    simp only [inputStep, hget, if_true, strncpy_drop hb]
  rw [scan_piece hb h0 hcr, returns_of_ret hstep] at h
  obtain ⟨c, hc, -⟩ := Option.map_eq_some_iff.1 h
  exact (isSome_strncpy_iff _ _ h0).1 (Option.isSome_iff_exists.2 ⟨c, hc⟩)

/-- From the start of a line that fits the loop goes through. -/
theorem exists_returns_of_inBounds {first : Bool} {x : List Byte} (h : InBounds first x) (pre : List Byte)
    (hfirst : first = decide (pre = [])) (hb : buffer = pre ++ x) (info : HttpInfo) :
    ∃ r, Returns (inputStep buffer) ⟨pre.length, pre.length, info⟩ (some r) := by
  induction h generalizing pre info with
  | @content first piece rest h0 hcr hlen =>
    rw [← List.append_assoc] at hb
    exact ⟨_, (scan_end h0 hlen hcr info hb).2 rfl⟩
  | @line first piece rest x h0 hcr hlen hfits h ih =>
    rw [← List.append_assoc] at hb
    simp only [hfirst, decide_eq_true_eq] at hfits
    have hpiece : (onPiece buffer ⟨pre.length + piece.length, pre.length, info⟩).isSome :=
      (isSome_onPiece_iff h0 hb).2 ⟨hlen, hfits⟩
    obtain ⟨info', hinfo⟩ := Option.isSome_iff_exists.1 hpiece
    obtain ⟨r, hr⟩ := ih (pre ++ piece ++ [cr, x]) (by simp) (by simpa using hb) info'
    rw [List.length_append, List.length_append] at hr
    exact ⟨r, (returns_line_iff h0 hcr hb).2 ⟨info', hinfo, hr⟩⟩

/-- The first piece of a text, up to a NUL or a carriage return. -/
theorem exists_piece (x : List Byte) : ∃ piece y, x = piece ++ y ∧ 0 ∉ piece ∧ cr ∉ piece ∧
    ∀ b z, y = b :: z → b = 0 ∨ b = cr := by
  induction x with
  | nil => exact ⟨[], [], rfl, List.not_mem_nil, List.not_mem_nil, fun b z h => by cases h⟩
  | cons b x ih =>
    by_cases hb : b = 0 ∨ b = cr
    · refine ⟨[], b :: x, rfl, List.not_mem_nil, List.not_mem_nil, fun c z h => ?_⟩
      exact (List.cons.inj h).1 ▸ hb
    · obtain ⟨piece, y, rfl, h0, hcr, hy⟩ := ih
      rw [not_or] at hb
      exact ⟨b :: piece, y, rfl, List.not_mem_cons_of_ne_of_not_mem (Ne.symm hb.1) h0,
        List.not_mem_cons_of_ne_of_not_mem (Ne.symm hb.2) hcr, hy⟩

/-- If the loop goes through from the start of a line, what follows stays in bounds. -/
theorem inBounds_of_returns {x : List Byte} (pre : List Byte) (hb : buffer = pre ++ x) {r : HttpInfo}
    (h : Returns (inputStep buffer) ⟨pre.length, pre.length, info⟩ (some r)) : InBounds (pre = []) x := by
  induction hn : x.length using Nat.strong_induction_on generalizing pre info x with
  | _ n ih =>
    obtain ⟨piece, y, rfl, h0, hcr, hy⟩ := exists_piece x
    rw [← List.append_assoc] at hb
    cases y with
    | nil =>
      rw [scan_piece hb h0 hcr] at h
      exact absurd h (not_returns_of_le (by rw [hb]; simp) r)
    | cons b z =>
      obtain rfl | rfl := hy b z rfl
      · exact InBounds.content h0 hcr (length_lt_of_returns h0 hcr hb h)
      · obtain ⟨info', hinfo, hnext⟩ := (returns_line_iff h0 hcr hb).1 h
        obtain ⟨hlen, hfits⟩ := (isSome_onPiece_iff h0 hb).1 (Option.isSome_iff_exists.2 ⟨info', hinfo⟩)
        cases z with
        | nil =>
          have hend : buffer.length ≤ pre.length + piece.length + 2 := by
            rw [hb, List.length_append, List.length_append]
            exact Nat.le_succ _
          exact absurd hnext (not_returns_of_le hend r)
        | cons c z =>
          have hpre : (pre ++ piece ++ [cr, c]).length = pre.length + piece.length + 2 := by
            rw [List.length_append, List.length_append]
            rfl
          rw [← hpre] at hnext
          have hz : z.length < n := by
            rw [← hn, List.length_append, List.length_cons, List.length_cons]
            omega
          have hrest := ih z.length hz (pre ++ piece ++ [cr, c]) (by simpa using hb) hnext rfl
          refine InBounds.line h0 hcr hlen ?_ ?_
          · simpa only [decide_eq_true_eq] using hfits
          · simpa using hrest

/-- A request line with one space is not read without leaving the arrays. -/
theorem getInputHttpInfo_one_space {a c rest : List Byte} (ha : sp ∉ a) (hc : sp ∉ c)
    (h0 : 0 ∉ a ++ sp :: c) (hcr : cr ∉ a ++ sp :: c) (hb : buffer = a ++ sp :: c ++ cr :: rest) :
    getInputHttpInfo buffer = none := by
  cases hinfo : getInputHttpInfo buffer with
  | none => rfl
  | some info =>
    have hreturns : Returns (inputStep buffer) ⟨([] : List Byte).length, ([] : List Byte).length, .empty⟩
        (some info) := hinfo ▸ returns_getInputHttpInfo buffer
    obtain ⟨info', hon, -⟩ := (returns_line_iff h0 hcr hb).1 hreturns
    obtain ⟨hlen, hfits⟩ := (isSome_onPiece_iff h0 hb).1 (Option.isSome_iff_exists.2 ⟨info', hon⟩)
    have hline := (isSome_requestLine_iff h0 hlen .empty).2 hfits
    rw [requestLine_one_space ha hc] at hline
    cases hline

end Scan

/-- A request is read without leaving the arrays exactly if its lines fit. -/
theorem inBounds_iff (recv : List Byte) :
    (getInputHttpInfo (recvbuf recv)).isSome ↔ InBounds true (recvbuf recv) := by
  have hreturns := returns_getInputHttpInfo (recvbuf recv)
  rw [Option.isSome_iff_exists]
  constructor
  · rintro ⟨info, hinfo⟩
    rw [hinfo] at hreturns
    exact inBounds_of_returns [] rfl hreturns
  · intro h
    obtain ⟨info, hinfo⟩ := exists_returns_of_inBounds h [] rfl rfl .empty
    exact ⟨info, getInputHttpInfo_eq hinfo⟩

/-- A request line without a version. -/
def shortRequest : List Byte := lit "GET /oraid" ++ crlf

/-- It is taken for a request, and the length of its method comes out negative. -/
theorem not_inBounds :
    IsHttp shortRequest ∧ shortRequest.length ≤ bufMax ∧ getInputHttpInfo (recvbuf shortRequest) = none := by
  refine ⟨by decide +kernel, by decide +kernel, ?_⟩
  have hline : shortRequest = lit "GET" ++ sp :: lit "/oraid" ++ [cr, lf] := by decide +kernel
  have hb : recvbuf shortRequest =
      lit "GET" ++ sp :: lit "/oraid" ++ cr :: (lf :: List.replicate (bufMax - shortRequest.length) 0) :=
    (congrArg (· ++ List.replicate (bufMax - shortRequest.length) 0) hline).trans (by simp)
  exact getInputHttpInfo_one_space (by decide +kernel) (by decide +kernel) (by decide +kernel)
    (by decide +kernel) hb

end ORaidServer
