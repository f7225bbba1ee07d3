import ORaidServer.Wire.Decode

/-!
# Messages on their way

What is still to be received on a connection, as the decoder goes through it.

* `Incoming`: the results of `recv` to come bring the bytes `rest` of the file, and are aligned;
* `Incoming.cons`, the step lemma: the next result becomes one call of `write_buf`;
* `handed`, the pieces that the calls to come bring, and `Incoming.pieces`: they make up `rest`.
-/

namespace ORaidServer

/-- In the state `w` the results of `recv` still to come are an aligned delivery of the bytes `rest` of the
file, the first of which may belong to a message that has begun. -/
def Incoming (w : WireState) (inbox : List (List Byte)) (rest : List Byte) : Prop :=
  ∃ p d msgs, w.Expects p.length d ∧ (∀ c ∈ inbox, 0 < c.length ∧ c.length ≤ maxline) ∧
    inbox.flatten = p ++ stream msgs ∧ Aligned p.length (lengths msgs) (inbox.map List.length) ∧
    rest = p ++ payloads msgs

/-- The buffers of the calls of `write_buf`, but for empty ones. -/
def buffers : List WireEvent → List (List Byte)
  | [] => []
  | .write b _ :: t => if b = [] then buffers t else b :: buffers t
  | .reply _ :: t => buffers t

/-- The pieces that the calls to come hand to `write_buf`. -/
def handed (w : WireState) (inbox : List (List Byte)) : List (List Byte) := buffers (decode w inbox)

/-- The delivery of a file from the start of its connection on. -/
theorem incoming_of_aligned {msgs : List Message} {inbox : List (List Byte)}
    (hlen : ∀ c ∈ inbox, 0 < c.length ∧ c.length ≤ maxline) (hflat : inbox.flatten = stream msgs)
    (hal : Aligned 0 (lengths msgs) (inbox.map List.length)) :
    Incoming ⟨0, 0, 0⟩ inbox (payloads msgs) :=
  ⟨[], 0, msgs, rfl, hlen, hflat, hal, rfl⟩

theorem buffers_append (t u : List WireEvent) : buffers (t ++ u) = buffers t ++ buffers u := by
  induction t with
  | nil => rfl
  | cons e t ih =>
    cases e with
    | write b l =>
      rw [List.cons_append, buffers, buffers, ih]
      split_ifs <;> rfl
    | reply r => exact ih

theorem buffers_replyEvents (r : Option Reply) : buffers (r.map WireEvent.reply).toList = [] := by
  cases r <;> rfl

section Step

variable {w : WireState} {c rest x : List Byte} {cs : List (List Byte)}

/-- A result of which a call of `write_buf` is made. -/
theorem handed_cons {next : AfterWrite} (h : onRecv w (.got c) = .write x x.length next) :
    handed w (c :: cs) = (if x = [] then [] else [x]) ++ handed (afterWrite w next).1 cs := by
  rw [handed, decode, decodeStep_of_write h, buffers_append, buffers, buffers_replyEvents]
  rfl

/-- A further result of a message. -/
theorem onRecv_second (idx d : ℕ) (hc : 0 < c.length) :
    onRecv ⟨1, idx, d⟩ (.got c) = .write c c.length (.second c.length) := by
  rw [onRecv, if_neg (by simp), if_neg (by simp), if_neg (by omega)]

/-- **The next result.**  It brings one call of `write_buf`, with the bytes that come next in the file, and leaves
an aligned delivery of those behind.  The call may bring none, but then some are to come. -/
theorem Incoming.cons (h : Incoming w (c :: cs) rest) : ∃ x y next,
    onRecv w (.got c) = .write x x.length next ∧ rest = x ++ y ∧
      Incoming (afterWrite w next).1 cs y ∧ x.length ≤ maxline ∧ (x = [] → y ≠ []) := by
  obtain ⟨p, d, msgs, hw, hlen, hflat, hal, rfl⟩ := h
  obtain ⟨⟨hc, hmax⟩, hlen'⟩ := List.forall_mem_cons.1 hlen
  cases p with
  | nil =>
    cases msgs with
    | nil =>
      have hnil : c ++ cs.flatten = [] := hflat
      rw [(List.append_eq_nil_iff.1 hnil).1] at hc
      exact absurd hc (lt_irrefl _)
    | cons m ms =>
      obtain ⟨hge, hle, hal⟩ : cmdLen ≤ c.length ∧ c.length ≤ cmdLen + m.payload.length ∧
        Aligned (cmdLen + m.payload.length - c.length) (lengths ms) (cs.map List.length) := hal
      -- the result is the header and a part of the payload
      obtain ⟨x, rfl, hx⟩ := append_split (a := m.header) (b := m.payload ++ stream ms)
        (by simpa [stream, Message.bytes] using hflat) (by rw [m.length_header]; exact hge)
      have hxlen : (m.header ++ x).length = cmdLen + x.length := by
        rw [List.length_append, m.length_header]
      obtain ⟨y, hy, hrest⟩ := append_split hx (by omega)
      have hw0 : w.writeState = 0 := hw
      have hon := onRecv_first hw0 m x
      have hstep := decodeStep_first hw0 m hy
      rw [decodeStep_of_write hon] at hstep
      rw [hxlen, hy, List.length_append, Nat.add_sub_add_left, Nat.add_sub_cancel_left] at hal
      have hpay : payloads (m :: ms) = x ++ (y ++ payloads ms) := by
        rw [payloads, List.map_cons, List.flatten_cons, hy, List.append_assoc]
        rfl
      refine ⟨x, y ++ payloads ms, _, hon, hpay, ⟨y, m.payload.length, ms, ?_, hlen', hrest, hal, rfl⟩,
        by omega, ?_⟩
      · cases y with
        | nil =>
          rw [if_pos rfl] at hstep
          rw [congrArg Prod.fst hstep]
          rfl
        | cons b y =>
          rw [if_neg (by simp)] at hstep
          rw [congrArg Prod.fst hstep]
          exact ⟨_, rfl, by rw [hy, List.length_append], m.length_payload_lt⟩
      · rintro rfl hnil
        have hpos := m.payload_pos
        rw [hy, (List.append_eq_nil_iff.1 hnil).1] at hpos
        exact absurd hpos (lt_irrefl _)
  | cons b p =>
    obtain ⟨idx, rfl, hd, hlt⟩ : ∃ idx, w = ⟨1, idx, d⟩ ∧ idx + (b :: p).length = d ∧ d < 2 ^ 64 := hw
    obtain ⟨hle, hal⟩ : c.length ≤ (b :: p).length ∧ Aligned ((b :: p).length - c.length) (lengths msgs)
        (cs.map List.length) := by
      cases msgs <;> exact hal
    -- the result is a part of the rest of the payload
    obtain ⟨y, hy, hrest⟩ := append_split hflat.symm hle
    have hon := onRecv_second idx d hc
    have hstep := decodeStep_second hd hlt hc hle
    rw [decodeStep_of_write hon] at hstep
    have hlens : (b :: p).length = c.length + y.length := by rw [hy, List.length_append]
    rw [hlens, Nat.add_sub_cancel_left] at hal
    refine ⟨c, y ++ payloads msgs, _, hon, by rw [hy, List.append_assoc],
      ⟨y, d, msgs, ?_, hlen', hrest, hal, rfl⟩, hmax, fun hnil => ?_⟩
    · by_cases hend : c.length = (b :: p).length
      · have hnil : y = [] := List.eq_nil_of_length_eq_zero (by omega)
        rw [if_pos hend] at hstep
        rw [congrArg Prod.fst hstep, hnil]
        rfl
      · have hpos : y.length ≠ 0 := by omega
        rw [if_neg hend] at hstep
        rw [congrArg Prod.fst hstep, WireState.Expects, if_neg hpos]
        exact ⟨_, rfl, by omega, hlt⟩
    · rw [hnil] at hc
      exact absurd hc (lt_irrefl _)

end Step

variable {w : WireState} {inbox : List (List Byte)} {rest : List Byte}

/-- The pieces to come make up what is to come of the file. -/
theorem Incoming.pieces (h : Incoming w inbox rest) : (handed w inbox).flatten = rest ∧
    ∀ p ∈ handed w inbox, 0 < p.length ∧ p.length ≤ maxline := by
  induction inbox generalizing w rest with
  | nil =>
    obtain ⟨p, d, msgs, -, -, hflat, -, rfl⟩ := h
    obtain ⟨rfl, hmsgs⟩ := List.append_eq_nil_iff.1 hflat.symm
    have hlen := length_stream msgs
    rw [hmsgs, List.length_nil] at hlen
    have hpay : payloads msgs = [] := List.eq_nil_of_length_eq_zero (by omega)
    exact ⟨by rw [hpay]; rfl, fun p hp => absurd hp List.not_mem_nil⟩
  | cons c cs ih =>
    obtain ⟨x, y, next, hon, rfl, hin, hmax, -⟩ := h.cons
    obtain ⟨hflat, hpieces⟩ := ih hin
    rw [handed_cons hon]
    split_ifs with hx
    · exact ⟨by rw [List.nil_append, hflat, hx, List.nil_append], by simpa using hpieces⟩
    · refine ⟨by rw [List.singleton_append, List.flatten_cons, hflat], fun p hp => ?_⟩
      rcases List.mem_cons.1 hp with rfl | hp
      · exact ⟨List.length_pos_of_ne_nil hx, hmax⟩
      · exact hpieces p hp

end ORaidServer
