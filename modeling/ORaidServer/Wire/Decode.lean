import ORaidServer.Wire.Callback
import Mathlib.Data.List.SplitLengths

/-!
# Decoding a stream of messages

The callbacks of one connection, one after the other, on the results of `recv` that a stream of
messages is delivered in.

* `decode`, the calls of `write_buf` and the replies that result;
* `Decoded`, what they should be: the payloads, one reply for each message once it is stored;
* `Aligned`, on the lengths of the payloads and of the results: every header lies in the result that
  begins with it, and no result has bytes of two messages;
* `decoded_iff_aligned`: for given lengths, decoding is right whatever the contents if and only if the
  results are aligned.
-/

namespace ORaidServer

/-- What the callbacks do that can be seen outside of the decoder. -/
inductive WireEvent
  | write (buffer : List Byte) (length : ℤ)
  | reply (r : Reply)
  deriving DecidableEq, Repr

/-- One callback, neither flag of the group being set. -/
def decodeStep (w : WireState) (r : RecvResult) : WireState × List WireEvent :=
  match onRecv w r with
  | .exit _ | .skip => (w, [])
  | .reset reply => ({ w with writeState := 0 }, [.reply reply])
  | .write buffer length next =>
    let (w, reply) := afterWrite w next
    (w, .write buffer length :: (reply.map WireEvent.reply).toList)

/-- The callbacks on the results of `recv` in turn. -/
def decode (w : WireState) : List (List Byte) → List WireEvent
  | [] => []
  | c :: cs => (decodeStep w (.got c)).2 ++ decode (decodeStep w (.got c)).1 cs

/-- The bytes handed to `write_buf`. -/
def stored : List WireEvent → List Byte
  | [] => []
  | .write buffer length :: t => buffer.take length.toNat ++ stored t
  | .reply _ :: t => stored t

/-- The values of the replies. -/
def replies : List WireEvent → List ℕ
  | [] => []
  | .write _ _ :: t => replies t
  | .reply r :: t => r.replyValue :: replies t

/-- `payload` is stored by calls with valid lengths, `values` are the values of the replies, and each
reply is sent when what is `due` for it and for those before it has been stored. -/
structure DecodedAs (due values : List ℕ) (payload : List Byte) (t : List WireEvent) : Prop where
  length : ∀ b l, .write b l ∈ t → 0 ≤ l ∧ l ≤ b.length
  stored : stored t = payload
  replies : replies t = values
  order : ∀ t₁ r t₂, t = t₁ ++ .reply r :: t₂ →
    (due.take ((ORaidServer.replies t₁).length + 1)).sum ≤ (ORaidServer.stored t₁).length

/-- The bytes of messages. -/
def stream (msgs : List Message) : List Byte := (msgs.map Message.bytes).flatten

/-- The payloads of messages. -/
def payloads (msgs : List Message) : List Byte := (msgs.map (·.payload)).flatten

/-- The lengths of the payloads of messages. -/
def lengths (msgs : List Message) : List ℕ := msgs.map (·.payload.length)

/-- The messages are decoded. -/
def Decoded (msgs : List Message) (t : List WireEvent) : Prop :=
  DecodedAs (lengths msgs) (lengths msgs) (payloads msgs) t

/-- `rem` bytes of the current message are still to come, then messages with payloads of the lengths
`ds`; they arrive in results of the lengths `ls`. -/
def Aligned : ℕ → List ℕ → List ℕ → Prop
  | 0, [], [] => True
  | 0, d :: ds, l :: ls => cmdLen ≤ l ∧ l ≤ cmdLen + d ∧ Aligned (cmdLen + d - l) ds ls
  | rem + 1, ds, l :: ls => l ≤ rem + 1 ∧ Aligned (rem + 1 - l) ds ls
  | _, _, _ => False

section DecodedAs

variable {due values : List ℕ} {payload b : List Byte} {t : List WireEvent} {x d : ℕ}

theorem decodedAs_nil : DecodedAs [] [] [] [] := by
  refine ⟨by simp, rfl, rfl, fun t₁ r t₂ h => ?_⟩
  cases t₁ <;> cases h

/-- A call of `write_buf` that completes no message. -/
theorem decodedAs_write : DecodedAs ((b.length + x) :: due) values (b ++ payload)
    (.write b b.length :: t) ↔ DecodedAs (x :: due) values payload t := by
  constructor
  · intro h
    refine ⟨fun b' l hm => h.length b' l (by simp [hm]), ?_, h.replies, fun t₁ r t₂ ht => ?_⟩
    · have := h.stored
      simpa [stored] using this
    · have := h.order (.write b b.length :: t₁) r t₂ (by rw [ht]; rfl)
      simp only [replies, stored, Int.toNat_natCast, List.take_length, List.take_succ_cons,
        List.sum_cons, List.length_append] at this ⊢
      omega
  · intro h
    refine ⟨fun b' l hm => ?_, ?_, h.replies, fun t₁ r t₂ ht => ?_⟩
    · rcases List.mem_cons.1 hm with heq | hm
      · cases heq
        exact ⟨by omega, le_rfl⟩
      · exact h.length b' l hm
    · simp [stored, h.stored]
    · cases t₁ with
      | nil => cases ht
      | cons e t₁ =>
        obtain ⟨rfl, ht'⟩ := List.cons.inj ht
        have := h.order t₁ r t₂ ht'
        simp only [replies, stored, Int.toNat_natCast, List.take_length, List.take_succ_cons,
          List.sum_cons, List.length_append] at this ⊢
        omega

/-- A call of `write_buf` that completes a message. -/
theorem decodedAs_write_reply : DecodedAs (b.length :: due) (d :: values) (b ++ payload)
    (.write b b.length :: .reply (.ack d) :: t) ↔ DecodedAs due values payload t := by
  constructor
  · intro h
    refine ⟨fun b' l hm => h.length b' l (by simp [hm]), ?_, ?_, fun t₁ r t₂ ht => ?_⟩
    · have := h.stored
      simpa [stored] using this
    · have := h.replies
      simpa [replies, Reply.ack] using this
    · have := h.order (.write b b.length :: .reply (.ack d) :: t₁) r t₂ (by rw [ht]; rfl)
      simp only [replies, stored, Int.toNat_natCast, List.take_length, List.take_succ_cons,
        List.sum_cons, List.length_append, List.length_cons] at this ⊢
      omega
  · intro h
    refine ⟨fun b' l hm => ?_, ?_, ?_, fun t₁ r t₂ ht => ?_⟩
    · rcases List.mem_cons.1 hm with heq | hm
      · cases heq
        exact ⟨by omega, le_rfl⟩
      · rcases List.mem_cons.1 hm with heq | hm
        · cases heq
        · exact h.length b' l hm
    · simp [stored, h.stored]
    · simp [replies, h.replies, Reply.ack]
    · cases t₁ with
      | nil => cases ht
      | cons e t₁ =>
        obtain ⟨rfl, ht'⟩ := List.cons.inj ht
        cases t₁ with
        | nil => simp [replies, stored]
        | cons e t₁ =>
          obtain ⟨rfl, ht''⟩ := List.cons.inj ht'
          have := h.order t₁ r t₂ ht''
          simp only [replies, stored, Int.toNat_natCast, List.take_length, List.take_succ_cons,
            List.sum_cons, List.length_append, List.length_cons] at this ⊢
          omega

end DecodedAs

/-! ### Steps on aligned results -/

theorem unsigned_natCast {k : ℕ} (h : k < 2 ^ 64) : unsigned k = k := by
  unfold unsigned
  omega

theorem decodeStep_of_write {w : WireState} {r : RecvResult} {buffer : List Byte} {length : ℤ}
    {next : AfterWrite} (h : onRecv w r = .write buffer length next) :
    decodeStep w r = ((afterWrite w next).1,
      .write buffer length :: ((afterWrite w next).2.map WireEvent.reply).toList) := by
  simp only [decodeStep, h]

/-- The first result of a message, with its header and bytes `x` behind it, is written from `x` on. -/
theorem onRecv_first {w : WireState} (hw : w.writeState = 0) (m : Message) (x : List Byte) :
    onRecv w (.got (m.header ++ x)) =
      .write x x.length (.first (cmdLen + x.length) m.payload.length) := by
  have hlen : (m.header ++ x).length = cmdLen + x.length := by
    rw [List.length_append, m.length_header]
  have hpos : 0 < cmdLen := by decide
  have hret : ((m.header ++ x).length : ℤ) - cmdLen = x.length := by omega
  have hdrop : (m.header ++ x).drop cmdLen = x := by rw [← m.length_header, List.drop_left]
  have hobj : CmdWrite.ofBuf (m.header ++ x) = ⟨cmdWrite, m.payload.length⟩ := by
    rw [CmdWrite.ofBuf_append _ m.length_header.ge, m.header_eq]
  have hne : ¬ ((m.header ++ x).length = 0 ∧ w.writeState = 0) := by omega
  rw [onRecv, if_neg hne, if_pos hw, hobj, if_pos rfl, hdrop, hret, hlen]

/-- The first result of a message, with its header and a part `x` of its payload. -/
theorem decodeStep_first {w : WireState} (hw : w.writeState = 0) (m : Message) {x y : List Byte}
    (hx : m.payload = x ++ y) :
    decodeStep w (.got (m.header ++ x)) =
      if y = [] then
        ({ w with writeState := 0 }, [.write x x.length, .reply (.ack m.payload.length)])
      else (⟨1, x.length, m.payload.length⟩, [.write x x.length]) := by
  have hlt := m.length_payload_lt
  have hxy : m.payload.length = x.length + y.length := by rw [hx, List.length_append]
  have hret : ((cmdLen + x.length : ℕ) : ℤ) - cmdLen = x.length := by omega
  have hun : unsigned (((cmdLen + x.length : ℕ) : ℤ) - cmdLen) = x.length := by
    rw [hret, unsigned_natCast (by omega)]
  rw [decodeStep_of_write (onRecv_first hw m x), afterWrite, hun]
  rcases y with _ | ⟨b, y⟩
  · rw [if_pos (by simp [hxy]), if_pos rfl]
    rfl
  · rw [if_neg (by simp [hxy]), if_neg (by simp)]
    rfl

/-- A further result of a message of `d` bytes, `rem` of them being still to come. -/
theorem decodeStep_second {idx rem d : ℕ} {c : List Byte} (hd : idx + rem = d) (hlt : d < 2 ^ 64)
    (hpos : 0 < c.length) (hle : c.length ≤ rem) :
    decodeStep ⟨1, idx, d⟩ (.got c) =
      if c.length = rem then (⟨0, 0, 0⟩, [.write c c.length, .reply (.ack d)])
      else (⟨1, idx + c.length, d⟩, [.write c c.length]) := by
  have hun : unsigned ((c.length : ℤ) + (idx : ℤ)) = idx + c.length := by
    have := unsigned_natCast (show c.length + idx < 2 ^ 64 by omega)
    rw [Nat.add_comm idx, ← this]
    push_cast
    rfl
  have hon : onRecv ⟨1, idx, d⟩ (.got c) = .write c c.length (.second c.length) := by
    rw [onRecv, if_neg (by simp), if_neg (by simp), if_neg (by omega)]
  simp only [decodeStep, hon, afterWrite, hun]
  by_cases heq : c.length = rem
  · rw [if_pos heq]
    simp only [show d ≤ idx + c.length by omega, if_true]
    rfl
  · rw [if_neg heq]
    simp only [show ¬ d ≤ idx + c.length by omega, if_false]
    rfl

/-- The decoder expects `rem` bytes of a message of `d` bytes, or a new message. -/
def WireState.Expects (w : WireState) (rem d : ℕ) : Prop :=
  if rem = 0 then w.writeState = 0 else ∃ idx, w = ⟨1, idx, d⟩ ∧ idx + rem = d ∧ d < 2 ^ 64

/-- What is expected for the current message, if there is one. -/
def pending (rem v : ℕ) : List ℕ := if rem = 0 then [] else [v]

/-- Where one list begins with `a` and the other with `c`, the longer goes on with the rest. -/
theorem append_split {α : Type*} {a b c e : List α} (h : c ++ e = a ++ b) (hle : a.length ≤ c.length) :
    ∃ x, c = a ++ x ∧ b = x ++ e := by
  rcases List.append_eq_append_iff.1 h with ⟨x, rfl, rfl⟩ | ⟨x, rfl, rfl⟩
  · have : x = [] := List.eq_nil_of_length_eq_zero (by rw [List.length_append] at hle; omega)
    exact ⟨[], by simp [this], by simp [this]⟩
  · exact ⟨x, rfl, rfl⟩

/-! ### Aligned results are decoded -/

theorem decodedAs_of_aligned {rem d : ℕ} {p : List Byte} {msgs : List Message} {w : WireState}
    {cs : List (List Byte)} (hw : w.Expects rem d) (hp : p.length = rem)
    (hpos : ∀ c ∈ cs, 0 < c.length) (hcs : cs.flatten = p ++ stream msgs)
    (hal : Aligned rem (lengths msgs) (cs.map List.length)) :
    DecodedAs (pending rem rem ++ lengths msgs) (pending rem d ++ lengths msgs)
      (p ++ payloads msgs) (decode w cs) := by
  induction cs generalizing rem d p msgs w with
  | nil =>
    rcases rem with _ | rem
    · rcases msgs with _ | ⟨m, ms⟩
      · obtain rfl := List.eq_nil_of_length_eq_zero hp
        exact decodedAs_nil
      · simp [Aligned, lengths] at hal
    · simp [Aligned] at hal
  | cons c cs ih =>
    obtain ⟨hc, hcs'⟩ := List.forall_mem_cons.1 hpos
    rcases rem with _ | rem
    · rcases msgs with _ | ⟨m, ms⟩
      · simp [Aligned, lengths] at hal
      · obtain rfl := List.eq_nil_of_length_eq_zero hp
        obtain ⟨hge, hle, hal⟩ : cmdLen ≤ c.length ∧ c.length ≤ cmdLen + m.payload.length ∧
          Aligned (cmdLen + m.payload.length - c.length) (lengths ms) (cs.map List.length) := hal
        -- the result is the header and a part of the payload
        obtain ⟨x, rfl, hx⟩ := append_split (a := m.header) (b := m.payload ++ stream ms)
          (by simpa [stream, Message.bytes] using hcs) (by rw [m.length_header]; exact hge)
        have hlen : (m.header ++ x).length = cmdLen + x.length := by
          rw [List.length_append, m.length_header]
        obtain ⟨y, hy, hrest⟩ := append_split hx (by omega)
        have hxy : m.payload.length = x.length + y.length := by rw [hy, List.length_append]
        rw [hlen, hxy, Nat.add_sub_add_left, Nat.add_sub_cancel_left] at hal
        have hpay : [] ++ payloads (m :: ms) = x ++ (y ++ payloads ms) := by
          rw [List.nil_append, payloads, List.map_cons, List.flatten_cons, hy, List.append_assoc]
          rfl
        rw [decode, decodeStep_first hw m hy, hpay]
        rcases y with _ | ⟨b, y⟩
        · have hw' : WireState.Expects { w with writeState := 0 } 0 0 := rfl
          have := ih (p := []) hw' rfl hcs' hrest hal
          show DecodedAs (m.payload.length :: lengths ms) (m.payload.length :: lengths ms) _ _
          nth_rw 1 [hxy]
          exact decodedAs_write_reply.2 this
        · have hw' : WireState.Expects ⟨1, x.length, m.payload.length⟩ (b :: y).length
            m.payload.length := ⟨_, rfl, hxy.symm, m.length_payload_lt⟩
          have := ih hw' rfl hcs' hrest hal
          show DecodedAs (m.payload.length :: lengths ms) (m.payload.length :: lengths ms) _ _
          nth_rw 1 [hxy]
          exact decodedAs_write.2 this
    · obtain ⟨idx, rfl, hd, hlt⟩ : ∃ idx, w = ⟨1, idx, d⟩ ∧ idx + (rem + 1) = d ∧ d < 2 ^ 64 := hw
      obtain ⟨hle, hal⟩ : c.length ≤ rem + 1 ∧ Aligned (rem + 1 - c.length) (lengths msgs)
        (cs.map List.length) := by
        rcases msgs with _ | ⟨m, ms⟩ <;> exact hal
      -- the result is a part of the rest of the payload
      obtain ⟨y, rfl, hrest⟩ := append_split hcs.symm (by rw [hp]; exact hle)
      have hy : c.length + y.length = rem + 1 := by rw [← hp, List.length_append]
      rw [← hy, Nat.add_sub_cancel_left] at hal
      rw [decode, decodeStep_second hd hlt hc hle, List.append_assoc]
      rcases y with _ | ⟨b, y⟩
      · have hend : c.length = rem + 1 := hy
        rw [if_pos hend]
        have hw' : WireState.Expects ⟨0, 0, 0⟩ 0 0 := rfl
        have := ih (p := []) hw' rfl hcs' hrest hal
        show DecodedAs ((rem + 1) :: lengths msgs) (d :: lengths msgs) _ _
        rw [← hend]
        exact decodedAs_write_reply.2 this
      · have hne : c.length ≠ rem + 1 := by
          rw [← hy]
          simp
        rw [if_neg hne]
        have hw' : WireState.Expects ⟨1, idx + c.length, d⟩ (b :: y).length d :=
          ⟨_, rfl, by omega, hlt⟩
        have := ih hw' rfl hcs' hrest hal
        show DecodedAs ((rem + 1) :: lengths msgs) (d :: lengths msgs) _ _
        rw [← hy]
        exact decodedAs_write.2 this

/-! ### Decoded results are aligned -/

theorem stored_append (t u : List WireEvent) : stored (t ++ u) = stored t ++ stored u := by
  induction t with
  | nil => rfl
  | cons e t ih => cases e <;> simp [stored, ih]

theorem replies_append (t u : List WireEvent) : replies (t ++ u) = replies t ++ replies u := by
  induction t with
  | nil => rfl
  | cons e t ih => cases e <;> simp [replies, ih]

/-- A message whose header has been read may be answered without another header. -/
def WireState.credit (w : WireState) : ℕ := if w.writeState = 0 then 0 else cmdLen

theorem WireState.credit_le (w : WireState) : w.credit ≤ cmdLen := by
  unfold credit
  split_ifs <;> omega

/-- At the end of a callback a reply has been sent or is still owed. -/
theorem afterWrite_count (w : WireState) (next : AfterWrite) :
    cmdLen * (replies ((afterWrite w next).2.map WireEvent.reply).toList).length +
      (afterWrite w next).1.credit ≤ cmdLen := by
  cases next with
  | first ret dataLen =>
    rw [afterWrite]
    split_ifs
    · simp [replies, WireState.credit]
    · simpa [replies] using WireState.credit_le _
  | second ret =>
    rw [afterWrite]
    split_ifs
    · simp [replies, WireState.credit]
    · simpa [replies] using WireState.credit_le _

theorem stored_replyEvents (r : Option Reply) : stored (r.map WireEvent.reply).toList = [] := by
  cases r <;> rfl

/-- A callback pays for a reply, or for the right to one, with a header that it does not store. -/
theorem decodeStep_count {w : WireState} {c : List Byte}
    (h : ∀ b l, .write b l ∈ (decodeStep w (.got c)).2 → 0 ≤ l) :
    (stored (decodeStep w (.got c)).2).length + cmdLen * (replies (decodeStep w (.got c)).2).length +
      (decodeStep w (.got c)).1.credit ≤ c.length + w.credit := by
  by_cases hw : w.writeState = 0
  · by_cases hc : c.length = 0
    · have hon : onRecv w (.got c) = .exit false := by rw [onRecv, if_pos ⟨hc, hw⟩]
      simp [decodeStep, hon, stored, replies]
    · by_cases hcmd : (CmdWrite.ofBuf c).command = cmdWrite
      · obtain ⟨next, hon⟩ : ∃ next,
            onRecv w (.got c) = .write (c.drop cmdLen) (c.length - cmdLen) next :=
          ⟨_, by rw [onRecv, if_neg fun hh => hc hh.1, if_pos hw, if_pos hcmd]⟩
        rw [decodeStep_of_write hon] at h ⊢
        have hnn := h _ _ (List.mem_cons_self ..)
        have hbuf : ((c.drop cmdLen).take ((c.length : ℤ) - cmdLen).toNat).length + cmdLen ≤
            c.length := by
          rw [List.length_take, List.length_drop]
          omega
        have hafter := afterWrite_count w next
        simp only [stored, replies, stored_replyEvents, List.append_nil] at hafter ⊢
        omega
      · have hon : onRecv w (.got c) = .skip := by
          rw [onRecv, if_neg fun hh => hc hh.1, if_pos hw, if_neg hcmd]
        simp [decodeStep, hon, stored, replies]
  · have hcredit : w.credit = cmdLen := if_neg hw
    by_cases hc : c.length = 0
    · have hon : onRecv w (.got c) = .reset .readError := by
        rw [onRecv, if_neg fun hh => hw hh.2, if_neg hw, if_pos hc]
      rw [hcredit]
      simp [decodeStep, hon, stored, replies, WireState.credit]
    · have hon : onRecv w (.got c) = .write c c.length (.second c.length) := by
        rw [onRecv, if_neg fun hh => hw hh.2, if_neg hw, if_neg hc]
      rw [decodeStep_of_write hon, hcredit]
      have hafter := afterWrite_count w (.second c.length)
      simp only [stored, replies, stored_replyEvents, List.append_nil, Int.toNat_natCast,
        List.take_length]
      omega

theorem decode_count {w : WireState} {cs : List (List Byte)}
    (h : ∀ b l, .write b l ∈ decode w cs → 0 ≤ l) :
    (stored (decode w cs)).length + cmdLen * (replies (decode w cs)).length ≤
      cs.flatten.length + w.credit := by
  induction cs generalizing w with
  | nil => simp [decode, stored, replies]
  | cons c cs ih =>
    simp only [decode, List.mem_append] at h ⊢
    have hstep := decodeStep_count fun b l hm => h b l (Or.inl hm)
    have hrest := ih fun b l hm => h b l (Or.inr hm)
    rw [stored_append, replies_append, List.length_append, List.length_append, List.flatten_cons,
      List.length_append, Nat.mul_add]
    omega

theorem stored_decodeStep_first {w : WireState} (hw : w.writeState = 0) (m : Message)
    {x : List Byte} : stored (decodeStep w (.got (m.header ++ x))).2 = x := by
  rw [decodeStep_of_write (onRecv_first hw m x), stored, stored_replyEvents, List.append_nil,
    Int.toNat_natCast, List.take_length]

theorem length_stream (msgs : List Message) :
    (stream msgs).length = cmdLen * msgs.length + (payloads msgs).length := by
  induction msgs with
  | nil => rfl
  | cons m ms ih =>
    simp only [stream, payloads, List.map_cons, List.flatten_cons, List.length_append,
      List.length_cons, Message.length_bytes, Nat.mul_add] at ih ⊢
    omega

/-- What comes after a message begins with the mark of its header. -/
theorem mark_mem {msgs : List Message} (hmark : ∀ m ∈ msgs, m.header.head? = some 1)
    {z e : List Byte} (hz : z ≠ []) (h : stream msgs = z ++ e) : 1 ∈ z := by
  rcases msgs with _ | ⟨m, ms⟩
  · exact absurd (List.append_eq_nil_iff.1 h.symm).1 hz
  · obtain ⟨b, hd, hb⟩ : ∃ b hd, m.header = b :: hd := by
      cases hh : m.header with
      | nil => simp [hh] at hmark
      | cons b hd => exact ⟨b, hd, rfl⟩
    have hm := hmark m (by simp)
    obtain ⟨b', z, rfl⟩ := List.exists_cons_of_ne_nil hz
    simp only [stream, List.map_cons, List.flatten_cons, Message.bytes, hb, List.cons_append,
      List.cons.injEq] at h
    rw [hb, List.head?_cons, Option.some.injEq] at hm
    simp [← h.1, hm]

/-- For messages with marked headers and payloads of zeros, results that are decoded are aligned. -/
theorem aligned_of_decodedAs {rem d : ℕ} {p : List Byte} {msgs : List Message} {w : WireState}
    {cs : List (List Byte)} (hw : w.Expects rem d) (hp : p.length = rem)
    (hpos : ∀ c ∈ cs, 0 < c.length) (hcs : cs.flatten = p ++ stream msgs)
    (hmark : ∀ m ∈ msgs, m.header.head? = some 1) (hzero : ∀ b ∈ p ++ payloads msgs, b = 0)
    (h : DecodedAs (pending rem rem ++ lengths msgs) (pending rem d ++ lengths msgs)
      (p ++ payloads msgs) (decode w cs)) :
    Aligned rem (lengths msgs) (cs.map List.length) := by
  induction cs generalizing rem d p msgs w with
  | nil =>
    obtain ⟨rfl, hms⟩ := List.append_eq_nil_iff.1 hcs.symm
    obtain rfl : 0 = rem := hp
    rcases msgs with _ | ⟨m, ms⟩
    · trivial
    · have := length_stream (m :: ms)
      rw [hms, List.length_nil, List.length_cons, cmdLen] at this
      omega
  | cons c cs ih =>
    obtain ⟨hc, hcs'⟩ := List.forall_mem_cons.1 hpos
    rcases rem with _ | rem
    · obtain rfl := List.eq_nil_of_length_eq_zero hp
      rcases msgs with _ | ⟨m, ms⟩
      · have hnil : c ++ cs.flatten = [] := hcs
        rw [(List.append_eq_nil_iff.1 hnil).1] at hc
        exact absurd hc (lt_irrefl _)
      · have hw0 : w.writeState = 0 := hw
        rcases Nat.lt_or_ge c.length cmdLen with hlt | hge
        · exfalso
          by_cases hcmd : (CmdWrite.ofBuf c).command = cmdWrite
          · -- the length handed to `write_buf` is negative
            obtain ⟨next, hon⟩ : ∃ next,
                onRecv w (.got c) = .write (c.drop cmdLen) (c.length - cmdLen) next :=
              ⟨_, by rw [onRecv, if_neg (by omega), if_pos hw0, if_pos hcmd]⟩
            have := (h.length (c.drop cmdLen) (c.length - cmdLen)
              (by rw [decode, decodeStep_of_write hon]; simp)).1
            omega
          · -- what was received is lost, and a header is missing
            have hon : onRecv w (.got c) = .skip := by
              rw [onRecv, if_neg (by omega), if_pos hw0, if_neg hcmd]
            have hdec : decode w (c :: cs) = decode w cs := by
              rw [decode]
              simp only [decodeStep, hon, List.nil_append]
            rw [hdec] at h
            have hcount := decode_count fun b l hm => (h.length b l hm).1
            have hlen := congrArg List.length hcs
            rw [List.nil_append, length_stream, List.flatten_cons, List.length_append] at hlen
            rw [h.stored, h.replies, WireState.credit, if_pos hw0, List.nil_append] at hcount
            have hreplies : (pending 0 d ++ lengths (m :: ms)).length = (m :: ms).length := by
              simp [pending, lengths]
            rw [hreplies] at hcount
            omega
        · obtain ⟨x, rfl, hx⟩ := append_split (a := m.header) (b := m.payload ++ stream ms)
            (by simpa [stream, Message.bytes] using hcs) (by rw [m.length_header]; exact hge)
          have hlen : (m.header ++ x).length = cmdLen + x.length := by
            rw [List.length_append, m.length_header]
          rcases Nat.lt_or_ge m.payload.length x.length with hcross | hle
          · -- bytes of the next message are stored
            exfalso
            obtain ⟨z, rfl, hz⟩ := append_split hx.symm hcross.le
            have hne : z ≠ [] := by
              rintro rfl
              simp at hcross
            have hone : 1 ∈ z := mark_mem (fun m' hm' => hmark m' (by simp [hm'])) hne hz
            have hstored := h.stored
            rw [decode, stored_append, stored_decodeStep_first hw0 m] at hstored
            have := hzero 1 (hstored ▸ List.mem_append_left _ (List.mem_append_right _ hone))
            exact absurd this (by decide)
          · obtain ⟨y, hy, hrest⟩ := append_split hx hle
            have hxy : m.payload.length = x.length + y.length := by rw [hy, List.length_append]
            have hpay : [] ++ payloads (m :: ms) = x ++ (y ++ payloads ms) := by
              rw [List.nil_append, payloads, List.map_cons, List.flatten_cons, hy,
                List.append_assoc]
              rfl
            have hz' : ∀ b ∈ y ++ payloads ms, b = 0 := fun b hb =>
              hzero b (by rw [hpay]; exact List.mem_append_right _ hb)
            have hmark' : ∀ m' ∈ ms, m'.header.head? = some 1 := fun m' hm' =>
              hmark m' (by simp [hm'])
            have hdec : DecodedAs (m.payload.length :: lengths ms) (m.payload.length :: lengths ms)
              (x ++ (y ++ payloads ms)) (decode w ((m.header ++ x) :: cs)) := hpay ▸ h
            rw [decode, decodeStep_first hw0 m hy] at hdec
            refine ⟨hge, by rw [hlen, Nat.add_le_add_iff_left]; exact hle, ?_⟩
            show Aligned (cmdLen + m.payload.length - _) _ _
            rw [hlen, Nat.add_sub_add_left, hxy, Nat.add_sub_cancel_left]
            rcases y with _ | ⟨b, y⟩
            · rw [if_pos rfl] at hdec
              nth_rw 1 [show m.payload.length = x.length from hxy] at hdec
              have hw' : WireState.Expects { w with writeState := 0 } 0 0 := rfl
              exact ih (p := []) hw' rfl hcs' hrest hmark' hz' (decodedAs_write_reply.1 hdec)
            · rw [if_neg (by simp)] at hdec
              nth_rw 1 [hxy] at hdec
              have hw' : WireState.Expects ⟨1, x.length, m.payload.length⟩ (b :: y).length
                m.payload.length := ⟨_, rfl, hxy.symm, m.length_payload_lt⟩
              exact ih hw' rfl hcs' hrest hmark' hz' (decodedAs_write.1 hdec)
    · obtain ⟨idx, rfl, hd, hlt⟩ : ∃ idx, w = ⟨1, idx, d⟩ ∧ idx + (rem + 1) = d ∧ d < 2 ^ 64 := hw
      rcases Nat.lt_or_ge (rem + 1) c.length with hcross | hle
      · -- bytes of the next message are stored
        exfalso
        obtain ⟨z, rfl, hz⟩ := append_split hcs (by rw [hp]; exact hcross.le)
        have hne : z ≠ [] := by
          rintro rfl
          simp [hp] at hcross
        have hone : 1 ∈ z := mark_mem hmark hne hz
        have hon : onRecv ⟨1, idx, d⟩ (.got (p ++ z)) =
            .write (p ++ z) (p ++ z).length (.second (p ++ z).length) := by
          rw [onRecv, if_neg (by simp), if_neg (by simp), if_neg (by omega)]
        have hstored := h.stored
        rw [decode, stored_append, decodeStep_of_write hon, stored, stored_replyEvents,
          Int.toNat_natCast, List.take_length, List.append_nil] at hstored
        have := hzero 1 (hstored ▸ List.mem_append_left _ (List.mem_append_right _ hone))
        exact absurd this (by decide)
      · obtain ⟨y, rfl, hrest⟩ := append_split hcs.symm (by rw [hp]; exact hle)
        have hy : c.length + y.length = rem + 1 := by rw [← hp, List.length_append]
        have hz' : ∀ b ∈ y ++ payloads msgs, b = 0 := fun b hb =>
          hzero b (by rw [List.append_assoc]; exact List.mem_append_right _ hb)
        have hdec : DecodedAs ((rem + 1) :: lengths msgs) (d :: lengths msgs)
          (c ++ (y ++ payloads msgs)) (decode ⟨1, idx, d⟩ (c :: cs)) := List.append_assoc c y _ ▸ h
        rw [decode, decodeStep_second hd hlt hc hle] at hdec
        have hal : Aligned y.length (lengths msgs) (cs.map List.length) := by
          rcases y with _ | ⟨b, y⟩
          · have hend : c.length = rem + 1 := hy
            rw [if_pos hend, ← hend] at hdec
            have hw' : WireState.Expects ⟨0, 0, 0⟩ 0 0 := rfl
            exact ih (p := []) hw' rfl hcs' hrest hmark hz' (decodedAs_write_reply.1 hdec)
          · have hne : c.length ≠ rem + 1 := by
              rw [← hy]
              simp
            rw [if_neg hne, ← hy] at hdec
            have hw' : WireState.Expects ⟨1, idx + c.length, d⟩ (b :: y).length d :=
              ⟨_, rfl, by omega, hlt⟩
            exact ih hw' rfl hcs' hrest hmark hz' (decodedAs_write.1 hdec)
        have hsub : rem + 1 - c.length = y.length := by omega
        rw [← hsub] at hal
        rcases msgs with _ | ⟨m, ms⟩ <;> exact ⟨hle, hal⟩

/-! ### The decoder -/

/-- Messages with payloads of zeros and marked headers. -/
def markedMessages (ds : List ℕ) (hd : ∀ d ∈ ds, 1 ≤ d ∧ d < 2 ^ 64) : List Message :=
  ds.pmap (fun d h => .mk' 1 (List.replicate d 0) (by rw [List.length_replicate]; exact h.1)
    (by rw [List.length_replicate]; exact h.2)) hd

theorem lengths_markedMessages (ds : List ℕ) (hd : ∀ d ∈ ds, 1 ≤ d ∧ d < 2 ^ 64) :
    lengths (markedMessages ds hd) = ds := by
  simp [lengths, markedMessages, Message.mk', List.map_pmap, List.pmap_eq_map]

theorem marked_of_mem {ds : List ℕ} {hd : ∀ d ∈ ds, 1 ≤ d ∧ d < 2 ^ 64} {m : Message}
    (hm : m ∈ markedMessages ds hd) : m.header.head? = some 1 ∧ ∀ b ∈ m.payload, b = 0 := by
  obtain ⟨d, hmem, rfl⟩ := List.mem_pmap.1 hm
  exact ⟨rfl, fun b hb => List.eq_of_mem_replicate hb⟩

theorem zero_of_mem_payloads {ds : List ℕ} {hd : ∀ d ∈ ds, 1 ≤ d ∧ d < 2 ^ 64} {b : Byte}
    (hb : b ∈ payloads (markedMessages ds hd)) : b = 0 := by
  obtain ⟨l, hl, hb⟩ := List.mem_flatten.1 hb
  obtain ⟨m, hm, rfl⟩ := List.mem_map.1 hl
  exact (marked_of_mem hm).2 b hb

theorem length_stream_eq_sum (msgs : List Message) :
    (stream msgs).length = ((lengths msgs).map (cmdLen + ·)).sum := by
  rw [stream, List.length_flatten, List.map_map, lengths, List.map_map]
  exact congrArg List.sum (List.map_congr_left fun m _ => m.length_bytes)

/-- **Decoding.** -/
theorem decoded_iff_aligned {ds ls : List ℕ} (hd : ∀ d ∈ ds, 1 ≤ d ∧ d < 2 ^ 64)
    (hl : ∀ l ∈ ls, 1 ≤ l ∧ l ≤ maxline) (hsum : ls.sum = (ds.map (cmdLen + ·)).sum) :
    (∀ msgs chunks, lengths msgs = ds → chunks.map List.length = ls →
      chunks.flatten = stream msgs → Decoded msgs (decode ⟨0, 0, 0⟩ chunks)) ↔ Aligned 0 ds ls := by
  have hw : WireState.Expects ⟨0, 0, 0⟩ 0 0 := rfl
  have hpos : ∀ chunks : List (List Byte), chunks.map List.length = ls →
      ∀ c ∈ chunks, 0 < c.length := by
    rintro chunks rfl c hc
    exact (hl c.length (List.mem_map_of_mem hc)).1
  constructor
  · intro h
    -- these contents tell whether a byte of a header was stored
    have hlen := lengths_markedMessages ds hd
    have hstream : (stream (markedMessages ds hd)).length = ls.sum := by
      rw [length_stream_eq_sum, hlen, hsum]
    have hmap := List.map_splitLengths_length (stream (markedMessages ds hd)) ls hstream.ge
    have hflat := List.flatten_splitLengths (stream (markedMessages ds hd)) ls hstream.le
    have hdec := h _ _ hlen hmap hflat
    have hal := aligned_of_decodedAs (p := []) hw rfl (hpos _ hmap) hflat
      (fun m hm => (marked_of_mem hm).1) (fun b hb => zero_of_mem_payloads hb) hdec
    rwa [hlen, hmap] at hal
  · rintro hal msgs chunks rfl hmap hflat
    exact decodedAs_of_aligned (p := []) hw rfl (hpos _ hmap) hflat (hmap ▸ hal)

/-- Two messages of three and of two bytes. -/
def twoMessages : List Message :=
  [.mk' 1 [7, 8, 9] (by decide) (by decide), .mk' 2 [5, 6] (by decide) (by decide)]

theorem decoded_iff_aligned_two :
    Decoded twoMessages
      (decode ⟨0, 0, 0⟩ ([1066, 2, 1067].splitLengths (stream twoMessages))) := by
  have hd : ∀ d ∈ [3, 2], 1 ≤ d ∧ d < 2 ^ 64 := by decide
  have hl : ∀ l ∈ [1066, 2, 1067], 1 ≤ l ∧ l ≤ maxline := by decide
  have hlen : (stream twoMessages).length = [1066, 2, 1067].sum := length_stream_eq_sum twoMessages
  exact (decoded_iff_aligned hd hl (by decide)).2 (by simp [Aligned, cmdLen]) twoMessages _ rfl
    (List.map_splitLengths_length _ _ hlen.ge) (List.flatten_splitLengths _ _ hlen.le)

/-- A message of one byte. -/
def tinyMessage : Message := .mk' 1 [7] Nat.one_pos (by decide)

/-- A header that arrives in two results makes the length handed to `write_buf` negative. -/
theorem not_decoded : ¬ ∀ msgs chunks, (∀ c ∈ chunks, 1 ≤ c.length ∧ c.length ≤ maxline) →
    chunks.flatten = stream msgs → Decoded msgs (decode ⟨0, 0, 0⟩ chunks) := by
  intro h
  have hlen : tinyMessage.bytes.length = 1066 := tinyMessage.length_bytes
  have hmax : maxline = 2048000 := rfl
  have hdec := h [tinyMessage] [tinyMessage.bytes.take 1000, tinyMessage.bytes.drop 1000]
    (by
      intro c hc
      rcases List.mem_pair.1 hc with hc | hc
      · rw [hc, List.length_take, hlen]
        omega
      · rw [hc, List.length_drop, hlen]
        omega)
    (by rw [List.flatten_cons, List.flatten_singleton, List.take_append_drop, stream,
      List.map_singleton, List.flatten_singleton])
  -- the first call has length `1000 - CMD_LEN`
  have hneg : (decode ⟨0, 0, 0⟩ [tinyMessage.bytes.take 1000, tinyMessage.bytes.drop 1000]).head? =
      some (.write [] (-65)) := by decide +kernel
  have := (hdec.length [] (-65) (List.mem_of_mem_head? hneg)).1
  omega

end ORaidServer
