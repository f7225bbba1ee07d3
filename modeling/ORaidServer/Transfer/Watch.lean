import ORaidServer.Transfer.Threads

/-!
# The events that a thread looks at

What is known of the events of a file is shared by all requests.  A thread looks at two of them: its own, while it
is in its loop, and the one that the record of the file holds.

* `ThreadCtx.Watches`, the requests whose event that is;
* `threadStep_ended`: a thread does the same whatever has become of the other events.
-/

namespace ORaidServer

namespace ThreadCtx

variable {c : ThreadCtx} {m : ℕ → Bool}

/-- The event of `request` is the one of the record, or the thread's own while it is in its loop. -/
def Watches (c : ThreadCtx) (request : ℕ) : Prop :=
  c.file.evAccept = some request ∨ c.thread.pc = .dispatch ∧ request = c.thread.request

/-- The events are in another state. -/
def withEnded (c : ThreadCtx) (m : ℕ → Bool) : ThreadCtx := { c with ended := m }

/-- The events that the thread looks at are as in `m`. -/
def Sees (c : ThreadCtx) (m : ℕ → Bool) : Prop := ∀ r, c.Watches r → c.ended r = m r

/-- A thread that looks at no more than before sees the same. -/
theorem Sees.mono {c' : ThreadCtx} (h : c.Sees m) (hended : c'.ended = c.ended)
    (hwatch : ∀ r, c'.Watches r → c.Watches r) : c'.Sees m := fun r hr => by rw [hended, h r (hwatch r hr)]

/-- Where the thread stays in its loop, or is not in it, and the record keeps its event. -/
theorem Sees.frame {c' : ThreadCtx} (h : c.Sees m) (hended : c'.ended = c.ended)
    (hev : c'.file.evAccept = c.file.evAccept) (hrequest : c'.thread.request = c.thread.request)
    (hpc : c'.thread.pc = .dispatch → c.thread.pc = .dispatch) : c'.Sees m := by
  refine h.mono hended fun r hr => ?_
  rcases hr with hr | ⟨hd, hr⟩
  · exact Or.inl (hev.symm.trans hr)
  · exact Or.inr ⟨hpc hd, hr.trans hrequest⟩

theorem sees_goto (h : c.Sees m) {pc : ThreadPc} (hpc : pc ≠ .dispatch) : (c.goto pc).Sees m :=
  h.frame rfl rfl rfl fun hd => absurd hd hpc

theorem sees_fail (h : c.Sees m) : c.fail.Sees m := h.frame rfl rfl rfl ThreadPc.noConfusion

/-- A call of the setup. -/
theorem call_ended (h : c.Sees m) (ok : Bool) :
    (c.withEnded m).call ok = (c.call ok).withEnded m ∧ (c.call ok).Sees m := by
  unfold call
  rw [show (c.withEnded m).thread = c.thread from rfl]
  cases c.thread.pc with
  | socket | connect | header =>
    cases ok
    · exact ⟨rfl, sees_fail h⟩
    · exact ⟨rfl, sees_goto h ThreadPc.noConfusion⟩
  | malloc k =>
    have hset : ∀ p, (c.setPtr k p).Sees m := fun p => h.frame rfl rfl rfl id
    simp only [malloc]
    by_cases hfail : ok = false ∨ c.correctFlag = -1
    · rw [if_pos hfail, if_pos (show ok = false ∨ (c.withEnded m).correctFlag = -1 from hfail)]
      exact ⟨rfl, sees_goto (hset _) ThreadPc.noConfusion⟩
    · rw [if_neg hfail, if_neg (show ¬ (ok = false ∨ (c.withEnded m).correctFlag = -1) from hfail)]
      refine ⟨rfl, sees_goto (hset _) ?_⟩
      split_ifs <;> exact ThreadPc.noConfusion
  | _ => exact ⟨rfl, h⟩

/-- The event is added. -/
theorem start_ended : (c.withEnded m).start = c.start.withEnded (Function.update m c.thread.request false) ∧
    c.start.Sees (Function.update m c.thread.request false) := by
  refine ⟨rfl, fun r hr => ?_⟩
  obtain rfl : r = c.thread.request := by
    rcases hr with hr | ⟨-, hr⟩
    · exact (Option.some.inj hr).symm
    · exact hr
  rw [Function.update_self]
  exact Function.update_self ..

/-- The end of a connection. -/
theorem leave_ended (h : c.Sees m) (hpc : c.thread.pc = .dispatch) (failed : Bool) :
    ∃ m', (c.withEnded m).leave failed = (c.leave failed).withEnded m' ∧ (c.leave failed).Sees m' := by
  have hfault : (c.goto .faulted).Sees m := sees_goto h ThreadPc.noConfusion
  unfold leave
  rw [show (c.withEnded m).file = c.file from rfl]
  cases hev : c.file.evAccept with
  | none => exact ⟨m, rfl, hfault⟩
  | some ev =>
    cases hbase : c.file.base with
    | none => exact ⟨m, rfl, hfault⟩
    | some base =>
      dsimp only
      have hsame : c.ended ev = m ev := h ev (Or.inl hev)
      rw [show (c.withEnded m).ended = m from rfl, ← hsame]
      by_cases hended : c.ended ev = true
      · rw [if_pos hended, if_pos hended]
        exact ⟨m, rfl, hfault⟩
      · rw [if_neg hended, if_neg hended]
        -- the same events are removed
        have hupdate : ∀ r, c.Watches r → Function.update (Function.update c.ended ev true) base true r =
            Function.update (Function.update m ev true) base true r := by
          intro r hr
          simp only [Function.update_apply, h r hr]
        have hown := hupdate c.thread.request (Or.inr ⟨hpc, rfl⟩)
        refine ⟨Function.update (Function.update m ev true) base true, ?_, fun r hr => hupdate r ?_⟩
        · rw [show (c.withEnded m).thread = c.thread from rfl, ← hown]
          rfl
        · rcases hr with hr | ⟨-, hr⟩
          · exact Or.inl hr
          · exact Or.inr ⟨hpc, hr⟩

/-- A callback, up to the call of `write_buf`. -/
theorem event_ended (h : c.Sees m) (hpc : c.thread.pc = .dispatch) (xorFlag : ℤ) (r : RecvResult) :
    ∃ m', (c.withEnded m).event xorFlag r = (c.event xorFlag r).withEnded m' ∧ (c.event xorFlag r).Sees m' := by
  unfold event
  rw [show (c.withEnded m).correctFlag = c.correctFlag from rfl, show (c.withEnded m).file = c.file from rfl]
  split_ifs
  · exact ⟨m, rfl, h.frame rfl rfl rfl id⟩
  · split
    · exact leave_ended h hpc _
    · exact ⟨m, rfl, h⟩
    · exact ⟨m, rfl, h.frame rfl rfl rfl id⟩
    · split_ifs
      · exact ⟨m, rfl, sees_goto h ThreadPc.noConfusion⟩
      · exact ⟨m, rfl, h.frame rfl rfl rfl id⟩

end ThreadCtx

/-- **What a thread does depends on the events that it looks at only.** -/
theorem threadStep_ended {c : ThreadCtx} {m : ℕ → Bool} (h : c.Sees m) (fileSize xorFlag : ℤ) (a : ThreadAct) :
    ∃ m', threadStep fileSize xorFlag (c.withEnded m) a = (threadStep fileSize xorFlag c a).withEnded m' ∧
      (threadStep fileSize xorFlag c a).Sees m' := by
  cases a with
  | call ok => exact ⟨m, ThreadCtx.call_ended h ok⟩
  | recv r =>
    have hown : c.Waits → c.ended c.thread.request = m c.thread.request := fun hw => h _ (Or.inr ⟨hw.1, rfl⟩)
    unfold threadStep
    dsimp only
    by_cases hw : c.Waits ∧ c.ended c.thread.request = false
    · have hw' : (c.withEnded m).Waits ∧ (c.withEnded m).ended (c.withEnded m).thread.request = false :=
        ⟨hw.1, (hown hw.1).symm.trans hw.2⟩
      rw [if_pos hw, if_pos hw']
      exact ThreadCtx.event_ended h hw.1.1 xorFlag r
    · have hw' : ¬ ((c.withEnded m).Waits ∧ (c.withEnded m).ended (c.withEnded m).thread.request = false) :=
        fun hc => hw ⟨hc.1, (hown hc.1).trans hc.2⟩
      rw [if_neg hw, if_neg hw']
      exact ⟨m, rfl, h⟩
  | proceed =>
    unfold threadStep
    rw [show (c.withEnded m).thread = c.thread from rfl]
    cases hpc : c.thread.pc with
    | start => exact ⟨_, ThreadCtx.start_ended⟩
    | dispatch =>
      cases hnext : c.thread.next with
      | none =>
        have hown : c.ended c.thread.request = m c.thread.request := h _ (Or.inr ⟨hpc, rfl⟩)
        dsimp only
        rw [show (c.withEnded m).ended = m from rfl, ← hown]
        split_ifs
        · exact ⟨m, rfl, ThreadCtx.sees_goto h ThreadPc.noConfusion⟩
        · exact ⟨m, rfl, h⟩
      | some next =>
        dsimp only
        split_ifs
        · exact ⟨m, rfl, h.frame rfl rfl rfl id⟩
        · obtain ⟨b, i, hframe⟩ := writeBufStep_frame fileSize c.writeCtx
          exact ⟨m, rfl, h.frame rfl ((congrArg SingleFileInfo.evAccept hframe).trans rfl) rfl id⟩
    | _ => exact ⟨m, rfl, h⟩

end ORaidServer
