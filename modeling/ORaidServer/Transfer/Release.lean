import ORaidServer.Group.Count
import ORaidServer.Transfer.Own
import ORaidServer.Wire.Receiver

/-!
# The life of the buffers

The two buffers of a file are freed in two places: by every callback of its thread that finds the group over,
and by the `buf_xor` that completes the output.

* `Transfer.releases` and `Transfer.uses`, the buffers that a step frees, and those that it reads or writes;
* `ThreadCtx.Sound`, the invariant of a thread, and `Transfer.BufInv`, that of a transfer, with their step
  lemmas;
* `allowed_safe_iff`: in which runs only live buffers are freed and used.
-/

namespace ORaidServer

open Guarded

/-- The buffers that the next step of `write_buf` reads or writes. -/
def FileCtx.uses (c : FileCtx) : List (Fin 2) :=
  match c.loc.pc with
  | .head =>
    if (c.info.buf 0).flag = .writing then if (c.memcpyInto 0).count = 0 then [] else [0]
    else if (c.info.buf 1).flag = .writing then if (c.memcpyInto 1).count = 0 then [] else [1]
    else []
  | .tail0 => if (c.info.buf 0).flag = .empty ∧ (c.info.buf 1).flag ≠ .writing then [0] else []
  | .tail1 => if (c.info.buf 1).flag = .empty ∧ (c.info.buf 0).flag ≠ .writing then [1] else []
  | _ => []

/-- A step of `write_buf` leaves the content of the buffers alone that it does not use. -/
theorem FileCtx.bytes_of_notMem_uses {N : ℤ} {c : FileCtx} {k : Fin 2} (hk : k ∉ c.uses) :
    ((writeBufStep N c).info.buf k).bytes = (c.info.buf k).bytes := by
  have hinto : ∀ k', (k ∉ if (c.memcpyInto k').count = 0 then [] else [k']) →
      ((storeInto N k' c).info.buf k).bytes = (c.info.buf k).bytes := by
    intro k' hk'
    rcases eq_or_ne k k' with rfl | hne
    · have hcount : (c.memcpyInto k).count = 0 := by
        by_contra hcount
        rw [if_neg hcount] at hk'
        exact hk' (List.mem_singleton_self k)
      rw [storeInto_memcpy, hcount]
      simp
    · unfold storeInto
      dsimp only
      split_ifs <;> simp [SingleFileInfo.buf_setBuf, hne]
  unfold uses at hk
  unfold writeBufStep
  cases hpc : c.loc.pc with
  | head =>
    simp only [hpc] at hk
    dsimp only
    by_cases h0 : (c.info.buf 0).flag = .writing
    · rw [if_pos h0] at hk
      rw [if_pos h0]
      exact hinto 0 hk
    · rw [if_neg h0] at hk
      rw [if_neg h0]
      by_cases h1 : (c.info.buf 1).flag = .writing
      · rw [if_pos h1] at hk
        rw [if_pos h1]
        exact hinto 1 hk
      · rw [if_neg h1]
  | mark k' more =>
    show ((c.info.setBuf k' _).buf k).bytes = _
    rw [SingleFileInfo.buf_setBuf]
    split_ifs with hkk
    · rw [hkk]
    · rfl
  | tail0 | tail1 =>
    simp only [hpc] at hk
    dsimp only
    split_ifs at hk ⊢
    · rw [List.mem_singleton] at hk
      simp [makeWritable, SingleFileInfo.buf_setBuf, hk]
    · rfl
  | _ => rfl

/-- `write_buf` neither allocates nor frees. -/
theorem writeBufStep_ptr (N : ℤ) (c : FileCtx) : (writeBufStep N c).info.ptr = c.info.ptr := by
  obtain ⟨b, i, h⟩ := writeBufStep_frame N c
  rw [h]

/-! ### One thread -/

/-- Before the event is added. -/
def ThreadPc.Setup : ThreadPc → Prop
  | .dispatch | .faulted | .exited => False
  | _ => True

namespace ThreadCtx

/-- The buffers of the file have been freed, by `buf_xor` or by a callback of the thread. -/
def Gone (xorFlag : ℤ) (c : ThreadCtx) : Prop := xorFlag = 1 ∨ c.thread.noticed = true

/-- The invariant of a thread. -/
structure Sound (xorFlag : ℤ) (c : ThreadCtx) : Prop where
  setup : c.thread.pc.Setup → xorFlag ≠ 1 ∧ ∀ k, (c.file.buf k).flag = .empty
  idle : c.thread.next = none → c.thread.loc.pc = .idle
  inside : c.thread.next ≠ none → c.thread.pc = .dispatch
  malloc : c.thread.pc = .malloc 1 → c.file.ptr 0 ≠ .null
  made : c.thread.pc = .start ∨ c.thread.pc = .dispatch ∨ (∃ k, (c.file.buf k).flag ≠ .empty) →
    ∀ k, c.file.ptr k ≠ .null
  noticed : c.thread.noticed = true → c.Waits ∧ c.Over xorFlag
  released : ∀ k, c.file.ptr k = .released ↔ c.Gone xorFlag

namespace Sound

variable {N xorFlag : ℤ} {c : ThreadCtx}

/-- A thread that does not wait, or does not find the group over, has not noticed anything. -/
theorem noticed_eq_false (h : c.Sound xorFlag) (hc : ¬ (c.Waits ∧ c.Over xorFlag)) :
    c.thread.noticed = false := by
  cases hn : c.thread.noticed with
  | false => rfl
  | true => exact absurd (h.noticed hn) hc

theorem not_gone (h : c.Sound xorFlag) (hs : c.thread.pc.Setup) : ¬ c.Gone xorFlag := by
  rintro (hx | hn)
  · exact (h.setup hs).1 hx
  · rw [(h.noticed hn).1.1] at hs
    exact hs

/-- A buffer that has been allocated is live until it is gone. -/
theorem live_iff (h : c.Sound xorFlag) {k : Fin 2} (hmade : c.file.ptr k ≠ .null) :
    (c.file.ptr k).Live ↔ ¬ c.Gone xorFlag := by
  rw [← h.released k]
  cases hp : c.file.ptr k with
  | null => exact absurd hp hmade
  | live r => exact iff_of_true trivial Ptr.noConfusion
  | released => exact iff_of_false not_false fun hne => hne rfl

/-- The thread goes on to a place that promises nothing. -/
theorem move (h : c.Sound xorFlag) {pc : ThreadPc} {e : ℕ → Bool} (f : ℤ) (hs : pc.Setup → c.thread.pc.Setup)
    (hpc : pc ≠ .malloc 1 ∧ pc ≠ .start ∧ pc ≠ .dispatch) (hnext : c.thread.next = none)
    (hnot : c.thread.noticed = false) :
    Sound xorFlag { c with correctFlag := f, ended := e, thread.pc := pc } := by
  refine ⟨fun hp => h.setup (hs hp), h.idle, fun hn => absurd hnext hn, fun hp => absurd hp hpc.1,
    ?_, ?_, h.released⟩
  · rintro (hp | hp | hf)
    · exact absurd hp hpc.2.1
    · exact absurd hp hpc.2.2
    · exact h.made (Or.inr (Or.inr hf))
  · intro hn
    rw [hnot] at hn
    cases hn

/-- A buffer has been allocated, or not. -/
theorem setPtr (h : c.Sound xorFlag) {k : Fin 2} (hpc : c.thread.pc = .malloc k) {p : Ptr}
    (hp : p ≠ .released) {pc : ThreadPc} (hto : pc = .exited ∨
      p ≠ .null ∧ pc = if k = 0 then .malloc 1 else .start) :
    Sound xorFlag ((c.setPtr k p).goto pc) := by
  have hs : c.thread.pc.Setup := by
    rw [hpc]
    trivial
  have hempty : ∀ k', (((c.setPtr k p).goto pc).file.buf k').flag = .empty := fun k' =>
    (c.flag_setPtr k p k').trans ((h.setup hs).2 k')
  refine ⟨fun _ => ⟨(h.setup hs).1, hempty⟩, h.idle, fun hn => ?_, ?_, ?_, fun hn => ?_, fun k' => ?_⟩
  · rw [h.inside hn] at hpc
    cases hpc
  · rcases hto with rfl | ⟨hnull, hpc'⟩
    · intro h1
      cases h1
    · intro h1
      obtain rfl : k = 0 := by
        by_contra hk
        rw [if_neg hk] at hpc'
        exact absurd (hpc'.symm.trans h1) (by decide)
      show Function.update c.file.ptr 0 p 0 ≠ .null
      rwa [Function.update_self]
  · rintro (h1 | h1 | ⟨k', hk'⟩)
    · rcases hto with rfl | ⟨hnull, hpc'⟩
      · cases h1
      · have hk : k ≠ 0 := by
          rintro rfl
          rw [if_pos rfl] at hpc'
          exact absurd (hpc'.symm.trans h1) (by decide)
        obtain rfl : k = 1 := by omega
        intro k'
        show Function.update c.file.ptr 1 p k' ≠ .null
        rcases eq_or_ne k' 1 with rfl | hk'
        · rwa [Function.update_self]
        · obtain rfl : k' = 0 := by omega
          rw [Function.update_of_ne hk']
          exact h.malloc hpc
    · exfalso
      rcases hto with rfl | ⟨-, hpc'⟩
      · cases h1
      · rw [show pc = .dispatch from h1] at hpc'
        split_ifs at hpc'
    · exact absurd (hempty k') hk'
  · rw [(h.noticed hn).1.1] at hpc
    cases hpc
  · refine iff_of_false ?_ (h.not_gone hs)
    show Function.update c.file.ptr k p k' ≠ .released
    rcases eq_or_ne k' k with rfl | hk'
    · rw [Function.update_self]
      exact hp
    · rw [Function.update_of_ne hk']
      exact fun hr => h.not_gone hs ((h.released k').1 hr)

/-- A step of its thread keeps the invariant. -/
theorem step (h : c.Sound xorFlag) (hown : c.Own) {a : ThreadAct} {c' : ThreadCtx}
    (hm : ThreadMove N xorFlag c a c') : c'.Sound xorFlag := by
  cases hm with
  | stay a => exact h
  | connected pc hpc hto =>
    have hs : c.thread.pc.Setup := by rcases hpc with hpc | hpc | hpc <;> rw [hpc] <;> trivial
    have hd : c.thread.pc ≠ .dispatch := by rcases hpc with hpc | hpc | hpc <;> simp [hpc]
    refine h.move c.correctFlag (fun _ => hs) ?_ (by_contra fun hn => hd (h.inside hn))
      (h.noticed_eq_false fun hw => hd hw.1.1)
    rcases hto with rfl | rfl | rfl <;> decide
  | unconnected hpc =>
    have hd : c.thread.pc ≠ .dispatch := by rcases hpc with hpc | hpc | hpc <;> simp [hpc]
    exact h.move (-1) (fun hs => hs.elim) (by decide) (by_contra fun hn => hd (h.inside hn))
      (h.noticed_eq_false fun hw => hd hw.1.1)
  | allocated k hpc hflag => exact h.setPtr hpc Ptr.noConfusion (Or.inr ⟨Ptr.noConfusion, rfl⟩)
  | unallocated k ok hpc hfail => exact h.setPtr hpc (by cases ok <;> exact Ptr.noConfusion) (Or.inl rfl)
  | start hpc =>
    have hs : c.thread.pc.Setup := by rw [hpc]; trivial
    refine ⟨fun hs' => hs'.elim, h.idle, fun _ => rfl, fun hp => (by cases hp), fun _ => ?_, ?_,
      h.released⟩
    · exact h.made (Or.inl hpc)
    · intro hn
      exact absurd (Or.inr hn) (h.not_gone hs)
  | notice r hw hover =>
    refine ⟨fun hs => ?_, h.idle, h.inside, fun hp => ?_, fun _ k hp => ?_, fun _ => ⟨hw, hover⟩,
      fun k => iff_of_true rfl (Or.inr rfl)⟩
    · rw [show _ = ThreadPc.dispatch from hw.1] at hs
      exact hs.elim
    · exact absurd (hw.1.symm.trans hp) (by decide)
    · cases hp
  | stray r failed hw _ hloop _ => exact absurd (hown.hasLoop hw.1) hloop
  | dismissed hw hended => exact absurd (hended.symm.trans (hown.hasLoop hw.1).2.2) Bool.noConfusion
  | lost hw hover hloop =>
    exact h.move (-1) (fun hs => hs.elim) (by decide) hw.2 (h.noticed_eq_false fun hc => hover hc.2)
  | closed hw hover hloop hws =>
    exact h.move c.correctFlag (fun hs => hs.elim) (by decide) hw.2
      (h.noticed_eq_false fun hc => hover hc.2)
  | reset r hw hover => exact ⟨h.setup, h.idle, h.inside, h.malloc, h.made, h.noticed, h.released⟩
  | fault r hw hover =>
    exact h.move c.correctFlag (fun hs => hs.elim) (by decide) hw.2
      (h.noticed_eq_false fun hc => hover hc.2)
  | call r buffer next hw hover =>
    refine ⟨h.setup, fun hn => (by cases hn), fun _ => hw.1, h.malloc, h.made, fun hn => ?_,
      h.released⟩
    exact absurd (h.noticed hn).2 hover
  | write next hpc hnext hpc' =>
    have hptr : ((c.setWriteCtx (writeBufStep N c.writeCtx)).file).ptr = c.file.ptr :=
      writeBufStep_ptr N c.writeCtx
    refine ⟨fun hs => ?_, fun hn => ?_, h.inside, fun hp => ?_, fun _ => ?_, h.noticed, fun k => ?_⟩
    · exact (show (ThreadPc.dispatch).Setup from hpc ▸ hs).elim
    · exact absurd (hnext.symm.trans hn) (by simp)
    · exact absurd (hpc.symm.trans hp) (by decide)
    · rw [hptr]
      exact h.made (Or.inr (Or.inl hpc))
    · rw [hptr]
      exact h.released k
  | finish next hpc hnext hidle =>
    refine ⟨h.setup, fun _ => hidle, fun hn => absurd rfl hn, h.malloc, h.made, fun hn => ?_,
      h.released⟩
    exact absurd ((h.noticed hn).1.2.symm.trans hnext) (by simp)

/-- What the other parties do keeps the invariant: flags may be reset, `correct_flag` may be raised, and
`buf_xor` may free the buffers of a thread past its setup. -/
theorem frame (h : c.Sound xorFlag) {c' : ThreadCtx} {xorFlag' : ℤ} (hthread : c'.thread = c.thread)
    (hflag : ∀ k, (c'.file.buf k).flag = (c.file.buf k).flag ∨ (c'.file.buf k).flag = .empty)
    (hptr : xorFlag' = xorFlag ∧ c'.file.ptr = c.file.ptr ∨
      xorFlag' = 1 ∧ ¬ c.thread.pc.Setup ∧ c'.file.ptr = fun _ => .released)
    (hover : c.Over xorFlag → c'.Over xorFlag') : c'.Sound xorFlag' := by
  have hnonempty : (∃ k, (c'.file.buf k).flag ≠ .empty) → ∃ k, (c.file.buf k).flag ≠ .empty := by
    rintro ⟨k, hk⟩
    exact ⟨k, fun he => hk ((hflag k).elim (fun hsame => hsame.trans he) id)⟩
  refine ⟨?_, ?_, ?_, ?_, ?_, ?_, ?_⟩
  all_goals try rw [hthread]
  · intro hs
    rcases hptr with ⟨rfl, -⟩ | ⟨-, hnot, -⟩
    · exact ⟨(h.setup hs).1, fun k => (hflag k).elim (fun hsame => hsame.trans ((h.setup hs).2 k)) id⟩
    · exact absurd hs hnot
  · exact h.idle
  · exact h.inside
  · intro hpc
    rcases hptr with ⟨-, hp⟩ | ⟨-, hnot, -⟩
    · rw [hp]
      exact h.malloc hpc
    · rw [hpc] at hnot
      exact absurd trivial hnot
  · rintro hmade k
    rcases hptr with ⟨-, hp⟩ | ⟨-, -, hp⟩
    · rw [hp]
      exact h.made (hmade.imp_right (Or.imp_right hnonempty)) k
    · rw [hp]
      exact Ptr.noConfusion
  · intro hn
    obtain ⟨hw, ho⟩ := h.noticed hn
    refine ⟨?_, hover ho⟩
    rw [Waits, hthread]
    exact hw
  · intro k
    rcases hptr with ⟨rfl, hp⟩ | ⟨rfl, -, hp⟩
    · rw [hp, Gone, hthread]
      exact h.released k
    · rw [hp]
      exact iff_of_true rfl (Or.inl rfl)

end Sound

end ThreadCtx

/-! ### The transfer -/

namespace Transfer

/-- The buffers of the files below `n`. -/
def buffers (n : ℕ) : List (ℕ × Fin 2) := (List.range n).flatMap fun i => [(i, 0), (i, 1)]

/-- The buffers that a step frees. -/
def releases (s : Transfer) : TransferAct → List (ℕ × Fin 2)
  | .thread i (.recv _) =>
    if i < s.group.fileNum ∧ (s.ctx i).Waits ∧ (s.ctx i).Over s.group.xorFlag then [(i, 0), (i, 1)]
    else []
  | .judge =>
    match s.main with
    | .judge ⟨.xor k, fileNum⟩ => if s.group.Completes fileNum s.out k then buffers fileNum else []
    | _ => []
  | _ => []

/-- The buffers that a step of `write_buf` or of `buf_xor` reads or writes. -/
def uses (s : Transfer) : TransferAct → List (ℕ × Fin 2)
  | .thread i .proceed =>
    if i < s.group.fileNum ∧ (s.thread i).pc = .dispatch ∧ (s.thread i).next ≠ none then
      (s.ctx i).writeCtx.uses.map fun k => (i, k)
    else []
  | .judge =>
    match s.main with
    | .judge ⟨.xor k, fileNum⟩ =>
      let num0 := ((s.group.file 0).buf k).bufSize
      if (∀ i < fileNum, ((s.group.file i).buf k).bufSize = num0) ∧ num0 ≠ 0 then
        (List.range fileNum).map fun i => (i, k)
      else []
    | _ => []
  | _ => []

/-- The step frees live buffers only, and reads and writes live buffers only. -/
structure Safe (s : Transfer) (a : TransferAct) : Prop where
  releases : ∀ b ∈ s.releases a, ((s.group.file b.1).ptr b.2).Live
  uses : ∀ b ∈ s.uses a, ((s.group.file b.1).ptr b.2).Live

instance (s : Transfer) (a : TransferAct) : Decidable (s.Safe a) :=
  decidable_of_iff ((∀ b ∈ s.releases a, ((s.group.file b.1).ptr b.2).Live) ∧
      ∀ b ∈ s.uses a, ((s.group.file b.1).ptr b.2).Live)
    ⟨fun h => ⟨h.1, h.2⟩, fun h => ⟨h.1, h.2⟩⟩

/-- A step that frees or uses a buffer of a file comes neither after `xor_flag` has become `1` nor after a
callback of the file has found the group over. -/
def Owned (s : Transfer) (a : TransferAct) : Prop :=
  ∀ b ∈ s.releases a ++ s.uses a, s.group.xorFlag ≠ 1 ∧ (s.thread b.1).noticed = false

theorem mem_buffers {n : ℕ} {b : ℕ × Fin 2} : b ∈ buffers n ↔ b.1 < n := by
  obtain ⟨i, k⟩ := b
  unfold buffers
  rw [List.mem_flatMap]
  constructor
  · rintro ⟨j, hj, hb⟩
    obtain rfl : i = j := by
      simp only [List.mem_cons, Prod.mk.injEq, List.not_mem_nil, or_false] at hb
      exact hb.elim And.left And.left
    exact List.mem_range.1 hj
  · intro hi
    refine ⟨i, List.mem_range.2 hi, ?_⟩
    obtain rfl | rfl : k = 0 ∨ k = 1 := by omega
    · exact List.mem_cons_self
    · exact List.mem_cons_of_mem _ List.mem_cons_self

theorem mem_releases_thread {s : Transfer} {j : ℕ} {act : ThreadAct} {b : ℕ × Fin 2} :
    b ∈ s.releases (.thread j act) ↔ b.1 = j ∧ j < s.group.fileNum ∧ (∃ r, act = .recv r) ∧
      (s.ctx j).Waits ∧ (s.ctx j).Over s.group.xorFlag := by
  unfold releases
  cases act with
  | recv r =>
    dsimp only
    split_ifs with hc
    · obtain ⟨i, k⟩ := b
      constructor
      · intro hb
        simp only [List.mem_cons, Prod.mk.injEq, List.not_mem_nil, or_false] at hb
        exact ⟨hb.elim And.left And.left, hc.1, ⟨r, rfl⟩, hc.2⟩
      · rintro ⟨rfl, -⟩
        obtain rfl | rfl : k = 0 ∨ k = 1 := by omega
        · exact List.mem_cons_self
        · exact List.mem_cons_of_mem _ List.mem_cons_self
    · exact iff_of_false List.not_mem_nil fun hb => hc ⟨hb.2.1, hb.2.2.2⟩
  | _ =>
    apply iff_of_false List.not_mem_nil
    rintro ⟨-, -, ⟨r, hr⟩, -⟩
    cases hr

theorem mem_releases_judge {s : Transfer} {b : ℕ × Fin 2} :
    b ∈ s.releases .judge ↔
      ∃ k fileNum, s.main = .judge ⟨.xor k, fileNum⟩ ∧ s.group.Completes fileNum s.out k ∧
        b.1 < fileNum := by
  unfold releases
  dsimp only
  split
  · rename_i k fileNum hmain
    split_ifs with hc
    · rw [mem_buffers]
      refine ⟨fun hb => ⟨k, fileNum, hmain, hc, hb⟩, ?_⟩
      rintro ⟨k', m, hmain', -, hb⟩
      rw [hmain] at hmain'
      cases hmain'
      exact hb
    · apply iff_of_false List.not_mem_nil
      rintro ⟨k', m, hmain', hc', -⟩
      rw [hmain] at hmain'
      cases hmain'
      exact hc hc'
  · rename_i hmain
    apply iff_of_false List.not_mem_nil
    rintro ⟨k', m, hmain', -⟩
    exact hmain k' m hmain'

/-! ### The invariant of a transfer -/

/-- The consumer, before it is entered and after the return. -/
def judgeLocal (s : Transfer) : JudgeLocal :=
  match s.main with
  | .judge j => j
  | .returned ret => ⟨.done ret, s.group.fileNum⟩
  | .fopen | .create _ => ⟨.test 0, s.group.fileNum⟩

/-- The calls of `write_buf` and the consumer; what else the producers will hand over is left open. -/
def stream (s : Transfer) (pieces : ℕ → List (List Byte)) : Stream :=
  ⟨s.group, fun i => ⟨(s.thread i).loc, pieces i⟩, s.judgeLocal, s.out⟩

/-- The invariant of a transfer of `n` files. -/
structure BufInv (n : ℕ) (s : Transfer) : Prop where
  count : ∀ pieces, CountInv n (s.stream pieces)
  sound : ∀ i < n, (s.ctx i).Sound s.group.xorFlag
  before : ∀ k, s.judgeLocal.pc = .test k ∨ s.judgeLocal.pc = .xor k → s.group.xorFlag = 0
  own : s.Own

namespace BufInv

variable {n : ℕ} {s : Transfer}

theorem unborn (h : BufInv n s) (i : ℕ) (hi : s.main = .fopen ∨ (∃ l, s.main = .create l ∧ l ≤ i)) :
    (s.thread i).pc = .unborn := h.own.unborn i hi

theorem fileNum (h : BufInv n s) : s.group.fileNum = n := (h.count fun _ => []).fileNum

/-- A step of thread `i` as the calls of `write_buf` see it: what they see of the file and of the thread is as
in `S`, and all else is as before. -/
theorem count_setCtx {i : ℕ} {c : ThreadCtx} {pieces : ℕ → List (List Byte)} {S : Stream}
    (hS : CountInv n S) (hfileNum : s.group.fileNum = n) (hjudge : S.judge = s.judgeLocal)
    (hne : ∀ j ≠ i, S.group.file j = s.group.file j ∧ (S.writer j).loc = (s.thread j).loc)
    (hnum : c.num = S.group.bufFullNum) (hfull : ∀ k, c.file.Full k ↔ (S.group.file i).Full k)
    (hwriting : ∀ k, (S.group.file i).Writing k → c.file.Writing k)
    (hpc : c.thread.loc.pc = (S.writer i).loc.pc) : CountInv n ((s.setCtx i c).stream pieces) := by
  have hfile : ∀ j, (s.setCtx i c).group.file j = if j = i then c.file else s.group.file j := fun j =>
    TGroupFileInfo.file_setFile ..
  refine hS.frame hfileNum ((congrArg JudgeLocal.fileNum hjudge).symm.trans hS.judgeNum) hnum ?_ ?_ ?_
    (Or.inl (by rw [hjudge]; rfl))
  all_goals
    intro j hj
    by_cases hji : j = i
  · intro k
    show ((s.setCtx i c).group.file j).Full k ↔ _
    rw [hfile, if_pos hji, hji]
    exact hfull k
  · intro k
    show ((s.setCtx i c).group.file j).Full k ↔ _
    rw [hfile, if_neg hji, (hne j hji).1]
  · intro k hk
    show ((s.setCtx i c).group.file j).Writing k
    rw [hfile, if_pos hji]
    exact hwriting k (hji ▸ hk)
  · intro k hk
    show ((s.setCtx i c).group.file j).Writing k
    rw [hfile, if_neg hji, ← (hne j hji).1]
    exact hk
  · subst hji
    show ((s.setCtx j c).thread j).loc.pc = _
    rw [show (s.setCtx j c).thread j = c.thread from Function.update_self .., hpc]
  · show ((s.setCtx i c).thread j).loc.pc = _
    rw [s.thread_setCtx_of_ne i c hji, (hne j hji).2]

/-- A step of a thread keeps the invariant. -/
theorem thread (h : BufInv n s) {i : ℕ} (hi : i < n) {a : ThreadAct} {c : ThreadCtx}
    (hm : ThreadMove s.group.fileSize s.group.xorFlag (s.ctx i) a c) (hown : (s.setCtx i c).Own) :
    BufInv n (s.setCtx i c) := by
  refine ⟨fun pieces => ?_, fun j hj => ?_, h.before, hown⟩
  · -- the thread calls `write_buf` or takes a step of it
    have hcall : ∀ {ps c' ps'}, WriterMove s.group.fileSize (s.ctx i).writeCtx ps c' ps' →
        c.num = c'.num → c.file = c'.info → c.thread.loc = c'.loc →
        CountInv n ((s.setCtx i c).stream pieces) := by
      intro ps c' ps' hwm hnum hfile hloc
      have hps : ((s.stream (Function.update pieces i ps)).writer i).pieces = ps :=
        Function.update_self ..
      have hput := (h.count (Function.update pieces i ps)).writer hi (hps ▸ hwm)
      refine count_setCtx hput h.fileNum rfl (fun j hji => ?_) hnum ?_ ?_ ?_
      · rw [Stream.file_put_of_ne _ _ _ hji, Stream.writer_put_of_ne _ _ _ hji]
        exact ⟨rfl, rfl⟩
      · rw [Stream.file_put_self, hfile]
        exact fun _ => Iff.rfl
      · rw [Stream.file_put_self, hfile]
        exact fun _ => id
      · rw [Stream.writer_put_self, hloc]
    -- or does something that `write_buf` does not see
    have hkeep : c.num = s.group.bufFullNum → (∀ k, c.file.Full k ↔ (s.group.file i).Full k) →
        (∀ k, (s.group.file i).Writing k → c.file.Writing k) →
        c.thread.loc.pc = (s.thread i).loc.pc → CountInv n ((s.setCtx i c).stream pieces) :=
      count_setCtx (h.count pieces) h.fileNum rfl fun _ _ => ⟨rfl, rfl⟩
    cases hm with
    | call r buffer next hw hover =>
      exact hcall (.call buffer [] ((h.sound i hi).idle hw.2)) rfl rfl rfl
    | write next hpc hnext hidle => exact hcall (.step [] hidle) rfl rfl rfl
    | start hpc =>
      have hempty : ∀ k, ((s.group.file i).buf k).flag = .empty :=
        ((h.sound i hi).setup (by rw [hpc]; trivial)).2
      refine hkeep rfl (fun k => iff_of_false ?_ ?_) (fun k hk => ?_) rfl
      · obtain rfl | rfl : k = 0 ∨ k = 1 := by omega
        · intro hk
          cases hk
        · intro hk
          cases hk
      · rw [SingleFileInfo.Full, hempty k]
        decide
      · rw [SingleFileInfo.Writing, hempty k] at hk
        cases hk
    | allocated k _ _ | unallocated k _ _ _ =>
      have hflag := (s.ctx i).flag_setPtr k
      refine hkeep rfl (fun k' => ?_) (fun k' hk' => (hflag _ k').trans hk') rfl
      exact ⟨fun hk' => (hflag _ k').symm.trans hk', fun hk' => (hflag _ k').trans hk'⟩
    | stray r failed hw _ hloop _ => exact absurd ((h.own.thread i).hasLoop hw.1) hloop
    | _ => exact hkeep rfl (fun _ => Iff.rfl) (fun _ => id) rfl
  · rcases eq_or_ne j i with rfl | hji
    · rw [s.ctx_setCtx_self]
      exact (h.sound j hi).step (h.own.thread j) hm
    · refine (h.sound j hj).frame (s.thread_setCtx_of_ne i c hji) (fun k => Or.inl ?_) (Or.inl ⟨rfl, ?_⟩) ?_
      · rw [ctx, s.file_setCtx_of_ne i c hji]
        rfl
      · rw [ctx, s.file_setCtx_of_ne i c hji]
        rfl
      · exact Or.imp_right fun hflag => hm.correctFlag.elim (fun hc => hc.trans hflag) id

/-- A step of the consumer keeps the invariant. -/
theorem judge (h : BufInv n s) {j : JudgeLocal} (hmain : s.main = .judge j) :
    BufInv n (s.judgeStep j) := by
  have hj : s.judgeLocal = j := by rw [judgeLocal, hmain]
  have hnum : j.fileNum = n := hj ▸ (h.count fun _ => []).judgeNum
  obtain ⟨hflag, hptr⟩ := judgeStep_completes s.group s.out j
  have hlocal : (s.judgeStep j).judgeLocal = (ORaidServer.judgeStep s.group s.out j).2.2 := by
    unfold judgeLocal judgeStep
    dsimp only
    cases hd : (ORaidServer.judgeStep s.group s.out j).2.2.pc with
    | done ret =>
      dsimp only
      rw [judgeStep_groupNum, h.fileNum, ← hnum, ← judgeStep_localNum s.group s.out j, ← hd]
    | _ => rfl
  refine ⟨fun pieces => ?_, fun i hi => ?_, fun k hk => ?_, h.own.judgeStep j⟩
  · have hstep := (h.count pieces).judge
    have hs : (s.stream pieces).judgeStep =
        { s.stream pieces with
          group := (ORaidServer.judgeStep s.group s.out j).1
          out := (ORaidServer.judgeStep s.group s.out j).2.1
          judge := (ORaidServer.judgeStep s.group s.out j).2.2 } := by
      rw [Stream.judgeStep, show (s.stream pieces).judge = j from hj]
      rfl
    rw [hs, ← hlocal] at hstep
    exact hstep
  · refine (h.sound i hi).frame rfl (fun k => ?_) ?_ ?_
    · have hfl := judgeStep_flag s.group s.out j i k
      split_ifs at hfl
      · exact Or.inr hfl
      · exact Or.inl hfl
    · by_cases hc : ∃ k, j.pc = .xor k ∧ s.group.Completes j.fileNum s.out k
      · refine Or.inr ⟨hflag.trans (if_pos hc), fun hs => ?_, (hptr i (hnum ▸ hi)).trans (if_pos hc)⟩
        -- the consumer took a full buffer of every file, so every thread is past its setup
        obtain ⟨k, hk, -⟩ := hc
        have hpc : s.judgeLocal.pc = .xor k := (congrArg JudgeLocal.pc hj).trans hk
        have hfull := ((h.count fun _ => []).taken k (Or.inl hpc) i hi).1
        have hempty : ((s.group.file i).buf k).flag = .empty := ((h.sound i hi).setup hs).2 k
        exact absurd (hempty.symm.trans hfull) (by decide)
      · exact Or.inl ⟨hflag.trans (if_neg hc), (hptr i (hnum ▸ hi)).trans (if_neg hc)⟩
    · rintro (hx | hcorrect)
      · refine Or.inl (hflag.trans ?_)
        split_ifs
        · rfl
        · exact hx
      · apply Or.inr
        exact (judgeStep_frame s.group s.out j).2.2.elim (fun hsame => hsame.trans hcorrect) id
  · rw [hlocal] at hk
    have hx : ((∃ k', j.pc = .test k') ∨ j.pc = .loop ∧ s.group.xorFlag = 0) →
        (s.judgeStep j).group.xorFlag = 0 := by
      rintro (⟨k', hpc⟩ | ⟨hpc, hx⟩)
      · exact (hflag.trans (if_neg (by simp [hpc]))).trans (h.before k' (Or.inl (hj ▸ hpc)))
      · exact (hflag.trans (if_neg (by simp [hpc]))).trans hx
    rcases hk with hk | hk
    · rcases judgeStep_test hk with hpc | ⟨hpc, hflags, -⟩
      · exact hx (Or.inl hpc)
      · exact hx (Or.inr ⟨hpc, hflags⟩)
    · exact hx (Or.inl ⟨_, (judgeStep_xor hk).1⟩)

/-- What `create_client_connect_data_server` does before the wait keeps the invariant: it may raise `correct_flag`,
it may create a thread, and it goes on to the next one, to the wait, or returns. -/
theorem setup (h : BufInv n s) (hmain : s.main = .fopen ∨ ∃ l, s.main = .create l) {s' : Transfer}
    {f : ℤ} (hf : f = s.group.correctFlag ∨ f = -1)
    (hgroup : s'.group = { s.group with correctFlag := f })
    (hthread : ∀ i, s'.thread i = s.thread i ∨
      (s.thread i).pc = .unborn ∧ s'.thread i = { s.thread i with pc := .socket })
    (hlocal : s'.judgeLocal.fileNum = n ∧
      (s'.judgeLocal.pc = .test 0 ∨ ∃ ret, s'.judgeLocal.pc = .done ret))
    (hown : s'.Own) : BufInv n s' := by
  have hx : s.group.xorFlag = 0 := by
    refine h.before 0 (Or.inl ?_)
    rcases hmain with hmain | ⟨l, hmain⟩ <;> rw [judgeLocal, hmain]
  refine ⟨fun pieces => ?_, fun i hi => ?_, fun k _ => by rw [hgroup]; exact hx, hown⟩
  · have hfile : ∀ i, (s'.stream pieces).group.file i = s.group.file i := fun i => by
      show s'.group.file i = _
      rw [hgroup]
    have hfileNum : s'.group.fileNum = n := by
      rw [hgroup]
      exact h.fileNum
    have hnum : s'.group.bufFullNum = s.group.bufFullNum := by rw [hgroup]
    refine (h.count pieces).frame hfileNum hlocal.1 hnum (fun i _ k => ?_) (fun i _ k hk => ?_)
      (fun i _ => ?_) (Or.inr fun k => ?_)
    · rw [hfile]
      rfl
    · rw [hfile]
      exact hk
    · show (s'.thread i).loc.pc = _
      rcases hthread i with hsame | ⟨-, hnew⟩
      · rw [hsame]
        rfl
      · rw [hnew]
        rfl
    · show s'.judgeLocal.pc ≠ _ ∧ s'.judgeLocal.pc ≠ _ ∧ ∀ j, s'.judgeLocal.pc ≠ _
      rcases hlocal.2 with hpc | ⟨ret, hpc⟩ <;> simp [hpc]
  · have hover : (s.ctx i).Over s.group.xorFlag →
        ThreadCtx.Over s.group.xorFlag { s.ctx i with correctFlag := f } := by
      rintro (hx | hcorrect)
      · exact Or.inl hx
      · exact Or.inr (hf.elim (fun hsame => hsame.trans hcorrect) id)
    have hkeep : ThreadCtx.Sound s.group.xorFlag { s.ctx i with correctFlag := f, ended := s'.ended i } :=
      (h.sound i hi).frame rfl (fun _ => Or.inl rfl) (Or.inl ⟨rfl, rfl⟩) hover
    rw [ctx, hgroup]
    rcases hthread i with hsame | ⟨hpc, hnew⟩
    · rw [hsame]
      exact hkeep
    · rw [hnew]
      have hpc' : (s.ctx i).thread.pc = .unborn := hpc
      refine (h.sound i hi).move f (fun _ => by rw [hpc']; trivial) (by decide) ?_ ?_
      · exact by_contra fun hn => absurd (hpc'.symm.trans ((h.sound i hi).inside hn)) (by decide)
      · exact (h.sound i hi).noticed_eq_false fun hw => absurd (hpc'.symm.trans hw.1.1) (by decide)

/-- Every step keeps the invariant. -/
theorem step (h : BufInv n s) (a : TransferAct) : BufInv n (s.step a) := by
  have hown := h.own.step a
  -- the next thread, or the wait
  have hnext : ∀ (s' : Transfer) i, s'.main = s.nextMain i → s'.group.fileNum = n →
      s'.judgeLocal.fileNum = n ∧ (s'.judgeLocal.pc = .test 0 ∨ ∃ ret, s'.judgeLocal.pc = .done ret) := by
    intro s' i hs' hfileNum
    unfold nextMain at hs'
    rw [judgeLocal]
    split_ifs at hs' <;> rw [hs']
    · exact ⟨hfileNum, Or.inl rfl⟩
    · exact ⟨h.fileNum, Or.inl rfl⟩
  cases a with
  | thread i b =>
    rcases Nat.lt_or_ge i s.group.fileNum with hi | hi
    · obtain ⟨c, hm, hs⟩ := s.step_thread hi b
      rw [hs] at hown ⊢
      exact h.thread (h.fileNum ▸ hi) hm hown
    · rw [s.step_thread_of_le hi]
      exact h
  | judge =>
    cases hmain : s.main with
    | judge j =>
      rw [Transfer.step, hmain]
      exact h.judge hmain
    | _ =>
      rw [Transfer.step, hmain]
      exact h
  | fopen ok =>
    cases hmain : s.main with
    | fopen =>
      rw [Transfer.step, hmain] at hown ⊢
      cases ok with
      | true =>
        exact h.setup (Or.inl hmain) (Or.inl rfl) rfl (fun _ => Or.inl rfl)
          (hnext { s with main := s.nextMain 0 } 0 rfl h.fileNum) hown
      | false =>
        exact h.setup (Or.inl hmain) (Or.inl rfl) rfl (fun _ => Or.inl rfl)
          ⟨h.fileNum, Or.inr ⟨_, rfl⟩⟩ hown
    | _ =>
      rw [Transfer.step, hmain]
      exact h
  | create r =>
    cases hmain : s.main with
    | create l =>
      rw [Transfer.step, hmain] at hown ⊢
      cases r with
      | created =>
        refine h.setup (Or.inr ⟨l, hmain⟩) (Or.inl rfl) rfl (fun i => ?_)
          (hnext (s.create l .created) (l + 1) rfl h.fileNum) hown
        rcases eq_or_ne i l with rfl | hil
        · exact Or.inr ⟨h.unborn i (Or.inr ⟨i, hmain, le_rfl⟩), Function.update_self ..⟩
        · exact Or.inl (Function.update_of_ne hil ..)
      | noArg =>
        exact h.setup (Or.inr ⟨l, hmain⟩) (Or.inl rfl) rfl (fun _ => Or.inl rfl)
          ⟨h.fileNum, Or.inr ⟨_, rfl⟩⟩ hown
      | noThread =>
        exact h.setup (Or.inr ⟨l, hmain⟩) (Or.inr rfl) rfl (fun _ => Or.inl rfl)
          ⟨h.fileNum, Or.inr ⟨_, rfl⟩⟩ hown
    | _ =>
      rw [Transfer.step, hmain]
      exact h

/-- At the start nothing is allocated. -/
theorem init (n : ℕ) (fileSize : ℤ) (filePath : ℕ → List Byte) :
    BufInv n (.init n fileSize filePath) := by
  refine ⟨fun pieces => ?_, fun i hi => ?_, fun _ _ => rfl, own_init n fileSize filePath⟩
  · refine Stream.Fresh.countInv ⟨rfl, rfl, fun _ => rfl, fun i k hk => ?_, fun _ => rfl⟩
    cases hk
  · have hx : (Transfer.init n fileSize filePath).group.xorFlag ≠ 1 := by
      show (0 : ℤ) ≠ 1
      decide
    refine ⟨fun _ => ⟨hx, fun _ => rfl⟩, fun _ => rfl, fun hn => absurd rfl hn, ?_, ?_, ?_, ?_⟩
    · intro hpc
      cases hpc
    · rintro (hpc | hpc | ⟨k, hk⟩)
      · cases hpc
      · cases hpc
      · exact absurd rfl hk
    · intro hn
      cases hn
    · refine fun k => iff_of_false Ptr.noConfusion ?_
      rintro (hx' | hn)
      · exact hx hx'
      · cases hn

/-! ### What is freed and used -/

/-- A buffer that a step frees or uses belongs to a file of the group, and has been allocated. -/
theorem made_of_mem (h : BufInv n s) {a : TransferAct} {b : ℕ × Fin 2}
    (hb : b ∈ s.releases a ++ s.uses a) : b.1 < n ∧ (s.group.file b.1).ptr b.2 ≠ .null := by
  have hthread : ∀ i < n, (s.thread i).pc = .dispatch → ∀ k, (s.group.file i).ptr k ≠ .null :=
    fun i hi hpc => (h.sound i hi).made (Or.inr (Or.inl hpc))
  have hxor : ∀ {k fileNum}, s.main = .judge ⟨.xor k, fileNum⟩ → b.1 < fileNum →
      b.1 < n ∧ (s.group.file b.1).ptr b.2 ≠ .null := by
    intro k fileNum hmain hi
    have hlocal : s.judgeLocal = ⟨.xor k, fileNum⟩ := by rw [judgeLocal, hmain]
    have hcount := h.count fun _ => []
    have hnum : s.judgeLocal.fileNum = n := hcount.judgeNum
    rw [hlocal] at hnum
    obtain rfl : fileNum = n := hnum
    have hpc : s.judgeLocal.pc = .xor k := by rw [hlocal]
    have hfull : ((s.group.file b.1).buf k).flag = .full := (hcount.taken k (Or.inl hpc) b.1 hi).1
    refine ⟨hi, (h.sound b.1 hi).made (Or.inr (Or.inr ⟨k, fun he => ?_⟩)) b.2⟩
    exact absurd (he.symm.trans hfull) (by decide)
  rcases List.mem_append.1 hb with hb | hb
  · cases a with
    | thread i act =>
      obtain ⟨rfl, hi, -, hw, -⟩ := mem_releases_thread.1 hb
      exact ⟨h.fileNum ▸ hi, hthread b.1 (h.fileNum ▸ hi) hw.1 b.2⟩
    | judge =>
      obtain ⟨k, fileNum, hmain, -, hi⟩ := mem_releases_judge.1 hb
      exact hxor hmain hi
    | _ => cases hb
  · unfold uses at hb
    cases a with
    | thread i act =>
      cases act with
      | proceed =>
        dsimp only at hb
        split_ifs at hb with hc
        · have hi : i < n := h.fileNum ▸ hc.1
          obtain ⟨k, -, rfl⟩ := List.mem_map.1 hb
          exact ⟨hi, hthread i hi hc.2.1 k⟩
        · cases hb
      | _ => cases hb
    | judge =>
      dsimp only at hb
      split at hb
      · rename_i k fileNum hmain
        split_ifs at hb
        · obtain ⟨i, hi, rfl⟩ := List.mem_map.1 hb
          exact hxor hmain (List.mem_range.1 hi)
        · cases hb
      · cases hb
    | _ => cases hb

/-- A step of a thread frees the buffers of its file if it finds the group over, and otherwise nothing. -/
theorem ptr_threadStep {c : ThreadCtx} (hown : c.Own) {N xorFlag : ℤ} {a : ThreadAct} {k : Fin 2}
    (hnot : c.file.ptr k ≠ .released) :
    (threadStep N xorFlag c a).file.ptr k = .released ↔
      (∃ r, a = .recv r) ∧ c.Waits ∧ c.Over xorFlag := by
  constructor
  · have hm := threadStep_move N xorFlag c a
    generalize threadStep N xorFlag c a = c' at hm
    intro hr
    have hset : ∀ {k' p}, p ≠ Ptr.released → Function.update c.file.ptr k' p k ≠ .released := by
      intro k' p hp
      rcases eq_or_ne k k' with rfl | hk
      · rwa [Function.update_self]
      · rwa [Function.update_of_ne hk]
    cases hm with
    | notice r hw hover => exact ⟨⟨r, rfl⟩, hw, hover⟩
    | allocated k' _ _ => exact absurd hr (hset Ptr.noConfusion)
    | unallocated k' ok _ _ => exact absurd hr (hset (by cases ok <;> exact Ptr.noConfusion))
    | write next _ _ _ =>
      have hptr : (writeBufStep N c.writeCtx).info.ptr k = c.file.ptr k :=
        congrFun (writeBufStep_ptr N c.writeCtx) k
      exact absurd (hptr.symm.trans hr) hnot
    | stray r failed hw _ hloop _ => exact absurd (hown.hasLoop hw.1) hloop
    | _ => exact absurd hr hnot
  · rintro ⟨⟨r, rfl⟩, hw, hover⟩
    have hnotice : c.event xorFlag r =
        { c with file := c.file.withPtr fun _ => .released, thread.noticed := true } := if_pos hover
    rw [hown.threadStep_recv hw, hnotice]
    rfl

/-- `releases` says what a step frees. -/
theorem mem_releases_iff (h : BufInv n s) {i : ℕ} (hi : i < n) {k : Fin 2}
    (hlive : ((s.group.file i).ptr k).Live) (a : TransferAct) :
    (i, k) ∈ s.releases a ↔ ((s.step a).group.file i).ptr k = .released := by
  have hnot : (s.group.file i).ptr k ≠ .released := fun hr => by
    rw [hr] at hlive
    exact hlive
  have hsame : (∀ j b, a ≠ .thread j b) → a ≠ .judge →
      ((s.step a).group.file i).ptr k = (s.group.file i).ptr k := by
    intro hthread hjudge
    cases a with
    | judge => exact absurd rfl hjudge
    | thread j b => exact absurd rfl (hthread j b)
    | fopen ok =>
      unfold Transfer.step
      cases s.main <;> rfl
    | create r =>
      unfold Transfer.step
      cases s.main with
      | create l => cases r <;> rfl
      | _ => rfl
  cases a with
  | thread j act =>
    rw [mem_releases_thread]
    by_cases hj : j < s.group.fileNum
    · have hstep : s.step (.thread j act) =
          s.setCtx j (threadStep s.group.fileSize s.group.xorFlag (s.ctx j) act) := if_pos hj
      rcases eq_or_ne i j with rfl | hij
      · rw [hstep, show ((s.setCtx i _).group.file i) = _ from Function.update_self ..,
          ptr_threadStep (h.own.thread i) hnot]
        exact ⟨fun hb => hb.2.2, fun hb => ⟨rfl, hj, hb⟩⟩
      · rw [hstep, s.file_setCtx_of_ne j _ hij]
        exact iff_of_false (fun hb => hij hb.1) hnot
    · rw [s.step_thread_of_le (Nat.not_lt.1 hj)]
      exact iff_of_false (fun hb => hj hb.2.1) hnot
  | judge =>
    rw [mem_releases_judge]
    cases hmain : s.main with
    | judge j =>
      have hnum : j.fileNum = n := by
        have hlocal : s.judgeLocal = j := by rw [judgeLocal, hmain]
        exact hlocal ▸ (h.count fun _ => []).judgeNum
      have hptr := congrFun ((judgeStep_completes s.group s.out j).2 i (hnum ▸ hi)) k
      rw [Transfer.step, hmain]
      show _ ↔ ((ORaidServer.judgeStep s.group s.out j).1.file i).ptr k = .released
      rw [hptr]
      split_ifs with hc
      · obtain ⟨k', hk', hc⟩ := hc
        refine iff_of_true ⟨k', j.fileNum, ?_, hc, hnum ▸ hi⟩ rfl
        rw [← hk']
      · refine iff_of_false ?_ hnot
        rintro ⟨k', m, hj, hc', -⟩
        cases hj
        exact hc ⟨k', rfl, hc'⟩
    | _ =>
      rw [Transfer.step, hmain]
      refine iff_of_false ?_ hnot
      rintro ⟨k', m, hj, -⟩
      cases hj
  | fopen ok =>
    rw [hsame (fun _ _ => TransferAct.noConfusion) TransferAct.noConfusion]
    exact iff_of_false List.not_mem_nil hnot
  | create r =>
    rw [hsame (fun _ _ => TransferAct.noConfusion) TransferAct.noConfusion]
    exact iff_of_false List.not_mem_nil hnot

/-- A step frees and uses live buffers only if and only if it meets the condition. -/
theorem safe_iff (h : BufInv n s) (a : TransferAct) : s.Safe a ↔ s.Owned a := by
  have hlive : ∀ b ∈ s.releases a ++ s.uses a, ((s.group.file b.1).ptr b.2).Live ↔
      s.group.xorFlag ≠ 1 ∧ (s.thread b.1).noticed = false := by
    intro b hb
    obtain ⟨hi, hmade⟩ := h.made_of_mem hb
    apply ((h.sound b.1 hi).live_iff hmade).trans
    rw [ThreadCtx.Gone, not_or, Bool.not_eq_true]
    rfl
  constructor
  · intro hsafe b hb
    apply (hlive b hb).1
    rcases List.mem_append.1 hb with hr | hu
    · exact hsafe.releases b hr
    · exact hsafe.uses b hu
  · intro howned
    constructor
    · intro b hb
      have hmem : b ∈ s.releases a ++ s.uses a := List.mem_append_left _ hb
      exact (hlive b hmem).2 (howned b hmem)
    · intro b hb
      have hmem : b ∈ s.releases a ++ s.uses a := List.mem_append_right _ hb
      exact (hlive b hmem).2 (howned b hmem)

end BufInv

end Transfer

/-- In a run only live buffers are freed and used if and only if no step frees or uses a buffer after
`xor_flag` has become `1`, or after a callback of its file has found the group over. -/
theorem allowed_safe_iff (n : ℕ) (fileSize : ℤ) (filePath : ℕ → List Byte) (as : List TransferAct) :
    Allowed Transfer.step Transfer.Safe (.init n fileSize filePath) as ↔
      Allowed Transfer.step Transfer.Owned (.init n fileSize filePath) as :=
  Allowed.congr (fun _ a h => h.safe_iff a) (fun _ a h => h.step a)
    (Transfer.BufInv.init n fileSize filePath)

/-- Of two files the second has no connection, and the first receives twice. -/
def receiveTwice : List TransferAct :=
  [.fopen true, .create .created, .create .created] ++
    List.replicate 5 (.thread 0 (.call true)) ++
    [.thread 0 .proceed, .thread 1 (.call false), .thread 0 (.recv (.got [0])),
      .thread 0 (.recv (.got [0]))]

/-- Every callback that finds the group over frees the buffers again. -/
theorem not_allowed_safe : ¬ ∀ n fileSize filePath as,
    Allowed Transfer.step Transfer.Safe (.init n fileSize filePath) as := by
  intro hall
  exact absurd (hall 2 1 (fun _ => []) receiveTwice) (by decide +kernel)

end ORaidServer
