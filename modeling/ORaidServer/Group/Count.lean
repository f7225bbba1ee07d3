import ORaidServer.Group.Stream
import Mathlib.Data.Finset.Card
import Mathlib.Data.Finset.Range

/-!
# Counting the full buffers

What `buf_full_num[k]` says about the files, for producers that hand over any pieces at all: it
never exceeds the number of files whose buffer `k` is full, counted and not yet taken by the consumer.
So when the consumer takes buffer `k`, buffer `k` of every file is full (`CountInv.counted_of_num`).

* `WriterMove`, what a step of a producer does, and what follows from it;
* `CountInv`, the invariant of every schedule, and its step lemmas `CountInv.writer` and
  `CountInv.judge`;
* `Exact`, that no increment was lost, which the schedules with atomic increments keep;
* `bufFullNum_eq_card`: the counters are exact where nobody is in the middle of an update.
-/

namespace ORaidServer

open Guarded

/-- The producer has marked buffer `k` full and not yet counted it. -/
def WritePc.Owes : WritePc → Fin 2 → Prop
  | .load k' _, k | .store k' _ _, k => k' = k
  | _, _ => False

instance : (pc : WritePc) → (k : Fin 2) → Decidable (pc.Owes k)
  | .load k' _, k | .store k' _ _, k => inferInstanceAs (Decidable (k' = k))
  | .idle, _ | .head, _ | .mark _ _, _ | .tail0, _ | .tail1, _ => isFalse not_false

/-- Buffer `k` of the file is full and counted. -/
def FileCtx.Counted (c : FileCtx) (k : Fin 2) : Prop := c.info.Full k ∧ ¬ c.loc.pc.Owes k

/-- What a step of a producer does to its context and its remaining pieces. -/
inductive WriterMove (N : ℤ) (c : FileCtx) : List (List Byte) → FileCtx → List (List Byte) → Prop
  | call (p : List Byte) (ps : List (List Byte)) : c.loc.pc = .idle →
      WriterMove N c (p :: ps) { c with loc := .call p } ps
  | step (ps : List (List Byte)) : c.loc.pc ≠ .idle → WriterMove N c ps (writeBufStep N c) ps

theorem storeInto_num (N : ℤ) (k : Fin 2) (c : FileCtx) : (storeInto N k c).num = c.num := by
  unfold storeInto
  dsimp only
  split_ifs <;> rfl

theorem storeInto_flag (N : ℤ) (k k' : Fin 2) (c : FileCtx) :
    ((storeInto N k c).info.buf k').flag = (c.info.buf k').flag := by
  unfold storeInto
  dsimp only
  split_ifs <;> rcases eq_or_ne k' k with rfl | hk <;> simp [SingleFileInfo.buf_setBuf, *]

theorem storeInto_not_owes (N : ℤ) (k k' : Fin 2) (c : FileCtx) :
    ¬ (storeInto N k c).loc.pc.Owes k' := by
  unfold storeInto
  dsimp only
  split_ifs <;> simp [WritePc.Owes]

theorem full_makeWritable {k k' : Fin 2} {x : SingleFileInfo} (h : (x.buf k).flag = .empty) :
    (makeWritable k x).Full k' ↔ x.Full k' := by
  rcases eq_or_ne k' k with rfl | hk
  · simp [SingleFileInfo.Full, makeWritable, h]
  · simp [SingleFileInfo.Full, makeWritable, SingleFileInfo.buf_setBuf, hk]

theorem writeBufStep_num (N : ℤ) (c : FileCtx) :
    (∃ k more v, c.loc.pc = .store k more v ∧
      (writeBufStep N c).num = Function.update c.num k (v + 1)) ∨
    ((∀ k more v, c.loc.pc ≠ .store k more v) ∧ (writeBufStep N c).num = c.num) := by
  unfold writeBufStep
  cases hpc : c.loc.pc with
  | store k more v => exact Or.inl ⟨k, more, v, rfl, rfl⟩
  | head =>
    refine Or.inr ⟨by simp, ?_⟩
    dsimp only
    split_ifs <;> simp [storeInto_num]
  | tail0 | tail1 =>
    refine Or.inr ⟨by simp, ?_⟩
    dsimp only
    split_ifs <;> rfl
  | _ => exact Or.inr ⟨by simp, rfl⟩

/-- Only the read of a counter leads to its write. -/
theorem writeBufStep_store {N : ℤ} {c : FileCtx} {k : Fin 2} {more : Bool} {v : ℕ}
    (h : (writeBufStep N c).loc.pc = .store k more v) :
    c.loc.pc = .load k more ∧ v = c.num k := by
  unfold writeBufStep at h
  cases hpc : c.loc.pc with
  | load k' more' =>
    simp only [hpc, WritePc.store.injEq] at h
    obtain ⟨rfl, rfl, rfl⟩ := h
    exact ⟨rfl, rfl⟩
  | head =>
    exfalso
    simp only [hpc] at h
    split_ifs at h
    · exact storeInto_not_owes N 0 k c (by simp [h, WritePc.Owes])
    · exact storeInto_not_owes N 1 k c (by simp [h, WritePc.Owes])
  | store k' more' v' =>
    simp only [hpc] at h
    split_ifs at h
  | tail0 | tail1 =>
    simp only [hpc] at h
    split_ifs at h
  | idle => simp [hpc] at h
  | mark k' more' => simp [hpc] at h

/-- The flags agree with the place of the producer: the buffer to be marked next is being written, the
one to be counted next is full. -/
structure FileCtx.Agrees (c : FileCtx) : Prop where
  mark : ∀ k more, c.loc.pc = .mark k more → c.info.Writing k
  owes : ∀ k, c.loc.pc.Owes k → c.info.Full k

/-- `storeInto` leaves the producer idle or before the mark of the buffer it stored into. -/
theorem storeInto_pc (N : ℤ) (k : Fin 2) (c : FileCtx) :
    (∃ more, (storeInto N k c).loc.pc = .mark k more) ∨ (storeInto N k c).loc.pc = .idle := by
  unfold storeInto
  dsimp only
  split_ifs <;> simp

theorem storeInto_agrees {N : ℤ} {k : Fin 2} {c : FileCtx} (hw : c.info.Writing k) :
    (storeInto N k c).Agrees := by
  refine ⟨fun k' more hpc => ?_, fun k' ho => absurd ho (storeInto_not_owes N k k' c)⟩
  show ((storeInto N k c).info.buf k').flag = .writing
  rw [storeInto_flag]
  rcases storeInto_pc N k c with ⟨more', h⟩ | h
  · rw [h] at hpc
    cases hpc
    exact hw
  · rw [h] at hpc
    cases hpc

/-- A step of `write_buf` keeps the flags in agreement with its place. -/
theorem FileCtx.Agrees.step {N : ℤ} {c : FileCtx} (h : c.Agrees) : (writeBufStep N c).Agrees := by
  unfold writeBufStep
  cases hpc : c.loc.pc with
  | idle => exact h
  | head =>
    dsimp only
    split_ifs with h0 h1
    · exact storeInto_agrees h0
    · exact storeInto_agrees h1
    · exact ⟨by simp, by simp [WritePc.Owes]⟩
  | mark k more =>
    refine ⟨by simp, fun k' ho => ?_⟩
    obtain rfl : k = k' := ho
    simp [SingleFileInfo.Full]
  | load k more =>
    refine ⟨by simp, fun k' ho => ?_⟩
    exact h.owes k' (by simpa [hpc, WritePc.Owes] using ho)
  | store k more v =>
    cases more <;> exact ⟨by simp, by simp [WritePc.Owes]⟩
  | tail0 | tail1 =>
    dsimp only
    split_ifs <;> exact ⟨by simp, by simp [WritePc.Owes]⟩

/-- A step counts a buffer exactly when it writes a counter. -/
theorem FileCtx.Agrees.counted_step {N : ℤ} {c : FileCtx} (h : c.Agrees) (k : Fin 2) :
    (writeBufStep N c).Counted k ↔ c.Counted k ∨ ∃ more v, c.loc.pc = .store k more v := by
  unfold writeBufStep FileCtx.Counted
  cases hpc : c.loc.pc with
  | idle => simp [WritePc.Owes, hpc]
  | head =>
    have hstore : ∀ k', ((storeInto N k' c).info.Full k ∧
        ¬ (storeInto N k' c).loc.pc.Owes k) ↔ c.info.Full k := by
      intro k'
      simp [SingleFileInfo.Full, storeInto_flag, storeInto_not_owes]
    dsimp only
    split_ifs
    · simpa [WritePc.Owes] using hstore 0
    · simpa [WritePc.Owes] using hstore 1
    · simp [WritePc.Owes]
  | mark k' more =>
    have hw : c.info.Writing k' := h.mark k' more hpc
    rcases eq_or_ne k k' with rfl | hk
    · have : ¬ c.info.Full k := by
        rw [SingleFileInfo.Full, show (c.info.buf k).flag = .writing from hw]
        simp
      simp [WritePc.Owes, this]
    · simp [WritePc.Owes, SingleFileInfo.Full, SingleFileInfo.buf_setBuf, hk, Ne.symm hk]
  | load k' more => simp [WritePc.Owes]
  | store k' more v =>
    have hf : c.info.Full k' := h.owes k' (by simp [hpc, WritePc.Owes])
    rcases eq_or_ne k k' with rfl | hk
    · cases more <;> simp [WritePc.Owes, hf]
    · cases more <;> simp [WritePc.Owes, Ne.symm hk]
  | tail0 | tail1 =>
    dsimp only
    split_ifs with hc
    · simp [WritePc.Owes, full_makeWritable hc.1]
    · simp [WritePc.Owes]

namespace WriterMove

variable {N : ℤ} {c c' : FileCtx} {ps ps' : List (List Byte)}

theorem agrees (hm : WriterMove N c ps c' ps') (h : c.Agrees) : c'.Agrees := by
  cases hm with
  | call p _ hpc => exact ⟨by simp [WriteLocal.call], by simp [WriteLocal.call, WritePc.Owes]⟩
  | step _ _ => exact h.step

theorem counted (hm : WriterMove N c ps c' ps') (h : c.Agrees) (k : Fin 2) :
    c'.Counted k ↔ c.Counted k ∨ ∃ more v, c.loc.pc = .store k more v := by
  cases hm with
  | call p _ hpc => simp [FileCtx.Counted, WriteLocal.call, WritePc.Owes, hpc]
  | step _ _ => exact h.counted_step k

theorem num (hm : WriterMove N c ps c' ps') :
    (∃ k more v, c.loc.pc = .store k more v ∧ c'.num = Function.update c.num k (v + 1)) ∨
      ((∀ k more v, c.loc.pc ≠ .store k more v) ∧ c'.num = c.num) := by
  cases hm with
  | call p _ hpc => exact Or.inr ⟨by simp [hpc], rfl⟩
  | step _ _ => exact writeBufStep_num N c

theorem store (hm : WriterMove N c ps c' ps') {k : Fin 2} {more : Bool} {v : ℕ}
    (h : c'.loc.pc = .store k more v) : c.loc.pc = .load k more ∧ v = c.num k := by
  cases hm with
  | call p _ _ => simp [WriteLocal.call] at h
  | step _ _ => exact writeBufStep_store h

end WriterMove

namespace Stream

/-- The state after producer `i` moved to `c` and `ps`. -/
def put (s : Stream) (i : ℕ) (c : FileCtx) (ps : List (List Byte)) : Stream :=
  { s with
    group := { s.group.setFile i c.info with bufFullNum := c.num }
    writer := Function.update s.writer i ⟨c.loc, ps⟩ }

theorem writerStep_eq (s : Stream) (i : ℕ) :
    (s.writerStep i = s ∧ (s.writer i).loc.pc = .idle ∧ (s.writer i).pieces = []) ∨
      ∃ c ps, WriterMove s.group.fileSize (s.ctx i) (s.writer i).pieces c ps ∧
        s.writerStep i = s.put i c ps := by
  unfold writerStep
  by_cases hpc : (s.writer i).loc.pc = .idle
  · rw [if_pos hpc]
    cases hps : (s.writer i).pieces with
    | nil => exact Or.inl ⟨rfl, hpc, rfl⟩
    | cons p ps =>
      refine Or.inr ⟨_, _, .call p ps hpc, ?_⟩
      simp [put, ctx, TGroupFileInfo.setFile]
  · rw [if_neg hpc]
    exact Or.inr ⟨_, _, .step _ hpc, rfl⟩

theorem ctx_put_self (s : Stream) (i : ℕ) (c : FileCtx) (ps : List (List Byte)) :
    (s.put i c ps).ctx i = c := by simp [ctx, put, TGroupFileInfo.setFile]

theorem writer_put_self (s : Stream) (i : ℕ) (c : FileCtx) (ps : List (List Byte)) :
    (s.put i c ps).writer i = ⟨c.loc, ps⟩ := by simp [put]

theorem file_put_self (s : Stream) (i : ℕ) (c : FileCtx) (ps : List (List Byte)) :
    (s.put i c ps).group.file i = c.info := by simp [put, TGroupFileInfo.setFile]

theorem file_put_of_ne (s : Stream) {i j : ℕ} (c : FileCtx) (ps : List (List Byte))
    (h : j ≠ i) : (s.put i c ps).group.file j = s.group.file j := by
  simp [put, TGroupFileInfo.setFile, h]

theorem writer_put_of_ne (s : Stream) {i j : ℕ} (c : FileCtx) (ps : List (List Byte))
    (h : j ≠ i) : (s.put i c ps).writer j = s.writer j := by simp [put, h]

/-- Buffer `k` of file `i` is full and counted. -/
def Counted (s : Stream) (i : ℕ) (k : Fin 2) : Prop := (s.ctx i).Counted k

/-- The consumer has reset counter `k` and not yet flag `k` of file `i`. -/
def Draining (s : Stream) (i : ℕ) (k : Fin 2) : Prop :=
  ∃ j, s.judge.pc = .resetFlag k j ∧ j ≤ i

open Classical in
/-- The files below `n` that `buf_full_num[k]` may count. -/
noncomputable def countedSet (s : Stream) (n : ℕ) (k : Fin 2) : Finset ℕ :=
  {i ∈ Finset.range n | s.Counted i k ∧ ¬ s.Draining i k}

theorem mem_countedSet {s : Stream} {n i : ℕ} {k : Fin 2} :
    i ∈ s.countedSet n k ↔ i < n ∧ s.Counted i k ∧ ¬ s.Draining i k := by
  simp [countedSet]

end Stream

/-! ### What holds in every schedule -/

/-- The invariant of the counters of a group of `n` files. -/
structure CountInv (n : ℕ) (s : Stream) : Prop where
  fileNum : s.group.fileNum = n
  judgeNum : s.judge.fileNum = n
  agrees : ∀ i < n, (s.ctx i).Agrees
  num : ∀ k, s.group.bufFullNum k ≤ (s.countedSet n k).card
  store : ∀ i < n, ∀ k more v, (s.writer i).loc.pc = .store k more v →
    v ≤ (s.countedSet n k).card
  taken : ∀ k, (s.judge.pc = .xor k ∨ s.judge.pc = .resetNum k) → ∀ i < n, s.Counted i k
  drain : ∀ k j, s.judge.pc = .resetFlag k j → ∀ i, j ≤ i → i < n → s.Counted i k

namespace CountInv

variable {n : ℕ} {s : Stream}

/-- A counter that reaches `n` has counted every file. -/
theorem counted_of_num (h : CountInv n s) {k : Fin 2} (hk : s.group.bufFullNum k = n) {i : ℕ}
    (hi : i < n) : s.Counted i k ∧ ¬ s.Draining i k := by
  have hcard : (Finset.range n).card ≤ (s.countedSet n k).card :=
    (Finset.card_range n).le.trans (hk.ge.trans (h.num k))
  have hsub : s.countedSet n k ⊆ Finset.range n := fun j hj =>
    Finset.mem_range.2 (Stream.mem_countedSet.1 hj).1
  have := Finset.eq_of_subset_of_card_le hsub hcard
  exact (Stream.mem_countedSet.1 (this ▸ Finset.mem_range.2 hi)).2

/-- A producer that is about to count a buffer has not counted it yet. -/
theorem not_counted_of_store {i : ℕ} {k : Fin 2} {more : Bool} {v : ℕ}
    (hpc : (s.writer i).loc.pc = .store k more v) : ¬ s.Counted i k :=
  fun hc => hc.2 (by simp [Stream.ctx, hpc, WritePc.Owes])

/-- A file whose flag is being reset was counted. -/
theorem counted_of_draining (h : CountInv n s) {i : ℕ} (hi : i < n) {k : Fin 2}
    (hd : s.Draining i k) : s.Counted i k := by
  obtain ⟨j, hj, hji⟩ := hd
  exact h.drain k j hj i hji hi

section Writer

variable {i : ℕ} {c : FileCtx} {ps : List (List Byte)}

/-- What is counted after a step of producer `i`. -/
theorem counted_put (h : CountInv n s) (hi : i < n)
    (hm : WriterMove s.group.fileSize (s.ctx i) (s.writer i).pieces c ps) (j : ℕ) (k : Fin 2) :
    (s.put i c ps).Counted j k ↔
      s.Counted j k ∨ j = i ∧ ∃ more v, (s.writer i).loc.pc = .store k more v := by
  rcases eq_or_ne j i with rfl | hji
  · rw [Stream.Counted, Stream.ctx_put_self, hm.counted (h.agrees j hi) k]
    simp [Stream.Counted, Stream.ctx]
  · simp [Stream.Counted, Stream.ctx, FileCtx.Counted, Stream.file_put_of_ne _ _ _ hji,
      Stream.writer_put_of_ne _ _ _ hji, hji]

/-- A step that writes no counter `k` counts no file for it. -/
theorem countedSet_put_of_ne (h : CountInv n s) (hi : i < n)
    (hm : WriterMove s.group.fileSize (s.ctx i) (s.writer i).pieces c ps) {k : Fin 2}
    (hne : ∀ more v, (s.writer i).loc.pc ≠ .store k more v) :
    (s.put i c ps).countedSet n k = s.countedSet n k := by
  ext j
  rw [Stream.mem_countedSet, Stream.mem_countedSet, h.counted_put hi hm]
  simp only [hne, exists_false, and_false, or_false]
  exact Iff.rfl

/-- The write of counter `k` adds its file to the counted ones. -/
theorem card_countedSet_put (h : CountInv n s) (hi : i < n)
    (hm : WriterMove s.group.fileSize (s.ctx i) (s.writer i).pieces c ps) {k : Fin 2} {more : Bool}
    {v : ℕ} (hpc : (s.writer i).loc.pc = .store k more v) :
    ((s.put i c ps).countedSet n k).card = (s.countedSet n k).card + 1 := by
  have hnot : ¬ s.Counted i k := not_counted_of_store hpc
  have hset : (s.put i c ps).countedSet n k = insert i (s.countedSet n k) := by
    ext j
    rw [Finset.mem_insert, Stream.mem_countedSet, Stream.mem_countedSet, h.counted_put hi hm]
    constructor
    · rintro ⟨hj, hc | ⟨rfl, -⟩, hd⟩
      · exact Or.inr ⟨hj, hc, hd⟩
      · exact Or.inl rfl
    · rintro (rfl | ⟨hj, hc, hd⟩)
      · exact ⟨hi, Or.inr ⟨rfl, more, v, hpc⟩, fun hd => hnot (h.counted_of_draining hi hd)⟩
      · exact ⟨hj, Or.inl hc, hd⟩
  rw [hset, Finset.card_insert_of_notMem fun hmem => hnot (Stream.mem_countedSet.1 hmem).2.1]

theorem card_countedSet_le_put (h : CountInv n s) (hi : i < n)
    (hm : WriterMove s.group.fileSize (s.ctx i) (s.writer i).pieces c ps) (k : Fin 2) :
    (s.countedSet n k).card ≤ ((s.put i c ps).countedSet n k).card := by
  refine Finset.card_le_card fun j hj => ?_
  rw [Stream.mem_countedSet] at hj ⊢
  exact ⟨hj.1, (h.counted_put hi hm j k).2 (Or.inl hj.2.1), hj.2.2⟩

/-- A step of a producer keeps the invariant. -/
theorem writer (h : CountInv n s) (hi : i < n)
    (hm : WriterMove s.group.fileSize (s.ctx i) (s.writer i).pieces c ps) :
    CountInv n (s.put i c ps) := by
  have hmono : ∀ {j k}, s.Counted j k → (s.put i c ps).Counted j k := fun {j k} hj =>
    (h.counted_put hi hm j k).2 (Or.inl hj)
  have hle := h.card_countedSet_le_put hi hm
  refine ⟨h.fileNum, h.judgeNum, ?_, ?_, ?_, ?_, ?_⟩
  · intro j hj
    rcases eq_or_ne j i with rfl | hji
    · rw [Stream.ctx_put_self]
      exact hm.agrees (h.agrees j hi)
    · refine ⟨fun k more hpc => ?_, fun k ho => ?_⟩
      · simp only [Stream.ctx, Stream.file_put_of_ne _ _ _ hji,
          Stream.writer_put_of_ne _ _ _ hji] at hpc ⊢
        exact (h.agrees j hj).mark k more hpc
      · simp only [Stream.ctx, Stream.file_put_of_ne _ _ _ hji,
          Stream.writer_put_of_ne _ _ _ hji] at ho ⊢
        exact (h.agrees j hj).owes k ho
  · intro k
    show c.num k ≤ _
    rcases hm.num with ⟨k', more, v, hpc, hnum⟩ | ⟨-, hnum⟩
    · rw [hnum]
      rcases eq_or_ne k k' with rfl | hk
      · rw [Function.update_self, h.card_countedSet_put hi hm hpc]
        exact Nat.succ_le_succ (h.store i hi k more v hpc)
      · rw [Function.update_of_ne hk]
        exact (h.num k).trans (hle k)
    · rw [hnum]
      exact (h.num k).trans (hle k)
  · intro j hj k more v hpc
    refine le_trans ?_ (hle k)
    rcases eq_or_ne j i with rfl | hji
    · have hpc' : c.loc.pc = .store k more v := by simpa [Stream.put] using hpc
      rw [(hm.store hpc').2]
      exact h.num k
    · rw [Stream.writer_put_of_ne _ _ _ hji] at hpc
      exact h.store j hj k more v hpc
  · exact fun k hk j hj => hmono (h.taken k hk j hj)
  · exact fun k j hk l hl hln => hmono (h.drain k j hk l hl hln)

end Writer

section Judge

/-- A file keeps its flag in a step of the consumer unless it is the next one to be reset. -/
theorem counted_judge {i : ℕ} {k : Fin 2} (hc : s.Counted i k)
    (hne : s.judge.pc ≠ .resetFlag k i) : s.judgeStep.Counted i k := by
  refine ⟨?_, hc.2⟩
  show ((s.judgeStep.group.file i).buf k).flag = .full
  rw [Stream.judgeStep, judgeStep_flag, if_neg fun hd => hne hd.1]
  exact hc.1

/-- What the consumer is about to drain after its step, it was about to drain before. -/
theorem draining_of_judge {i : ℕ} {k : Fin 2} (hd : s.judgeStep.Draining i k)
    (hk : s.judge.pc ≠ .resetNum k) : s.Draining i k ∧ s.judge.pc ≠ .resetFlag k i := by
  obtain ⟨j, hj, hji⟩ := hd
  rcases judgeStep_resetFlag hj with ⟨hpc, -⟩ | ⟨l, rfl, hpc, -⟩
  · exact absurd hpc hk
  · refine ⟨⟨l, hpc, by omega⟩, fun he => ?_⟩
    rw [hpc] at he
    cases he
    omega

/-- What is counted after a step of the consumer was counted before it. -/
theorem counted_of_judge (h : CountInv n s) {i : ℕ} {k : Fin 2} (hi : i < n)
    (hc : s.judgeStep.Counted i k) (hd : ¬ s.judgeStep.Draining i k) :
    s.Counted i k ∧ ¬ s.Draining i k := by
  have hfull : ((s.judgeStep.group.file i).buf k).flag = .full := hc.1
  rw [Stream.judgeStep, judgeStep_flag, h.judgeNum] at hfull
  split_ifs at hfull with hreset
  refine ⟨⟨hfull, hc.2⟩, ?_⟩
  rintro ⟨j, hpc, hji⟩
  -- the flag of file `i` is not the next one to be reset
  have hj : j ≠ i := by
    rintro rfl
    exact hreset ⟨hpc, hi⟩
  have hjn : j < s.judge.fileNum := by
    rw [h.judgeNum]
    omega
  refine hd ⟨j + 1, ?_, by omega⟩
  simp only [Stream.judgeStep, judgeStep, hpc, if_pos hjn]

/-- The consumer's step leaves the counted files counted, but for those it drains. -/
theorem card_countedSet_judge (h : CountInv n s) {k : Fin 2} (hk : s.judge.pc ≠ .resetNum k) :
    (s.countedSet n k).card = (s.judgeStep.countedSet n k).card := by
  congr 1
  ext i
  rw [Stream.mem_countedSet, Stream.mem_countedSet]
  constructor
  · rintro ⟨hi, hc, hd⟩
    have hne : s.judge.pc ≠ .resetFlag k i := fun he => hd ⟨i, he, le_rfl⟩
    exact ⟨hi, counted_judge hc hne, fun hd' => hd (draining_of_judge hd' hk).1⟩
  · rintro ⟨hi, hc, hd⟩
    exact ⟨hi, h.counted_of_judge hi hc hd⟩

/-- A step of the consumer keeps the invariant. -/
theorem judge (h : CountInv n s) : CountInv n s.judgeStep := by
  refine ⟨?_, ?_, ?_, ?_, ?_, ?_, ?_⟩
  · exact (judgeStep_groupNum _ _ _).trans h.fileNum
  · exact (judgeStep_localNum _ _ _).trans h.judgeNum
  · intro i hi
    have hflag : ∀ k, ¬ (s.judge.pc = .resetFlag k i ∧ i < s.judge.fileNum) →
        ((s.judgeStep.group.file i).buf k).flag = ((s.group.file i).buf k).flag := by
      intro k hk
      rw [Stream.judgeStep, judgeStep_flag, if_neg hk]
    refine ⟨fun k more hpc => ?_, fun k ho => ?_⟩
    · have hw : (s.group.file i).Writing k := (h.agrees i hi).mark k more hpc
      refine (hflag k fun hk => ?_).trans hw
      have hfull : (s.group.file i).Full k := (h.drain k i hk.1 i le_rfl hi).1
      rw [SingleFileInfo.Full, show ((s.group.file i).buf k).flag = .writing from hw] at hfull
      cases hfull
    · refine (hflag k fun hk => ?_).trans ((h.agrees i hi).owes k ho)
      exact (h.drain k i hk.1 i le_rfl hi).2 ho
  · intro k
    show (judgeStep _ _ _).1.bufFullNum k ≤ _
    rw [judgeStep_num]
    split_ifs with hk
    · exact Nat.zero_le _
    · exact (h.num k).trans (h.card_countedSet_judge hk).le
  · intro i hi k more v hpc
    have hst : (s.writer i).loc.pc = .store k more v := hpc
    refine (h.store i hi k more v hst).trans (h.card_countedSet_judge fun hk => ?_).le
    exact not_counted_of_store hst (h.taken k (Or.inr hk) i hi)
  · rintro k (hk | hk) i hi
    · obtain ⟨hpc, hnum⟩ := judgeStep_xor hk
      exact counted_judge (h.counted_of_num (hnum.trans h.judgeNum) hi).1 (by simp [hpc])
    · have hpc := judgeStep_resetNum hk
      exact counted_judge (h.taken k (Or.inl hpc) i hi) (by simp [hpc])
  · intro k j hk i hji hi
    rcases judgeStep_resetFlag hk with ⟨hpc, -⟩ | ⟨l, rfl, hpc, -⟩
    · exact counted_judge (h.taken k (Or.inr hpc) i hi) (by simp [hpc])
    · refine counted_judge (h.drain k l hpc i (by omega) hi) fun he => ?_
      rw [hpc] at he
      cases he
      omega

end Judge

/-- The invariant does not look at anything but the counters, the flags and the places of the parties, and
it lets the consumer go anywhere outside of a round. -/
theorem frame (h : CountInv n s) {s' : Stream} (hfileNum : s'.group.fileNum = n)
    (hjudgeNum : s'.judge.fileNum = n) (hnum : s'.group.bufFullNum = s.group.bufFullNum)
    (hfull : ∀ i < n, ∀ k, (s'.group.file i).Full k ↔ (s.group.file i).Full k)
    (hwriting : ∀ i < n, ∀ k, (s.group.file i).Writing k → (s'.group.file i).Writing k)
    (hpc : ∀ i < n, (s'.writer i).loc.pc = (s.writer i).loc.pc)
    (hjudge : s'.judge.pc = s.judge.pc ∨ ∀ k, s'.judge.pc ≠ .xor k ∧ s'.judge.pc ≠ .resetNum k ∧
      ∀ j, s'.judge.pc ≠ .resetFlag k j) : CountInv n s' := by
  have hcounted : ∀ {i}, i < n → ∀ k, s'.Counted i k ↔ s.Counted i k := by
    intro i hi k
    show (s'.group.file i).Full k ∧ ¬ (s'.writer i).loc.pc.Owes k ↔ _
    rw [hfull i hi k, hpc i hi]
    rfl
  have hdrain : ∀ {i k}, s'.Draining i k → s.Draining i k := by
    rintro i k ⟨j, hj, hji⟩
    rcases hjudge with hsame | hout
    · exact ⟨j, hsame ▸ hj, hji⟩
    · exact absurd hj ((hout k).2.2 j)
  have hcard : ∀ k, (s.countedSet n k).card ≤ (s'.countedSet n k).card := by
    intro k
    refine Finset.card_le_card fun i hi => ?_
    rw [Stream.mem_countedSet] at hi ⊢
    exact ⟨hi.1, (hcounted hi.1 k).2 hi.2.1, fun hd => hi.2.2 (hdrain hd)⟩
  refine ⟨hfileNum, hjudgeNum, ?_, ?_, ?_, ?_, ?_⟩
  · intro i hi
    refine ⟨fun k more hk => ?_, fun k ho => ?_⟩
    · exact hwriting i hi k ((h.agrees i hi).mark k more ((hpc i hi).symm.trans hk))
    · refine (hfull i hi k).2 ((h.agrees i hi).owes k ?_)
      show (s.writer i).loc.pc.Owes k
      rw [← hpc i hi]
      exact ho
  · intro k
    rw [hnum]
    exact (h.num k).trans (hcard k)
  · intro i hi k more v hk
    exact (h.store i hi k more v ((hpc i hi).symm.trans hk)).trans (hcard k)
  · intro k hk i hi
    rcases hjudge with hsame | hout
    · exact (hcounted hi k).2 (h.taken k (hsame ▸ hk) i hi)
    · exact absurd hk (not_or.2 ⟨(hout k).1, (hout k).2.1⟩)
  · intro k j hk i hji hi
    rcases hjudge with hsame | hout
    · exact (hcounted hi k).2 (h.drain k j (hsame ▸ hk) i hji hi)
    · exact absurd hk ((hout k).2.2 j)

/-- Every step of the system keeps the invariant. -/
theorem step (h : CountInv n s) (a : Actor) : CountInv n (s.step a) := by
  cases a with
  | judge => exact h.judge
  | writer i =>
    show CountInv n (if i < s.group.fileNum then s.writerStep i else s)
    split_ifs with hi
    · rcases s.writerStep_eq i with ⟨hs, -⟩ | ⟨c, ps, hm, hs⟩
      · rw [hs]
        exact h
      · rw [hs]
        exact h.writer (h.fileNum ▸ hi) hm
    · exact h

end CountInv

/-! ### No increment is lost -/

/-- The counters count exactly, and no read of a counter is outdated. -/
structure Exact (n : ℕ) (s : Stream) : Prop where
  num : ∀ k, s.group.bufFullNum k = (s.countedSet n k).card
  store : ∀ i < n, ∀ k more v, (s.writer i).loc.pc = .store k more v → v = s.group.bufFullNum k
  one : ∀ i < n, ∀ j < n, ∀ k more more' v v', (s.writer i).loc.pc = .store k more v →
    (s.writer j).loc.pc = .store k more' v' → i = j

section Exact

variable {n : ℕ} {s : Stream}

/-- An atomic step of a producer keeps the counters exact. -/
theorem Exact.writer (he : Exact n s) (h : CountInv n s) {i : ℕ} (hi : i < n) {c : FileCtx}
    {ps : List (List Byte)} (hm : WriterMove s.group.fileSize (s.ctx i) (s.writer i).pieces c ps)
    (hA : s.Atomic (.writer i)) : Exact n (s.put i c ps) := by
  have hnum : ∀ k, (s.put i c ps).group.bufFullNum k = ((s.put i c ps).countedSet n k).card := by
    intro k
    show c.num k = _
    rcases hm.num with ⟨k', more, v, hpc, hnum⟩ | ⟨hne, hnum⟩
    · rcases eq_or_ne k k' with rfl | hk
      · rw [hnum, Function.update_self, h.card_countedSet_put hi hm hpc,
          he.store i hi k more v hpc, he.num]
      · rw [hnum, Function.update_of_ne hk, h.countedSet_put_of_ne hi hm fun m w hw => ?_, ← he.num]
        · rfl
        · rw [show (s.writer i).loc.pc = _ from hpc] at hw
          cases hw
          exact hk rfl
    · rw [hnum, h.countedSet_put_of_ne hi hm (hne k), ← he.num]
      rfl
  -- a producer that reads a counter is then the only one about to write it
  have hone : ∀ {j k more v}, j < n → (s.writer j).loc.pc = .store k more v →
      ∀ {more' v'}, c.loc.pc ≠ .store k more' v' := by
    intro j k more v hj hpc more' v' hpc'
    exact hA k more' (hm.store hpc').1 j (h.fileNum ▸ hj) more v hpc
  refine ⟨hnum, ?_, ?_⟩
  · intro j hj k more v hpc
    rcases eq_or_ne j i with rfl | hji
    · have hpc' : c.loc.pc = .store k more v := by rwa [Stream.writer_put_self] at hpc
      obtain ⟨hload, hv⟩ := hm.store hpc'
      rw [hv]
      rcases hm.num with ⟨k', more', v', hst, -⟩ | ⟨-, hnum⟩
      · rw [hload] at hst
        cases hst
      · exact (congrFun hnum k).symm
    · rw [Stream.writer_put_of_ne _ _ _ hji] at hpc
      rw [he.store j hj k more v hpc]
      show s.group.bufFullNum k = c.num k
      rcases hm.num with ⟨k', more', v', hst, hnum⟩ | ⟨-, hnum⟩
      · rw [hnum, Function.update_of_ne]
        · rfl
        · rintro rfl
          exact hji (he.one j hj i hi k more more' v v' hpc hst)
      · exact (congrFun hnum k).symm
  · intro j hj j' hj' k more more' v v' hpc hpc'
    by_cases hji : j = i <;> by_cases hji' : j' = i
    · rw [hji, hji']
    · rw [hji, Stream.writer_put_self] at hpc
      rw [Stream.writer_put_of_ne _ _ _ hji'] at hpc'
      exact absurd hpc (hone hj' hpc')
    · rw [hji', Stream.writer_put_self] at hpc'
      rw [Stream.writer_put_of_ne _ _ _ hji] at hpc
      exact absurd hpc' (hone hj hpc)
    · rw [Stream.writer_put_of_ne _ _ _ hji] at hpc
      rw [Stream.writer_put_of_ne _ _ _ hji'] at hpc'
      exact he.one j hj j' hj' k more more' v v' hpc hpc'

/-- A step of the consumer keeps the counters exact. -/
theorem Exact.judge (he : Exact n s) (h : CountInv n s) : Exact n s.judgeStep := by
  have hnum : ∀ k, s.judgeStep.group.bufFullNum k =
      if s.judge.pc = .resetNum k then 0 else s.group.bufFullNum k := fun k =>
    judgeStep_num s.group s.out s.judge k
  refine ⟨fun k => ?_, ?_, he.one⟩
  · rw [hnum]
    split_ifs with hk
    · symm
      refine Finset.card_eq_zero.2 (Finset.eq_empty_of_forall_notMem fun i hi => ?_)
      refine (Stream.mem_countedSet.1 hi).2.2 ⟨0, ?_, Nat.zero_le i⟩
      simp only [Stream.judgeStep, judgeStep, hk]
    · rw [he.num k]
      exact h.card_countedSet_judge hk
  · intro i hi k more v hpc
    have hst : (s.writer i).loc.pc = .store k more v := hpc
    rw [he.store i hi k more v hst, hnum k, if_neg]
    exact fun hk => CountInv.not_counted_of_store hst (h.taken k (Or.inr hk) i hi)

/-- An atomic step of the system keeps the counters exact. -/
theorem Exact.step (he : Exact n s) (h : CountInv n s) {a : Actor} (hA : s.Atomic a) :
    Exact n (s.step a) := by
  cases a with
  | judge => exact he.judge h
  | writer i =>
    show Exact n (if i < s.group.fileNum then s.writerStep i else s)
    split_ifs with hi
    · rcases s.writerStep_eq i with ⟨hs, -⟩ | ⟨c, ps, hm, hs⟩
      · rw [hs]
        exact he
      · rw [hs]
        exact he.writer h (h.fileNum ▸ hi) hm hA
    · exact he

end Exact

/-! ### Runs -/

namespace Stream

/-- A group of `n` files that has just been set up: nobody is inside a call, no buffer is full and
the counters are `0`. -/
structure Fresh (n : ℕ) (s : Stream) : Prop where
  fileNum : s.group.fileNum = n
  judge : s.judge = ⟨.test 0, n⟩
  idle : ∀ i, (s.writer i).loc.pc = .idle
  flag : ∀ i k, ¬ (s.group.file i).Full k
  num : ∀ k, s.group.bufFullNum k = 0

theorem fresh_init (n N : ℕ) (pieces : ℕ → List (List Byte)) : (init n N pieces).Fresh n := by
  refine ⟨rfl, rfl, fun _ => rfl, fun _ k hk => ?_, fun _ => rfl⟩
  obtain rfl | rfl : k = 0 ∨ k = 1 := by omega
  · cases hk
  · cases hk

/-- No producer is between marking a buffer `k` full and having counted it, and the consumer is not
between resetting counter `k` and the last flag `k`. -/
def Settled (s : Stream) (k : Fin 2) : Prop :=
  (∀ i < s.group.fileNum, ¬ (s.writer i).loc.pc.Owes k) ∧
    ∀ j < s.group.fileNum, s.judge.pc ≠ .resetFlag k j

instance (s : Stream) (k : Fin 2) : Decidable (s.Settled k) :=
  inferInstanceAs (Decidable (_ ∧ _))

end Stream

section Runs

variable {n : ℕ} {s₀ s : Stream}

theorem Stream.Fresh.countInv (h : s₀.Fresh n) : CountInv n s₀ := by
  refine ⟨h.fileNum, by rw [h.judge], ?_, fun k => by rw [h.num]; exact Nat.zero_le _, ?_, ?_, ?_⟩
  · exact fun i _ => ⟨by simp [Stream.ctx, h.idle], by simp [Stream.ctx, h.idle, WritePc.Owes]⟩
  · intro i _ k more v hpc
    rw [h.idle] at hpc
    cases hpc
  · intro k hk
    rw [h.judge] at hk
    rcases hk with hk | hk <;> cases hk
  · intro k j hk
    rw [h.judge] at hk
    cases hk

theorem Stream.Fresh.exact (h : s₀.Fresh n) : Exact n s₀ := by
  refine ⟨fun k => ?_, ?_, ?_⟩
  · rw [h.num, eq_comm, Finset.card_eq_zero]
    exact Finset.eq_empty_of_forall_notMem fun i hi =>
      h.flag i k (Stream.mem_countedSet.1 hi).2.1.1
  all_goals
    intro i
    simp [h.idle]

/-- The counters never claim more than what is full, whatever the scheduler does. -/
theorem countInv_of_reach {C : Stream → Actor → Prop} (h₀ : s₀.Fresh n)
    (h : Reach Stream.step C s₀ s) : CountInv n s :=
  h.invariant h₀.countInv fun _ a ih _ => ih.step a

/-- Where increments are atomic no increment is lost. -/
theorem exact_of_atomic {C : Stream → Actor → Prop} (h₀ : s₀.Fresh n)
    (hC : ∀ t a, C t a → t.Atomic a) (h : Reach Stream.step C s₀ s) : CountInv n s ∧ Exact n s :=
  h.invariant (I := fun t => CountInv n t ∧ Exact n t) ⟨h₀.countInv, h₀.exact⟩
    fun t a ih hc => ⟨ih.1.step a, ih.2.step ih.1 (hC t a hc)⟩

/-- In a run whose increments are atomic, `buf_full_num[k]` is the number of files whose buffer `k`
is full whenever nobody is in the middle of an update. -/
theorem bufFullNum_eq_card (h₀ : s₀.Fresh n) (h : Reach Stream.step Stream.Atomic s₀ s) (k : Fin 2)
    (hs : s.Settled k) :
    s.group.bufFullNum k = ((Finset.range n).filter fun i => (s.group.file i).Full k).card := by
  obtain ⟨hI, he⟩ := exact_of_atomic h₀ (fun _ _ hA => hA) h
  rw [he.num k]
  congr 1
  ext i
  rw [Stream.mem_countedSet, Finset.mem_filter, Finset.mem_range]
  constructor
  · exact fun ⟨hi, hc, _⟩ => ⟨hi, hc.1⟩
  · rintro ⟨hi, hf⟩
    refine ⟨hi, ⟨hf, hs.1 i (hI.fileNum ▸ hi)⟩, ?_⟩
    rintro ⟨j, hj, hji⟩
    exact hs.2 j (by rw [hI.fileNum]; omega) hj

/-- Two producers store a byte each, mark their buffers and count them one after the other. -/
def countInOrder : List Actor := List.replicate 5 (.writer 0) ++ List.replicate 5 (.writer 1)

theorem bufFullNum_eq_card_two :
    (run Stream.step (.init 2 1 fun _ => [[0]]) countInOrder).group.bufFullNum 0 =
      ((Finset.range 2).filter fun i =>
        ((run Stream.step (.init 2 1 fun _ => [[0]]) countInOrder).group.file i).Full 0).card :=
  bufFullNum_eq_card (Stream.fresh_init 2 1 _) (Allowed.reach (by decide +kernel)) 0
    (by decide +kernel)

/-- Both producers read the counter before either has written it. -/
def countTogether : List Actor :=
  List.replicate 4 (.writer 0) ++ List.replicate 5 (.writer 1) ++ [.writer 0]

/-- An increment is lost where two producers count the same buffer at the same time. -/
theorem not_bufFullNum_eq_card : ¬ ∀ n s₀ s, Stream.Fresh n s₀ → Reach Stream.step Free s₀ s →
    ∀ k, s.Settled k →
      s.group.bufFullNum k = ((Finset.range n).filter fun i => (s.group.file i).Full k).card := by
  intro hall
  have h := hall 2 _ _ (Stream.fresh_init 2 1 fun _ => [[0]]) (reach_run _ countTogether) 0
    (by decide +kernel)
  exact absurd h (by decide +kernel)

end Runs

end ORaidServer
