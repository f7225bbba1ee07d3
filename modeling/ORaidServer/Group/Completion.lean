import ORaidServer.Group.OneSegment
import ORaidServer.Lib.Fair

/-!
# When a fair run returns

Infinite schedules in which every producer and the consumer take steps again and again, for files of at most
one segment.

* `Writer.work`, what a producer still has to do, which only its own steps lower;
* `Stream.left`, what the consumer has to do once the producers are done;
* `Doomed`: two producers have updated the counter at the same time, and it will never reach the number of
  files;
* `returns_iff_atomic`: the consumer returns if and only if this does not happen, and polls for ever if it does.
-/

namespace ORaidServer

open Guarded ByteMem Fair

/-! ### The producers -/

/-- The steps to the end of a call that stays in buffer `0`. -/
def WritePc.left : WritePc → ℕ
  | .idle => 0
  | .head => 4
  | .mark _ _ => 3
  | .load _ _ => 2
  | .store _ _ _ => 1
  | .tail0 | .tail1 => 0

/-- What a producer still has to do. -/
def Writer.work (w : Writer) : ℕ := 5 * w.pieces.length + w.loc.pc.left

section Work

variable {n N : ℕ} {f : ℕ → List Byte} {s : Stream} {i : ℕ}

theorem work_eq_zero (h : SingleInv n N f s) (hi : i < n) :
    (s.writer i).work = 0 ↔ (s.writer i).loc.pc = .idle ∧ (s.writer i).pieces = [] := by
  have hplace : (s.writer i).loc.pc.Single := (h.file i hi).pc
  rw [Writer.work]
  cases hpc : (s.writer i).loc.pc with
  | tail0 | tail1 =>
    rw [hpc] at hplace
    exact hplace.elim
  | _ => simp [WritePc.left]

/-- A producer that has something to do does it. -/
theorem work_lt (h : SingleInv n N f s) (hle : N ≤ readBufSize) (hi : i < n) (hw : (s.writer i).work ≠ 0) :
    ((s.step (.writer i)).writer i).work < (s.writer i).work := by
  show ((if i < s.group.fileNum then s.writerStep i else s).writer i).work < _
  rw [if_pos (h.inv.fileNum ▸ hi)]
  rcases s.writerStep_eq i with ⟨-, hidle⟩ | ⟨c, ps, hm, hs⟩
  · exact absurd ((work_eq_zero h hi).2 hidle) hw
  · rw [hs, Stream.writer_put_self, Writer.work, Writer.work]
    have hlen := h.inv.length i hi
    have hF := h.inv.file i hi
    have hsingle := h.file i hi
    have hplace := hsingle.pc
    rw [h.inv.fileSize, ← hlen] at hm
    generalize (s.writer i).pieces = qs at hm hF
    cases hm with
    | call p _ hpc =>
      have hpc' : (s.writer i).loc.pc = .idle := hpc
      simp only [hpc', WriteLocal.call, WritePc.left, List.length_cons]
      omega
    | step _ hpc =>
      have hpc' : (s.writer i).loc.pc = (s.ctx i).loc.pc := rfl
      rw [hpc']
      refine Nat.add_lt_add_left ?_ _
      cases hat : (s.ctx i).loc.pc with
      | idle => exact absurd hat hpc
      | head =>
        obtain ⟨hwriting, hfits⟩ := FileInv.single_head (c := s.ctx i) hF (hlen ▸ hle) (hlen ▸ hsingle) hat
        rw [FileInv.step_head (c := s.ctx i) hF hat hwriting,
          FileInv.storeInto_fits_eq (c := s.ctx i) hF hat hfits]
        dsimp only
        split_ifs <;> simp [WritePc.left]
      | mark k more | load k more => simp [writeBufStep, hat, WritePc.left]
      | store k more v =>
        rw [hat] at hplace
        obtain ⟨rfl, rfl⟩ := hplace
        simp [writeBufStep, hat, WritePc.left]
      | tail0 | tail1 =>
        rw [hat] at hplace
        exact hplace.elim

/-- A step of another party leaves a producer where it is. -/
theorem writer_step_of_ne {a : Actor} (ha : a ≠ .writer i) : (s.step a).writer i = s.writer i := by
  cases a with
  | judge => rfl
  | writer j =>
    have hij : i ≠ j := fun heq => ha (by rw [heq])
    show (if j < s.group.fileNum then s.writerStep j else s).writer i = _
    split_ifs
    · rcases s.writerStep_eq j with ⟨hs, -⟩ | ⟨c, ps, -, hs⟩
      · rw [hs]
      · rw [hs, Stream.writer_put_of_ne _ _ _ hij]
    · rfl

theorem work_le (h : SingleInv n N f s) (hle : N ≤ readBufSize) (hi : i < n) (a : Actor) :
    ((s.step a).writer i).work ≤ (s.writer i).work := by
  by_cases ha : a = .writer i
  · subst ha
    by_cases hw : (s.writer i).work = 0
    · obtain ⟨hpc, hps⟩ := (work_eq_zero h hi).1 hw
      have hs : s.step (.writer i) = s := by
        show (if i < s.group.fileNum then s.writerStep i else s) = s
        rw [if_pos (h.inv.fileNum ▸ hi), Stream.writerStep, if_pos hpc, hps]
      rw [hs]
    · exact (work_lt h hle hi hw).le
  · rw [writer_step_of_ne ha]

end Work

/-! ### The consumer -/

/-- What the consumer still has to do when the files are in the buffers. -/
def Stream.left (s : Stream) : ℕ :=
  match s.judge.pc with
  | .test k => if k = 0 then s.judge.fileNum + 5 else s.judge.fileNum + 7
  | .loop => if s.group.xorFlag = 0 then s.judge.fileNum + 6 else 1
  | .xor _ => s.judge.fileNum + 4
  | .resetNum _ => s.judge.fileNum + 3
  | .resetFlag _ j => s.judge.fileNum - j + 2
  | .done _ => 0

section Left

variable {n N : ℕ} {f : ℕ → List Byte} {s : Stream}

/-- When every producer is done, all the files are counted. -/
theorem num_of_work (h : SingleInv n N f s) (he : Exact n s) (hc : s.Collecting n)
    (hw : ∀ i < n, (s.writer i).work = 0) : s.group.bufFullNum 0 = n := by
  have hset : s.countedSet n 0 = Finset.range n := by
    ext i
    rw [Stream.mem_countedSet, Finset.mem_range]
    refine and_iff_left_of_imp fun hi => ?_
    obtain ⟨hpc, hps⟩ := (work_eq_zero h hi).1 (hw i hi)
    have hF := h.inv.file i hi
    have hsplit := hF.split
    rw [hps] at hsplit
    simp only [WriteLocal.pending, hpc, List.flatten_nil, List.append_nil, List.drop_eq_nil_iff] at hsplit
    have hst : (s.group.file i).stored = (f i).length := le_antisymm hF.le hsplit
    have hloc := hF.loc
    simp only [LocalInv, hpc] at hloc
    have hnw : ((s.group.file i).buf 0).flag ≠ .writing := hloc.2.1 hst 0
    have hkept := hc.kept i hi
    refine ⟨⟨?_, ?_⟩, ?_⟩
    · show ((s.group.file i).buf 0).flag = .full
      cases hflag : ((s.group.file i).buf 0).flag with
      | empty => exact absurd hflag hkept
      | writing => exact absurd hflag hnw
      | full => rfl
    · simp [Stream.ctx, hpc, WritePc.Owes]
    · rintro ⟨j, hj, -⟩
      rcases hc.pc with ⟨k, hk⟩ | hk | hk <;> rw [hk] at hj <;> cases hj
  rw [he.num, hset, Finset.card_range]

/-- The consumer then takes the group on with every step. -/
theorem left_lt (h : SingleInv n N f s) (he : Exact n s) (hw : ∀ i < n, (s.writer i).work = 0)
    (hl : s.left ≠ 0) : (s.step .judge).left < s.left := by
  show s.judgeStep.left < s.left
  rcases h.phase with hc | hf
  · have hnum := (num_of_work h he hc hw).trans h.inv.judgeNum.symm
    rcases hc.pc with ⟨k, hpc⟩ | hpc | hpc
    · by_cases hk : s.group.bufFullNum k = s.judge.fileNum
      · simp only [Stream.left, Stream.judgeStep, judgeStep, hpc, if_pos hk]
        split_ifs <;> omega
      · have hk0 : k ≠ 0 := by
          rintro rfl
          exact hk hnum
        simp only [Stream.left, Stream.judgeStep, judgeStep, hpc, if_neg hk, if_neg hk0, hc.xorFlag, if_true]
        omega
    · have hflags : s.group.xorFlag = 0 ∧ s.group.correctFlag = 0 := ⟨hc.xorFlag, h.correct⟩
      simp only [Stream.left, Stream.judgeStep, judgeStep, hpc, if_pos hflags, if_pos hc.xorFlag, if_true]
      omega
    · simp only [Stream.left, Stream.judgeStep, judgeStep, hpc]
      omega
  · have hx : ¬ s.group.xorFlag = 0 := by simp [hf.xorFlag]
    rcases hf.pc with hpc | ⟨j, hpc⟩ | hpc | hpc
    · simp only [Stream.left, Stream.judgeStep, judgeStep, hpc]
      omega
    · by_cases hj : j < s.judge.fileNum
      · simp only [Stream.left, Stream.judgeStep, judgeStep, hpc, if_pos hj]
        omega
      · simp only [Stream.left, Stream.judgeStep, judgeStep, hpc, if_neg hj, if_neg hx]
        omega
    · have hflags : ¬ (s.group.xorFlag = 0 ∧ s.group.correctFlag = 0) := fun hflags => hx hflags.1
      simp only [Stream.left, Stream.judgeStep, judgeStep, hpc, if_neg hflags, if_neg hx]
      omega
    · simp [Stream.left, hpc] at hl

/-- A consumer with nothing left to do has returned. -/
theorem done_of_left (hl : s.left = 0) : ∃ r, s.judge.pc = .done r := by
  unfold Stream.left at hl
  cases hpc : s.judge.pc with
  | done r => exact ⟨r, rfl⟩
  | test k | loop =>
    simp only [hpc] at hl
    split_ifs at hl
  | xor k | resetNum k | resetFlag k j => simp [hpc] at hl

/-- A consumer that has returned stays where it is. -/
theorem step_done {r : ℤ} (h : s.judge.pc = .done r) (a : Actor) : (s.step a).judge.pc = .done r := by
  cases a with
  | writer i =>
    show (if i < s.group.fileNum then s.writerStep i else s).judge.pc = _
    split_ifs
    · rcases s.writerStep_eq i with ⟨hs, -⟩ | ⟨c, ps, -, hs⟩ <;> rw [hs] <;> exact h
    · exact h
  | judge =>
    show s.judgeStep.judge.pc = _
    simp only [Stream.judgeStep, judgeStep, h]

/-- No step takes the consumer further away. -/
theorem left_le (h : SingleInv n N f s) (he : Exact n s) (hw : ∀ i < n, (s.writer i).work = 0) (a : Actor) :
    (s.step a).left ≤ s.left := by
  cases a with
  | writer i =>
    show (if i < s.group.fileNum then s.writerStep i else s).left ≤ _
    split_ifs
    · rcases s.writerStep_eq i with ⟨hs, -⟩ | ⟨c, ps, -, hs⟩
      · rw [hs]
      · rw [hs]
        exact le_rfl
    · exact le_rfl
  | judge =>
    by_cases hl : s.left = 0
    · obtain ⟨r, hpc⟩ := done_of_left hl
      have hdone := step_done hpc .judge
      simp [Stream.left, hdone]
    · exact (left_lt h he hw hl).le

end Left

/-! ### Lost increments -/

/-- The counter of buffer `0` has lost an increment, or is about to lose one. -/
def Stream.Loses (n : ℕ) (s : Stream) : Prop :=
  (s.group.bufFullNum 0 < (s.countedSet n 0).card ∧
    ∀ i < n, ∀ v, (s.writer i).loc.pc = .store 0 false v → v < (s.countedSet n 0).card) ∨
  (∃ i < n, ∃ v, (s.writer i).loc.pc = .store 0 false v ∧ v < (s.countedSet n 0).card) ∨
  ∃ i < n, ∃ j < n, i ≠ j ∧ (∃ v, (s.writer i).loc.pc = .store 0 false v) ∧
    ∃ w, (s.writer j).loc.pc = .store 0 false w

/-- The consumer waits for a counter that will not reach the number of files. -/
structure Doomed (n N : ℕ) (f : ℕ → List Byte) (s : Stream) : Prop where
  inv : SingleInv n N f s
  collecting : s.Collecting n
  waits : s.judge.pc ≠ .xor 0
  loses : s.Loses n

section Lost

variable {n N : ℕ} {f : ℕ → List Byte} {s : Stream}

/-- A file that is about to be counted is not counted. -/
theorem card_lt_of_store {i : ℕ} (hi : i < n) {v : ℕ} (hpc : (s.writer i).loc.pc = .store 0 false v) :
    (s.countedSet n 0).card < n := by
  have hsub : s.countedSet n 0 ⊆ (Finset.range n).erase i := by
    intro j hj
    obtain ⟨hjn, hc, -⟩ := Stream.mem_countedSet.1 hj
    refine Finset.mem_erase.2 ⟨?_, Finset.mem_range.2 hjn⟩
    rintro rfl
    exact CountInv.not_counted_of_store hpc hc
  have hcard := Finset.card_le_card hsub
  rw [Finset.card_erase_of_mem (Finset.mem_range.2 hi), Finset.card_range] at hcard
  omega

theorem Doomed.num_lt (h : Doomed n N f s) : s.group.bufFullNum 0 < n := by
  have hcount := h.inv.inv.toCount
  have hle := hcount.num 0
  have hcard : (s.countedSet n 0).card ≤ n := by
    have hsub : s.countedSet n 0 ⊆ Finset.range n := fun j hj =>
      Finset.mem_range.2 (Stream.mem_countedSet.1 hj).1
    exact (Finset.card_le_card hsub).trans (Finset.card_range n).le
  rcases h.loses with ⟨hlt, -⟩ | ⟨i, hi, v, hpc, -⟩ | ⟨i, hi, -, -, -, ⟨v, hpc⟩, -⟩
  · omega
  · have := card_lt_of_store hi hpc
    omega
  · have := card_lt_of_store hi hpc
    omega

/-- No step of a producer makes up for a lost increment. -/
theorem Stream.Loses.writer (hl : s.Loses n) (h : SingleInv n N f s) {i : ℕ} (hi : i < n) {c : FileCtx}
    {ps : List (List Byte)} (hm : WriterMove s.group.fileSize (s.ctx i) (s.writer i).pieces c ps) :
    (s.put i c ps).Loses n := by
  have hcount := h.inv.toCount
  have hself : ((s.put i c ps).writer i).loc = c.loc := by rw [Stream.writer_put_self]
  have hother : ∀ {j}, j ≠ i → (s.put i c ps).writer j = s.writer j := fun hj =>
    Stream.writer_put_of_ne _ _ _ hj
  have hbound : ∀ j < n, ∀ v, (s.writer j).loc.pc = .store 0 false v → v ≤ (s.countedSet n 0).card :=
    fun j hj v => hcount.store j hj 0 false v
  by_cases hst : ∃ v, (s.writer i).loc.pc = .store 0 false v
  · obtain ⟨v, hpc⟩ := hst
    have hcard := hcount.card_countedSet_put hi hm hpc
    have hidle : ∀ w, c.loc.pc ≠ .store 0 false w := by
      intro w hw
      have := (hm.store hw).1
      rw [show (s.ctx i).loc.pc = .store 0 false v from hpc] at this
      cases this
    have hnum : (s.put i c ps).group.bufFullNum 0 = v + 1 := by
      rcases hm.num with ⟨k', more, v', hpc', hnum⟩ | ⟨hne, -⟩
      · rw [show (s.ctx i).loc.pc = .store 0 false v from hpc] at hpc'
        cases hpc'
        show c.num 0 = _
        rw [hnum, Function.update_self]
      · exact absurd hpc (hne 0 false v)
    -- what the others have read is outdated
    have hafter : ∀ j < n, ∀ w, ((s.put i c ps).writer j).loc.pc = .store 0 false w →
        w < ((s.put i c ps).countedSet n 0).card := by
      intro j hj w hw
      rcases eq_or_ne j i with rfl | hji
      · rw [hself] at hw
        exact absurd hw (hidle w)
      · rw [hother hji] at hw
        have := hbound j hj w hw
        omega
    rcases hl with ⟨-, hall⟩ | ⟨j, hj, w, hw, hlt⟩ | ⟨j, hj, j', hj', hne, ⟨w, hw⟩, w', hw'⟩
    · have := hall i hi v hpc
      exact Or.inl ⟨by omega, hafter⟩
    · rcases eq_or_ne j i with rfl | hji
      · rw [hpc] at hw
        cases hw
        exact Or.inl ⟨by omega, hafter⟩
      · exact Or.inr (Or.inl ⟨j, hj, w, by rw [hother hji]; exact hw, by omega⟩)
    · rcases eq_or_ne j i with rfl | hji
      · have := hbound j' hj' w' hw'
        exact Or.inr (Or.inl ⟨j', hj', w', by rw [hother hne.symm]; exact hw', by omega⟩)
      · have := hbound j hj w hw
        exact Or.inr (Or.inl ⟨j, hj, w, by rw [hother hji]; exact hw, by omega⟩)
  · have hsingle : ∀ more v, (s.writer i).loc.pc ≠ .store 0 more v := by
      intro more v hpc
      have hplace : (s.writer i).loc.pc.Single := (h.file i hi).pc
      rw [hpc] at hplace
      obtain ⟨-, rfl⟩ := hplace
      exact hst ⟨v, hpc⟩
    have hset := hcount.countedSet_put_of_ne hi hm hsingle
    have hnum : (s.put i c ps).group.bufFullNum 0 = s.group.bufFullNum 0 := by
      show c.num 0 = _
      rcases hm.num with ⟨k', more, v, hpc, hnum⟩ | ⟨-, hnum⟩
      · rw [hnum, Function.update_of_ne]
        · rfl
        · rintro rfl
          exact hsingle more v hpc
      · rw [hnum]
        rfl
    have hkeep : ∀ {j v}, (s.writer j).loc.pc = .store 0 false v →
        ((s.put i c ps).writer j).loc.pc = .store 0 false v := by
      intro j v hpc
      rcases eq_or_ne j i with rfl | hji
      · exact absurd hpc (hsingle false v)
      · rwa [hother hji]
    rw [Stream.Loses, hset, hnum]
    rcases hl with ⟨hlt, hall⟩ | ⟨j, hj, w, hw, hlt⟩ | ⟨j, hj, j', hj', hne, ⟨w, hw⟩, w', hw'⟩
    · refine Or.inl ⟨hlt, fun j hj w hw => ?_⟩
      rcases eq_or_ne j i with rfl | hji
      · -- the counter that is read has lost an increment already
        rw [hself] at hw
        rw [(hm.store hw).2]
        exact hlt
      · rw [hother hji] at hw
        exact hall j hj w hw
    · exact Or.inr (Or.inl ⟨j, hj, w, hkeep hw, hlt⟩)
    · exact Or.inr (Or.inr ⟨j, hj, j', hj', hne, ⟨w, hkeep hw⟩, w', hkeep hw'⟩)

/-- A doomed group stays doomed. -/
theorem Doomed.step (h : Doomed n N f s) (hn : 0 < n) (hle : N ≤ readBufSize) (a : Actor) :
    Doomed n N f (s.step a) := by
  have hinv := h.inv.step hn hle a
  cases a with
  | writer i =>
    have hcollecting : (s.step (.writer i)).Collecting n := by
      rcases hinv.phase with hc | hf
      · exact hc
      · have hx : (s.step (.writer i)).group.xorFlag = s.group.xorFlag := by
          show (if i < s.group.fileNum then s.writerStep i else s).group.xorFlag = _
          split_ifs
          · rcases s.writerStep_eq i with ⟨hs, -⟩ | ⟨c, ps, -, hs⟩ <;> rw [hs]
            rfl
          · rfl
        rw [hf.xorFlag, h.collecting.xorFlag] at hx
        exact absurd hx (by decide)
    have hwaits : (s.step (.writer i)).judge.pc ≠ .xor 0 := by
      show (if i < s.group.fileNum then s.writerStep i else s).judge.pc ≠ _
      split_ifs
      · rcases s.writerStep_eq i with ⟨hs, -⟩ | ⟨c, ps, -, hs⟩ <;> rw [hs]
        · exact h.waits
        · exact h.waits
      · exact h.waits
    refine ⟨hinv, hcollecting, hwaits, ?_⟩
    show Stream.Loses n (if i < s.group.fileNum then s.writerStep i else s)
    split_ifs with hi
    · rcases s.writerStep_eq i with ⟨hs, -⟩ | ⟨c, ps, hm, hs⟩
      · rw [hs]
        exact h.loses
      · rw [hs]
        exact h.loses.writer h.inv (h.inv.inv.fileNum ▸ hi) hm
    · exact h.loses
  | judge =>
    -- the consumer goes on polling
    have hnum : ∀ k, s.group.bufFullNum k ≠ s.judge.fileNum := by
      intro k hk
      have hk' := hk.trans h.inv.inv.judgeNum
      obtain rfl := h.inv.eq_zero_of_num hn hk'
      exact h.num_lt.ne hk'
    have hsame : ∃ pc, s.step .judge = { s with judge := { s.judge with pc := pc } } ∧ pc ≠ .xor 0 ∧
        ((∃ k, pc = .test k) ∨ pc = .loop) := by
      show ∃ pc, s.judgeStep = _ ∧ _
      rcases h.collecting.pc with ⟨k, hpc⟩ | hpc | hpc
      · refine ⟨if k = 0 then .test 1 else .loop, ?_, ?_, ?_⟩
        · simp only [Stream.judgeStep, judgeStep, hpc, if_neg (hnum k)]
        · split_ifs <;> simp
        · split_ifs
          · exact Or.inl ⟨1, rfl⟩
          · exact Or.inr rfl
      · have hflags : s.group.xorFlag = 0 ∧ s.group.correctFlag = 0 :=
          ⟨h.collecting.xorFlag, h.inv.correct⟩
        exact ⟨.test 0, by simp only [Stream.judgeStep, judgeStep, hpc, if_pos hflags], by simp,
          Or.inl ⟨0, rfl⟩⟩
      · exact absurd hpc h.waits
    obtain ⟨pc, hs, hne, hpc⟩ := hsame
    have hset : (s.step .judge).countedSet n 0 = s.countedSet n 0 := by
      ext i
      have hdraining : ∀ {t : Stream}, ((∃ k, t.judge.pc = .test k) ∨ t.judge.pc = .loop) →
          ¬ t.Draining i 0 := by
        rintro t ht ⟨j, hj, -⟩
        rcases ht with ⟨k, hk⟩ | hk <;> rw [hk] at hj <;> cases hj
      have hbefore : (∃ k, s.judge.pc = .test k) ∨ s.judge.pc = .loop := by
        rcases h.collecting.pc with hk | hk | hk
        · exact Or.inl hk
        · exact Or.inr hk
        · exact absurd hk h.waits
      have hafter : (∃ k, (s.step .judge).judge.pc = .test k) ∨ (s.step .judge).judge.pc = .loop := by
        rw [hs]
        exact hpc
      rw [Stream.mem_countedSet, Stream.mem_countedSet, and_iff_left (hdraining hbefore),
        and_iff_left (hdraining hafter), hs]
      rfl
    refine ⟨hinv, ?_, ?_, ?_⟩
    · have hc := h.collecting
      rw [hs]
      exact ⟨hc.xorSize, hc.xorFlag, hc.data, hpc.imp_right Or.inl, hc.kept⟩
    · rw [hs]
      exact hne
    · rw [Stream.Loses, hset, hs]
      exact h.loses

end Lost

/-! ### Fair runs -/

/-- A schedule in which the producers below `n` and the consumer take steps again and again. -/
structure FairSchedule (n : ℕ) (sched : ℕ → Actor) : Prop where
  writer : ∀ i < n, Often sched (.writer i)
  judge : Often sched .judge

section Runs

variable {n N : ℕ} {f : ℕ → List Byte} {pieces : ℕ → List (List Byte)} {sched : ℕ → Actor}

/-- A producer that does not belong to the group is never inside a call. -/
theorem idle_of_ge {C : Stream → Actor → Prop} {s : Stream} (h : Reach Stream.step C (.init n N pieces) s)
    {i : ℕ} (hi : n ≤ i) : s.group.fileNum = n ∧ (s.writer i).loc.pc = .idle := by
  have hfileNum := (countInv_of_reach (Stream.fresh_init n N pieces) h).fileNum
  refine ⟨hfileNum, ?_⟩
  induction h with
  | refl => rfl
  | @tail t a ht _ ih =>
    have hnum := (countInv_of_reach (Stream.fresh_init n N pieces) ht).fileNum
    by_cases ha : a = .writer i
    · subst ha
      have hs : t.step (.writer i) = t := if_neg (by omega)
      rw [hs]
      exact ih hnum
    · rw [writer_step_of_ne ha]
      exact ih hnum

/-- Two producers at the counter together doom the group. -/
theorem doomed_of_not_atomic {s : Stream} (h : SingleInv n N f s) (hn : 0 < n) (hle : N ≤ readBufSize)
    (hout : ∀ i, n ≤ i → (s.writer i).loc.pc = .idle) {a : Actor} (ha : ¬ s.Atomic a) :
    Doomed n N f (s.step a) := by
  cases a with
  | judge => exact absurd trivial ha
  | writer i =>
    unfold Stream.Atomic at ha
    push Not at ha
    obtain ⟨k, more, hload, j, hj, more', v, hstore⟩ := ha
    have hi : i < n := by
      by_contra hge
      rw [hout i (by omega)] at hload
      cases hload
    rw [h.inv.fileNum] at hj
    have hplace : (s.writer i).loc.pc.Single := (h.file i hi).pc
    rw [hload] at hplace
    obtain ⟨rfl, rfl⟩ := hplace
    have hplace' : (s.writer j).loc.pc.Single := (h.file j hj).pc
    rw [hstore] at hplace'
    obtain ⟨-, rfl⟩ := hplace'
    have hji : j ≠ i := by
      rintro rfl
      rw [hload] at hstore
      cases hstore
    have hcollecting : s.Collecting n := by
      rcases h.phase with hc | hf
      · exact hc
      · have hpc := (hf.idle i hi).1
        rw [hload] at hpc
        cases hpc
    have hwaits : s.judge.pc ≠ .xor 0 := by
      intro hpc
      have hidle := (h.idle_of_counted hi (h.inv.taken 0 (Or.inl hpc) i hi)).1
      rw [hload] at hidle
      cases hidle
    have hne : (s.writer i).loc.pc ≠ .idle := by rw [hload]; simp
    have hs : s.step (.writer i) =
        s.put i (writeBufStep s.group.fileSize (s.ctx i)) (s.writer i).pieces :=
      Stream.step_writer (h.inv.fileNum ▸ hi) hne
    have hstep : writeBufStep s.group.fileSize (s.ctx i) =
        { s.ctx i with loc.pc := .store 0 false (s.group.bufFullNum 0) } := by
      have hpc : (s.ctx i).loc.pc = .load 0 false := hload
      simp only [writeBufStep, hpc]
      rfl
    have hinv := h.step hn hle (.writer i)
    rw [hs] at hinv ⊢
    have hstored : ((s.put i (writeBufStep s.group.fileSize (s.ctx i)) (s.writer i).pieces).writer i).loc.pc =
        .store 0 false (s.group.bufFullNum 0) := by
      rw [Stream.writer_put_self, hstep]
    refine ⟨hinv, ?_, hwaits, Or.inr (Or.inr ⟨i, hi, j, hj, hji.symm, ⟨_, hstored⟩, v, ?_⟩)⟩
    · rcases hinv.phase with hc | hf
      · exact hc
      · have hpc := (hf.idle i hi).1
        rw [hstored] at hpc
        cases hpc
    · rw [Stream.writer_put_of_ne _ _ _ hji]
      exact hstore

/-- The consumer is in its loop and has found no counter at the number of files. -/
def Stream.Polling (s : Stream) : Prop := (∃ k, s.judge.pc = .test k) ∨ s.judge.pc = .loop

/-- The consumer has found one, for good. -/
def Stream.Taken (n N : ℕ) (f : ℕ → List Byte) (s : Stream) : Prop := s.judge.pc = .xor 0 ∨ s.Finished n N f

theorem Stream.Taken.step {s : Stream} (h : SingleInv n N f s) (hn : 0 < n) (hle : N ≤ readBufSize)
    (ht : s.Taken n N f) (a : Actor) : (s.step a).Taken n N f := by
  cases a with
  | judge =>
    rcases ht with hpc | hf
    · have hc : s.Collecting n := by
        refine h.phase.resolve_right fun hf => ?_
        rcases hf.pc with hk | ⟨j, hk⟩ | hk | hk <;> rw [hpc] at hk <;> cases hk
      exact Or.inr (h.xor hn hle hc hpc).1
    · exact Or.inr (h.finished_judge hf).2
  | writer i =>
    show Stream.Taken n N f (if i < s.group.fileNum then s.writerStep i else s)
    split_ifs with hi
    · rcases s.writerStep_eq i with ⟨hs, -⟩ | ⟨c, ps, hm, hs⟩
      · rwa [hs]
      · rw [hs]
        rcases ht with hpc | hf
        · exact Or.inl hpc
        · -- a producer that has handed over its file does not move any more
          obtain ⟨hpc, hps⟩ := hf.idle i (h.inv.fileNum ▸ hi)
          rw [hps] at hm
          cases hm with
          | step _ hne => exact absurd hpc hne
    · exact ht

theorem Doomed.not_taken {s : Stream} (h : Doomed n N f s) : ¬ s.Taken n N f := by
  rintro (hpc | hf)
  · exact h.waits hpc
  · exact absurd (hf.xorFlag.symm.trans h.collecting.xorFlag) (by decide)

/-- In a fair run with atomic increments the consumer returns. -/
theorem exists_done (hinv : ∀ t, SingleInv n N f (trace Stream.step (.init n N pieces) sched t))
    (hexact : ∀ t, Exact n (trace Stream.step (.init n N pieces) sched t)) (hle : N ≤ readBufSize)
    (hfair : FairSchedule n sched) :
    ∃ t r, (trace Stream.step (.init n N pieces) sched t).judge.pc = .done r := by
  have hwork : ∀ i < n, ∃ t, ∀ u, t ≤ u →
      ((trace Stream.step (.init n N pieces) sched u).writer i).work = 0 := by
    intro i hi
    have hfall : ∀ u, ((trace Stream.step (.init n N pieces) sched (u + 1)).writer i).work ≤
        ((trace Stream.step (.init n N pieces) sched u).writer i).work := fun u => by
      rw [trace_succ]
      exact work_le (hinv u) hle hi (sched u)
    obtain ⟨t, -, ht⟩ := eventually_zero (hfair.writer i hi) (fun s : Stream => (s.writer i).work) 0
      (fun u _ => hfall u) fun u _ hu hw => by
        rw [trace_succ, hu]
        exact work_lt (hinv u) hle hi hw
    exact ⟨t, persists (P := fun s : Stream => (s.writer i).work = 0) ht fun u _ hu =>
      Nat.le_zero.1 ((hfall u).trans hu.le)⟩
  obtain ⟨t, ht⟩ := eventually_forall (P := fun i (s : Stream) => (s.writer i).work = 0) hwork
  obtain ⟨u, -, hu⟩ := eventually_zero hfair.judge Stream.left t
    (fun u hu => by
      rw [trace_succ]
      exact left_le (hinv u) (hexact u) (ht u hu) (sched u))
    fun u hu ha hl => by
      rw [trace_succ, ha]
      exact left_lt (hinv u) (hexact u) (ht u hu) hl
  exact ⟨u, done_of_left hu⟩

/-- **Return.**  On files of at most `READ_BUF_SIZE` bytes a fair run returns `RIGHT` with the exclusive or if and
only if no producer reads the counter while another one is about to write it; if one does, the consumer polls for
ever. -/
theorem returns_iff_atomic (hn : 0 < n) (hN : 0 < N) (hle : N ≤ readBufSize)
    (hs : Stream.Split n N f pieces) (hfair : FairSchedule n sched) :
    ((∃ t, (trace Stream.step (.init n N pieces) sched t).judge.pc = .done right ∧
      (trace Stream.step (.init n N pieces) sched t).out.data = xorBlocks ((List.range n).map f) N) ↔
      ∀ t, (trace Stream.step (.init n N pieces) sched t).Atomic (sched t)) ∧
    ((∃ t, ¬ (trace Stream.step (.init n N pieces) sched t).Atomic (sched t)) →
      ∀ t, (trace Stream.step (.init n N pieces) sched t).Polling) := by
  have hreach : ∀ t, Reach Stream.step Free (.init n N pieces)
      (trace Stream.step (.init n N pieces) sched t) := reach_trace fun _ => trivial
  have hinv : ∀ t, SingleInv n N f (trace Stream.step (.init n N pieces) sched t) := fun t =>
    singleInv_of_reach hn hN hle hs (hreach t)
  have hpolls : (∃ t, ¬ (trace Stream.step (.init n N pieces) sched t).Atomic (sched t)) →
      ∀ t, (trace Stream.step (.init n N pieces) sched t).Polling := by
    rintro ⟨u, hu⟩ t
    have hdoomed := doomed_of_not_atomic (hinv u) hn hle (fun i hi => (idle_of_ge (hreach u) hi).2) hu
    have hforever : ∀ v, u + 1 ≤ v → Doomed n N f (trace Stream.step (.init n N pieces) sched v) :=
      persists hdoomed fun v _ hv => hv.step hn hle (sched v)
    -- what the consumer had taken before, it would have taken now
    have hnot : ¬ (trace Stream.step (.init n N pieces) sched t).Taken n N f := fun ht =>
      (hforever (max t (u + 1)) (Nat.le_max_right _ _)).not_taken
        (persists ht (fun v _ hv => Stream.Taken.step (hinv v) hn hle hv (sched v)) _ (Nat.le_max_left _ _))
    obtain ⟨hxor, hfinished⟩ := not_or.1 hnot
    rcases ((hinv t).phase.resolve_right hfinished).pc with hk | hk | hk
    · exact Or.inl hk
    · exact Or.inr hk
    · exact absurd hk hxor
  refine ⟨⟨?_, fun hatomic => ?_⟩, hpolls⟩
  · rintro ⟨t, hdone, -⟩
    by_contra hu
    rcases hpolls (not_forall.1 hu) t with ⟨k, hk⟩ | hk <;> rw [hdone] at hk <;> cases hk
  · have hexact : ∀ t, Exact n (trace Stream.step (.init n N pieces) sched t) := fun t =>
      (exact_of_atomic (Stream.fresh_init n N pieces) (fun _ _ ha => ha) (reach_trace hatomic t)).2
    obtain ⟨t, r, hpc⟩ := exists_done hinv hexact hle hfair
    obtain ⟨rfl, hdata⟩ := ((hinv t).safe hn hle).verdict r hpc
    exact ⟨t, hpc, hdata⟩

/-- Two producers and the consumer in turn. -/
def roundRobin (t : ℕ) : Actor :=
  if t % 3 = 0 then .writer 0 else if t % 3 = 1 then .writer 1 else .judge

theorem fairSchedule_roundRobin : FairSchedule 2 roundRobin := by
  refine ⟨fun i hi t => ?_, fun t => ⟨3 * t + 2, by omega, by simp [roundRobin]⟩⟩
  rcases (by omega : i = 0 ∨ i = 1) with rfl | rfl
  · exact ⟨3 * t, by omega, by simp [roundRobin]⟩
  · exact ⟨3 * t + 1, by omega, by simp [roundRobin]⟩

/-- In this schedule both producers read the counter before one of them writes it. -/
theorem returns_iff_atomic_roundRobin :
    ¬ ∃ t, ¬ (trace Stream.step (.init 2 1 fun _ => bytePieces 1) roundRobin t).Polling :=
  not_exists_not.2 ((returns_iff_atomic Nat.two_pos Nat.one_pos (by decide) (split_bytePieces 2 1)
    fairSchedule_roundRobin).2 ⟨10, by decide +kernel⟩)

end Runs

end ORaidServer
