import ORaidServer.Group.Safety

/-!
# Files of at most one segment

Files of at most `READ_BUF_SIZE` bytes are stored into the buffers `0` alone, and each is marked full once.
What goes wrong between the two buffers of longer files cannot happen.

* `Single`, the invariant of one such file, and `SingleInv`, that of the group;
* `singleInv_of_reach`: it holds in every state of every run, whatever the scheduler does;
* `safe_iff_le`: `READ_BUF_SIZE` is the exact bound up to which every schedule outputs in order.
-/

namespace ORaidServer

open Guarded ByteMem

/-! ### One file -/

/-- The places of calls that store into buffer `0` and come to its mark only at the end of the file. -/
def WritePc.Single : WritePc → Prop
  | .idle | .head => True
  | .mark k more | .load k more | .store k more _ => k = 0 ∧ more = false
  | .tail0 | .tail1 => False

/-- The file of a producer, `N` bytes long, is being stored into buffer `0` or is stored. -/
structure FileCtx.Single (N : ℕ) (c : FileCtx) : Prop where
  pc : c.loc.pc.Single
  second : (c.info.buf 1).flag = .empty
  first : c.info.Writing 0 ∨ c.info.stored = N

namespace FileInv

variable {f : List Byte} {dr : Fin 2 → Prop} {c : FileCtx} {ps : List (List Byte)}

/-- The only segment starts with the file. -/
theorem start_eq_zero {x : SingleFileInfo} {l : WriteLocal} (h : FileInv f dr x l ps)
    (hN : f.length ≤ readBufSize) {k : Fin 2} (hk : (x.buf k).flag ≠ .empty) : (x.buf k).start = 0 := by
  obtain ⟨hdvd, hlt⟩ := h.start k hk
  exact Nat.eq_zero_of_dvd_of_lt hdvd (by omega)

/-- At the top of the loop buffer `0` is being written and what is pending fits into it. -/
theorem single_head (h : FileInv f dr c.info c.loc ps) (hN : f.length ≤ readBufSize)
    (hs : c.Single f.length) (hpc : c.loc.pc = .head) :
    c.info.Writing 0 ∧ ¬ (c.info.buf 0).bufSize + c.loc.buffer.length > readBufSize := by
  obtain ⟨⟨hcp, hlen⟩, hflag, hbytes⟩ := by simpa only [LocalInv, hpc] using h.loc
  have hpending : c.loc.pending c.info.inBufInfo.cpSize = c.loc.buffer.drop c.info.inBufInfo.cpSize := by
    simp only [WriteLocal.pending, hpc]
  have hsplit := congrArg List.length h.split
  rw [hpending, List.length_drop, List.length_append, List.length_drop] at hsplit
  have hw : c.info.Writing 0 := hs.first.resolve_right (by omega)
  refine ⟨hw, ?_⟩
  have hstart := h.start_eq_zero hN (k := 0) (by rw [show _ = BufFlag.writing from hw]; simp)
  obtain ⟨hend, -⟩ := h.writing 0 hw
  have hm := maxline_le_readBufSize
  cases hf : c.loc.flag with
  | false =>
    have := hflag hf
    omega
  | true =>
    -- the rest of a piece finds an empty buffer
    have hnil := hbytes hf 0 hw
    simp only [InBuf.bufSize, hnil, List.length_nil]
    omega

end FileInv

/-- A step of `write_buf` keeps the file in buffer `0`, and does not free it. -/
theorem FileCtx.Single.step {f : List Byte} {dr : Fin 2 → Prop} {c : FileCtx} {ps : List (List Byte)}
    (hs : c.Single f.length) (h : FileInv f dr c.info c.loc ps) (hN : f.length ≤ readBufSize) :
    (writeBufStep f.length c).Single f.length ∧
      ((c.info.buf 0).flag ≠ .empty → ((writeBufStep f.length c).info.buf 0).flag ≠ .empty) := by
  have hplace := hs.pc
  cases hpc : c.loc.pc with
  | idle =>
    have hsame : writeBufStep f.length c = c := by simp only [writeBufStep, hpc]
    rw [hsame]
    exact ⟨hs, id⟩
  | head =>
    obtain ⟨hw, hfits⟩ := h.single_head hN hs hpc
    have hflag := storeInto_flag f.length 0 (c := c)
    rw [h.step_head hpc hw]
    refine ⟨⟨?_, (hflag 1).trans hs.second, Or.inl ((hflag 0).trans hw)⟩, fun he => ?_⟩
    · rw [h.storeInto_fits_eq hpc hfits]
      dsimp only
      split_ifs
      · exact ⟨rfl, rfl⟩
      · trivial
    · rwa [hflag 0]
  | mark k more =>
    rw [hpc] at hplace
    obtain ⟨rfl, rfl⟩ := hplace
    obtain ⟨-, -, hst⟩ := by simpa only [LocalInv, hpc] using h.loc
    simp only [writeBufStep, hpc]
    refine ⟨⟨⟨rfl, rfl⟩, ?_, Or.inr hst⟩, fun _ => by simp⟩
    have h10 : (1 : Fin 2) ≠ 0 := by simp
    rw [SingleFileInfo.buf_setBuf, if_neg h10]
    exact hs.second
  | load k more =>
    rw [hpc] at hplace
    simp only [writeBufStep, hpc]
    exact ⟨⟨hplace, hs.second, hs.first⟩, id⟩
  | store k more v =>
    rw [hpc] at hplace
    obtain ⟨rfl, rfl⟩ := hplace
    simp only [writeBufStep, hpc]
    exact ⟨⟨trivial, hs.second, hs.first⟩, id⟩
  | tail0 | tail1 =>
    rw [hpc] at hplace
    exact hplace.elim

/-- So does every move of a producer. -/
theorem WriterMove.single {f : List Byte} {dr : Fin 2 → Prop} {c c' : FileCtx} {ps ps' : List (List Byte)}
    (hm : WriterMove f.length c ps c' ps') (hs : c.Single f.length) (h : FileInv f dr c.info c.loc ps)
    (hN : f.length ≤ readBufSize) :
    c'.Single f.length ∧ ((c.info.buf 0).flag ≠ .empty → (c'.info.buf 0).flag ≠ .empty) := by
  cases hm with
  | call p _ hpc => exact ⟨⟨trivial, hs.second, hs.first⟩, id⟩
  | step _ _ => exact hs.step h hN

/-! ### The group -/

/-- Nothing has been taken yet. -/
structure Stream.Collecting (n : ℕ) (s : Stream) : Prop where
  xorSize : s.group.xorSize = 0
  xorFlag : s.group.xorFlag = 0
  data : s.out.data = []
  pc : (∃ k, s.judge.pc = .test k) ∨ s.judge.pc = .loop ∨ s.judge.pc = .xor 0
  kept : ∀ i < n, ((s.group.file i).buf 0).flag ≠ .empty

/-- Everything has been output. -/
structure Stream.Finished (n N : ℕ) (f : ℕ → List Byte) (s : Stream) : Prop where
  xorSize : s.group.xorSize = N
  xorFlag : s.group.xorFlag = 1
  data : s.out.data = xorBlocks ((List.range n).map f) N
  pc : s.judge.pc = .resetNum 0 ∨ (∃ j, s.judge.pc = .resetFlag 0 j) ∨ s.judge.pc = .loop ∨
    s.judge.pc = .done right
  result : s.judge.pc = .resetNum 0 → s.group.inBuf 0 0 = xorBlocks ((List.range n).map f) N
  idle : ∀ i < n, (s.writer i).loc.pc = .idle ∧ (s.writer i).pieces = []

/-- The invariant of a group of files of at most one segment. -/
structure SingleInv (n N : ℕ) (f : ℕ → List Byte) (s : Stream) : Prop where
  inv : StreamInv n N f s
  file : ∀ i < n, (s.ctx i).Single N
  correct : s.group.correctFlag = 0
  phase : s.Collecting n ∨ s.Finished n N f

namespace SingleInv

variable {n N : ℕ} {f : ℕ → List Byte} {s : Stream}

/-- A step of a producer keeps the invariant. -/
theorem writer (h : SingleInv n N f s) (hN : N ≤ readBufSize) {i : ℕ} (hi : i < n) {c : FileCtx}
    {ps : List (List Byte)} (hm : WriterMove s.group.fileSize (s.ctx i) (s.writer i).pieces c ps) :
    SingleInv n N f (s.put i c ps) := by
  have hlen := h.inv.length i hi
  have hm' := hm
  rw [h.inv.fileSize, ← hlen] at hm'
  obtain ⟨hsingle, hkept⟩ := hm'.single (hlen ▸ h.file i hi) (h.inv.file i hi) (hlen ▸ hN)
  refine ⟨h.inv.writer hi hm, fun j hj => ?_, h.correct, ?_⟩
  · rcases eq_or_ne j i with rfl | hji
    · rw [Stream.ctx_put_self, ← hlen]
      exact hsingle
    · obtain ⟨hpc, hsecond, hfirst⟩ := h.file j hj
      refine ⟨?_, ?_, ?_⟩
      · show ((s.put i c ps).writer j).loc.pc.Single
        rwa [Stream.writer_put_of_ne _ _ _ hji]
      · show (((s.put i c ps).group.file j).buf 1).flag = _
        rwa [Stream.file_put_of_ne _ _ _ hji]
      · show ((s.put i c ps).group.file j).Writing 0 ∨ ((s.put i c ps).group.file j).stored = N
        rwa [Stream.file_put_of_ne _ _ _ hji]
  · rcases h.phase with hc | hf
    · refine Or.inl ⟨hc.xorSize, hc.xorFlag, hc.data, hc.pc, fun j hj => ?_⟩
      rcases eq_or_ne j i with rfl | hji
      · rw [Stream.file_put_self]
        exact hkept (hc.kept j hj)
      · rw [Stream.file_put_of_ne _ _ _ hji]
        exact hc.kept j hj
    · -- a producer that has handed over its file does not move any more
      obtain ⟨hpc, hps⟩ := hf.idle i hi
      rw [hps] at hm
      cases hm with
      | step _ hne => exact absurd hpc hne

/-- A step of the consumer leaves every file in buffer `0`. -/
theorem file_judge (h : SingleInv n N f s) {i : ℕ} (hi : i < n) : (s.judgeStep.ctx i).Single N := by
  obtain ⟨hpc, hsecond, hfirst⟩ := h.file i hi
  have hflag : ∀ k, ((s.judgeStep.group.file i).buf k).flag =
      if s.judge.pc = .resetFlag k i ∧ i < s.judge.fileNum then .empty
      else ((s.group.file i).buf k).flag := judgeStep_flag s.group s.out s.judge i
  obtain ⟨b, p, hb⟩ := (judgeStep_frame s.group s.out s.judge).1 i
  refine ⟨hpc, ?_, hfirst.imp (fun hw => ?_) fun hst => ?_⟩
  · show ((s.judgeStep.group.file i).buf 1).flag = .empty
    rw [hflag]
    split_ifs
    · rfl
    · exact hsecond
  · refine (hflag 0).trans ((if_neg fun hr => ?_).trans hw)
    have hfull : ((s.group.file i).buf 0).flag = .full := (h.inv.drain 0 i hr.1 i le_rfl hi).1
    rw [show ((s.group.file i).buf 0).flag = .writing from hw] at hfull
    cases hfull
  · show (s.judgeStep.group.file i).stored = N
    have : s.judgeStep.group.file i = _ := hb
    rw [this]
    exact hst

/-- Only the buffers `0` are ever counted. -/
theorem eq_zero_of_num (h : SingleInv n N f s) (hn : 0 < n) {k : Fin 2} (hk : s.group.bufFullNum k = n) :
    k = 0 := by
  by_contra hne
  obtain rfl : k = 1 := by omega
  have hfull : ((s.group.file 0).buf 1).flag = .full := (h.inv.counted_of_num hk hn).1.1
  have hempty : ((s.group.file 0).buf 1).flag = .empty := (h.file 0 hn).second
  rw [hempty] at hfull
  cases hfull

/-- A producer whose buffer is counted has handed over its file. -/
theorem idle_of_counted (h : SingleInv n N f s) {i : ℕ} (hi : i < n) (hc : s.Counted i 0) :
    (s.writer i).loc.pc = .idle ∧ (s.writer i).pieces = [] := by
  obtain ⟨hfull, howes⟩ := hc
  have hflag : ((s.group.file i).buf 0).flag = .full := hfull
  have hF := h.inv.file i hi
  have hlen := h.inv.length i hi
  have hnw : ¬ (s.group.file i).Writing 0 := by
    rw [SingleFileInfo.Writing, hflag]
    simp
  have hst : (s.group.file i).stored = N := (h.file i hi).first.resolve_left hnw
  have hsplit := hF.split
  rw [hst, ← hlen, List.drop_length] at hsplit
  obtain ⟨hpending, hpieces⟩ := List.append_eq_nil_iff.1 hsplit.symm
  have hplace : (s.writer i).loc.pc.Single := (h.file i hi).pc
  have hloc := hF.loc
  constructor
  · cases hpc : (s.writer i).loc.pc with
    | idle => rfl
    | head =>
      simp only [LocalInv, hpc] at hloc
      simp only [WriteLocal.pending, hpc, List.drop_eq_nil_iff] at hpending
      exact absurd hloc.1.1 (not_lt.2 hpending)
    | mark k more =>
      rw [hpc] at hplace
      obtain ⟨rfl, rfl⟩ := hplace
      simp only [LocalInv, hpc] at hloc
      exact absurd hloc.1 hnw
    | load k more | store k more v =>
      rw [hpc] at hplace
      exact absurd (show (s.ctx i).loc.pc.Owes 0 by simp [Stream.ctx, hpc, WritePc.Owes, hplace.1]) howes
    | tail0 | tail1 =>
      rw [hpc] at hplace
      exact hplace.elim
  · refine List.eq_nil_iff_forall_not_mem.2 fun p hp => ?_
    have := List.flatten_eq_nil_iff.1 hpieces p hp
    have := (hF.pieces_le p hp).1
    simp_all

/-- The one call of `buf_xor` finds the files in the buffers `0`. -/
theorem xor (h : SingleInv n N f s) (hn : 0 < n) (hN : N ≤ readBufSize) (hc : s.Collecting n)
    (hpc : s.judge.pc = .xor 0) : s.judgeStep.Finished n N f ∧ s.judgeStep.group.correctFlag = 0 := by
  have hslot : ∀ i < n, (s.group.file i).slot 0 = .filled 0 := by
    intro i hi
    have hfull : (s.group.file i).Full 0 := (h.inv.taken 0 (Or.inl hpc) i hi).1
    refine slot_eq_filled.2 ⟨hfull, ?_⟩
    have hne : ((s.group.file i).buf 0).flag ≠ .empty := by
      rw [show _ = BufFlag.full from hfull]
      simp
    rw [(h.inv.file i hi).start_eq_zero (by rw [h.inv.length i hi]; exact hN) hne, Nat.zero_div]
  have hold : ∀ i, ¬ s.Overwritten i 0 := by
    rintro i ⟨-, hr | ⟨j, hr, -⟩⟩ <;> rw [hpc] at hr <;> cases hr
  have hseg : segment n N f 0 = xorBlocks ((List.range n).map f) N := by
    rw [segment, Nat.zero_mul, List.drop_zero, List.take_of_length_le (by simpa using hN)]
  have hmin : min readBufSize (N - 0 * readBufSize) = N := by omega
  have hstep := h.inv.bufXor_segment hn hslot hold
  rw [hseg, hmin] at hstep
  obtain ⟨-, -, -, hcorrect, hxs, hxf⟩ :=
    frame_addXorSize (s.group.setInBuf0 0 (xorBlocks ((List.range n).map f) N)) n N
  have hs : s.judgeStep = { s with
      group := (s.group.setInBuf0 0 (xorBlocks ((List.range n).map f) N)).addXorSize n N
      out := ⟨s.out.data ++ xorBlocks ((List.range n).map f) N, []⟩
      judge := { s.judge with pc := .resetNum 0 } } := by
    simp only [Stream.judgeStep, judgeStep, hpc, h.inv.judgeNum, hstep]
  have hx0 : (s.group.setInBuf0 0 (xorBlocks ((List.range n).map f) N)).xorSize = 0 := hc.xorSize
  rw [hs]
  refine ⟨⟨?_, ?_, ?_, Or.inl rfl, fun _ => ?_, fun i hi => h.idle_of_counted hi (h.inv.taken 0 (Or.inl hpc) i hi)⟩,
    hcorrect.trans h.correct⟩
  · rw [hxs, hx0, Nat.zero_add]
  · refine hxf.trans (if_pos ?_)
    rw [hx0, Nat.zero_add]
    exact h.inv.fileSize.symm
  · show s.out.data ++ _ = _
    rw [hc.data, List.nil_append]
  · obtain ⟨p, hp⟩ := file_addXorSize (s.group.setInBuf0 0 (xorBlocks ((List.range n).map f) N)) n N 0
    show ((TGroupFileInfo.addXorSize _ n N).file 0 |>.buf 0).bytes = _
    rw [hp]
    simp [TGroupFileInfo.setInBuf0, SingleFileInfo.withPtr, SingleFileInfo.buf, SingleFileInfo.setBuf]

/-- A step of the consumer before everything is stored. -/
theorem collecting_judge (h : SingleInv n N f s) (hn : 0 < n) (hN : N ≤ readBufSize) (hc : s.Collecting n) :
    s.judgeStep.group.correctFlag = 0 ∧ (s.judgeStep.Collecting n ∨ s.judgeStep.Finished n N f) := by
  have hkept : ∀ {g : TGroupFileInfo}, g.file = s.group.file →
      ∀ i < n, ((g.file i).buf 0).flag ≠ .empty := by
    intro g hg i hi
    rw [hg]
    exact hc.kept i hi
  rcases hc.pc with ⟨k, hpc⟩ | hpc | hpc
  · by_cases hnum : s.group.bufFullNum k = s.judge.fileNum
    · obtain rfl := h.eq_zero_of_num hn (hnum.trans h.inv.judgeNum)
      simp only [Stream.judgeStep, judgeStep, hpc, if_pos hnum]
      exact ⟨h.correct, Or.inl ⟨hc.xorSize, hc.xorFlag, hc.data, Or.inr (Or.inr rfl), hkept rfl⟩⟩
    · simp only [Stream.judgeStep, judgeStep, hpc, if_neg hnum]
      refine ⟨h.correct, Or.inl ⟨hc.xorSize, hc.xorFlag, hc.data, ?_, hkept rfl⟩⟩
      dsimp only
      split_ifs
      · exact Or.inl ⟨1, rfl⟩
      · exact Or.inr (Or.inl rfl)
  · have hflags : s.group.xorFlag = 0 ∧ s.group.correctFlag = 0 := ⟨hc.xorFlag, h.correct⟩
    simp only [Stream.judgeStep, judgeStep, hpc, if_pos hflags]
    exact ⟨h.correct, Or.inl ⟨hc.xorSize, hc.xorFlag, hc.data, Or.inl ⟨0, rfl⟩, hkept rfl⟩⟩
  · obtain ⟨hfin, hcorrect⟩ := h.xor hn hN hc hpc
    exact ⟨hcorrect, Or.inr hfin⟩

/-- A step of the consumer after that. -/
theorem finished_judge (h : SingleInv n N f s) (hf : s.Finished n N f) :
    s.judgeStep.group.correctFlag = 0 ∧ s.judgeStep.Finished n N f := by
  rcases hf.pc with hpc | ⟨j, hpc⟩ | hpc | hpc
  · simp only [Stream.judgeStep, judgeStep, hpc]
    refine ⟨h.correct, hf.xorSize, hf.xorFlag, hf.data, Or.inr (Or.inl ⟨0, rfl⟩), fun hpc => ?_, hf.idle⟩
    cases hpc
  · simp only [Stream.judgeStep, judgeStep, hpc]
    split_ifs
    · refine ⟨h.correct, hf.xorSize, hf.xorFlag, hf.data, Or.inr (Or.inl ⟨j + 1, rfl⟩), fun hpc => ?_, hf.idle⟩
      cases hpc
    · refine ⟨h.correct, hf.xorSize, hf.xorFlag, hf.data, Or.inr (Or.inr (Or.inl rfl)), fun hpc => ?_, hf.idle⟩
      cases hpc
  · have hver : verdict s.group = right := by
      simp [verdict, h.correct, h.inv.fileSize, hf.xorSize]
    have hflags : ¬ (s.group.xorFlag = 0 ∧ s.group.correctFlag = 0) := by simp [hf.xorFlag]
    simp only [Stream.judgeStep, judgeStep, hpc, if_neg hflags, hver]
    refine ⟨h.correct, hf.xorSize, hf.xorFlag, hf.data, Or.inr (Or.inr (Or.inr rfl)), fun hpc => ?_, hf.idle⟩
    cases hpc
  · simp only [Stream.judgeStep, judgeStep, hpc]
    exact ⟨h.correct, hf.xorSize, hf.xorFlag, hf.data, Or.inr (Or.inr (Or.inr hpc)), hf.result, hf.idle⟩

/-- A step of the consumer takes the group on. -/
theorem phase_judge (h : SingleInv n N f s) (hn : 0 < n) (hN : N ≤ readBufSize) :
    s.judgeStep.group.correctFlag = 0 ∧ (s.judgeStep.Collecting n ∨ s.judgeStep.Finished n N f) := by
  rcases h.phase with hc | hf
  · exact h.collecting_judge hn hN hc
  · exact (h.finished_judge hf).imp_right Or.inr

theorem step (h : SingleInv n N f s) (hn : 0 < n) (hN : N ≤ readBufSize) (a : Actor) :
    SingleInv n N f (s.step a) := by
  cases a with
  | judge =>
    obtain ⟨hcorrect, hphase⟩ := h.phase_judge hn hN
    exact ⟨h.inv.judge hn, fun i hi => h.file_judge hi, hcorrect, hphase⟩
  | writer i =>
    show SingleInv n N f (if i < s.group.fileNum then s.writerStep i else s)
    split_ifs with hi
    · rcases s.writerStep_eq i with ⟨hs, -⟩ | ⟨c, ps, hm, hs⟩
      · rw [hs]
        exact h
      · rw [hs]
        exact h.writer hN (h.inv.fileNum ▸ hi) hm
    · exact h

end SingleInv

/-! ### Runs -/

section Runs

variable {n N : ℕ} {f : ℕ → List Byte} {pieces : ℕ → List (List Byte)} {s : Stream}

theorem singleInv_init (hN : 0 < N) (hs : Stream.Split n N f pieces) :
    SingleInv n N f (.init n N pieces) := by
  have hw : Stream.readyFile.Writing 0 := rfl
  have hne : (Stream.readyFile.buf 0).flag ≠ .empty := by decide
  exact ⟨streamInv_init hN hs, fun _ _ => ⟨trivial, rfl, Or.inl hw⟩, rfl,
    Or.inl ⟨rfl, rfl, rfl, Or.inl ⟨0, rfl⟩, fun _ _ => hne⟩⟩

/-- The invariant holds in every state of every run. -/
theorem singleInv_of_reach {C : Stream → Actor → Prop} (hn : 0 < n) (hN : 0 < N) (hle : N ≤ readBufSize)
    (hs : Stream.Split n N f pieces) (h : Reach Stream.step C (.init n N pieces) s) : SingleInv n N f s :=
  h.invariant (singleInv_init hN hs) fun _ a ih _ => ih.step hn hle a

/-- A counter that reaches the number of files has found each of them whole in its buffer. -/
theorem SingleInv.aligned (h : SingleInv n N f s) (hn : 0 < n) (hle : N ≤ readBufSize) : s.Aligned n N f := by
  intro k hk
  obtain rfl := h.eq_zero_of_num hn hk
  refine ⟨0, N, by omega, fun i hi => ?_⟩
  obtain ⟨⟨hfull, -⟩, hdraining⟩ := h.inv.counted_of_num hk hi
  have hne : ((s.group.file i).buf 0).flag ≠ .empty := by
    rw [show ((s.group.file i).buf 0).flag = .full from hfull]
    simp
  have hstart := (h.inv.file i hi).start_eq_zero (by rw [h.inv.length i hi]; exact hle) hne
  have hsize := (h.inv.file i hi).full 0 hfull
  rw [h.inv.length i hi, hstart] at hsize
  refine ⟨hstart, by omega, ?_⟩
  split_ifs with hres
  · obtain ⟨hpc, rfl⟩ := hres
    have hf : s.Finished n N f := by
      refine h.phase.resolve_left fun hc => ?_
      rcases hc.pc with ⟨k', hk'⟩ | hk' | hk' <;> rw [hpc] at hk' <;> cases hk'
    rw [hf.result hpc, List.drop_zero, List.take_of_length_le (by simp)]
  · have hold : ¬ s.Overwritten i 0 := by
      rintro ⟨rfl, hpc | hd⟩
      · exact hres ⟨hpc, rfl⟩
      · exact hdraining hd
    rw [TGroupFileInfo.inBuf, (h.inv.file i hi).bytes_of_full hfull hold, hstart, List.drop_zero,
      List.take_of_length_le (by rw [h.inv.length i hi]; exact hle),
      List.take_of_length_le (h.inv.length i hi).le]

/-- Whatever the scheduler does, the consumer finds segments of the same place, the output is in order and a return
is one with the whole of it. -/
structure Stream.Safe (n N : ℕ) (f : ℕ → List Byte) (s : Stream) : Prop where
  aligned : s.Aligned n N f
  ordered : s.Ordered f
  data : s.out.data <+: xorBlocks ((List.range n).map f) N
  verdict : ∀ ret, s.judge.pc = .done ret →
    ret = right ∧ s.out.data = xorBlocks ((List.range n).map f) N

theorem SingleInv.safe (h : SingleInv n N f s) (hn : 0 < n) (hle : N ≤ readBufSize) : s.Safe n N f := by
  have haligned := h.aligned hn hle
  rcases h.phase with hc | hf
  · refine ⟨haligned, fun k hpc => ?_, ?_, fun ret hpc => ?_⟩
    · obtain rfl : k = 0 := by
        rcases hc.pc with ⟨k', hk⟩ | hk | hk <;> rw [hpc] at hk <;> cases hk
        rfl
      have hfull : (s.group.file 0).Full 0 := (h.inv.taken 0 (Or.inl hpc) 0 hn).1
      have hold : ¬ s.Overwritten 0 0 := by
        rintro ⟨-, hr | ⟨j, hr, -⟩⟩ <;> rw [hpc] at hr <;> cases hr
      have hstart := (h.inv.file 0 hn).start_eq_zero (by rw [h.inv.length 0 hn]; exact hle) (hc.kept 0 hn)
      rw [hc.xorSize, hstart, TGroupFileInfo.inBuf, (h.inv.file 0 hn).bytes_of_full hfull hold, hstart]
      exact ⟨rfl, List.take_prefix _ _⟩
    · rw [hc.data]
      exact List.nil_prefix
    · rcases hc.pc with ⟨k', hk⟩ | hk | hk <;> rw [hpc] at hk <;> cases hk
  · refine ⟨haligned, fun k hpc => ?_, by rw [hf.data], fun ret hpc => ⟨?_, hf.data⟩⟩
    · rcases hf.pc with hk | ⟨j, hk⟩ | hk | hk <;> rw [hpc] at hk <;> cases hk
    · rcases hf.pc with hk | ⟨j, hk⟩ | hk | hk <;> rw [hpc] at hk <;> cases hk
      rfl

end Runs

/-! ### Longer files -/

section Longer

variable {n N : ℕ}

/-- So many pieces of one byte each. -/
def bytePieces (m : ℕ) : List (List Byte) := List.replicate m [0]

theorem length_flatten_bytePieces (m : ℕ) : (bytePieces m).flatten.length = m := by
  simp [bytePieces]

theorem bytePieces_add (l m : ℕ) : bytePieces (l + m) = bytePieces l ++ bytePieces m :=
  List.replicate_append_replicate.symm

theorem bytePieces_succ (m : ℕ) : bytePieces (m + 1) = [0] :: bytePieces m := List.replicate_succ

theorem fills_bytePieces : Fills (bytePieces readBufSize) := by
  refine ⟨length_flatten_bytePieces _, fun p hp => ?_⟩
  rw [List.eq_of_mem_replicate hp]
  exact ⟨Nat.one_pos, show 1 ≤ maxline by decide⟩

/-- A producer with more than two segments fills both buffers, and the third segment finds them full. -/
theorem Solo.third (hN : readBufSize + readBufSize < N) (num : Fin 2 → ℕ) : ∃ b b' idx l ps,
    Solo N ⟨Stream.readyFile, num, ⟨.idle, [], false⟩⟩ (bytePieces N)
      ⟨fileOf 1 ⟨b, .full, readBufSize⟩ b' idx,
        Function.update (Function.update num 0 (num 0 + 1)) 1 (num 1 + 1), l⟩ ps := by
  have h10 : (1 : Fin 2) ≠ 0 := by simp
  have hseg := fills_bytePieces
  obtain ⟨m, rfl⟩ := Nat.exists_eq_add_of_lt hN
  obtain ⟨buf, hfill⟩ := Solo.twoSegments num (bytePieces (m + 1)) hseg hseg hN
  rw [bytePieces_succ] at hfill
  have hblock := hfill.trans (Solo.block hseg.length (by simp))
  rw [Function.update_of_ne h10] at hblock
  rw [readyFile_eq, Nat.add_assoc _ m, bytePieces_add, bytePieces_add, bytePieces_succ, List.append_assoc]
  exact ⟨_, _, _, _, _, hblock⟩

/-- A producer with more than a segment fills both buffers while nobody else takes a step. -/
theorem Solo.bothFull (hN : readBufSize < N) (num : Fin 2 → ℕ) : ∃ b b' idx l ps,
    Solo N ⟨Stream.readyFile, num, ⟨.idle, [], false⟩⟩ (bytePieces N)
      ⟨fileOf 1 ⟨b, .full, readBufSize⟩ b' idx,
        Function.update (Function.update num 0 (num 0 + 1)) 1 (num 1 + 1), l⟩ ps := by
  by_cases h2 : readBufSize + readBufSize < N
  · exact Solo.third h2 num
  have h10 : (1 : Fin 2) ≠ 0 := by simp
  have hseg := fills_bytePieces
  have hempty : (⟨[], .empty, 0⟩ : InBuf).flag ≠ .writing := by simp
  have hfull : (⟨(bytePieces readBufSize).flatten, .full, 0⟩ : InBuf).flag ≠ .writing := by simp
  obtain ⟨m, rfl⟩ := Nat.exists_eq_add_of_lt hN
  have hfit : ([] : List Byte).length + (bytePieces readBufSize).flatten.length ≤ readBufSize := by
    rw [hseg.length, List.length_nil, Nat.zero_add]
  have hend : ((0 + (bytePieces readBufSize).flatten.length : ℕ) : ℤ) < (readBufSize + m + 1 : ℕ) := by
    rw [hseg.length]
    omega
  obtain ⟨buf, hfirst⟩ := Solo.storeAll (k := 0) num [] (bytePieces (m + 1)) (bytePieces readBufSize)
    hempty hfit hend
  rw [List.nil_append, Nat.zero_add, hseg.length, bytePieces_succ] at hfirst
  rw [readyFile_eq, Nat.add_assoc _ m, bytePieces_add, bytePieces_succ]
  have hpos := readBufSize_pos
  have hone : [(0 : Byte)].length = 1 := rfl
  cases m with
  | zero =>
    -- the second segment is one byte
    have hlast := hfirst.trans (Solo.switchLast h10 hseg.length (by simp) (by omega) (by omega))
    exact ⟨_, _, _, _, _, hlast⟩
  | succ m =>
    have hm := length_flatten_bytePieces m
    have hswitch := hfirst.trans (Solo.switch h10 hseg.length (by simp) (by omega) (by omega))
    have hfit' : [(0 : Byte)].length + (bytePieces m).flatten.length ≤ readBufSize := by omega
    have hend' : ((readBufSize + [(0 : Byte)].length + (bytePieces m).flatten.length : ℕ) : ℤ) <
        (readBufSize + (m + 1) + 1 : ℕ) := by omega
    obtain ⟨buf', hstore⟩ := Solo.storeAll (k := 1) (Function.update num 0 (num 0 + 1)) [0] [[0]]
      (bytePieces m) hfull hfit' hend'
    rw [bytePieces_add m 1] at hswitch ⊢
    have hlast := (hswitch.trans hstore).trans Solo.callIterate
    have hlen : ([0] ++ (bytePieces m).flatten).length = m + 1 := by
      rw [List.length_append, hm, hone, Nat.add_comm]
    rw [iteration_last hfull (by omega) (by omega), Function.update_of_ne h10] at hlast
    exact ⟨_, _, _, _, _, hlast⟩

theorem split_bytePieces (n N : ℕ) :
    Stream.Split n N (fun _ => (bytePieces N).flatten) fun _ => bytePieces N := by
  refine ⟨fun _ _ => rfl, fun _ _ => length_flatten_bytePieces N, fun _ _ p hp => ?_⟩
  rw [List.eq_of_mem_replicate hp]
  exact ⟨Nat.one_pos, show 1 ≤ maxline by decide⟩

/-- The consumer is about to look at counter `1`, and the producers below `i` have filled both their
buffers. -/
structure Overtaken (n N i : ℕ) (s : Stream) : Prop where
  reach : Reach Stream.coarseStep Free (.init n N fun _ => bytePieces N) s
  judge : s.judge = ⟨.test 1, n⟩
  fileNum : s.group.fileNum = n
  fileSize : s.group.fileSize = N
  xorSize : s.group.xorSize = 0
  num : s.group.bufFullNum 1 = i
  start : 0 < i → ((s.group.file 0).buf 1).start = readBufSize
  todo : ∀ j, i ≤ j → s.group.file j = Stream.readyFile ∧
    s.writer j = ⟨⟨.idle, [], false⟩, bytePieces N⟩

theorem overtaken_zero (hn : 0 < n) : ∃ s, Overtaken n N 0 s := by
  have hstep : (Stream.init n N fun _ => bytePieces N).judgeStep =
      { Stream.init n N (fun _ => bytePieces N) with judge := ⟨.test 1, n⟩ } := by
    simp [Stream.judgeStep, judgeStep, Stream.init, hn.ne]
  refine ⟨_, coarse_judge hstep, rfl, rfl, rfl, rfl, rfl, fun h => absurd h (lt_irrefl _), fun _ _ => ⟨rfl, rfl⟩⟩

/-- The next producer fills both its buffers. -/
theorem Overtaken.succ (hN : readBufSize < N) {i : ℕ} {s : Stream} (h : Overtaken n N i s) (hi : i < n) :
    ∃ t, Overtaken n N (i + 1) t := by
  obtain ⟨hfile, hwriter⟩ := h.todo i le_rfl
  obtain ⟨b, b', idx, l, ps, hsolo⟩ := Solo.bothFull hN s.group.bufFullNum
  set c : FileCtx := ⟨fileOf 1 ⟨b, .full, readBufSize⟩ b' idx, Function.update
    (Function.update s.group.bufFullNum 0 (s.group.bufFullNum 0 + 1)) 1 (s.group.bufFullNum 1 + 1), l⟩ with hc
  have hctx : s.ctx i = ⟨Stream.readyFile, s.group.bufFullNum, ⟨.idle, [], false⟩⟩ := by
    rw [Stream.ctx, hfile, hwriter]
  have hmove : Solo s.group.fileSize (s.ctx i) (s.writer i).pieces c ps := by
    rw [hctx, hwriter, h.fileSize]
    exact hsolo
  refine ⟨s.put i c ps, h.reach.trans (hmove.coarse (h.fileNum ▸ hi)), h.judge, h.fileNum, h.fileSize,
    h.xorSize, ?_, fun _ => ?_, fun j hj => ?_⟩
  · have hnum : c.num 1 = s.group.bufFullNum 1 + 1 := by simp [hc]
    rw [← h.num]
    exact hnum
  · rcases Nat.eq_zero_or_pos i with rfl | hpos
    · rw [Stream.file_put_self]
      exact congrArg InBuf.start buf_fileOf_self
    · rw [Stream.file_put_of_ne _ _ _ hpos.ne]
      exact h.start hpos
  · have hji : j ≠ i := by omega
    rw [Stream.file_put_of_ne _ _ _ hji, Stream.writer_put_of_ne _ _ _ hji]
    exact h.todo j (by omega)

theorem exists_overtaken (hn : 0 < n) (hN : readBufSize < N) : ∀ i ≤ n, ∃ s, Overtaken n N i s := by
  intro i
  induction i with
  | zero => exact fun _ => overtaken_zero hn
  | succ i ih =>
    intro hi
    obtain ⟨s, hs⟩ := ih (by omega)
    exact hs.succ hN (by omega)

/-- **The bound.**  Every schedule is safe for files of at most `READ_BUF_SIZE` bytes, and for no longer
ones. -/
theorem safe_iff_le (hn : 0 < n) (hN : 0 < N) :
    (∀ f pieces, Stream.Split n N f pieces →
      ∀ s, Reach Stream.step Free (.init n N pieces) s → s.Safe n N f) ↔ N ≤ readBufSize := by
  constructor
  · intro hall
    by_contra hlt
    obtain ⟨s, hs⟩ := exists_overtaken (N := N) hn (by omega) n le_rfl
    -- the consumer takes the second segment first
    have hstep : s.judgeStep = { s with judge := ⟨.xor 1, n⟩ } := by
      simp only [Stream.judgeStep, judgeStep, hs.judge, if_pos hs.num]
    have hreach := Stream.reach_of_coarse (hs.reach.trans (coarse_judge hstep))
    have hord := (hall _ _ (split_bytePieces n N) _ hreach).ordered 1 rfl
    have hstart : readBufSize = 0 := (hs.start hn).symm.trans (hord.1.trans hs.xorSize)
    exact absurd hstart readBufSize_pos.ne'
  · exact fun hle f pieces hs s h => (singleInv_of_reach hn hN hle hs h).safe hn hle

theorem safe_iff_le_two :
    (run Stream.step (.init 2 1 fun _ => bytePieces 1)
      [.writer 0, .writer 1, .writer 1, .judge, .writer 0]).Safe 2 1 fun _ => (bytePieces 1).flatten :=
  (safe_iff_le Nat.two_pos Nat.one_pos).2 (by decide) _ _ (split_bytePieces 2 1) _ (reach_run _ _)

end Longer

end ORaidServer
