import ORaidServer.Group.Spill

/-!
# Progress of the group

Where increments are atomic and the producers follow each other, no reachable state is stuck: as long
as neither flag is set some schedule changes the group or the output (`not_stuck_of_follows`).
-/

namespace ORaidServer

open Guarded

namespace Stream

/-- Neither flag is set, and no schedule whatever changes the group or the output. -/
def Stuck (s : Stream) : Prop :=
  s.group.correctFlag = 0 ∧ s.group.xorFlag = 0 ∧
    ∀ as, (run Stream.step s as).group = s.group ∧ (run Stream.step s as).out = s.out

end Stream

variable {n N : ℕ} {f : ℕ → List Byte} {pieces : ℕ → List (List Byte)} {s : Stream}

/-! ### Stuck states -/

namespace Stream.Stuck

theorem step (h : s.Stuck) (a : Actor) :
    (s.step a).Stuck ∧ (s.step a).group = s.group ∧ (s.step a).out = s.out := by
  obtain ⟨hc, hx, hall⟩ := h
  obtain ⟨hg, ho⟩ := hall [a]
  rw [run_cons, run_nil] at hg ho
  refine ⟨⟨by rw [hg]; exact hc, by rw [hg]; exact hx, fun as => ?_⟩, hg, ho⟩
  rw [hg, ho]
  exact hall (a :: as)

end Stream.Stuck

section Stuck

variable {i : ℕ} (h : StreamInv n N f s) (hs : s.Stuck) (hi : i < n)
include h hs hi

/-- A step of `write_buf` that changes its file or a counter is not taken in a stuck state. -/
theorem stuck_writeBufStep (hpc : (s.writer i).loc.pc ≠ .idle) :
    (writeBufStep N (s.ctx i)).info = s.group.file i ∧
      (writeBufStep N (s.ctx i)).num = s.group.bufFullNum ∧
      ∃ t : Stream, StreamInv n N f t ∧ t.Stuck ∧ t.group = s.group ∧
        (t.writer i).loc = (writeBufStep N (s.ctx i)).loc := by
  have hstep : s.step (.writer i) = s.put i (writeBufStep N (s.ctx i)) (s.writer i).pieces := by
    show (if i < s.group.fileNum then s.writerStep i else s) = _
    rw [if_pos (h.fileNum ▸ hi), Stream.writerStep, if_neg hpc, h.fileSize]
    rfl
  obtain ⟨hs', hg, -⟩ := hs.step (.writer i)
  rw [hstep] at hs' hg
  refine ⟨?_, ?_, _, ?_, hs', hg, by rw [Stream.writer_put_self]⟩
  · rw [← Stream.file_put_self s i (writeBufStep N (s.ctx i)) (s.writer i).pieces, hg]
  · exact congrArg TGroupFileInfo.bufFullNum hg
  · have hm := WriterMove.step (N := s.group.fileSize) (c := s.ctx i) (s.writer i).pieces hpc
    rw [h.fileSize] at hm
    exact h.writer hi (h.fileSize ▸ hm)

theorem stuck_mark (k : Fin 2) (more : Bool) : (s.writer i).loc.pc ≠ .mark k more := by
  intro hpc
  obtain ⟨hinfo, -⟩ := stuck_writeBufStep h hs hi (by rw [hpc]; simp)
  have hw : (s.group.file i).Writing k := by
    have hloc := (h.file i hi).loc
    cases more <;> simp only [LocalInv, hpc] at hloc <;> exact hloc.1
  have hflag := congrArg (fun x => (SingleFileInfo.buf x k).flag) hinfo
  simp only [writeBufStep, Stream.ctx, hpc, SingleFileInfo.buf_setBuf_self] at hflag
  rw [show ((s.group.file i).buf k).flag = .writing from hw] at hflag
  cases hflag

theorem stuck_load (k : Fin 2) (more : Bool) : (s.writer i).loc.pc ≠ .load k more := by
  intro hpc
  obtain ⟨-, -, t, ht, hst, hg, hloc⟩ := stuck_writeBufStep h hs hi (by rw [hpc]; simp)
  have hpc' : (t.writer i).loc.pc = .store k more (s.group.bufFullNum k) := by
    rw [hloc]
    simp only [writeBufStep, Stream.ctx, hpc]
  -- the write that follows raises the counter
  obtain ⟨-, hnum, -⟩ := stuck_writeBufStep ht hst hi (by rw [hpc']; simp)
  have hk := congrFun hnum k
  simp only [writeBufStep, Stream.ctx, hpc', Function.update_self, hg] at hk
  omega

theorem stuck_store (he : Exact n s) (k : Fin 2) (more : Bool) (v : ℕ) :
    (s.writer i).loc.pc ≠ .store k more v := by
  intro hpc
  obtain ⟨-, hnum, -⟩ := stuck_writeBufStep h hs hi (by rw [hpc]; simp)
  have hk := congrFun hnum k
  simp only [writeBufStep, Stream.ctx, hpc, Function.update_self] at hk
  have := he.store i hi k more v hpc
  omega

/-- At the top of the loop a stuck producer has no buffer to store into. -/
theorem stuck_head (hpc : (s.writer i).loc.pc = .head) (k : Fin 2) :
    ¬ (s.group.file i).Writing k := by
  intro hw
  have hF := h.file i hi
  have hinto := FileInv.step_head (N := N) (c := s.ctx i) hF hpc hw
  obtain ⟨hinfo, -, t, ht, hst, -, hloc⟩ := stuck_writeBufStep h hs hi (by rw [hpc]; simp)
  rw [hinto] at hinfo hloc
  by_cases hfits : (((s.ctx i).info.buf k).bufSize + (s.ctx i).loc.buffer.length > readBufSize)
  · apply stuck_mark ht hst hi k true
    rw [hloc]
    simp only [storeInto, if_pos hfits]
  · have heq := FileInv.storeInto_fits_eq (c := s.ctx i) hF hpc hfits
    rw [h.length i hi] at heq
    rw [heq] at hinfo
    have hidx : (s.group.file i).fileIndex + (s.writer i).loc.buffer.length =
        (s.group.file i).fileIndex := congrArg SingleFileInfo.fileIndex hinfo
    have hrest := hF.loc
    simp only [LocalInv, hpc] at hrest
    have := hrest.1.1
    omega

/-- Where a stuck producer looks for a free buffer there is none. -/
theorem stuck_tail {k : Fin 2} (hpc : (s.writer i).loc.pc = if k = 0 then .tail0 else .tail1)
    (hno : ∀ k', ¬ (s.group.file i).Writing k') : (s.group.file i).Full k := by
  cases hflag : ((s.group.file i).buf k).flag with
  | writing => exact absurd hflag (hno k)
  | full => exact hflag
  | empty =>
    exfalso
    obtain ⟨hinfo, -⟩ := stuck_writeBufStep h hs hi (by rw [hpc]; split_ifs <;> simp)
    have hmake := writeBufStep_tail (N := N) (c := s.ctx i) hpc hflag hno
    rw [hinfo] at hmake
    apply hno k
    rw [hmake]
    simp [SingleFileInfo.Writing, makeWritable]

/-- A producer of a stuck state that is inside a call waits with both buffers full. -/
theorem stuck_waits (hpc : (s.writer i).loc.pc = .head) (k : Fin 2) : (s.group.file i).Full k := by
  have hno := stuck_head h hs hi hpc
  have h0 : ((s.group.file i).buf 0).flag ≠ .writing := hno 0
  have h1 : ((s.group.file i).buf 1).flag ≠ .writing := hno 1
  -- its next two steps look for a free buffer
  obtain ⟨-, -, t, ht, hst, hg, hloc⟩ := stuck_writeBufStep h hs hi (by rw [hpc]; simp)
  have hpct : (t.writer i).loc.pc = .tail0 := by
    rw [hloc]
    simp [writeBufStep, Stream.ctx, hpc, h0, h1]
  have hf0 := stuck_tail (k := 0) ht hst hi hpct (by rwa [hg])
  obtain ⟨-, -, u, hu, hsu, hg', hloc'⟩ := stuck_writeBufStep ht hst hi (by rw [hpct]; simp)
  have hpcu : (u.writer i).loc.pc = .tail1 := by
    rw [hloc']
    exact writeBufStep_tail0_pc hpct
  have hf1 := stuck_tail (k := 1) hu hsu hi hpcu (by rwa [hg', hg])
  rw [hg] at hf0
  rw [hg', hg] at hf1
  obtain rfl | rfl : k = 0 ∨ k = 1 := by omega
  · exact hf0
  · exact hf1

end Stuck

/-- The producer of file `i` waits with both buffers full, or has stored its file. -/
def Quiet (N : ℕ) (s : Stream) (i : ℕ) : Prop :=
  (∀ k, ¬ (s.writer i).loc.pc.Owes k) ∧ (∀ k, ¬ (s.group.file i).Writing k) ∧
    ((s.group.file i).stored = N ∨ ∀ k, (s.group.file i).Full k)

/-- Every producer of a stuck state is quiet. -/
theorem stuck_quiet (h : StreamInv n N f s) (he : Exact n s) (hs : s.Stuck) {i : ℕ} (hi : i < n) :
    Quiet N s i := by
  have hfull : ∀ {t : Stream}, (∀ k, (t.group.file i).Full k) →
      ∀ k, ¬ (t.group.file i).Writing k := by
    intro t hf k hw
    have := hf k
    rw [SingleFileInfo.Full, show _ = BufFlag.writing from hw] at this
    cases this
  cases hpc : (s.writer i).loc.pc with
  | mark k more => exact absurd hpc (stuck_mark h hs hi k more)
  | load k more => exact absurd hpc (stuck_load h hs hi k more)
  | store k more v => exact absurd hpc (stuck_store h hs hi he k more v)
  | head =>
    have hf := stuck_waits h hs hi hpc
    exact ⟨by simp [hpc, WritePc.Owes], hfull hf, Or.inr hf⟩
  | tail1 =>
    obtain ⟨-, -, t, ht, hst, hg, hloc⟩ := stuck_writeBufStep h hs hi (by rw [hpc]; simp)
    have hpct : (t.writer i).loc.pc = .head := by
      rw [hloc]
      exact writeBufStep_tail1_pc hpc
    have hf := stuck_waits ht hst hi hpct
    rw [hg] at hf
    exact ⟨by simp [hpc, WritePc.Owes], hfull hf, Or.inr hf⟩
  | tail0 =>
    obtain ⟨-, -, t, ht, hst, hg, hloc⟩ := stuck_writeBufStep h hs hi (by rw [hpc]; simp)
    have hpct : (t.writer i).loc.pc = .tail1 := by
      rw [hloc]
      exact writeBufStep_tail0_pc hpc
    obtain ⟨-, -, u, hu, hsu, hg', hloc'⟩ := stuck_writeBufStep ht hst hi (by rw [hpct]; simp)
    have hpcu : (u.writer i).loc.pc = .head := by
      rw [hloc']
      exact writeBufStep_tail1_pc hpct
    have hf := stuck_waits hu hsu hi hpcu
    rw [hg', hg] at hf
    exact ⟨by simp [hpc, WritePc.Owes], hfull hf, Or.inr hf⟩
  | idle =>
    have howes : ∀ k, ¬ (s.writer i).loc.pc.Owes k := by simp [hpc, WritePc.Owes]
    rcases s.writerStep_eq i with ⟨-, -, hps⟩ | ⟨c, ps, hm, hstep⟩
    · have hF := h.file i hi
      have hsplit := hF.split
      rw [hps] at hsplit
      simp only [WriteLocal.pending, hpc, List.flatten_nil, List.append_nil, List.drop_eq_nil_iff]
        at hsplit
      have hloc := hF.loc
      have hst : (s.group.file i).stored = N := by
        have := hF.le
        rw [h.length i hi] at hsplit this
        omega
      simp only [LocalInv, hpc, h.length i hi] at hloc
      exact ⟨howes, hloc.2.1 hst, Or.inl hst⟩
    · -- entering the next call is no step of the group
      have hpct : (((s.step (.writer i)).writer i).loc.pc) = .head := by
        show ((if i < s.group.fileNum then s.writerStep i else s).writer i).loc.pc = _
        rw [if_pos (h.fileNum ▸ hi), hstep, Stream.writer_put_self]
        generalize (s.writer i).pieces = qs at hm
        cases hm with
        | call p _ _ => rfl
        | step _ hne => exact absurd hpc hne
      obtain ⟨hst, hg, -⟩ := hs.step (.writer i)
      have hn : 0 < n := by omega
      have hf := stuck_waits (h.step hn _) hst hi hpct
      rw [hg] at hf
      exact ⟨howes, hfull hf, Or.inr hf⟩

/-! ### The consumer of a stuck state -/

/-- What holds where the producers follow each other and increments are atomic. -/
structure Sane (n N : ℕ) (f : ℕ → List Byte) (s : Stream) : Prop where
  inv : StreamInv n N f s
  exact : Exact n s
  refines : ∃ a, Relation.ReflTransGen (Slots.Step fun _ _ => True) (Slots.State.start 0) a ∧
    Refines n N f s a

theorem Sane.judge (h : Sane n N f s) (hn : 0 < n) : Sane n N f s.judgeStep := by
  obtain ⟨a, ha, hR⟩ := h.refines
  obtain ⟨a', ha', hR'⟩ := hR.judge (G := fun _ _ => True) (Slots.inv_of_reachable ha) h.inv hn
    fun _ _ _ => trivial
  exact ⟨h.inv.judge hn, h.exact.judge h.inv.toCount, a', ha.trans ha', hR'⟩

section Consumer

variable {k : Fin 2} (h : Sane n N f s) (hs : s.Stuck) (hn : 0 < n)
include h hs hn

theorem stuck_xor : s.judge.pc ≠ .xor k := by
  intro hpc
  obtain ⟨a, ha, hR⟩ := h.refines
  have hI := Slots.inv_of_reachable ha
  have hd : a.drain = some (k, Set.univ) := by rw [hR.drain_eq, hpc]; rfl
  obtain ⟨m, hlast, hm⟩ := hI.stale (i := ⟨0, hn⟩) ⟨_, hd, trivial⟩
  obtain ⟨log', hlog⟩ := List.getLast?_eq_some_iff.1 hlast
  -- the segment that is output is not empty
  have hseg : 0 < (segment n N f m).length := by
    rw [hR.slot_eq] at hm
    obtain ⟨hfull, hdiv⟩ := slot_eq_filled.1 hm
    obtain ⟨⟨q, hq⟩, hlt⟩ := (h.inv.file 0 hn).start k
      (by rw [show _ = BufFlag.full from hfull]; simp)
    rw [hq, Nat.mul_div_cancel_left _ readBufSize_pos] at hdiv
    rw [hq, hdiv, h.inv.length 0 hn, Nat.mul_comm] at hlt
    have := readBufSize_pos
    simp only [segment, List.length_take, List.length_drop, ByteMem.length_xorBlocks]
    omega
  have hdata := hR.data
  have hdata' := (hR.judgeXor hI h.inv hn hpc).data
  have hpc' : s.judgeStep.judge.pc = .resetNum k := by
    simp only [Stream.judgeStep, judgeStep, hpc]
  rw [show s.judgeStep.out = s.out from (hs.step .judge).2.2, hdata] at hdata'
  simp only [Stream.output, hpc, hpc', hlog, List.dropLast_concat, List.map_append,
    List.flatten_append, List.map_cons, List.map_nil, List.flatten_cons, List.flatten_nil,
    List.append_nil] at hdata'
  have := congrArg List.length hdata'
  rw [List.length_append] at this
  omega

theorem stuck_resetNum : s.judge.pc ≠ .resetNum k := by
  intro hpc
  have hnum := congrFun (congrArg TGroupFileInfo.bufFullNum (hs.step .judge).2.1) k
  rw [show s.step .judge = s.judgeStep from rfl, Stream.judgeStep, judgeStep_num, if_pos hpc,
    h.exact.num k] at hnum
  have hmem : 0 ∈ s.countedSet n k := by
    refine Stream.mem_countedSet.2 ⟨hn, h.inv.taken k (Or.inr hpc) 0 hn, ?_⟩
    rintro ⟨j, hj, -⟩
    rw [hpc] at hj
    cases hj
  have := Finset.card_pos.2 ⟨0, hmem⟩
  omega

omit hn in
theorem stuck_resetFlag {j : ℕ} (hj : j < n) : s.judge.pc ≠ .resetFlag k j := by
  intro hpc
  have hfull : ((s.group.file j).buf k).flag = .full := (h.inv.drain k j hpc j le_rfl hj).1
  have hflag := congrArg (fun g : TGroupFileInfo => ((g.file j).buf k).flag) (hs.step .judge).2.1
  rw [show s.step .judge = s.judgeStep from rfl, Stream.judgeStep, judgeStep_flag, h.inv.judgeNum,
    if_pos ⟨hpc, hj⟩, hfull] at hflag
  cases hflag

omit hn in
theorem stuck_done (r : ℤ) : s.judge.pc ≠ .done r := by
  intro hpc
  obtain ⟨a, -, hR⟩ := h.refines
  exact (hR.verdict r hpc).2 ⟨hs.2.1, hs.1⟩

/-- The consumer of a stuck state finds neither counter full. -/
theorem stuck_test (hpc : s.judge.pc = .test k) : s.group.bufFullNum k ≠ n := by
  intro hnum
  have hpc' : s.judgeStep.judge.pc = .xor k := by
    simp only [Stream.judgeStep, judgeStep, hpc, if_pos (hnum.trans h.inv.judgeNum.symm)]
  exact stuck_xor (h.judge hn) (hs.step .judge).1 hn hpc'

/-- The consumer of a stuck state only polls: it comes back to its first test. -/
theorem stuck_polls : ∃ t : Stream, Sane n N f t ∧ t.Stuck ∧ t.judge.pc = .test 0 := by
  -- from the test of the loop and from each of the two others
  have hloop : ∀ t : Stream, Sane n N f t → t.Stuck → t.judge.pc = .loop →
      ∃ t : Stream, Sane n N f t ∧ t.Stuck ∧ t.judge.pc = .test 0 := by
    intro t ht hst hpc
    refine ⟨t.judgeStep, ht.judge hn, (hst.step .judge).1, ?_⟩
    simp only [Stream.judgeStep, judgeStep, hpc, hst.1, hst.2.1, and_self, if_true]
  have htest : ∀ t : Stream, Sane n N f t → t.Stuck → t.judge.pc = .test 1 →
      ∃ t : Stream, Sane n N f t ∧ t.Stuck ∧ t.judge.pc = .test 0 := by
    intro t ht hst hpc
    apply hloop t.judgeStep (ht.judge hn) (hst.step .judge).1
    have hne := stuck_test ht hst hn hpc
    rw [← ht.inv.judgeNum] at hne
    simp only [Stream.judgeStep, judgeStep, hpc, if_neg hne]
    rfl
  cases hpc : s.judge.pc with
  | test k' =>
    obtain rfl | rfl : k' = 0 ∨ k' = 1 := by omega
    · exact ⟨s, h, hs, hpc⟩
    · exact htest s h hs hpc
  | xor k' => exact absurd hpc (stuck_xor h hs hn)
  | resetNum k' => exact absurd hpc (stuck_resetNum h hs hn)
  | resetFlag k' j =>
    by_cases hj : j < n
    · exact absurd hpc (stuck_resetFlag h hs hj)
    · apply hloop s.judgeStep (h.judge hn) (hs.step .judge).1
      have hj' : ¬ j < s.judge.fileNum := h.inv.judgeNum ▸ hj
      simp only [Stream.judgeStep, judgeStep, hpc, if_neg hj']
  | loop => exact hloop s h hs hpc
  | done r => exact absurd hpc (stuck_done h hs r)

end Consumer

/-! ### No stuck state -/

/-- The number of segments of a file of length `N`. -/
def segments (N : ℕ) : ℕ := (N + readBufSize - 1) / readBufSize

theorem le_segments_mul (N : ℕ) : N ≤ segments N * readBufSize := by
  have hpos := readBufSize_pos
  have := Nat.div_add_mod (N + readBufSize - 1) readBufSize
  have := Nat.mod_lt (N + readBufSize - 1) hpos
  rw [segments, Nat.mul_comm]
  omega

/-- A file begins no more segments than it has. -/
theorem FileInv.begun_le {g : List Byte} {dr : Fin 2 → Prop} {x : SingleFileInfo} {l : WriteLocal}
    {ps : List (List Byte)} (h : FileInv g dr x l ps) : x.begun ≤ segments g.length := by
  by_cases hw : ∃ k, x.Writing k
  · obtain ⟨k, hw⟩ := hw
    obtain ⟨⟨q, hq⟩, hlt⟩ := h.start k (by rw [show _ = BufFlag.writing from hw]; simp)
    have hpos := readBufSize_pos
    rw [h.begun_of_writing hw, hq, Nat.mul_div_cancel_left _ hpos, segments, Nat.le_div_iff_mul_le hpos,
      Nat.succ_mul, Nat.mul_comm]
    omega
  · rw [begun_of_not_writing (not_exists.1 hw), segments]
    exact Nat.div_le_div_right (by have := h.le; omega)

/-- Once every segment is drained and output, the output is complete. -/
theorem length_out_of_all {a : Slots.State (Fin n) (Fin 2)} (hR : Refines n N f s a)
    (hnodup : a.log.Nodup) (hall : ∀ m, m ∈ a.log ↔ m < segments N)
    (hout : s.output a.log = a.log) : s.out.data.length = N := by
  have hperm : a.log.Perm (List.range (segments N)) :=
    (List.perm_ext_iff_of_nodup hnodup List.nodup_range).2 fun m => by
      rw [hall, List.mem_range]
  have hlen := ((hperm.map (segment n N f)).flatten).length_eq
  have := le_segments_mul N
  rw [flatten_segments, List.length_take, ByteMem.length_xorBlocks] at hlen
  rw [hR.data, hout, hlen]
  omega

/-- **Progress.** -/
theorem not_stuck_of_follows (hn : 0 < n) (hN : 0 < N) (hsplit : Stream.Split n N f pieces)
    (h : Reach Stream.step (fun s a => s.Follows a ∧ s.Atomic a) (.init n N pieces) s) :
    ¬ s.Stuck := by
  intro hs
  have hsane : Sane n N f s :=
    ⟨streamInv_of_reach hn hN hsplit h, (exact_of_atomic (Stream.fresh_init n N pieces) (fun _ _ hc => hc.2) h).2,
      refines_of_reach hn hN hsplit (fun _ _ hc => hc.1) (fun _ _ _ _ _ _ _ _ => trivial) h⟩
  obtain ⟨t, ht, hst, hpc⟩ := stuck_polls hsane hs hn
  obtain ⟨a, ha, hR⟩ := ht.refines
  have hI := Slots.inv_of_reachable ha
  have hquiet : ∀ i < n, Quiet N t i := fun i hi => stuck_quiet ht.inv ht.exact hst hi
  have hd : a.drain = none := by rw [hR.drain_eq, hpc]; rfl
  have hnext : ∀ i : Fin n, a.next i = (t.group.file i).begun := by
    intro i
    rw [hR.abs]
    rfl
  -- no producer can go on
  have hopen : ∀ i k m, a.slot i k ≠ .filling m := by
    intro i k m hfill
    rw [hR.slot_eq] at hfill
    exact (hquiet i i.2).2.1 k (slot_eq_filling.1 hfill).1
  have hblocked : ∀ i, a.next i = segments N ∨ ∀ k, a.slot i k ≠ .free := by
    intro i
    obtain ⟨-, hno, hend | hfull⟩ := hquiet i i.2
    · left
      rw [hnext, begun_of_not_writing hno, hend, segments]
    · right
      intro k hfree
      rw [hR.slot_eq, slot_eq_free] at hfree
      have := hfull k
      rw [SingleFileInfo.Full, hfree] at this
      cases this
  -- something is still to be drained
  have hlog : ∃ m < segments N, m ∉ a.log := by
    by_contra hall
    push Not at hall
    have hmem : ∀ m, m ∈ a.log ↔ m < segments N := by
      refine fun m => ⟨fun hm => ?_, hall m⟩
      have hlt := hI.logged hm ⟨0, hn⟩
      have hle := (ht.inv.file 0 hn).begun_le
      rw [ht.inv.length 0 hn] at hle
      rw [hnext] at hlt
      exact hlt.trans_le hle
    have hout : t.output a.log = a.log := by simp only [Stream.output, hpc]
    have hlen := length_out_of_all hR (Slots.log_nodup ha) hmem hout
    have := hR.ended (hR.xorSize.trans hlen)
    rw [hst.2.1] at this
    cases this
  have : Nonempty (Fin n) := ⟨⟨0, hn⟩⟩
  obtain ⟨k, hk⟩ := hI.exists_filled hd hopen hblocked hlog
  -- the consumer then finds the counter of that index full
  have hcounted : t.countedSet n k = Finset.range n := by
    ext i
    rw [Stream.mem_countedSet, Finset.mem_range]
    refine ⟨fun hi => hi.1, fun hi => ⟨hi, ⟨?_, (hquiet i hi).1 k⟩, ?_⟩⟩
    · obtain ⟨m, hm⟩ := hk ⟨i, hi⟩
      rw [hR.slot_eq] at hm
      exact (slot_eq_filled.1 hm).1
    · rintro ⟨j, hj, -⟩
      rw [hpc] at hj
      cases hj
  have hnum : t.group.bufFullNum k = n := by rw [ht.exact.num, hcounted, Finset.card_range]
  have hnum0 := stuck_test ht hst hn hpc
  obtain rfl | rfl : k = 0 ∨ k = 1 := by omega
  · exact hnum0 hnum
  · have hpc' : t.judgeStep.judge.pc = .test 1 := by
      rw [← ht.inv.judgeNum] at hnum0
      simp only [Stream.judgeStep, judgeStep, hpc, if_neg hnum0]
      rfl
    apply stuck_test (ht.judge hn) (hst.step .judge).1 hn hpc'
    rw [Stream.judgeStep, judgeStep_num, if_neg (by rw [hpc]; simp)]
    exact hnum

theorem not_stuck_of_follows_spill : ¬ (secondDrain 1 2).Stuck :=
  not_stuck_of_follows Nat.two_pos (Nat.succ_pos _) (split_spill 1 2)
    ((reach_secondDrain 1 2).mono fun _ _ h => ⟨h.1, h.2.2⟩)

/-- Where every producer has handed over its file and neither counter is full, the consumer polls for
ever. -/
theorem Stream.stuck_of_idle (hc : s.group.correctFlag = 0) (hx : s.group.xorFlag = 0)
    (hw : ∀ i < s.group.fileNum, (s.writer i).loc.pc = .idle ∧ (s.writer i).pieces = [])
    (hnum : ∀ k, s.group.bufFullNum k ≠ s.judge.fileNum) (hpc : s.judge.pc = .test 0) :
    s.Stuck := by
  -- only the program counter of the consumer ever changes
  have hpoll : ∀ as, ∃ pc, (pc = .test 0 ∨ pc = .test 1 ∨ pc = .loop) ∧
      run Stream.step s as = { s with judge.pc := pc } := by
    intro as
    induction as using List.reverseRecOn with
    | nil => exact ⟨.test 0, Or.inl rfl, by rw [← hpc]; rfl⟩
    | append_singleton as a ih =>
      obtain ⟨pc, hpcs, hrun⟩ := ih
      rw [run_append, hrun, run_cons, run_nil]
      cases a with
      | writer i =>
        refine ⟨pc, hpcs, ?_⟩
        show (if i < s.group.fileNum then _ else _) = _
        split_ifs with hi
        · obtain ⟨hidle, hno⟩ := hw i hi
          rw [Stream.writerStep, if_pos hidle]
          simp only [hno]
        · rfl
      | judge =>
        rcases hpcs with rfl | rfl | rfl
        · refine ⟨.test 1, Or.inr (Or.inl rfl), ?_⟩
          simp [Stream.step, Stream.judgeStep, ORaidServer.judgeStep, hnum 0]
        · refine ⟨.loop, Or.inr (Or.inr rfl), ?_⟩
          simp [Stream.step, Stream.judgeStep, ORaidServer.judgeStep, hnum 1]
        · refine ⟨.test 0, Or.inl rfl, ?_⟩
          simp [Stream.step, Stream.judgeStep, ORaidServer.judgeStep, hc, hx]
  refine ⟨hc, hx, fun as => ?_⟩
  obtain ⟨pc, -, hrun⟩ := hpoll as
  rw [hrun]
  exact ⟨rfl, rfl⟩

/-- Of two files of three segments and a byte, the last bytes can end up in different buffers, and
neither counter ever gets to two. -/
theorem not_progressing : ¬ ∀ n N f pieces, 2 ≤ n → 1 ≤ N → Stream.Split n N f pieces →
    ∀ s, Reach Stream.coarseStep Free (.init n N pieces) s → ¬ s.Stuck := by
  intro hall
  have hz := fills_zeroSegment
  set ps := zeroSegment ++ (zeroSegment ++ (zeroSegment ++ [[(0 : Byte)]])) with hps
  have hlen : ps.flatten.length = readBufSize + readBufSize + readBufSize + 1 := by
    simp only [hps, List.flatten_append, List.length_append, hz.length]
    simp
    omega
  have hpiece : ∀ p ∈ ps, 0 < p.length ∧ p.length ≤ maxline := by
    intro p hp
    simp only [hps, List.mem_append, List.mem_singleton] at hp
    rcases hp with hp | hp | hp | rfl
    iterate 3 exact hz.piece p hp
    decide
  obtain ⟨x, y, out, h⟩ := pair_apart hz hz hz (List.cons_ne_nil 0 []) (List.cons_ne_nil 0 [])
    (by decide) (by decide) (Nat.lt_succ_self _) (Nat.le_refl _) (Nat.le_refl _)
  refine hall 2 _ _ _ (by omega) (by omega)
    (split_two hlen hlen fun p hp => hpiece p (by simpa using hp)) _ h
    (Stream.stuck_of_idle rfl rfl ?_ ?_ rfl)
  · intro i hi
    obtain rfl | rfl : i = 0 ∨ i = 1 := by
      have : i < 2 := hi
      omega
    · exact ⟨rfl, rfl⟩
    · exact ⟨rfl, rfl⟩
  · intro k
    show counts 1 1 k ≠ 2
    obtain rfl | rfl : k = 0 ∨ k = 1 := by omega
    · simp
    · simp

end ORaidServer
