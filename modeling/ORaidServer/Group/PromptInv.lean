import ORaidServer.Group.InOrder
import Mathlib.Algebra.Order.BigOperators.Group.Finset

/-!
# The group under the prompt schedule

* `PromptInv`: `d` segments have been output, the files hold the next ones in order, and the counters are
  those of the full buffers;
* `PromptInv.round`, `PromptInv.goOn` and `PromptInv.turn`, the steps of the schedule, each with what it does
  to the work left;
* `prompt_returns`: for files of at least one byte the consumer returns `RIGHT` with the exclusive or;
  `not_prompt_returns`: for empty files it never returns.
-/

namespace ORaidServer

open Guarded ByteMem

namespace Stream

/-- The files below `n` whose buffer `k` is full. -/
def fullSet (s : Stream) (n : ℕ) (k : Fin 2) : Finset ℕ :=
  {i ∈ Finset.range n | (s.group.file i).Full k}

theorem mem_fullSet {s : Stream} {n i : ℕ} {k : Fin 2} :
    i ∈ s.fullSet n k ↔ i < n ∧ (s.group.file i).Full k := by
  simp [fullSet]

end Stream

/-- The invariant of the schedule at the top of the consumer's loop, after `d` segments. -/
structure PromptInv (n N : ℕ) (f : ℕ → List Byte) (d : ℕ) (s : Stream) : Prop where
  inv : StreamInv n N f s
  judge : s.judge = ⟨.test 0, n⟩
  xorFlag : s.group.xorFlag = 0
  correctFlag : s.group.correctFlag = 0
  lt : d * readBufSize < N
  xorSize : s.group.xorSize = d * readBufSize
  data : s.out.data = (xorBlocks ((List.range n).map f) N).take (d * readBufSize)
  file : ∀ i < n, FilePrompt d (s.ctx i)
  num : ∀ k, s.group.bufFullNum k = (s.fullSet n k).card
  once : ∀ k k', s.group.bufFullNum k = n → s.group.bufFullNum k' = n → k = k'
  awake : (∀ i < n, (s.group.file i).slot (slotOf d) = .filled d) → ∀ i < n,
    (s.writer i).loc.pc = .head → (∀ k, ¬ (s.group.file i).Writing k) →
      (s.group.file i).begun = d + 2

/-! ### Steps and runs -/

namespace StreamInv

variable {n N : ℕ} {f : ℕ → List Byte} {s : Stream}

theorem coarseStep (h : StreamInv n N f s) (hn : 0 < n) (a : Actor) :
    StreamInv n N f (s.coarseStep a) := by
  obtain ⟨as, has⟩ := s.coarseStep_eq_run a
  rw [has]
  exact (reach_run s as).invariant h fun _ a ih _ => ih.step hn a

theorem finishRound (h : StreamInv n N f s) (hn : 0 < n) (t : ℕ) :
    StreamInv n N f (Stream.finishRound t s) := by
  induction t generalizing s with
  | zero => exact h
  | succ t ih =>
    by_cases hstop : s.judge.pc = .test 0 ∨ ∃ r, s.judge.pc = .done r
    · rw [Stream.finishRound_stop hstop]
      exact h
    · obtain ⟨htest, hdone⟩ := not_or.1 hstop
      rw [Stream.finishRound_go htest fun r hr => hdone ⟨r, hr⟩]
      exact ih (h.judge hn)

theorem judgeIteration (h : StreamInv n N f s) (hn : 0 < n) : StreamInv n N f s.judgeIteration :=
  (h.judge hn).finishRound hn _

end StreamInv

/-! ### The consumer's round -/

namespace Stream

/-- What a round leaves of a file: its buffer `k` is free, and nothing else has changed for the
producer. -/
structure Released (x y : SingleFileInfo) (k : Fin 2) : Prop where
  slot : y.slot = Function.update x.slot k .free
  begun : y.begun = x.begun

theorem released_afterRound {s : Stream} {n : ℕ} {k : Fin 2} (hn : 0 < n) (hout : s.out.Accepts)
    (hfull : ∀ i < n, (s.group.file i).Full k) {i : ℕ} (hi : i < n) :
    Released (s.group.file i) ((s.afterRound n k).group.file i) k := by
  obtain ⟨⟨m, -, hfile⟩, -⟩ := bufXor_frame hn s.group k hout
  obtain ⟨p, hp⟩ := hfile i
  set x := (bufXor n s.group s.out k).2.1.file i with hx
  have hsame : ∀ k', (x.buf k').flag = ((s.group.file i).buf k').flag ∧
      (x.buf k').start = ((s.group.file i).buf k').start := by
    intro k'
    rw [hp]
    exact s.group.keep_setInBuf0 k k' m i
  have hstored : x.stored = (s.group.file i).stored := by
    rw [hp]
    exact s.group.stored_setInBuf0 k m i
  have hfull' : x.Full k := (hsame k).1.trans (hfull i hi)
  have hgroup : (s.afterRound n k).group.file i = x.setBuf k { x.buf k with flag := .empty } := by
    show (if 0 ≤ i ∧ i < n then _ else _) = _
    rw [if_pos ⟨Nat.zero_le i, hi⟩]
  rw [hgroup]
  refine ⟨?_, ?_⟩
  · rw [slot_release, slot_congr hsame]
  · rw [begun_release hfull']
    refine begun_congr (fun k' => ?_) (fun k' => (hsame k').2) fun _ => hstored
    rw [SingleFileInfo.Writing, (hsame k').1, SingleFileInfo.Writing]

theorem Released.writing {x y : SingleFileInfo} {k k' : Fin 2} (h : Released x y k) (hfull : x.Full k) :
    y.Writing k' ↔ x.Writing k' := by
  rw [writing_iff, writing_iff, h.slot]
  by_cases hk : k' = k
  · obtain ⟨m, hm⟩ := full_iff.1 hfull
    rw [hk, Function.update_self, hm]
    simp
  · rw [Function.update_of_ne hk]

theorem Released.full {x y : SingleFileInfo} {k k' : Fin 2} (h : Released x y k) :
    y.Full k' ↔ k' ≠ k ∧ x.Full k' := by
  rw [full_iff, full_iff, h.slot]
  by_cases hk : k' = k
  · rw [hk, Function.update_self]
    simp
  · rw [Function.update_of_ne hk]
    exact (and_iff_right hk).symm

end Stream

namespace PromptInv

variable {n N d : ℕ} {f : ℕ → List Byte} {s : Stream}

theorem num_eq_iff (h : PromptInv n N f d s) (k : Fin 2) :
    s.group.bufFullNum k = n ↔ ∀ i < n, (s.group.file i).Full k := by
  have hcard : (s.fullSet n k).card = (Finset.range n).card ↔
      ∀ i ∈ Finset.range n, (s.group.file i).Full k := Finset.card_filter_eq_iff
  rw [h.num k]
  simpa using hcard

/-- A counter that reaches the number of files is that of the next segment. -/
theorem drained (h : PromptInv n N f d s) {k : Fin 2} (hk : s.group.bufFullNum k = n) :
    k = slotOf d ∧ ∀ i < n, (s.group.file i).slot (slotOf d) = .filled d := by
  have hfull := (h.num_eq_iff k).1 hk
  have hfirst : ∀ i < n, (s.group.file i).slot (slotOf d) = .filled d := by
    intro i hi
    have horder := (h.file i hi).order
    obtain ⟨m, hm⟩ := full_iff.1 (hfull i hi)
    by_cases hkd : k = slotOf d
    · rw [hkd] at hm
      exact horder.eq_of_filled hm ▸ hm
    · rw [eq_slotOf_succ hkd] at hm
      exact (horder.of_filled_succ hm).2
  refine ⟨h.once k (slotOf d) hk ?_, hfirst⟩
  exact (h.num_eq_iff _).2 fun i hi => full_iff.2 ⟨d, hfirst i hi⟩

theorem not_overwritten (h : PromptInv n N f d s) (i : ℕ) (k : Fin 2) : ¬ s.Overwritten i k := by
  rintro ⟨-, hk | ⟨j, hj, -⟩⟩
  · rw [h.judge] at hk
    cases hk
  · rw [h.judge] at hj
    cases hj

theorem length_le_iff (h : PromptInv n N f d s) :
    ((d * readBufSize + min readBufSize (N - d * readBufSize) : ℕ) : ℤ) = (N : ℤ) ↔
      N ≤ (d + 1) * readBufSize := by
  have := h.lt
  rw [Nat.succ_mul]
  omega

/-- The output after another segment. -/
theorem take_append_segment (h : PromptInv n N f d s) :
    s.out.data ++ segment n N f d =
      (xorBlocks ((List.range n).map f) N).take ((d + 1) * readBufSize) := by
  rw [h.data, segment, Nat.succ_mul, List.take_add]

theorem judgeIteration_eq (h : PromptInv n N f d s) {k : Fin 2} (hk : s.group.bufFullNum k = n) :
    s.judgeIteration = s.afterRound n (slotOf d) := by
  obtain ⟨rfl, -⟩ := h.drained hk
  refine Stream.judgeIteration_eq h.judge h.inv.fileNum hk fun h1 h0 => ?_
  have := h.once _ _ hk h0
  rw [h1] at this
  cases this

/-- **The last round.** -/
theorem round_last (h : PromptInv n N f d s) (hn : 0 < n) {k : Fin 2} (hk : s.group.bufFullNum k = n)
    (hlast : N ≤ (d + 1) * readBufSize) :
    s.judgeIteration.judge.pc = .done right ∧
      s.judgeIteration.out = ⟨xorBlocks ((List.range n).map f) N, []⟩ := by
  rw [h.judgeIteration_eq hk, Stream.afterRound,
    h.inv.bufXor_segment hn (h.drained hk).2 fun i => h.not_overwritten i _, h.take_append_segment]
  obtain ⟨-, hsize, -, hcorrect, hxs, hxor⟩ := frame_addXorSize
    (s.group.setInBuf0 (slotOf d) (segment n N f d)) n (min readBufSize (N - d * readBufSize))
  set g := (s.group.setInBuf0 (slotOf d) (segment n N f d)).addXorSize n
    (min readBufSize (N - d * readBufSize)) with hg
  have hN := h.length_le_iff.2 hlast
  have hxs0 : (s.group.setInBuf0 (slotOf d) (segment n N f d)).xorSize = d * readBufSize := h.xorSize
  have hxs' : g.xorSize = d * readBufSize + min readBufSize (N - d * readBufSize) := by rw [hxs, hxs0]
  have hfs : g.fileSize = N := hsize.trans h.inv.fileSize
  have hcf : g.correctFlag = 0 := hcorrect.trans h.correctFlag
  have hxf : g.xorFlag = 1 := by
    rw [hxor, if_pos]
    rw [← hxs, hxs', hN]
    exact h.inv.fileSize.symm
  refine ⟨?_, ?_⟩
  · show Stream.afterLoop g = _
    have hverdict : verdict g = right := by
      unfold verdict
      rw [if_neg (not_not.2 hcf), if_neg]
      rw [hfs, hxs', hN]
      simp
    have hflags : ¬ (g.xorFlag = 0 ∧ g.correctFlag = 0) := fun hflags => by
      rw [hxf] at hflags
      cases hflags.1
    unfold Stream.afterLoop
    rw [if_neg hflags, hverdict]
  · have hall : (xorBlocks ((List.range n).map f) N).length ≤ (d + 1) * readBufSize := by
      rw [length_xorBlocks]
      exact hlast
    show OutFile.mk _ [] = _
    rw [List.take_of_length_le hall]

/-- The consumer drains the segment, and nobody waits for a segment that is not there. -/
theorem file_afterRound (h : PromptInv n N f d s) (hn : 0 < n) {k : Fin 2}
    (hk : s.group.bufFullNum k = n) {i : ℕ} (hi : i < n) :
    FilePrompt (d + 1) ((s.afterRound n (slotOf d)).ctx i) ∧
      fileWork N ((s.afterRound n (slotOf d)).ctx i) (s.writer i).pieces =
        fileWork N (s.ctx i) (s.writer i).pieces := by
  have hslot := (h.drained hk).2
  have hfull : ∀ i < n, (s.group.file i).Full (slotOf d) := fun i hi => full_iff.2 ⟨d, hslot i hi⟩
  have hrel := Stream.released_afterRound hn h.inv.accepts hfull hi
  have hwriting : ∀ k', ((s.afterRound n (slotOf d)).group.file i).Writing k' ↔
      (s.group.file i).Writing k' := fun k' => hrel.writing (hfull i hi)
  have hfile := h.file i hi
  refine ⟨⟨?_, hfile.place, fun hpc hno => ?_⟩, ?_⟩
  · show InOrder (d + 1) ((s.afterRound n (slotOf d)).group.file i).begun _
    rw [hrel.begun]
    show InOrder (d + 1) _ ((s.afterRound n (slotOf d)).group.file i).slot
    rw [hrel.slot]
    exact hfile.order.drain (hslot i hi)
  · have hbegun := h.awake hslot i hi hpc fun k' hw => hno k' ((hwriting k').2 hw)
    show d + 1 < ((s.afterRound n (slotOf d)).group.file i).begun
    rw [hrel.begun, hbegun]
    omega
  · have hw : (∃ k', ((s.afterRound n (slotOf d)).group.file i).Writing k') ↔
        ∃ k', (s.group.file i).Writing k' := exists_congr hwriting
    unfold fileWork
    rw [if_congr (show (∃ k', ((s.afterRound n (slotOf d)).ctx i).info.Writing k') ↔ _ from hw) rfl rfl]
    show _ + _ + 2 * (segments N - ((s.afterRound n (slotOf d)).group.file i).begun) + _ = _
    rw [hrel.begun]
    rfl

/-- **A round before the last one.** -/
theorem round (h : PromptInv n N f d s) (hn : 0 < n) {k : Fin 2} (hk : s.group.bufFullNum k = n)
    (hmore : (d + 1) * readBufSize < N) : PromptInv n N f (d + 1) s.judgeIteration := by
  have hinv := h.inv.judgeIteration hn
  have hslot := (h.drained hk).2
  have hfull : ∀ i < n, (s.group.file i).Full (slotOf d) := fun i hi => full_iff.2 ⟨d, hslot i hi⟩
  have hnum : s.group.bufFullNum (slotOf d) = n := (h.num_eq_iff _).2 hfull
  rw [h.judgeIteration_eq hk] at hinv ⊢
  have hrel : ∀ i < n, Stream.Released (s.group.file i) ((s.afterRound n (slotOf d)).group.file i)
      (slotOf d) := fun i hi => Stream.released_afterRound hn h.inv.accepts hfull hi
  have hbuf := h.inv.bufXor_segment hn hslot fun i => h.not_overwritten i _
  rw [h.take_append_segment] at hbuf
  obtain ⟨hnums, -, -, hcorrect, hxs, hxor⟩ := frame_addXorSize
    (s.group.setInBuf0 (slotOf d) (segment n N f d)) n (min readBufSize (N - d * readBufSize))
  set g := (s.group.setInBuf0 (slotOf d) (segment n N f d)).addXorSize n
    (min readBufSize (N - d * readBufSize)) with hg
  have hsz : min readBufSize (N - d * readBufSize) = readBufSize := by
    refine min_eq_left (Nat.le_sub_of_add_le ?_)
    rw [Nat.add_comm, ← Nat.succ_mul]
    exact hmore.le
  have hxs0 : (s.group.setInBuf0 (slotOf d) (segment n N f d)).xorSize = d * readBufSize := h.xorSize
  have hxs' : g.xorSize = (d + 1) * readBufSize := by rw [hxs, hsz, hxs0, Nat.succ_mul]
  have hxf : g.xorFlag = 0 := by
    rw [hxor, if_neg]
    · exact h.xorFlag
    · intro hall
      rw [hxs0] at hall
      exact absurd (h.length_le_iff.1 (hall.trans h.inv.fileSize)) (not_le.2 hmore)
  have hcf : g.correctFlag = 0 := hcorrect.trans h.correctFlag
  have hgroup : (s.afterRound n (slotOf d)).group =
      TGroupFileInfo.clearFlags { g with
        bufFullNum := Function.update g.bufFullNum (slotOf d) 0 } (slotOf d) 0 n := by
    rw [Stream.afterRound, hbuf]
  have hnum' : (s.afterRound n (slotOf d)).group.bufFullNum =
      Function.update s.group.bufFullNum (slotOf d) 0 := by
    rw [hgroup]
    show Function.update g.bufFullNum (slotOf d) 0 = _
    rw [hnums]
    rfl
  have hnone : ∀ k', (s.afterRound n (slotOf d)).group.bufFullNum k' ≠ n := by
    intro k' hk'
    rw [hnum'] at hk'
    by_cases hkd : k' = slotOf d
    · rw [hkd, Function.update_self] at hk'
      omega
    · rw [Function.update_of_ne hkd] at hk'
      exact hkd (h.once k' (slotOf d) hk' hnum)
  refine ⟨hinv, ?_, ?_, ?_, hmore, ?_, ?_, fun i hi => (h.file_afterRound hn hk hi).1, ?_, ?_, ?_⟩
  · rw [Stream.afterRound, hbuf]
    show JudgeLocal.mk (Stream.afterLoop g) n = _
    rw [Stream.afterLoop, if_pos ⟨hxf, hcf⟩]
  · rw [hgroup]
    exact hxf
  · rw [hgroup]
    exact hcf
  · rw [hgroup]
    exact hxs'
  · rw [Stream.afterRound, hbuf]
  · intro k'
    rw [hnum']
    by_cases hkd : k' = slotOf d
    · have hempty : (s.afterRound n (slotOf d)).fullSet n k' = ∅ := by
        refine Finset.eq_empty_of_forall_notMem fun i hi => ?_
        obtain ⟨hi, hfull'⟩ := Stream.mem_fullSet.1 hi
        exact ((hrel i hi).full.1 hfull').1 hkd
      rw [hempty, hkd, Function.update_self]
      rfl
    · have hsame : (s.afterRound n (slotOf d)).fullSet n k' = s.fullSet n k' := by
        refine Finset.filter_congr fun i hi => ?_
        rw [(hrel i (Finset.mem_range.1 hi)).full]
        exact and_iff_right hkd
      rw [hsame, Function.update_of_ne hkd, h.num k']
  · exact fun k₁ k₂ hk₁ _ => absurd hk₁ (hnone k₁)
  · -- the other buffer of every file would have been full before
    intro hall
    exfalso
    have hfull' : ∀ i < n, (s.group.file i).Full (slotOf (d + 1)) := fun i hi =>
      ((hrel i hi).full.1 (full_iff.2 ⟨_, hall i hi⟩)).2
    exact slotOf_succ_ne d (h.once _ _ ((h.num_eq_iff _).2 hfull') hnum)

/-! ### The producers -/

/-- A producer that is at the top of its loop with no buffer being written has both full, or waits for the
next segment; its file then ends later. -/
theorem begun_mul_lt (h : PromptInv n N f d s) {i : ℕ} (hi : i < n)
    (hpc : (s.writer i).loc.pc = .head) (hno : ∀ k, ¬ (s.group.file i).Writing k) :
    (s.group.file i).begun * readBufSize < N := by
  have hfile := h.inv.file i hi
  have hloc := hfile.loc
  simp only [LocalInv, hpc] at hloc
  have hlt : (s.group.file i).stored < (f i).length := by
    apply hfile.lt_of_pending
    simpa [WriteLocal.pending, hpc] using hloc.1.1
  obtain ⟨q, hq⟩ := (hfile.idle hno).resolve_left hlt.ne
  have hpos := readBufSize_pos
  have hbegun : (s.group.file i).begun = q := by
    rw [begun_of_not_writing hno, hq, Nat.div_eq_iff hpos, Nat.mul_comm q]
    omega
  rw [hbegun, Nat.mul_comm, ← hq, ← h.inv.length i hi]
  exact hlt

/-- A step of a producer that fills at most one buffer. -/
theorem put (h : PromptInv n N f d s) (hnone : ∀ k, s.group.bufFullNum k ≠ n) {i : ℕ} (hi : i < n)
    {c c' : FileCtx} {ps : List (List Byte)} (hinfo : c.info = s.group.file i)
    (hnum : c.num = s.group.bufFullNum) (hm : IterationMove N c c') (hc : FilePrompt d c')
    (hinv : StreamInv n N f (s.put i c' ps))
    (hawake : (∀ j < n, ((s.put i c' ps).group.file j).slot (slotOf d) = .filled d) → ∀ j < n, j ≠ i →
      (s.writer j).loc.pc = .head → (∀ k, ¬ (s.group.file j).Writing k) →
        (s.group.file j).begun = d + 2) :
    PromptInv n N f d (s.put i c' ps) := by
  have hset : ∀ k, (c'.info.Full k ↔ c.info.Full k) →
      (s.put i c' ps).fullSet n k = s.fullSet n k := by
    intro k hk
    refine Finset.filter_congr fun j _ => ?_
    rcases eq_or_ne j i with rfl | hji
    · rw [Stream.file_put_self, hk, hinfo]
    · rw [Stream.file_put_of_ne _ _ _ hji]
  have hcount : (∀ k, (s.put i c' ps).group.bufFullNum k = ((s.put i c' ps).fullSet n k).card) ∧
      ∃ k₀, ∀ k, k ≠ k₀ → (s.put i c' ps).group.bufFullNum k ≠ n := by
    rcases hm.full with ⟨hsame, hfull⟩ | ⟨k₀, m, hfill, hfilled, hfull, hupdate⟩
    · refine ⟨fun k => ?_, 0, fun k _ => ?_⟩
      · rw [hset k (hfull k), ← h.num k, ← hnum]
        exact congrFun hsame k
      · show c'.num k ≠ n
        rw [hsame, hnum]
        exact hnone k
    · have hk₀ : (s.put i c' ps).fullSet n k₀ = insert i (s.fullSet n k₀) := by
        ext j
        rw [Finset.mem_insert, Stream.mem_fullSet, Stream.mem_fullSet]
        rcases eq_or_ne j i with rfl | hji
        · rw [Stream.file_put_self]
          exact iff_of_true ⟨hi, full_iff.2 ⟨m, hfilled⟩⟩ (Or.inl rfl)
        · rw [Stream.file_put_of_ne _ _ _ hji]
          exact (or_iff_right hji).symm
      have hnot : i ∉ s.fullSet n k₀ := by
        intro hmem
        refine not_writing_of_full (Stream.mem_fullSet.1 hmem).2 (writing_iff.2 ⟨m, ?_⟩)
        rw [← hinfo]
        exact hfill
      refine ⟨fun k => ?_, k₀, fun k hk => ?_⟩
      · show c'.num k = _
        rw [hupdate]
        by_cases hk : k = k₀
        · rw [hk, Function.update_self, hk₀, Finset.card_insert_of_notMem hnot, hnum, h.num]
        · rw [Function.update_of_ne hk, hset k (hfull k hk), hnum, h.num]
      · show c'.num k ≠ n
        rw [hupdate, Function.update_of_ne hk, hnum]
        exact hnone k
  obtain ⟨hnums, k₀, honly⟩ := hcount
  refine ⟨hinv, h.judge, h.xorFlag, h.correctFlag, h.lt, h.xorSize, h.data, ?_, hnums, ?_, ?_⟩
  · intro j hj
    rcases eq_or_ne j i with rfl | hji
    · rw [Stream.ctx_put_self]
      exact hc
    · have hfile := h.file j hj
      refine ⟨?_, ?_, ?_⟩
      · show InOrder d ((s.put i c' ps).group.file j).begun ((s.put i c' ps).group.file j).slot
        rw [Stream.file_put_of_ne _ _ _ hji]
        exact hfile.order
      · show ((s.put i c' ps).writer j).loc.pc = _ ∨ ((s.put i c' ps).writer j).loc.pc = _ ∧
          ((s.put i c' ps).writer j).loc.flag = _
        rw [Stream.writer_put_of_ne _ _ _ hji]
        exact hfile.place
      · show ((s.put i c' ps).writer j).loc.pc = _ →
          (∀ k, ¬ ((s.put i c' ps).group.file j).Writing k) → d < ((s.put i c' ps).group.file j).begun
        rw [Stream.writer_put_of_ne _ _ _ hji, Stream.file_put_of_ne _ _ _ hji]
        exact hfile.waits
  · intro k k' hk hk'
    have hk₀ : ∀ k, (s.put i c' ps).group.bufFullNum k = n → k = k₀ := fun k hk =>
      by_contra fun hne => honly k hne hk
    rw [hk₀ k hk, hk₀ k' hk']
  · intro hall j hj
    rcases eq_or_ne j i with rfl | hji
    · rw [Stream.writer_put_self, Stream.file_put_self]
      intro hpc hno
      obtain ⟨m, hm'⟩ := full_iff.1 (hm.full_of_head hpc hno (slotOf (d + 1)))
      exact (hc.order.of_filled_succ hm').1
    · rw [Stream.writer_put_of_ne _ _ _ hji, Stream.file_put_of_ne _ _ _ hji]
      exact hawake hall j hj hji

/-- Between two steps of the schedule a producer is outside of a call or at the top of its loop. -/
theorem place (h : PromptInv n N f d s) {i : ℕ} (hi : i < n) :
    (s.writer i).loc.pc = .idle ∨ (s.writer i).loc.pc = .head ∧ (s.writer i).loc.flag = true :=
  (h.file i hi).place

/-- An iteration of a producer that has not both buffers full. -/
theorem iterate (h : PromptInv n N f d s) (hnone : ∀ k, s.group.bufFullNum k ≠ n) {i : ℕ} (hi : i < n)
    {c : FileCtx} {ps : List (List Byte)} (hinfo : c.info = s.group.file i)
    (hnum : c.num = s.group.bufFullNum) (hpc : c.loc.pc = .head)
    (hfile : FileInv (f i) (s.Overwritten i) c.info c.loc ps) (hfree : ∃ k, ¬ c.info.Full k)
    (hflag : (∀ k, ¬ c.info.Writing k) → c.loc.flag = true ∧ d < c.info.begun)
    (hinv : StreamInv n N f (s.put i (iteration N c) ps))
    (hawake : IterationMove N c (iteration N c) →
      (∀ j < n, ((s.put i (iteration N c) ps).group.file j).slot (slotOf d) = .filled d) →
        ∀ j < n, j ≠ i → (s.writer j).loc.pc = .head → (∀ k, ¬ (s.group.file j).Writing k) →
          (s.group.file j).begun = d + 2) :
    PromptInv n N f d (s.put i (iteration N c) ps) ∧
      fileWork N (iteration N c) ps < fileWork N c ps := by
  have hlen := h.inv.length i hi
  have horder : InOrder d c.info.begun c.info.slot := by
    rw [hinfo]
    exact (h.file i hi).order
  have hm : IterationMove N c (iteration N c) := by
    have := hfile.iteration_move hpc
    rwa [hlen] at this
  refine ⟨h.put hnone hi hinfo hnum hm (.of_move horder hpc hflag hm) hinv (hawake hm),
    hm.fileWork_lt horder hpc hfree ?_ ps⟩
  have hle := (hinv.file i hi).begun_le
  rw [Stream.file_put_self, hlen] at hle
  exact hle

end PromptInv

namespace Stream

variable {s : Stream} {i : ℕ}

theorem coarseStep_head (hi : i < s.group.fileNum) (hpc : (s.writer i).loc.pc = .head) :
    s.coarseStep (.writer i) =
      s.put i (iteration s.group.fileSize (s.ctx i)) (s.writer i).pieces := by
  have hvisit : visit s.group.fileSize (s.ctx i) (s.writer i).pieces =
      (iteration s.group.fileSize (s.ctx i), (s.writer i).pieces) :=
    if_neg (by rw [show (s.ctx i).loc.pc = _ from hpc]; simp)
  simp only [coarseStep, if_pos hi, hvisit]

theorem coarseStep_call (hi : i < s.group.fileNum) (hpc : (s.writer i).loc.pc = .idle) {p : List Byte}
    {ps : List (List Byte)} (hps : (s.writer i).pieces = p :: ps) :
    s.coarseStep (.writer i) = s.put i ⟨s.group.file i, s.group.bufFullNum, .call p⟩ ps := by
  have hvisit : visit s.group.fileSize (s.ctx i) (s.writer i).pieces =
      (⟨s.group.file i, s.group.bufFullNum, .call p⟩, ps) := by
    simp only [visit, ctx, hpc, hps, if_true]
  simp only [coarseStep, if_pos hi, hvisit]

theorem coarseStep_nil (hpc : (s.writer i).loc.pc = .idle) (hps : (s.writer i).pieces = []) :
    s.coarseStep (.writer i) = s := by
  have hvisit : visit s.group.fileSize (s.ctx i) (s.writer i).pieces = (s.ctx i, (s.writer i).pieces) := by
    simp only [visit, ctx, hpc, hps, if_true]
  simp only [coarseStep, hvisit, put_self, ite_self]

/-- A call with the next piece and its first iteration. -/
theorem coarseStep_call_head (hi : i < s.group.fileNum) (hpc : (s.writer i).loc.pc = .idle)
    {p : List Byte} {ps : List (List Byte)} (hps : (s.writer i).pieces = p :: ps) :
    (s.coarseStep (.writer i)).coarseStep (.writer i) =
      s.put i (iteration s.group.fileSize ⟨s.group.file i, s.group.bufFullNum, .call p⟩) ps := by
  set c : FileCtx := ⟨s.group.file i, s.group.bufFullNum, .call p⟩ with hc
  have hcall : s.coarseStep (.writer i) = s.put i c ps := coarseStep_call hi hpc hps
  have hhead : ((s.put i c ps).writer i).loc.pc = .head := by
    rw [writer_put_self]
    rfl
  have hi' : i < (s.put i c ps).group.fileNum := hi
  rw [hcall, coarseStep_head hi' hhead, ctx_put_self, writer_put_self, put_put]
  rfl

/-- The work left for all producers. -/
def work (n N : ℕ) (s : Stream) : ℕ :=
  ∑ i ∈ Finset.range n, fileWork N (s.ctx i) (s.writer i).pieces

theorem work_put_lt {n N : ℕ} (hi : i < n) {c : FileCtx} {ps : List (List Byte)}
    (hlt : fileWork N c ps < fileWork N (s.ctx i) (s.writer i).pieces) :
    (s.put i c ps).work n N < s.work n N := by
  have hself : fileWork N ((s.put i c ps).ctx i) ((s.put i c ps).writer i).pieces = fileWork N c ps := by
    rw [ctx_put_self, writer_put_self]
  refine Finset.sum_lt_sum (fun j _ => ?_) ⟨i, Finset.mem_range.2 hi, hself.trans_lt hlt⟩
  rcases eq_or_ne j i with rfl | hji
  · exact (hself.trans_lt hlt).le
  · have hwriter : (s.put i c ps).writer j = s.writer j := writer_put_of_ne _ _ _ hji
    have hsame : fileWork N ((s.put i c ps).ctx j) (s.writer j).pieces =
        fileWork N (s.ctx j) (s.writer j).pieces :=
      fileWork_congr (file_put_of_ne s c ps hji) (congrArg Writer.loc hwriter) _
    rw [hwriter, hsame]

end Stream

namespace PromptInv

variable {n N d : ℕ} {f : ℕ → List Byte} {s : Stream}

/-- **A producer inside of a call goes on.** -/
theorem goOn (h : PromptInv n N f d s) (hn : 0 < n) (hnone : ∀ k, s.group.bufFullNum k ≠ n) {i : ℕ}
    (hi : i < n) (hgo : s.CanGoOn i) :
    PromptInv n N f d (s.coarseStep (.writer i)) ∧
      (s.coarseStep (.writer i)).work n N < s.work n N := by
  have hfile := h.file i hi
  obtain ⟨hpc, hflag⟩ := (h.place hi).resolve_left hgo.1
  have hfinv : FileInv (f i) (s.Overwritten i) (s.ctx i).info (s.ctx i).loc (s.writer i).pieces :=
    h.inv.file i hi
  have hinv := h.inv.coarseStep hn (.writer i)
  rw [Stream.coarseStep_head (h.inv.fileNum ▸ hi) hpc, h.inv.fileSize] at hinv ⊢
  have hiter := h.iterate hnone hi (c := s.ctx i) rfl rfl hpc hfinv hgo.2
    (fun hno => ⟨hflag, hfile.waits hpc hno⟩) hinv ?_
  · exact ⟨hiter.1, Stream.work_put_lt hi hiter.2⟩
  intro hm hall j hj hji hpcj hnoj
  set c' := iteration N (s.ctx i) with hc'
  -- the others held segment `d` already
  have hothers : ∀ l < n, l ≠ i → (s.group.file l).slot (slotOf d) = .filled d := by
    intro l hl hli
    have := hall l hl
    rwa [Stream.file_put_of_ne _ _ _ hli] at this
  have hself : c'.info.slot (slotOf d) = .filled d := by
    have := hall i hi
    rwa [Stream.file_put_self] at this
  have hbefore : (s.group.file i).slot (slotOf d) = .filled d → (s.group.file j).begun = d + 2 := by
    intro hslot
    refine h.awake (fun l hl => ?_) j hj hpcj hnoj
    rcases eq_or_ne l i with rfl | hli
    · exact hslot
    · exact hothers l hl hli
  cases hm with
  | stored hslot _ _ _ =>
    rw [hslot] at hself
    exact hbefore hself
  | ended k m hfill hslot hbegun _ hpc' hend =>
    rw [hslot] at hself
    by_cases hk : slotOf d = k
    · -- file `i` ends with segment `d`, but file `j` does not
      rw [hk, Function.update_self] at hself
      cases hself
      have hno : ∀ k', ¬ c'.info.Writing k' := by
        intro k' hw
        obtain ⟨m', hm'⟩ := writing_iff.1 hw
        rw [hslot] at hm'
        by_cases hk' : k' = k
        · rw [hk', Function.update_self] at hm'
          cases hm'
        · rw [Function.update_of_ne hk'] at hm'
          exact hk' (hfile.order.filling_unique hm' hfill)
      have hb := (hfile.order.filling k _ hfill).2.1
      have hsegments : segments N = d + 1 := by
        rw [segments, ← hend, ← begun_of_not_writing hno, hbegun, ← hb]
      have hle := le_segments_mul N
      rw [hsegments] at hle
      have hlt := h.begun_mul_lt hj hpcj hnoj
      have hwait := (h.file j hj).waits hpcj hnoj
      have hjle := (h.file j hj).order.begun_le
      by_contra hne
      have hbj : (s.group.file j).begun = d + 1 := by
        have : (s.ctx j).info.begun = (s.group.file j).begun := rfl
        omega
      rw [hbj] at hlt
      exact absurd hlt (not_lt.2 hle)
    · rw [Function.update_of_ne hk] at hself
      exact hbefore hself
  | switched _ _ _ hflag' | blocked _ _ hflag' => exact absurd (hflag.symm.trans hflag') (by simp)
  | waited hfull _ =>
    obtain ⟨k, hk⟩ := hgo.2
    exact absurd (hfull k) hk
  | woken k _ _ _ hslot _ _ _ _ =>
    rw [hslot] at hself
    by_cases hk : slotOf d = k
    · rw [hk, Function.update_self] at hself
      cases hself
    · rw [Function.update_of_ne hk] at hself
      exact hbefore hself

/-- **A producer whose turn it is**, where nobody inside of a call can go on: it hands over a piece and runs
an iteration, or it has nothing to do. -/
theorem turn (h : PromptInv n N f d s) (hn : 0 < n) (hnone : ∀ k, s.group.bufFullNum k ≠ n)
    (hstop : ∀ j < n, ¬ s.CanGoOn j) {i : ℕ} (hi : i < n) :
    let t := (s.coarseStep (.writer i)).coarseStep (.writer i)
    (t = s ∧ ¬ ((s.writer i).loc.pc = .idle ∧ (s.writer i).pieces ≠ [])) ∨
      (PromptInv n N f d t ∧ t.work n N < s.work n N) := by
  intro t
  have hin : i < s.group.fileNum := h.inv.fileNum ▸ hi
  -- a producer that waits finds both of its buffers full
  have hwaits : ∀ j < n, (s.writer j).loc.pc = .head → ∀ k, (s.group.file j).Full k := by
    intro j hj hpcj k
    by_contra hk
    exact hstop j hj ⟨by rw [hpcj]; simp, k, hk⟩
  rcases h.place hi with hpc | ⟨hpc, -⟩
  · cases hps : (s.writer i).pieces with
    | nil =>
      refine Or.inl ⟨?_, fun hne => hne.2 rfl⟩
      show (s.coarseStep (.writer i)).coarseStep (.writer i) = s
      rw [Stream.coarseStep_nil hpc hps, Stream.coarseStep_nil hpc hps]
    | cons p ps =>
      right
      have hinv : StreamInv n N f t := (h.inv.coarseStep hn _).coarseStep hn _
      have ht : t = s.put i (iteration s.group.fileSize ⟨s.group.file i, s.group.bufFullNum, .call p⟩)
          ps := Stream.coarseStep_call_head hin hpc hps
      rw [h.inv.fileSize] at ht
      rw [ht] at hinv ⊢
      have hfinv := h.inv.file i hi
      rw [hps] at hfinv
      -- bytes are still to come, so a buffer is being written
      have hw : ∃ k, (s.group.file i).Writing k := by
        by_contra hno
        have hloc := hfinv.loc
        simp only [LocalInv, hpc] at hloc
        have hend := hloc.2.2 (not_exists.1 hno)
        have hsplit := congrArg List.length hfinv.split
        have hp := (hfinv.pieces_le p (by simp)).1
        simp only [hend, List.drop_length, List.length_nil, List.length_append, List.flatten_cons] at hsplit
        omega
      obtain ⟨k, hw⟩ := hw
      have hiter := h.iterate hnone hi (c := ⟨s.group.file i, s.group.bufFullNum, .call p⟩) rfl rfl rfl
        (hfinv.call hpc) ⟨k, fun hfull => not_writing_of_full hfull hw⟩ (fun hno => absurd hw (hno k)) hinv
        fun _ _ j hj _ hpcj _ => by
          obtain ⟨m, hm⟩ := full_iff.1 (hwaits j hj hpcj (slotOf (d + 1)))
          exact ((h.file j hj).order.of_filled_succ hm).1
      refine ⟨hiter.1, Stream.work_put_lt hi (hiter.2.trans ?_)⟩
      have hidle : (s.ctx i).loc.pc = .idle := hpc
      have hcall : (WriteLocal.call p).pc ≠ .idle := by simp [WriteLocal.call]
      rw [hps]
      unfold fileWork
      rw [if_pos hidle, if_neg hcall, List.length_cons]
      show _ + _ + _ + (if ∃ k, (s.group.file i).Writing k then 1 else 0) <
        _ + _ + _ + if ∃ k, (s.group.file i).Writing k then 1 else 0
      show _ + _ + 2 * (segments N - (s.group.file i).begun) + _ <
        _ + _ + 2 * (segments N - (s.group.file i).begun) + _
      omega
  · refine Or.inl ⟨?_, fun hne => by rw [hpc] at hne; cases hne.1⟩
    have hsame : s.coarseStep (.writer i) = s := by
      rw [Stream.coarseStep_head hin hpc,
        iteration_of_full (c := s.ctx i) hpc (hwaits i hi hpc), Stream.put_self]
    show (s.coarseStep (.writer i)).coarseStep (.writer i) = s
    rw [hsame, hsame]

/-- Where neither the consumer nor a producer inside of a call can go on, some file has a piece left. -/
theorem exists_pieces (h : PromptInv n N f d s) (hnone : ∀ k, s.group.bufFullNum k ≠ n)
    (hstop : ∀ j < n, ¬ s.CanGoOn j) :
    ∃ i < n, (s.writer i).loc.pc = .idle ∧ (s.writer i).pieces ≠ [] := by
  by_contra hall
  push Not at hall
  refine hnone (slotOf d) ((h.num_eq_iff _).2 fun i hi => ?_)
  have hfile := h.file i hi
  rcases h.place hi with hpc | ⟨hpc, -⟩
  · -- the file has been handed over, so its segment `d` is finished
    have hfinv := h.inv.file i hi
    have hloc := hfinv.loc
    have hsplit := congrArg List.length hfinv.split
    have hle := hfinv.le
    simp only [LocalInv, hpc] at hloc
    simp only [WriteLocal.pending, hpc, hall i hi hpc, List.length_drop, List.flatten_nil,
      List.append_nil, List.length_nil] at hsplit
    have hend : (s.group.file i).stored = (f i).length := by omega
    have hno := hloc.2.1 hend
    have hbegun : (s.group.file i).begun = segments N := by
      rw [begun_of_not_writing hno, hend, h.inv.length i hi, segments]
    have hlt : d < (s.group.file i).begun := by
      rw [hbegun]
      by_contra hge
      have hN := (le_segments_mul N).trans (Nat.mul_le_mul_right readBufSize (not_lt.1 hge))
      exact absurd h.lt (not_lt.2 hN)
    cases hx : (s.group.file i).slot (slotOf d) with
    | free => exact absurd hx (hfile.order.held d le_rfl hlt)
    | filling m => exact absurd (writing_iff.2 ⟨m, hx⟩) (hno _)
    | filled m => exact full_iff.2 ⟨m, hx⟩
  · by_contra hk
    exact hstop i hi ⟨by rw [hpc]; simp, _, hk⟩

/-- A round leaves the work of the producers as it is. -/
theorem work_round (h : PromptInv n N f d s) (hn : 0 < n) {k : Fin 2} (hk : s.group.bufFullNum k = n) :
    s.judgeIteration.work n N = s.work n N := by
  rw [h.judgeIteration_eq hk]
  exact Finset.sum_congr rfl fun i hi => (h.file_afterRound hn hk (Finset.mem_range.1 hi)).2

end PromptInv

/-! ### The schedule -/

namespace Prompt

variable {p : Prompt} {n : ℕ}

theorem step_round (hj : p.stream.judge = ⟨.test 0, n⟩) (hn : p.stream.group.fileNum = n) {k : Fin 2}
    (hk : p.stream.group.bufFullNum k = n) : p.step = .inl { p with stream := p.stream.judgeIteration } := by
  have hk' : ∃ k, p.stream.group.bufFullNum k = n := ⟨k, hk⟩
  simp only [step, hj, hn, if_pos hk']

theorem step_goOn (hj : p.stream.judge = ⟨.test 0, n⟩) (hn : p.stream.group.fileNum = n)
    (hnone : ∀ k, p.stream.group.bufFullNum k ≠ n) {i : ℕ}
    (hi : ((List.range n).find? fun i => p.stream.CanGoOn i) = some i) :
    p.step = .inl { p with stream := p.stream.coarseStep (.writer i) } := by
  simp only [step, hj, hn, if_neg (not_exists.2 hnone), hi]

theorem step_turn (hj : p.stream.judge = ⟨.test 0, n⟩) (hn : p.stream.group.fileNum = n)
    (hnone : ∀ k, p.stream.group.bufFullNum k ≠ n)
    (hi : ((List.range n).find? fun i => p.stream.CanGoOn i) = none) :
    p.step = .inl ⟨(p.stream.coarseStep (.writer p.turn)).coarseStep (.writer p.turn),
      (p.turn + 1) % n⟩ := by
  simp only [step, hj, hn, if_neg (not_exists.2 hnone), hi]

end Prompt

section Runs

variable {n N : ℕ} {f : ℕ → List Byte} {pieces : ℕ → List (List Byte)}

/-- The start of the schedule. -/
theorem promptInv_init (hn : 0 < n) (hN : 0 < N) (hs : Stream.Split n N f pieces) :
    PromptInv n N f 0 (.init n N pieces) := by
  have hw : Stream.readyFile.Writing 0 := rfl
  have hslot : ∀ k m, Stream.readyFile.slot k ≠ .filled m := by
    intro k m hm
    have hfull := (slot_eq_filled.1 hm).1
    obtain rfl | rfl : k = 0 ∨ k = 1 := by omega
    · cases hfull
    · cases hfull
  have hbegun : Stream.readyFile.begun = 1 := by
    simp [SingleFileInfo.begun, Stream.readyFile, SingleFileInfo.buf]
  have horder : InOrder 0 Stream.readyFile.begun Stream.readyFile.slot := by
    refine ⟨by omega, by omega, fun k m hm => ?_, fun k m hm => absurd hm (hslot k m), fun m _ hm => ?_⟩
    · obtain ⟨hwk, hstart⟩ := slot_eq_filling.1 hm
      obtain rfl : k = 0 := by
        by_contra h0
        obtain rfl : k = 1 := by omega
        cases hwk
      obtain rfl : m = 0 := hstart.symm.trans (Nat.zero_div _)
      exact ⟨le_rfl, hbegun.symm, rfl⟩
    · obtain rfl : m = 0 := by omega
      intro hfree
      rw [slot_eq_free] at hfree
      cases hfree
  have hempty : ∀ k, (Stream.init n N pieces).fullSet n k = ∅ := fun k =>
    Finset.eq_empty_of_forall_notMem fun i hi => by
      obtain ⟨m, hm⟩ := full_iff.1 (Stream.mem_fullSet.1 hi).2
      exact hslot k m hm
  refine ⟨streamInv_init hN hs, rfl, rfl, rfl, by rwa [Nat.zero_mul], (Nat.zero_mul _).symm, ?_,
    fun i _ => ⟨horder, Or.inl rfl, fun hpc => by cases hpc⟩, fun k => ?_, fun k _ hk => ?_,
    fun hall => absurd (hall 0 hn) (hslot _ _)⟩
  · rw [Nat.zero_mul]
    rfl
  · rw [hempty]
    rfl
  · exact absurd hk hn.ne

/-- **The schedule from any state of the invariant.**  The induction is on the work left, and on the number
of turns until that of a file with a piece. -/
theorem PromptInv.returns (hn : 0 < n) (w : ℕ) :
    ∀ d s turn, PromptInv n N f d s → turn < n → segments N - d + s.work n N = w →
      Loop.Returns Prompt.step ⟨s, turn⟩ (right, ⟨xorBlocks ((List.range n).map f) N, []⟩) := by
  induction w using Nat.strong_induction_on with
  | _ w ih =>
    intro d s turn h hturn hw
    have hd : d < segments N := by
      by_contra hge
      have hN := (le_segments_mul N).trans (Nat.mul_le_mul_right readBufSize (not_lt.1 hge))
      exact absurd h.lt (not_lt.2 hN)
    -- an unfinished state with less work left
    have hnext : ∀ d' s' turn', PromptInv n N f d' s' → turn' < n →
        segments N - d' + s'.work n N < segments N - d + s.work n N →
        Loop.Returns Prompt.step ⟨s', turn'⟩ (right, ⟨xorBlocks ((List.range n).map f) N, []⟩) :=
      fun d' s' turn' h' hturn' hlt => ih _ (hw ▸ hlt) d' s' turn' h' hturn' rfl
    by_cases hk : ∃ k, s.group.bufFullNum k = n
    · obtain ⟨k, hk⟩ := hk
      rw [Loop.returns_of_next (Prompt.step_round (p := ⟨s, turn⟩) h.judge h.inv.fileNum hk)]
      by_cases hlast : N ≤ (d + 1) * readBufSize
      · obtain ⟨hdone, hout⟩ := h.round_last hn hk hlast
        have hret : Prompt.step ⟨s.judgeIteration, turn⟩ = .inr (right, s.judgeIteration.out) := by
          simp only [Prompt.step, hdone]
        rw [Loop.returns_of_ret hret, hout]
      · apply hnext (d + 1) _ turn (h.round hn hk (not_le.1 hlast)) hturn
        rw [h.work_round hn hk]
        omega
    have hnone : ∀ k, s.group.bufFullNum k ≠ n := not_exists.1 hk
    cases hfind : (List.range n).find? fun i => s.CanGoOn i with
    | some i =>
      have hi : i < n := List.mem_range.1 (List.mem_of_find?_eq_some hfind)
      have hgo : s.CanGoOn i := by simpa using List.find?_some hfind
      obtain ⟨h', hlt⟩ := h.goOn hn hnone hi hgo
      rw [Loop.returns_of_next (Prompt.step_goOn (p := ⟨s, turn⟩) h.judge h.inv.fileNum hnone hfind)]
      exact hnext d _ turn h' hturn (Nat.add_lt_add_left hlt _)
    | none =>
      have hstop : ∀ j < n, ¬ s.CanGoOn j := by
        intro j hj
        simpa using List.find?_eq_none.1 hfind j (List.mem_range.2 hj)
      obtain ⟨j, hj, hpieces⟩ := h.exists_pieces hnone hstop
      have key : ∀ t turn, turn < n → (turn + t) % n = j →
          Loop.Returns Prompt.step ⟨s, turn⟩ (right, ⟨xorBlocks ((List.range n).map f) N, []⟩) := by
        intro t
        induction t with
        | zero =>
          intro turn hturn hj
          obtain rfl : turn = j := by rwa [Nat.add_zero, Nat.mod_eq_of_lt hturn] at hj
          rw [Loop.returns_of_next (Prompt.step_turn (p := ⟨s, turn⟩) h.judge h.inv.fileNum hnone hfind)]
          rcases h.turn hn hnone hstop hturn with ⟨-, hno⟩ | ⟨h', hlt⟩
          · exact absurd hpieces hno
          · exact hnext d _ _ h' (Nat.mod_lt _ hn) (Nat.add_lt_add_left hlt _)
        | succ t iht =>
          intro turn hturn hj
          rw [Loop.returns_of_next (Prompt.step_turn (p := ⟨s, turn⟩) h.judge h.inv.fileNum hnone hfind)]
          rcases h.turn hn hnone hstop hturn with ⟨hsame, -⟩ | ⟨h', hlt⟩
          · rw [show (s.coarseStep (.writer turn)).coarseStep (.writer turn) = s from hsame]
            apply iht _ (Nat.mod_lt _ hn)
            rw [Nat.mod_add_mod, Nat.add_assoc, Nat.add_comm 1 t]
            exact hj
          · exact hnext d _ _ h' (Nat.mod_lt _ hn) (Nat.add_lt_add_left hlt _)
      apply key (j + n - turn) turn hturn
      rw [show turn + (j + n - turn) = j + n by omega, Nat.add_mod_right, Nat.mod_eq_of_lt hj]

/-- **The prompt schedule completes the group.** -/
theorem prompt_returns (hn : 0 < n) (hN : 0 < N) (hs : Stream.Split n N f pieces) :
    Loop.Returns Prompt.step (.init n N pieces) (right, ⟨xorBlocks ((List.range n).map f) N, []⟩) :=
  PromptInv.returns hn _ 0 _ 0 (promptInv_init hn hN hs) hn rfl

/-- Empty files are never handed over, so the consumer never finds a counter at the number of files. -/
theorem not_prompt_returns (hn : 0 < n) (hs : Stream.Split n 0 f pieces) (r : ℤ × OutFile) :
    ¬ Loop.Returns Prompt.step (.init n 0 pieces) r := by
  have hpieces : ∀ i < n, pieces i = [] := by
    intro i hi
    have hflat : (pieces i).flatten = [] := by
      rw [hs.flatten i hi]
      exact List.length_eq_zero_iff.1 (hs.length i hi)
    refine List.eq_nil_iff_forall_not_mem.2 fun p hp => ?_
    have hp0 := List.flatten_eq_nil_iff.1 hflat p hp
    have := (hs.piece i hi p hp).1
    rw [hp0] at this
    exact absurd this (lt_irrefl 0)
  refine Loop.not_returns_of_invariant
    (I := fun p => p.stream = .init n 0 pieces ∧ p.turn < n) ?_ ⟨rfl, hn⟩
  rintro ⟨s, turn⟩ ⟨rfl, hturn⟩
  have hfind : ((List.range n).find? fun i => (Stream.init n 0 pieces).CanGoOn i) = none := by
    refine List.find?_eq_none.2 fun i _ => ?_
    rw [decide_eq_true_iff]
    exact fun hgo => hgo.1 rfl
  have hstep : (Stream.init n 0 pieces).coarseStep (.writer turn) = .init n 0 pieces :=
    Stream.coarseStep_nil rfl (hpieces turn hturn)
  refine ⟨⟨.init n 0 pieces, (turn + 1) % n⟩, ⟨rfl, Nat.mod_lt _ hn⟩, ?_⟩
  rw [Prompt.step_turn (p := ⟨.init n 0 pieces, turn⟩) (n := n) rfl rfl (fun _ => hn.ne) hfind]
  dsimp only
  rw [hstep, hstep]

end Runs

end ORaidServer
