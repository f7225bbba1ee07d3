import ORaidServer.Group.Count

/-!
# The invariant of the producers and the consumer

`StreamInv` holds in every state of every run of producers that hand over a split of their files,
whatever the scheduler does: every file keeps `FileInv`, and the counters keep `CountInv`.

* `StreamInv.writer` and `StreamInv.judge`, the two step lemmas; `streamInv_of_reach`, the run lemma.
-/

namespace ORaidServer

open Guarded

namespace WriterMove

variable {f : List Byte} {dr : Fin 2 → Prop} {c c' : FileCtx} {ps ps' : List (List Byte)}

theorem inv (hm : WriterMove f.length c ps c' ps') (h : FileInv f dr c.info c.loc ps) :
    FileInv f dr c'.info c'.loc ps' := by
  cases hm with
  | call p _ hpc => exact h.call hpc
  | step _ _ => exact h.step

theorem buf_of_full (hm : WriterMove f.length c ps c' ps') (h : FileInv f dr c.info c.loc ps)
    {k : Fin 2} (hk : c.info.Full k) : c'.info.buf k = c.info.buf k := by
  cases hm with
  | call p _ hpc => rfl
  | step _ _ => exact h.buf_of_full hk

end WriterMove

/-- What is known at each place of a call includes what the counting needs. -/
theorem FileInv.agrees {f : List Byte} {dr : Fin 2 → Prop} {c : FileCtx} {ps : List (List Byte)}
    (h : FileInv f dr c.info c.loc ps) : c.Agrees := by
  have hloc := h.loc
  refine ⟨fun k more hpc => ?_, fun k ho => ?_⟩
  · cases more <;> simp only [LocalInv, hpc] at hloc <;> exact hloc.1
  · cases hpc : c.loc.pc with
    | load k' more | store k' more v =>
      obtain rfl : k' = k := by simpa [hpc, WritePc.Owes] using ho
      cases more <;> simp only [LocalInv, hpc] at hloc <;> exact hloc.1
    | _ => simp [hpc, WritePc.Owes] at ho

namespace Stream

/-- Buffer `k` of file `i` holds the result of `buf_xor` in place of its own bytes. -/
def Overwritten (s : Stream) (i : ℕ) (k : Fin 2) : Prop :=
  i = 0 ∧ (s.judge.pc = .resetNum k ∨ s.Draining i k)

end Stream

/-- The invariant of a group of `n` files `f` of length `N`. -/
structure StreamInv (n N : ℕ) (f : ℕ → List Byte) (s : Stream) : Prop where
  fileNum : s.group.fileNum = n
  judgeNum : s.judge.fileNum = n
  fileSize : s.group.fileSize = N
  length : ∀ i < n, (f i).length = N
  accepts : s.out.Accepts
  file : ∀ i < n, FileInv (f i) (s.Overwritten i) (s.group.file i) (s.writer i).loc
    (s.writer i).pieces
  num : ∀ k, s.group.bufFullNum k ≤ (s.countedSet n k).card
  store : ∀ i < n, ∀ k more v, (s.writer i).loc.pc = .store k more v →
    v ≤ (s.countedSet n k).card
  taken : ∀ k, (s.judge.pc = .xor k ∨ s.judge.pc = .resetNum k) → ∀ i < n, s.Counted i k
  drain : ∀ k j, s.judge.pc = .resetFlag k j → ∀ i, j ≤ i → i < n → s.Counted i k

namespace StreamInv

variable {n N : ℕ} {f : ℕ → List Byte} {s : Stream}

/-- The counters of the group. -/
theorem toCount (h : StreamInv n N f s) : CountInv n s :=
  ⟨h.fileNum, h.judgeNum, fun i hi => FileInv.agrees (c := s.ctx i) (h.file i hi), h.num, h.store,
    h.taken, h.drain⟩

/-- A counter that reaches `n` has counted every file. -/
theorem counted_of_num (h : StreamInv n N f s) {k : Fin 2} (hk : s.group.bufFullNum k = n) {i : ℕ}
    (hi : i < n) : s.Counted i k ∧ ¬ s.Draining i k :=
  h.toCount.counted_of_num hk hi

/-- A step of a producer keeps the invariant. -/
theorem writer (h : StreamInv n N f s) {i : ℕ} (hi : i < n) {c : FileCtx}
    {ps : List (List Byte)} (hm : WriterMove s.group.fileSize (s.ctx i) (s.writer i).pieces c ps) :
    StreamInv n N f (s.put i c ps) := by
  have hcount := h.toCount.writer hi hm
  rw [h.fileSize, ← h.length i hi] at hm
  refine ⟨h.fileNum, h.judgeNum, h.fileSize, h.length, h.accepts, ?_, hcount.num, hcount.store,
    hcount.taken, hcount.drain⟩
  intro j hj
  rcases eq_or_ne j i with rfl | hji
  · rw [Stream.file_put_self, Stream.writer_put_self]
    exact hm.inv (h.file j hi)
  · rw [Stream.file_put_of_ne _ _ _ hji, Stream.writer_put_of_ne _ _ _ hji]
    exact h.file j hj

/-! ### The consumer -/

/-- A move of the consumer between its tests, after which it has overwritten nothing. -/
theorem moveTo (h : StreamInv n N f s) {s' : Stream} (hs : s'.group = s.group)
    (hold : ∀ i < n, ∀ k, ¬ s.Overwritten i k) {i : ℕ} (hi : i < n) :
    FileInv (f i) (s'.Overwritten i) (s'.group.file i) (s.writer i).loc (s.writer i).pieces := by
  rw [hs]
  exact (h.file i hi).mono fun k hk => absurd hk (hold i hi k)

/-- The consumer's call of `buf_xor` keeps the files. -/
theorem fileInv_xor (h : StreamInv n N f s) (hn : 0 < n) {k : Fin 2} (hpc : s.judge.pc = .xor k)
    {i : ℕ} (hi : i < n) : FileInv (f i) (s.judgeStep.Overwritten i) (s.judgeStep.group.file i)
      (s.writer i).loc (s.writer i).pieces := by
  have hcount := h.taken k (Or.inl hpc)
  obtain ⟨⟨m, hm, hfile⟩, -⟩ := bufXor_frame hn s.group k h.accepts
  set r := bufXor n s.group s.out k with hr
  have hs : s.judgeStep = { s with
      group := r.2.1, out := r.2.2, judge := { s.judge with pc := .resetNum k } } := by
    simp only [Stream.judgeStep, judgeStep, hpc, h.judgeNum, ← hr]
  have hdr : ∀ k', s.judgeStep.Overwritten i k' ↔ i = 0 ∧ k' = k := by
    intro k'
    refine and_congr_right fun _ => ?_
    rw [hs]
    simp [Stream.Draining, eq_comm]
  have hold : ∀ k', ¬ s.Overwritten i k' := by
    rintro k' ⟨-, hk' | ⟨j, hj, -⟩⟩
    · rw [hpc] at hk'
      cases hk'
    · rw [hpc] at hj
      cases hj
  have hg : s.judgeStep.group.file i = r.2.1.file i := by rw [hs]
  obtain ⟨p, hp⟩ := hfile i
  rw [hg, hp]
  refine FileInv.withPtr ?_ p
  rcases eq_or_ne i 0 with rfl | hi0
  · rw [TGroupFileInfo.setInBuf0, TGroupFileInfo.file_setFile_self]
    exact (h.file 0 hi).consume (hcount 0 hi).1
      (Or.inr ⟨(hcount 0 hi).1, rfl, hm, (hdr k).2 ⟨rfl, rfl⟩⟩)
      fun k' _ hk' => absurd hk' (hold k')
  · rw [TGroupFileInfo.setInBuf0, TGroupFileInfo.file_setFile, if_neg hi0]
    exact (h.file i hi).mono fun k' hk' => absurd hk' (hold k')

/-- The consumer's reset of a flag keeps the files. -/
theorem fileInv_resetFlag (h : StreamInv n N f s) {k : Fin 2} {j : ℕ} (hj : j < n)
    (hpc : s.judge.pc = .resetFlag k j) {i : ℕ} (hi : i < n) :
    FileInv (f i) (s.judgeStep.Overwritten i) (s.judgeStep.group.file i)
      (s.writer i).loc (s.writer i).pieces := by
  have hs : s.judgeStep = { s with
      group := s.group.clearFlag k j, judge := { s.judge with pc := .resetFlag k (j + 1) } } := by
    simp only [Stream.judgeStep, judgeStep, hpc, h.judgeNum, if_pos hj]
  have hold : ∀ k', s.Overwritten i k' ↔ i = 0 ∧ k' = k ∧ j = 0 := by
    intro k'
    apply and_congr_right
    rintro rfl
    simp [Stream.Draining, hpc, eq_comm]
  have hdr : ∀ k', ¬ s.judgeStep.Overwritten i k' ∨ i ≠ j := by
    intro k'
    refine Classical.or_iff_not_imp_right.2 fun hij hd => ?_
    rw [hs] at hd
    obtain ⟨rfl, hd | ⟨l, hl, hle⟩⟩ := hd
    · cases hd
    · cases hl
      omega
  rcases eq_or_ne i j with rfl | hij
  · have hg : s.judgeStep.group.file i =
        (s.group.file i).setBuf k { (s.group.file i).buf k with flag := .empty } := by
      rw [hs]
      simp [TGroupFileInfo.clearFlag]
    have hc := h.drain k i hpc i le_rfl hi
    rw [hg]
    refine (h.file i hi).consume hc.1 (Or.inl ⟨rfl, fun more v => ⟨fun hl => hc.2 ?_,
      fun hl => hc.2 ?_⟩⟩) fun k' hk' hd => absurd ((hold k').1 hd).2.1 hk'
    · simp [Stream.ctx, hl, WritePc.Owes]
    · simp [Stream.ctx, hl, WritePc.Owes]
  · have hg : s.judgeStep.group.file i = s.group.file i := by
      rw [hs]
      simp [TGroupFileInfo.clearFlag, TGroupFileInfo.setFile, hij]
    rw [hg]
    refine (h.file i hi).mono fun k' hk' => ?_
    obtain ⟨rfl, -, hj0⟩ := (hold k').1 hk'
    exact absurd hj0.symm hij

/-- A step of the consumer keeps the files. -/
theorem fileInv_judge (h : StreamInv n N f s) (hn : 0 < n) {i : ℕ} (hi : i < n) :
    FileInv (f i) (s.judgeStep.Overwritten i) (s.judgeStep.group.file i)
      (s.writer i).loc (s.writer i).pieces := by
  cases hpc : s.judge.pc with
  | xor k => exact h.fileInv_xor hn hpc hi
  | resetNum k =>
    have hs : s.judgeStep.judge.pc = .resetFlag k 0 := by
      simp only [Stream.judgeStep, judgeStep, hpc]
    have hg : s.judgeStep.group.file i = s.group.file i := by
      simp only [Stream.judgeStep, judgeStep, hpc]
    rw [hg]
    refine (h.file i hi).mono fun k' hk' => ⟨hk'.1, Or.inr ⟨0, ?_, Nat.zero_le i⟩⟩
    obtain ⟨-, hk' | ⟨j, hj, -⟩⟩ := hk'
    · rw [hpc] at hk'
      cases hk'
      exact hs
    · rw [hpc] at hj
      cases hj
  | resetFlag k j =>
    by_cases hj : j < n
    · exact h.fileInv_resetFlag hj hpc hi
    · have hj' : ¬ j < s.judge.fileNum := h.judgeNum ▸ hj
      refine h.moveTo ?_ (fun l hl k' hd => ?_) hi
      · simp only [Stream.judgeStep, judgeStep, hpc, if_neg hj']
      · obtain ⟨rfl, hd | ⟨j', hd, hle⟩⟩ := hd <;> rw [hpc] at hd <;> cases hd
        omega
  | test k | loop | done k =>
    refine h.moveTo ?_ (fun l hl k' hd => ?_) hi
    · simp only [Stream.judgeStep, judgeStep, hpc]
      try split_ifs
      all_goals rfl
    · obtain ⟨rfl, hd | ⟨j', hd, -⟩⟩ := hd <;> rw [hpc] at hd <;> cases hd

theorem out_judge (h : StreamInv n N f s) (hn : 0 < n) :
    s.judgeStep.out.Accepts ∧ s.judgeStep.group.fileSize = N := by
  cases hpc : s.judge.pc with
  | xor k =>
    obtain ⟨-, -, hsize, -, hout⟩ := bufXor_frame hn s.group k h.accepts
    simp only [Stream.judgeStep, judgeStep, hpc, h.judgeNum]
    exact ⟨hout, hsize.trans h.fileSize⟩
  | _ =>
    simp only [Stream.judgeStep, judgeStep, hpc]
    try split_ifs
    all_goals exact ⟨h.accepts, h.fileSize⟩

/-- A step of the consumer keeps the invariant. -/
theorem judge (h : StreamInv n N f s) (hn : 0 < n) : StreamInv n N f s.judgeStep := by
  have hcount := h.toCount.judge
  obtain ⟨hout, hsize⟩ := h.out_judge hn
  exact ⟨hcount.fileNum, hcount.judgeNum, hsize, h.length, hout,
    fun i hi => h.fileInv_judge hn hi, hcount.num, hcount.store, hcount.taken, hcount.drain⟩

theorem step (h : StreamInv n N f s) (hn : 0 < n) (a : Actor) : StreamInv n N f (s.step a) := by
  cases a with
  | judge => exact h.judge hn
  | writer i =>
    show StreamInv n N f (if i < s.group.fileNum then s.writerStep i else s)
    split_ifs with hi
    · rcases s.writerStep_eq i with ⟨hs, -⟩ | ⟨c, ps, hm, hs⟩
      · rw [hs]
        exact h
      · rw [hs]
        exact h.writer (h.fileNum ▸ hi) hm
    · exact h

end StreamInv

/-! ### Runs -/

section Runs

variable {n N : ℕ} {f : ℕ → List Byte} {pieces : ℕ → List (List Byte)}

theorem fileInv_init {g : List Byte} {ps : List (List Byte)} {dr : Fin 2 → Prop} (hg : 0 < g.length)
    (hflat : ps.flatten = g) (hps : ∀ p ∈ ps, 0 < p.length ∧ p.length ≤ maxline) :
    FileInv g dr Stream.readyFile ⟨.idle, [], false⟩ ps := by
  have hw : Stream.readyFile.Writing 0 := rfl
  have hbuf : ∀ {k}, (Stream.readyFile.buf k).flag ≠ .empty → k = 0 := by
    intro k hk
    by_contra h0
    obtain rfl : k = 1 := by omega
    exact hk rfl
  have hwr : ∀ {k}, Stream.readyFile.Writing k → k = 0 := fun {k} hk =>
    hbuf (by rw [show (Stream.readyFile.buf k).flag = .writing from hk]; simp)
  refine ⟨hflat.symm, Nat.zero_le _, hps, ⟨rfl, iff_of_false hg.ne fun hno => hno 0 hw⟩, ?_, ?_, ?_,
    ?_, ?_, fun hno => absurd hw (hno 0)⟩
  · exact fun k k' hk hk' => (hwr hk).trans (hwr hk').symm
  · intro k hk
    obtain rfl := hbuf hk
    exact ⟨Nat.dvd_zero _, hg⟩
  · intro k hk _
    obtain rfl := hbuf hk
    exact List.nil_prefix
  · intro k hk
    obtain rfl := hwr hk
    exact ⟨rfl, Nat.zero_le _⟩
  · intro k hk
    obtain rfl := hbuf (by rw [show (Stream.readyFile.buf k).flag = .full from hk]; simp)
    cases hk

theorem streamInv_init (hN : 0 < N) (hs : Stream.Split n N f pieces) :
    StreamInv n N f (Stream.init n N pieces) := by
  refine ⟨rfl, rfl, rfl, hs.length, rfl, fun i hi => ?_, fun k => Nat.zero_le _, ?_, ?_, ?_⟩
  · exact fileInv_init (by rw [hs.length i hi]; exact hN) (hs.flatten i hi) (hs.piece i hi)
  · intro i _ k more v hpc
    cases hpc
  · rintro k (hk | hk) <;> cases hk
  · intro k j hk
    cases hk

/-- The invariant holds in every state of every run. -/
theorem streamInv_of_reach {C : Stream → Actor → Prop} {s : Stream} (hn : 0 < n) (hN : 0 < N)
    (hs : Stream.Split n N f pieces) (h : Reach Stream.step C (.init n N pieces) s) :
    StreamInv n N f s :=
  h.invariant (streamInv_init hN hs) fun _ a ih _ => ih.step hn a

end Runs

end ORaidServer
