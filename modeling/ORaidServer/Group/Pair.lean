import ORaidServer.Group.Coarse

/-!
# A group of two files

The runs of a group of two whose producers and consumer take turns in coarse steps: each producer
moves as if alone (`pair_solo0`, `pair_solo1`), and the consumer drains a buffer that both have
filled (`pair_xor`, `pair_release`), here and in every other system in which it may go on (`Drains`).

`pair_split` follows such a run for any file length beyond three buffers up to the point where the
two producers can go on in different buffers.
-/

namespace ORaidServer

open Guarded ByteMem

/-- The family with the members `a`, `b` and otherwise `c`. -/
def two {α : Type*} (a b c : α) : ℕ → α := fun i => if i = 0 then a else if i = 1 then b else c

section Two

variable {α : Type*} (a b c a' : α)

@[simp] theorem two_zero : two a b c 0 = a := rfl

@[simp] theorem two_one : two a b c 1 = b := rfl

@[simp] theorem update_two_zero : Function.update (two a b c) 0 a' = two a' b c := by
  funext i
  rcases eq_or_ne i 0 with rfl | hi
  · simp
  · simp [two, hi]

@[simp] theorem update_two_one : Function.update (two a b c) 1 a' = two a a' c := by
  funext i
  rcases eq_or_ne i 1 with rfl | hi
  · simp
  · simp [two, hi]

end Two

/-- A group of two files that has output `out`, the counters being `num`. -/
def pair (N : ℕ) (x y : SingleFileInfo) (w v : Writer) (num : Fin 2 → ℕ) (pc : JudgePc)
    (out : List Byte) : Stream where
  group :=
    { file := two x y Stream.readyFile, fileSize := N, fileNum := 2, xorSize := out.length,
      bufFullNum := num, xorFlag := 0, correctFlag := 0 }
  writer := two w v ⟨⟨.idle, [], false⟩, []⟩
  judge := ⟨pc, 2⟩
  out := ⟨out, []⟩

section Pair

variable {N : ℕ} {x y x' : SingleFileInfo} {l l' : WriteLocal} {ps ps' : List (List Byte)}
  {w v : Writer} {num num' : Fin 2 → ℕ} {pc : JudgePc} {out : List Byte} {k : Fin 2}

theorem put_pair_zero (N : ℕ) (x y x' : SingleFileInfo) (w v : Writer) (num num' : Fin 2 → ℕ) (pc : JudgePc)
    (out : List Byte) (l' : WriteLocal) (ps' : List (List Byte)) :
    (pair N x y w v num pc out).put 0 ⟨x', num', l'⟩ ps' = pair N x' y ⟨l', ps'⟩ v num' pc out := by
  simp [Stream.put, pair, TGroupFileInfo.setFile]

theorem put_pair_one (N : ℕ) (x y x' : SingleFileInfo) (w v : Writer) (num num' : Fin 2 → ℕ) (pc : JudgePc)
    (out : List Byte) (l' : WriteLocal) (ps' : List (List Byte)) :
    (pair N x y w v num pc out).put 1 ⟨x', num', l'⟩ ps' = pair N x x' w ⟨l', ps'⟩ num' pc out := by
  simp [Stream.put, pair, TGroupFileInfo.setFile]

theorem pair_solo0 (h : Solo N ⟨x, num, l⟩ ps ⟨x', num', l'⟩ ps') :
    Reach Stream.coarseStep Free (pair N x y ⟨l, ps⟩ v num pc out)
      (pair N x' y ⟨l', ps'⟩ v num' pc out) := by
  rw [← put_pair_zero N x y x' ⟨l, ps⟩]
  exact Solo.coarse (s := pair N x y ⟨l, ps⟩ v num pc out) (i := 0) Nat.zero_lt_two h

theorem pair_solo1 (h : Solo N ⟨y, num, l⟩ ps ⟨x', num', l'⟩ ps') :
    Reach Stream.coarseStep Free (pair N x y w ⟨l, ps⟩ num pc out)
      (pair N x x' w ⟨l', ps'⟩ num' pc out) := by
  rw [← put_pair_one N x y x' w ⟨l, ps⟩]
  exact Solo.coarse (s := pair N x y w ⟨l, ps⟩ num pc out) (i := 1) Nat.one_lt_two h

theorem coarse_judge {s t : Stream} (h : s.judgeStep = t) : Reach Stream.coarseStep Free s t :=
  h ▸ Reach.single (a := Actor.judge) trivial

/-- A successful test. -/
theorem pair_test (h : num k = 2) :
    Reach Stream.coarseStep Free (pair N x y w v num (.test k) out)
      (pair N x y w v num (.xor k) out) := by
  apply coarse_judge
  simp [Stream.judgeStep, judgeStep, pair, h]

/-- A first test that fails. -/
theorem pair_test_fails (h : num 0 ≠ 2) :
    Reach Stream.coarseStep Free (pair N x y w v num (.test 0) out)
      (pair N x y w v num (.test 1) out) := by
  apply coarse_judge
  simp [Stream.judgeStep, judgeStep, pair, h]

/-- A system in which the consumer is free to go on once it has found a full counter. -/
structure Drains (step : Stream → Actor → Stream) (C : Stream → Actor → Prop) : Prop where
  judge : ∀ s, step s .judge = s.judgeStep
  free : ∀ s, (∀ k, s.judge.pc ≠ .test k) → C s .judge

theorem coarse_drains : Drains Stream.coarseStep Free := ⟨fun _ => rfl, fun _ _ => trivial⟩

variable {step : Stream → Actor → Stream} {C : Stream → Actor → Prop}

theorem Drains.reach (hJ : Drains step C) {s t : Stream} (hpc : ∀ k, s.judge.pc ≠ .test k)
    (h : s.judgeStep = t) : Reach step C s t := by
  rw [← h, ← hJ.judge]
  exact .single (hJ.free s hpc)

variable {bs cs : List Byte} {st st' i j L : ℕ}

/-- The output of `buf_xor` and the reset of the counter, the file not being complete. -/
theorem pair_xor (hJ : Drains step C) (w v : Writer) (num : Fin 2 → ℕ) (out : List Byte) (b' c' : InBuf)
    (hbs : bs.length = L) (hcs : cs.length = L) (hend : out.length + L ≠ N) :
    Reach step C
      (pair N (fileOf k ⟨bs, .full, st⟩ b' i) (fileOf k ⟨cs, .full, st'⟩ c' j) w v num (.xor k) out)
      (pair N (fileOf k ⟨xorBlocks [bs, cs] L, .full, st⟩ b' i) (fileOf k ⟨cs, .full, st'⟩ c' j) w v
        (Function.update num k 0) (.resetFlag k 0) (out ++ xorBlocks [bs, cs] L)) := by
  have hs : ∀ m < 2, (((two (fileOf k ⟨bs, .full, st⟩ b' i) (fileOf k ⟨cs, .full, st'⟩ c' j)
      Stream.readyFile) m).buf k).bufSize = L := by
    intro m hm
    obtain rfl | rfl : m = 0 ∨ m = 1 := by omega
    · simpa [InBuf.bufSize] using hbs
    · simpa [InBuf.bufSize] using hcs
  have hout : (⟨out, []⟩ : OutFile).Accepts := rfl
  have hxor := bufXor_of_sizes (g := (pair N (fileOf k ⟨bs, .full, st⟩ b' i)
    (fileOf k ⟨cs, .full, st'⟩ c' j) w v num (.xor k) out).group) Nat.zero_lt_two hout hs
  have hend' : ¬ ((out.length : ℤ) + L = N) := by exact_mod_cast hend
  have hr : Reach step C
      (pair N (fileOf k ⟨bs, .full, st⟩ b' i) (fileOf k ⟨cs, .full, st'⟩ c' j) w v num (.xor k) out)
      (pair N (fileOf k ⟨xorBlocks [bs, cs] L, .full, st⟩ b' i) (fileOf k ⟨cs, .full, st'⟩ c' j) w v
        num (.resetNum k) (out ++ xorBlocks [bs, cs] L)) := by
    apply hJ.reach (by simp [pair])
    simp only [Stream.judgeStep, judgeStep, pair] at hxor ⊢
    rw [hxor]
    simp [TGroupFileInfo.addXorSize, hend', TGroupFileInfo.setInBuf0, TGroupFileInfo.setFile,
      TGroupFileInfo.inBuf, List.range_succ]
  refine hr.trans (hJ.reach (by simp [pair]) ?_)
  simp [Stream.judgeStep, judgeStep, pair]

/-- The reset of the flags. -/
theorem pair_release (hJ : Drains step C) (w v : Writer) (num : Fin 2 → ℕ) (out : List Byte)
    (b' c' : InBuf) : Reach step C
      (pair N (fileOf k ⟨bs, .full, st⟩ b' i) (fileOf k ⟨cs, .full, st'⟩ c' j) w v num
        (.resetFlag k 0) out)
      (pair N (fileOf k ⟨bs, .empty, st⟩ b' i) (fileOf k ⟨cs, .empty, st'⟩ c' j) w v num
        (.test 0) out) := by
  have h0 : Reach step C
      (pair N (fileOf k ⟨bs, .full, st⟩ b' i) (fileOf k ⟨cs, .full, st'⟩ c' j) w v num
        (.resetFlag k 0) out)
      (pair N (fileOf k ⟨bs, .empty, st⟩ b' i) (fileOf k ⟨cs, .full, st'⟩ c' j) w v num
        (.resetFlag k 1) out) :=
    hJ.reach (by simp [pair]) (by
      simp [Stream.judgeStep, judgeStep, pair, TGroupFileInfo.clearFlag, TGroupFileInfo.setFile])
  have h1 : Reach step C
      (pair N (fileOf k ⟨bs, .empty, st⟩ b' i) (fileOf k ⟨cs, .full, st'⟩ c' j) w v num
        (.resetFlag k 1) out)
      (pair N (fileOf k ⟨bs, .empty, st⟩ b' i) (fileOf k ⟨cs, .empty, st'⟩ c' j) w v num
        (.resetFlag k 2) out) :=
    hJ.reach (by simp [pair]) (by
      simp [Stream.judgeStep, judgeStep, pair, TGroupFileInfo.clearFlag, TGroupFileInfo.setFile])
  have h2 : Reach step C
      (pair N (fileOf k ⟨bs, .empty, st⟩ b' i) (fileOf k ⟨cs, .empty, st'⟩ c' j) w v num
        (.resetFlag k 2) out)
      (pair N (fileOf k ⟨bs, .empty, st⟩ b' i) (fileOf k ⟨cs, .empty, st'⟩ c' j) w v num
        .loop out) :=
    hJ.reach (by simp [pair]) (by simp [Stream.judgeStep, judgeStep, pair])
  refine ((h0.trans h1).trans h2).trans (hJ.reach (by simp [pair]) ?_)
  simp [Stream.judgeStep, judgeStep, pair]

/-- What the reset of the flags leaves alone. -/
structure SameVerdict (s t : Stream) : Prop where
  out : t.out = s.out
  fileNum : t.judge.fileNum = s.judge.fileNum
  xorFlag : t.group.xorFlag = s.group.xorFlag
  verdict : verdict t.group = verdict s.group

/-- The consumer gets through the reset of the flags. -/
theorem reach_loop (hJ : Drains step C) (m : ℕ) {s : Stream} (hpc : s.judge.pc = .resetFlag k i)
    (hm : s.judge.fileNum ≤ i + m) :
    ∃ t, Reach step C s t ∧ t.judge.pc = .loop ∧ SameVerdict s t := by
  induction m generalizing s i with
  | zero =>
    have hi : ¬ i < s.judge.fileNum := by omega
    refine ⟨s.judgeStep, hJ.reach (by simp [hpc]) rfl, ?_, ?_⟩
    · simp only [Stream.judgeStep, judgeStep, hpc, if_neg hi]
    · simp only [Stream.judgeStep, judgeStep, hpc, if_neg hi]
      exact ⟨rfl, rfl, rfl, rfl⟩
  | succ m ih =>
    by_cases hi : i < s.judge.fileNum
    · have hstep : s.judgeStep = { s with
          group := s.group.clearFlag k i, judge := { s.judge with pc := .resetFlag k (i + 1) } } := by
        simp only [Stream.judgeStep, judgeStep, hpc, if_pos hi]
      have hpc' : s.judgeStep.judge.pc = .resetFlag k (i + 1) := by rw [hstep]
      have hnum : s.judgeStep.judge.fileNum = s.judge.fileNum := by rw [hstep]
      obtain ⟨t, ht, hloop, hsame⟩ := ih hpc' (by omega)
      refine ⟨t, (hJ.reach (by simp [hpc]) rfl).trans ht, hloop, hsame.out.trans (by rw [hstep]),
        hsame.fileNum.trans hnum, hsame.xorFlag.trans ?_, hsame.verdict.trans ?_⟩
      · rw [hstep]
        rfl
      · rw [hstep]
        rfl
    · exact ih hpc (by omega)

/-- A consumer whose last drain has completed the output returns its verdict. -/
theorem reach_done (hJ : Drains step C) {s : Stream} (hpc : s.judge.pc = .resetNum k)
    (hx : s.group.xorFlag ≠ 0) :
    ∃ t, Reach step C s t ∧ t.judge.pc = .done (verdict s.group) ∧ t.out = s.out := by
  have hstep : s.judgeStep = { s with
      group.bufFullNum := Function.update s.group.bufFullNum k 0
      judge := { s.judge with pc := .resetFlag k 0 } } := by
    simp only [Stream.judgeStep, judgeStep, hpc]
  obtain ⟨t, ht, hloop, hsame⟩ := reach_loop (i := 0) (k := k) hJ s.judgeStep.judge.fileNum
    (show s.judgeStep.judge.pc = _ by rw [hstep]) (by omega)
  have hx' : t.group.xorFlag ≠ 0 := by
    rw [hsame.xorFlag, hstep]
    exact hx
  have hv : verdict t.group = verdict s.group := by
    rw [hsame.verdict, hstep]
    rfl
  have hflags : ¬ (t.group.xorFlag = 0 ∧ t.group.correctFlag = 0) := fun h => hx' h.1
  refine ⟨t.judgeStep, ((hJ.reach (by simp [hpc]) rfl).trans ht).trans (hJ.reach (by simp [hloop]) rfl),
    ?_, ?_⟩
  · simp only [Stream.judgeStep, judgeStep, hloop, if_neg hflags, hv]
  · simp only [Stream.judgeStep, judgeStep, hloop, if_neg hflags]
    rw [hsame.out, hstep]

/-- The drain that completes the output. -/
theorem pair_complete (hJ : Drains step C) {r : Stream} {b' c' : InBuf} (hr : Reach step C r
      (pair N (fileOf k ⟨bs, .full, st⟩ b' i) (fileOf k ⟨cs, .full, st'⟩ c' j) w v num (.xor k) out))
    (hbs : bs.length = L) (hcs : cs.length = L) (hend : out.length + L = N) :
    ∃ t, Reach step C r t ∧ t.judge.pc = .done right ∧
      t.out.data = out ++ xorBlocks [bs, cs] L := by
  set s := pair N (fileOf k ⟨bs, .full, st⟩ b' i) (fileOf k ⟨cs, .full, st'⟩ c' j) w v num (.xor k)
    out with hs
  have hsize : ∀ m < 2, ((s.group.file m).buf k).bufSize = L := by
    intro m hm
    obtain rfl | rfl : m = 0 ∨ m = 1 := by omega
    · simpa [hs, pair, InBuf.bufSize] using hbs
    · simpa [hs, pair, InBuf.bufSize] using hcs
  have hxor := bufXor_of_sizes Nat.zero_lt_two (show s.out.Accepts from rfl) hsize
  have hblocks : (List.range 2).map (s.group.inBuf k) = [bs, cs] := by
    simp [hs, pair, TGroupFileInfo.inBuf, List.range_succ]
  rw [hblocks] at hxor
  set g := (s.group.setInBuf0 k (xorBlocks [bs, cs] L)).addXorSize 2 L with hg
  have hstep : s.judgeStep = { s with
      group := g, out := ⟨s.out.data ++ xorBlocks [bs, cs] L, []⟩
      judge := { s.judge with pc := .resetNum k } } := by
    simp only [Stream.judgeStep, judgeStep, hs, pair] at hxor ⊢
    rw [hxor]
  obtain ⟨-, hfs, -, hcf, hxs, hxf⟩ := frame_addXorSize (s.group.setInBuf0 k (xorBlocks [bs, cs] L)) 2 L
  have hend' : (((s.group.setInBuf0 k (xorBlocks [bs, cs] L)).xorSize + L : ℕ) : ℤ) =
      (s.group.setInBuf0 k (xorBlocks [bs, cs] L)).fileSize := by
    show ((out.length + L : ℕ) : ℤ) = N
    rw [hend]
  rw [if_pos hend'] at hxf
  have hv : verdict g = right := by
    have hc : g.correctFlag = 0 := hcf
    have hsz : g.fileSize = g.xorSize := by rw [hfs, hxs, hend']
    simp [verdict, hc, hsz]
  obtain ⟨t, ht, hpc, hout⟩ := reach_done (s := s.judgeStep) (k := k) hJ (by rw [hstep])
    (by rw [hstep, show g.xorFlag = 1 from hxf]; simp)
  refine ⟨t, hr.trans ((hJ.reach (by simp [hs, pair]) rfl).trans ht), ?_, ?_⟩
  · rw [hpc, hstep, hv]
  · rw [hout, hstep]
    rfl

end Pair

/-! ### Files cut at the buffer boundaries -/

/-- The two counters. -/
def counts (a b : ℕ) : Fin 2 → ℕ := fun k => if k = 0 then a else b

section Counts

variable (a b c : ℕ)

@[simp] theorem counts_zero : counts a b 0 = a := rfl

@[simp] theorem counts_one : counts a b 1 = b := rfl

@[simp] theorem update_counts_zero : Function.update (counts a b) 0 c = counts c b := by
  funext k
  obtain rfl | rfl : k = 0 ∨ k = 1 := by omega
  · rfl
  · rfl

@[simp] theorem update_counts_one : Function.update (counts a b) 1 c = counts a c := by
  funext k
  obtain rfl | rfl : k = 0 ∨ k = 1 := by omega
  · rfl
  · rfl

end Counts

/-- The pieces `seg` fill a buffer exactly. -/
structure Fills (seg : List (List Byte)) : Prop where
  length : seg.flatten.length = readBufSize
  piece : ∀ p ∈ seg, 0 < p.length ∧ p.length ≤ maxline

variable {N : ℕ} {k k' : Fin 2} {bs : List Byte} {idx : ℕ}
  {seg seg₀ seg₁ seg₂ : List (List Byte)}

/-- A producer whose buffer `k` is filled up fills the other one. -/
theorem Solo.segment (num : Fin 2 → ℕ) (buf bs' : List Byte) (st st' : ℕ)
    (ps : List (List Byte)) (hseg : Fills seg) (hk : k' ≠ k) (hsize : bs.length = readBufSize)
    (hend : idx + readBufSize < N) :
    ∃ buf', Solo N ⟨fileOf k ⟨bs, .writing, st⟩ ⟨bs', .empty, st'⟩ idx, num, ⟨.idle, buf, false⟩⟩
      (seg ++ ps)
      ⟨fileOf k' ⟨seg.flatten, .writing, idx⟩ ⟨bs, .full, st⟩ (idx + readBufSize),
        Function.update num k (num k + 1), ⟨.idle, buf', false⟩⟩ ps := by
  obtain ⟨hlen, hpiece⟩ := hseg
  cases seg with
  | nil => simp [readBufSize] at hlen
  | cons p seg =>
    obtain ⟨hp, hple⟩ := hpiece p (by simp)
    have hm := maxline_le_readBufSize
    simp only [List.flatten_cons, List.length_append] at hlen
    have hother : (⟨bs, .full, st⟩ : InBuf).flag ≠ .writing := by simp
    have hend₁ : ((idx + p.length : ℕ) : ℤ) < N := by omega
    have hend₂ : ((idx + p.length + seg.flatten.length : ℕ) : ℤ) < N := by omega
    obtain ⟨buf', hstore⟩ := Solo.storeAll (k := k') _ _ ps seg hother hlen.le hend₂
    refine ⟨buf', (Solo.switch hk hsize (List.ne_nil_of_length_pos hp) (by omega) hend₁).trans ?_⟩
    rw [← hlen, ← Nat.add_assoc]
    exact hstore

/-- A producer at its start fills buffer `0` and then buffer `1`. -/
theorem Solo.twoSegments (num : Fin 2 → ℕ) (ps : List (List Byte)) (h₀ : Fills seg₀)
    (h₁ : Fills seg₁) (hN : readBufSize + readBufSize < N) :
    ∃ buf', Solo N ⟨fileOf 0 ⟨[], .writing, 0⟩ ⟨[], .empty, 0⟩ 0, num, ⟨.idle, [], false⟩⟩
      (seg₀ ++ (seg₁ ++ ps))
      ⟨fileOf 1 ⟨seg₁.flatten, .writing, readBufSize⟩ ⟨seg₀.flatten, .full, 0⟩
        (readBufSize + readBufSize), Function.update num 0 (num 0 + 1), ⟨.idle, buf', false⟩⟩
      ps := by
  have hfit : ([] : List Byte).length + seg₀.flatten.length ≤ readBufSize := by
    simp [h₀.length]
  have hempty : (⟨[], .empty, 0⟩ : InBuf).flag ≠ .writing := by simp
  have hend : ((0 + seg₀.flatten.length : ℕ) : ℤ) < N := by
    rw [h₀.length]
    omega
  obtain ⟨u, hu⟩ := Solo.storeAll (k := 0) num [] (seg₁ ++ ps) seg₀ hempty hfit hend
  rw [List.nil_append, Nat.zero_add, h₀.length] at hu
  obtain ⟨v, hv⟩ := Solo.segment num u [] 0 0 ps h₁ (show (1 : Fin 2) ≠ 0 by simp) h₀.length hN
  exact ⟨v, hu.trans hv⟩

theorem readyFile_eq : Stream.readyFile = fileOf 0 ⟨[], .writing, 0⟩ ⟨[], .empty, 0⟩ 0 := by
  simp only [Stream.readyFile, fileOf]
  congr 2
  exact funext (Fin.forall_fin_two.2 ⟨rfl, rfl⟩)

theorem init_eq_pair (N : ℕ) (ps qs : List (List Byte)) :
    Stream.init 2 N (two ps qs []) =
      pair N (fileOf 0 ⟨[], .writing, 0⟩ ⟨[], .empty, 0⟩ 0)
        (fileOf 0 ⟨[], .writing, 0⟩ ⟨[], .empty, 0⟩ 0) ⟨⟨.idle, [], false⟩, ps⟩
        ⟨⟨.idle, [], false⟩, qs⟩ (counts 0 0) (.test 0) [] := by
  have htwo : ∀ {α : Type} (c : α), (fun _ : ℕ => c) = two c c c := by
    intro α c
    funext i
    simp [two]
  have hcounts : (fun _ : Fin 2 => 0) = counts 0 0 := by
    funext k
    simp [counts]
  simp only [Stream.init, pair, ← readyFile_eq]
  congr 1
  · rw [hcounts, htwo Stream.readyFile]
    rfl
  · funext i
    simp only [two]
    split_ifs <;> rfl

/-- Both producers fill both their buffers, and the consumer drains buffer `0`. -/
theorem pair_first (ps qs : List (List Byte)) (h₀ : Fills seg₀) (h₁ : Fills seg₁)
    (hN : readBufSize + readBufSize < N) :
    ∃ u v, Reach Stream.coarseStep Free
      (.init 2 N (two (seg₀ ++ (seg₁ ++ ps)) (seg₀ ++ (seg₁ ++ qs)) []))
      (pair N
        (fileOf 1 ⟨seg₁.flatten, .writing, readBufSize⟩
          ⟨xorBlocks [seg₀.flatten, seg₀.flatten] readBufSize, .empty, 0⟩
          (readBufSize + readBufSize))
        (fileOf 1 ⟨seg₁.flatten, .writing, readBufSize⟩ ⟨seg₀.flatten, .empty, 0⟩
          (readBufSize + readBufSize))
        ⟨⟨.idle, u, false⟩, ps⟩ ⟨⟨.idle, v, false⟩, qs⟩ (counts 0 0) (.test 0)
        (xorBlocks [seg₀.flatten, seg₀.flatten] readBufSize)) := by
  obtain ⟨u, hu⟩ := Solo.twoSegments (counts 0 0) ps h₀ h₁ hN
  obtain ⟨v, hv⟩ := Solo.twoSegments (counts 1 0) qs h₀ h₁ hN
  rw [counts_zero, update_counts_zero] at hu hv
  have hend : ([] : List Byte).length + readBufSize ≠ N := by
    rw [List.length_nil]
    omega
  have h01 : (0 : Fin 2) ≠ 1 := by simp
  rw [init_eq_pair]
  refine ⟨u, v, (pair_solo0 hu).trans ((pair_solo1 hv).trans
    ((pair_test (counts_zero 2 0)).trans ?_))⟩
  rw [fileOf_swap h01, fileOf_swap h01, fileOf_swap h01]
  apply (pair_xor coarse_drains _ _ _ _ _ _ h₀.length h₀.length hend).trans
  rw [update_counts_zero, List.nil_append]
  exact pair_release coarse_drains _ _ _ _ _ _

/-- Both producers store their last piece before the consumer looks at its counters again: the third
segment then goes to buffer `0`, and buffer `0` is what the consumer takes next. -/
theorem pair_overtake (q q' : List Byte) (h₀ : Fills seg₀) (h₁ : Fills seg₁) (hq : q ≠ [])
    (hq' : q' ≠ []) (hlen : q.length ≤ readBufSize) (hlen' : q'.length ≤ readBufSize)
    (hN : readBufSize + readBufSize < N) (hend : N ≤ readBufSize + readBufSize + q.length)
    (hend' : N ≤ readBufSize + readBufSize + q'.length) :
    Reach Stream.coarseStep Free
      (.init 2 N (two (seg₀ ++ (seg₁ ++ [q])) (seg₀ ++ (seg₁ ++ [q'])) []))
      (pair N
        (fileOf 0 ⟨q, .full, readBufSize + readBufSize⟩ ⟨seg₁.flatten, .full, readBufSize⟩
          (readBufSize + readBufSize + q.length))
        (fileOf 0 ⟨q', .full, readBufSize + readBufSize⟩ ⟨seg₁.flatten, .full, readBufSize⟩
          (readBufSize + readBufSize + q'.length))
        ⟨⟨.idle, q, false⟩, []⟩ ⟨⟨.idle, q', false⟩, []⟩ (counts 2 2) (.xor 0)
        (xorBlocks [seg₀.flatten, seg₀.flatten] readBufSize)) := by
  obtain ⟨u, v, h⟩ := pair_first [q] [q'] h₀ h₁ hN
  have h01 : (0 : Fin 2) ≠ 1 := by simp
  refine h.trans ((pair_solo0 (Solo.switchLast h01 h₁.length hq hlen (by exact_mod_cast hend))).trans
    ((pair_solo1 (Solo.switchLast h01 h₁.length hq' hlen' (by exact_mod_cast hend'))).trans ?_))
  simp only [counts_zero, counts_one, update_counts_zero, update_counts_one]
  exact pair_test rfl

/-- The producers reach the end of their third segment on different sides of the reset of the flags
of buffer `1`, and then both wait, buffer `1` of both files being free and buffer `0` counted. -/
theorem pair_split {q q' : List Byte} (ps qs : List (List Byte)) (h₀ : Fills seg₀) (h₁ : Fills seg₁)
    (h₂ : Fills seg₂)
    (hq : q ≠ []) (hq' : q' ≠ []) (hN : readBufSize + readBufSize + readBufSize < N) :
    ∃ bs out, out.length = readBufSize + readBufSize ∧ Reach Stream.coarseStep Free
      (.init 2 N (two (seg₀ ++ (seg₁ ++ (seg₂ ++ (q :: ps))))
        (seg₀ ++ (seg₁ ++ (seg₂ ++ (q' :: qs)))) []))
      (pair N
        (fileOf 1 ⟨bs, .empty, readBufSize⟩ ⟨seg₂.flatten, .full, readBufSize + readBufSize⟩
          (readBufSize + readBufSize + readBufSize))
        (fileOf 1 ⟨seg₁.flatten, .empty, readBufSize⟩
          ⟨seg₂.flatten, .full, readBufSize + readBufSize⟩
          (readBufSize + readBufSize + readBufSize))
        ⟨⟨.head, q, true⟩, ps⟩ ⟨⟨.head, q', true⟩, qs⟩ (counts 2 0) (.test 0) out) := by
  have h01 : (0 : Fin 2) ≠ 1 := by simp
  have h10 : (1 : Fin 2) ≠ 0 := by simp
  obtain ⟨u, v, h⟩ := pair_first (N := N) (seg₂ ++ (q :: ps)) (seg₂ ++ (q' :: qs)) h₀ h₁ (by omega)
  set x₀ := xorBlocks [seg₀.flatten, seg₀.flatten] readBufSize with hx₀
  set x₁ := xorBlocks [seg₁.flatten, seg₁.flatten] readBufSize with hx₁
  refine ⟨x₁, x₀ ++ x₁, by simp [hx₀, hx₁], h.trans ?_⟩
  have hlen₀ : x₀.length = readBufSize := by simp [hx₀]
  -- both go on in buffer `0`, and only the first has filled it when the consumer looks
  obtain ⟨u', hu⟩ := Solo.segment (counts 0 0) u x₀ readBufSize 0 (q :: ps) h₂ h01 h₁.length hN
  obtain ⟨v', hv⟩ := Solo.segment (counts 0 1) v seg₀.flatten readBufSize 0 (q' :: qs) h₂ h01
    h₁.length hN
  apply (pair_solo0 hu).trans
  rw [counts_one, update_counts_one]
  refine (pair_solo1 hv).trans ((pair_solo0 (Solo.block h₂.length hq)).trans ?_)
  simp only [counts_zero, counts_one, update_counts_zero, update_counts_one]
  refine (pair_test_fails (by simp)).trans ((pair_test rfl).trans ?_)
  rw [fileOf_swap h10, fileOf_swap h10]
  apply (pair_xor coarse_drains _ _ _ _ _ _ h₁.length h₁.length (by rw [hlen₀]; omega)).trans
  -- the second fills it before the flags are reset
  rw [fileOf_swap h01, fileOf_swap h01, update_counts_one]
  apply (pair_solo1 (Solo.block h₂.length hq')).trans
  rw [fileOf_swap h10, fileOf_swap h10, counts_zero, update_counts_zero]
  exact pair_release coarse_drains _ _ _ _ _ _

/-- The first producer looks for a free buffer before the consumer drains buffer `0`, and the second
one after it: their last pieces end up in different buffers. -/
theorem pair_apart {q q' : List Byte} (h₀ : Fills seg₀) (h₁ : Fills seg₁) (h₂ : Fills seg₂)
    (hq : q ≠ []) (hq' : q' ≠ []) (hlen : q.length ≤ readBufSize) (hlen' : q'.length ≤ readBufSize)
    (hN : readBufSize + readBufSize + readBufSize < N)
    (hend : N ≤ readBufSize + readBufSize + readBufSize + q.length)
    (hend' : N ≤ readBufSize + readBufSize + readBufSize + q'.length) :
    ∃ x y out, Reach Stream.coarseStep Free
      (.init 2 N (two (seg₀ ++ (seg₁ ++ (seg₂ ++ [q]))) (seg₀ ++ (seg₁ ++ (seg₂ ++ [q']))) []))
      (pair N x y ⟨⟨.idle, q, false⟩, []⟩ ⟨⟨.idle, q', false⟩, []⟩ (counts 1 1) (.test 0) out) := by
  have h01 : (0 : Fin 2) ≠ 1 := by simp
  have h10 : (1 : Fin 2) ≠ 0 := by simp
  obtain ⟨bs, out, hout, h⟩ := pair_split [] [] h₀ h₁ h₂ hq hq' hN
  have hfirst := h.trans (pair_solo0 (Solo.wakeLast (by simp) (Or.inr rfl) hlen
    (by exact_mod_cast hend)))
  rw [counts_one, update_counts_one] at hfirst
  have htest := hfirst.trans (pair_test rfl)
  rw [fileOf_swap h01, fileOf_swap h01] at htest
  have hxor := htest.trans (pair_xor coarse_drains _ _ _ _ _ _ h₂.length h₂.length (by rw [hout]; omega))
  rw [update_counts_zero] at hxor
  have hlast := (hxor.trans (pair_release coarse_drains _ _ _ _ _ _)).trans (pair_solo1 (Solo.wakeLast (by simp)
    (Or.inl rfl) hlen' (by exact_mod_cast hend')))
  rw [counts_zero, update_counts_zero] at hlast
  exact ⟨_, _, _, hlast⟩

/-- A producer that waits fills a free buffer. -/
theorem Solo.wakeSegment (num : Fin 2 → ℕ) (bs : List Byte) (st : ℕ) (b' : InBuf) {q : List Byte}
    (ps : List (List Byte)) (hseg : Fills (q :: seg)) (hb' : b'.flag ≠ .writing)
    (hk : k = 0 ∨ b'.flag = .full) (hend : idx + readBufSize < N) :
    ∃ buf', Solo N ⟨fileOf k ⟨bs, .empty, st⟩ b' idx, num, ⟨.head, q, true⟩⟩ (seg ++ ps)
      ⟨fileOf k ⟨(q :: seg).flatten, .writing, idx⟩ b' (idx + readBufSize), num,
        ⟨.idle, buf', false⟩⟩ ps := by
  obtain ⟨hlen, hpiece⟩ := hseg
  have hlen' := hlen
  simp only [List.flatten_cons, List.length_append] at hlen
  have hend₁ : ((idx + q.length : ℕ) : ℤ) < N := by omega
  have hend₂ : ((idx + q.length + seg.flatten.length : ℕ) : ℤ) < N := by omega
  obtain ⟨buf', hstore⟩ := Solo.storeAll (k := k) num q ps seg hb' hlen.le hend₂
  refine ⟨buf', (Solo.wake hb' hk (by omega) hend₁).trans ?_⟩
  rw [← hlen, ← Nat.add_assoc]
  exact hstore

/-- With one more segment to come, the buffers `0` of the two files are then counted together while
they hold different segments. -/
theorem pair_misaligned {q z : List Byte} (h₀ : Fills seg₀) (h₁ : Fills seg₁) (h₂ : Fills seg₂)
    (h₃ : Fills (q :: seg)) (hz : z ≠ []) (hlen : z.length ≤ readBufSize)
    (hN : readBufSize + readBufSize + readBufSize + readBufSize < N)
    (hend : N ≤ readBufSize + readBufSize + readBufSize + readBufSize + z.length) :
    ∃ i j w v out, Reach Stream.coarseStep Free
      (.init 2 N (two (seg₀ ++ (seg₁ ++ (seg₂ ++ (q :: (seg ++ [z])))))
        (seg₀ ++ (seg₁ ++ (seg₂ ++ (q :: (seg ++ [z]))))) []))
      (pair N
        (fileOf 0 ⟨z, .full, readBufSize + readBufSize + readBufSize + readBufSize⟩
          ⟨(q :: seg).flatten, .full, readBufSize + readBufSize + readBufSize⟩ i)
        (fileOf 1 ⟨z, .full, readBufSize + readBufSize + readBufSize + readBufSize⟩
          ⟨(q :: seg).flatten, .full, readBufSize + readBufSize + readBufSize⟩ j)
        w v (counts 2 2) (.test 0) out) := by
  have h01 : (0 : Fin 2) ≠ 1 := by simp
  have h10 : (1 : Fin 2) ≠ 0 := by simp
  have hq : q ≠ [] := List.ne_nil_of_length_pos (h₃.piece q (by simp)).1
  obtain ⟨bs, out, hout, h⟩ := pair_split (N := N) (seg ++ [z]) (seg ++ [z]) h₀ h₁
    h₂ hq hq (by omega)
  -- the first goes on in buffer `1`
  obtain ⟨u, hu⟩ := Solo.wakeSegment (k := 1) (counts 2 0) bs readBufSize
    ⟨seg₂.flatten, .full, readBufSize + readBufSize⟩ [z] h₃ (by simp) (Or.inr rfl) hN
  have htest := (h.trans (pair_solo0 hu)).trans (pair_test rfl)
  rw [fileOf_swap h01, fileOf_swap h01] at htest
  have hxor := htest.trans (pair_xor coarse_drains _ _ _ _ _ _ h₂.length h₂.length (by rw [hout]; omega))
  rw [update_counts_zero] at hxor
  have hrel := hxor.trans (pair_release coarse_drains _ _ _ _ _ _)
  rw [fileOf_swap h10] at hrel
  have hfirst := hrel.trans (pair_solo0 (Solo.switchLast h01 h₃.length hz hlen
    (by exact_mod_cast hend)))
  simp only [counts_zero, counts_one, update_counts_zero, update_counts_one] at hfirst
  -- the second, which looks only now, in buffer `0`
  obtain ⟨v, hv⟩ := Solo.wakeSegment (k := 0) (counts 1 1) seg₂.flatten
    (readBufSize + readBufSize) ⟨seg₁.flatten, .empty, readBufSize⟩ [z] h₃ (by simp)
    (Or.inl rfl) hN
  have hlast := (hfirst.trans (pair_solo1 hv)).trans (pair_solo1 (Solo.switchLast h10 h₃.length hz
    hlen (by exact_mod_cast hend)))
  simp only [counts_zero, counts_one, update_counts_zero, update_counts_one] at hlast
  exact ⟨_, _, _, _, _, hlast⟩

/-- A segment of zeros, in pieces of 1 MiB. -/
def zeroSegment : List (List Byte) := List.replicate 100 (List.replicate 1048576 0)

theorem fills_zeroSegment : Fills zeroSegment := by
  constructor
  · rw [zeroSegment, List.flatten_replicate_replicate, List.length_replicate]
    rfl
  · intro p hp
    rw [List.eq_of_mem_replicate hp, List.length_replicate]
    decide

theorem split_two {ps qs : List (List Byte)} (hps : ps.flatten.length = N)
    (hqs : qs.flatten.length = N)
    (hpiece : ∀ p, p ∈ ps ∨ p ∈ qs → 0 < p.length ∧ p.length ≤ maxline) :
    Stream.Split 2 N (two ps.flatten qs.flatten []) (two ps qs []) := by
  constructor
  all_goals
    intro i hi
    obtain rfl | rfl : i = 0 ∨ i = 1 := by omega
  · rfl
  · rfl
  · exact hps
  · exact hqs
  · exact fun p hp => hpiece p (Or.inl hp)
  · exact fun p hp => hpiece p (Or.inr hp)

end ORaidServer
