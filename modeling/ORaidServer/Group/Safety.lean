import ORaidServer.Group.Spill
import Mathlib.Data.List.GetD

/-!
# What the group outputs

* `aligned_of_follows`: where every producer follows the others, a counter that reaches the number
  of files finds the same range of every file in the buffers it counts;
* `ordered_of_turns`: if the consumer also keeps its turns, every segment is output at its place;
* `sound_of_turns`: what a successful run has output is the exclusive or of the files.
-/

namespace ORaidServer

open Guarded ByteMem

namespace Stream

/-- If `buf_full_num[k]` is `file_num`, the buffers `k` of all files hold one range `[o, o + L)` of
their files; between `buf_xor` and the reset of the counter the buffer of file `0` holds the result
for that range. -/
def Aligned (n N : ℕ) (f : ℕ → List Byte) (s : Stream) : Prop :=
  ∀ k, s.group.bufFullNum k = n → ∃ o L, o + L ≤ N ∧ ∀ i < n,
    ((s.group.file i).buf k).start = o ∧ ((s.group.file i).buf k).bufSize = L ∧
      s.group.inBuf k i =
        if s.judge.pc = .resetNum k ∧ i = 0 then
          ((xorBlocks ((List.range n).map f) N).drop o).take L
        else ((f i).drop o).take L

/-- Whenever `buf_xor` is called for buffer `k`, the buffer `k` of file `0` holds what comes next in
its file after the bytes output so far. -/
def Ordered (f : ℕ → List Byte) (s : Stream) : Prop :=
  ∀ k, s.judge.pc = .xor k → ((s.group.file 0).buf k).start = s.group.xorSize ∧
    s.group.inBuf k 0 <+: (f 0).drop s.group.xorSize

/-- If the consumer has returned `RIGHT`, it has output the exclusive or of the files. -/
def Sound (n N : ℕ) (f : ℕ → List Byte) (s : Stream) : Prop :=
  s.judge.pc = .done right → s.out.data = xorBlocks ((List.range n).map f) N

end Stream

variable {n N : ℕ} {f : ℕ → List Byte} {pieces : ℕ → List (List Byte)} {s : Stream}

/-- The buffers a drain covers, or that a full counter counts, hold one segment. -/
theorem filled_of_num {a : Slots.State (Fin n) (Fin 2)} (h : StreamInv n N f s)
    (hR : Refines n N f s a) (ha : Slots.Inv a) (hn : 0 < n) {k : Fin 2}
    (hk : s.group.bufFullNum k = n) :
    ∃ m, (∀ i < n, (s.group.file i).Full k ∧
      ((s.group.file i).buf k).start = m * readBufSize) ∧
      (s.judge.pc = .resetNum k → a.log.getLast? = some m) := by
  have hfilled : ∃ m, (∀ i : Fin n, a.slot i k = .filled m) ∧
      (s.judge.pc = .resetNum k → a.log.getLast? = some m) := by
    by_cases hd : a.drain = some (k, Set.univ)
    · obtain ⟨m, hlast, -⟩ := ha.stale (i := ⟨0, hn⟩) ⟨_, hd, trivial⟩
      refine ⟨m, fun i => ?_, fun _ => hlast⟩
      obtain ⟨m', hlast', hm'⟩ := ha.stale (i := i) ⟨_, hd, trivial⟩
      rwa [show m = m' from Option.some.inj (hlast.symm.trans hlast')]
    · have hstale : ∀ i : Fin n, ¬ a.Stale i k := by
        rintro i ⟨S, hS, hi⟩
        rw [hR.drain_eq] at hS hd
        cases hpc : s.judge.pc with
        | resetFlag k' j =>
          simp only [hpc, Stream.drainOf, Option.some.injEq, Prod.mk.injEq] at hS
          obtain ⟨rfl, rfl⟩ := hS
          exact (h.counted_of_num hk i.2).2 ⟨j, hpc, hi⟩
        | xor k' | resetNum k' =>
          simp only [hpc, Stream.drainOf, Option.some.injEq, Prod.mk.injEq] at hS hd
          exact hd ⟨hS.1, trivial⟩
        | _ => simp [hpc, Stream.drainOf] at hS
      have hfull : ∀ i : Fin n, a.slot i k =
          .filled (((s.group.file i).buf k).start / readBufSize) := by
        intro i
        rw [hR.slot_eq]
        exact slot_eq_filled.2 ⟨(h.counted_of_num hk i.2).1.1, rfl⟩
      refine ⟨((s.group.file 0).buf k).start / readBufSize, fun i => ?_, fun hpc => ?_⟩
      · rw [hfull i]
        exact congrArg _ (ha.aligned (hfull i) (hfull ⟨0, hn⟩) (hstale i) (hstale _))
      · rw [hR.drain_eq, hpc] at hd
        exact absurd rfl hd
  obtain ⟨m, hm, hlast⟩ := hfilled
  refine ⟨m, fun i hi => ?_, hlast⟩
  have hslot := hm ⟨i, hi⟩
  rw [hR.slot_eq] at hslot
  obtain ⟨hfull, hdiv⟩ := slot_eq_filled.1 hslot
  obtain ⟨q, hq⟩ := ((h.file i hi).start k (by rw [show _ = BufFlag.full from hfull]; simp)).1
  rw [hq, Nat.mul_div_cancel_left _ readBufSize_pos] at hdiv
  exact ⟨hfull, by rw [hq, hdiv, Nat.mul_comm]⟩

/-- **Alignment.** -/
theorem aligned_of_follows (hn : 0 < n) (hN : 0 < N) (hsplit : Stream.Split n N f pieces)
    (h : Reach Stream.step Stream.Follows (.init n N pieces) s) : s.Aligned n N f := by
  intro k hk
  have hI := streamInv_of_reach hn hN hsplit h
  obtain ⟨a, ha, hR⟩ := refines_of_reach (G := fun _ _ => True) hn hN hsplit
    (fun _ _ hc => hc) (fun _ _ _ _ _ _ _ _ => trivial) h
  obtain ⟨m, hm, hlast⟩ := filled_of_num hI hR (Slots.inv_of_reachable ha) hn hk
  have hlt : m * readBufSize < N := by
    obtain ⟨hfull, hst⟩ := hm 0 hn
    rw [← hst, ← hI.length 0 hn]
    exact ((hI.file 0 hn).start k (by rw [show _ = BufFlag.full from hfull]; simp)).2
  refine ⟨m * readBufSize, min readBufSize (N - m * readBufSize), by omega, fun i hi => ?_⟩
  obtain ⟨hfull, hst⟩ := hm i hi
  have hsize := (hI.file i hi).full k hfull
  rw [hI.length i hi, hst] at hsize
  refine ⟨hst, hsize, ?_⟩
  split_ifs with hres
  · obtain ⟨hpc, rfl⟩ := hres
    rw [hR.result k hpc m (hlast hpc), segment, List.take_eq_take_min]
    simp
  · have hover : ¬ s.Overwritten i k := by
      rintro ⟨rfl, hpc | hd⟩
      · exact hres ⟨hpc, rfl⟩
      · exact (hI.counted_of_num hk hi).2 hd
    rw [TGroupFileInfo.inBuf, (hI.file i hi).bytes_of_full hfull hover, hst,
      List.take_eq_take_min, List.length_drop, hI.length i hi]

theorem aligned_of_follows_spill :
    (∀ k, (spilled 1 2).group.bufFullNum k = 2) ∧ (spilled 1 2).Aligned 2 (readBufSize + 1)
      (two (spillPieces 1).flatten (spillPieces 2).flatten []) :=
  ⟨Fin.forall_fin_two.2 ⟨rfl, rfl⟩, aligned_of_follows Nat.two_pos (Nat.succ_pos _) (split_spill 1 2)
    ((reach_spilled 1 2).mono fun _ _ h => h.1)⟩

/-- Of two files of four segments and a byte, the producers can end up with different segments in
their buffers `0` when both are counted. -/
theorem not_aligned : ¬ ∀ n N f pieces, 2 ≤ n → 1 ≤ N → Stream.Split n N f pieces →
    ∀ s, Reach Stream.coarseStep Free (.init n N pieces) s → s.Aligned n N f := by
  intro hall
  have hz := fills_zeroSegment
  set ps := zeroSegment ++ (zeroSegment ++ (zeroSegment ++ (zeroSegment ++ [[0]]))) with hps
  have hlen : ps.flatten.length = readBufSize + readBufSize + readBufSize + readBufSize + 1 := by
    simp only [hps, List.flatten_append, List.length_append, hz.length]
    simp
    omega
  have hpiece : ∀ p ∈ ps, 0 < p.length ∧ p.length ≤ maxline := by
    intro p hp
    simp only [hps, List.mem_append, List.mem_singleton] at hp
    rcases hp with hp | hp | hp | hp | rfl
    iterate 4 exact hz.piece p hp
    decide
  have hcons : Fills (List.replicate 1048576 0 :: List.replicate 99 (List.replicate 1048576 0)) := hz
  obtain ⟨i, j, w, v, out, h⟩ := pair_misaligned (z := [0]) hz hz hz hcons (by simp) (by decide)
    (Nat.lt_succ_self _) (Nat.le_refl _)
  obtain ⟨o, L, -, hsame⟩ := hall 2 _ _ _ (by omega) (by omega)
    (split_two hlen hlen fun p hp => hpiece p (by simpa using hp)) _ h 0 rfl
  -- one byte here, a whole segment there
  have h₀ := (hsame 0 (by omega)).2.1
  have h₁ := (hsame 1 (by omega)).2.1
  have h01 : (0 : Fin 2) ≠ 1 := by simp
  simp only [pair, two_zero, two_one, buf_fileOf_self, buf_fileOf_other h01, InBuf.bufSize] at h₀ h₁
  rw [hcons.length, ← h₀] at h₁
  exact absurd h₁ (by decide)

/-- In a run that also keeps its turns the segments are drained in order. -/
theorem refines_range (hn : 0 < n) (hN : 0 < N) (hsplit : Stream.Split n N f pieces)
    (h : Reach Stream.step (fun s a => s.Follows a ∧ s.InTurn a) (.init n N pieces) s) :
    ∃ a, Slots.Inv a ∧ Refines n N f s a ∧ a.log = List.range a.log.length := by
  have hG : ∀ (t : Stream) (a : Slots.State (Fin n) (Fin 2)), StreamInv n N f t →
      Refines n N f t a → t.Follows .judge ∧ t.InTurn .judge → ∀ k, t.judge.pc = .test k →
      t.group.bufFullNum k = n → a.InTurn k := by
    rintro t a hI hR ⟨-, hturn⟩ k hpc hnum ⟨k', hne, hearlier⟩
    refine hturn k hpc (hnum.trans hI.judgeNum.symm) ⟨k', hne, fun i hi => ?_⟩
    obtain ⟨m, m', hm, hm', hlt⟩ := hearlier ⟨i, hI.fileNum ▸ hi⟩
    rw [hR.slot_eq] at hm hm'
    obtain ⟨-, rfl⟩ := slot_eq_filled.1 hm
    obtain ⟨hfull, rfl⟩ := slot_eq_filled.1 hm'
    exact ⟨hfull, lt_of_not_ge fun hle => hlt.not_ge (Nat.div_le_div_right hle)⟩
  obtain ⟨a, ha, hR⟩ := refines_of_reach hn hN hsplit (fun _ _ hc => hc.1) hG h
  exact ⟨a, Slots.inv_of_reachable ha, hR, Slots.log_eq_range (fun _ _ hG => hG) ha⟩

/-- **Order.** -/
theorem ordered_of_turns (hn : 0 < n) (hN : 0 < N) (hsplit : Stream.Split n N f pieces)
    (h : Reach Stream.step (fun s a => s.Follows a ∧ s.InTurn a) (.init n N pieces) s) :
    s.Ordered f := by
  intro k hpc
  have hI := streamInv_of_reach hn hN hsplit h
  obtain ⟨a, ha, hR, hlog⟩ := refines_range hn hN hsplit h
  -- the segment drained last is the next one to be output
  have hd : a.drain = some (k, Set.univ) := by rw [hR.drain_eq, hpc]; rfl
  obtain ⟨m, hlast, hm⟩ := ha.stale (i := ⟨0, hn⟩) ⟨_, hd, trivial⟩
  obtain ⟨log', hlog'⟩ := List.getLast?_eq_some_iff.1 hlast
  have hrange : log' = List.range log'.length ∧ m = log'.length := by
    have hsucc : log' ++ [m] = List.range log'.length ++ [log'.length] := by
      rw [← List.range_succ, ← hlog', hlog, hlog']
      simp
    exact ⟨(List.append_inj hsucc (by simp)).1, by simpa using (List.append_inj hsucc (by simp)).2⟩
  rw [hR.slot_eq] at hm
  obtain ⟨hfull, hdiv⟩ := slot_eq_filled.1 hm
  have hne : ((s.group.file 0).buf k).flag ≠ .empty := by
    rw [show _ = BufFlag.full from hfull]
    simp
  obtain ⟨⟨q, hq⟩, hlt⟩ := (hI.file 0 hn).start k hne
  have hst : ((s.group.file 0).buf k).start = m * readBufSize := by
    rw [hq, Nat.mul_div_cancel_left _ readBufSize_pos] at hdiv
    rw [hq, hdiv, Nat.mul_comm]
  have hdata := hR.data
  simp only [Stream.output, hpc, hlog', List.dropLast_concat] at hdata
  rw [hrange.1, flatten_segments, ← hrange.2] at hdata
  have hx : s.group.xorSize = m * readBufSize := by
    rw [hst, hI.length 0 hn] at hlt
    rw [hR.xorSize, hdata]
    simp
    omega
  refine ⟨hst.trans hx.symm, ?_⟩
  have hcontent := (hI.file 0 hn).content k hne (by rintro ⟨-, hpc' | ⟨j, hpc', -⟩⟩ <;> simp_all)
  rw [hx, ← hst]
  exact hcontent

theorem ordered_of_turns_spill :
    (secondDrain 1 2).judge.pc = .xor 1 ∧
      (secondDrain 1 2).Ordered (two (spillPieces 1).flatten (spillPieces 2).flatten []) :=
  ⟨rfl, ordered_of_turns Nat.two_pos (Nat.succ_pos _) (split_spill 1 2)
    ((reach_secondDrain 1 2).mono fun _ _ h => ⟨h.1, h.2.1⟩)⟩

/-- Of two files of two segments and a byte, the last byte can be taken before the second
segment. -/
theorem not_ordered : ¬ ∀ n N f pieces, 2 ≤ n → 1 ≤ N → Stream.Split n N f pieces →
    ∀ s, Reach Stream.coarseStep Free (.init n N pieces) s → s.Ordered f := by
  intro hall
  have hz := fills_zeroSegment
  set ps := zeroSegment ++ (zeroSegment ++ [[(0 : Byte)]]) with hps
  have hlen : ps.flatten.length = readBufSize + readBufSize + 1 := by
    simp only [hps, List.flatten_append, List.length_append, hz.length]
    simp
    omega
  have hpiece : ∀ p ∈ ps, 0 < p.length ∧ p.length ≤ maxline := by
    intro p hp
    simp only [hps, List.mem_append, List.mem_singleton] at hp
    rcases hp with hp | hp | rfl
    iterate 2 exact hz.piece p hp
    decide
  have h := pair_overtake [0] [0] hz hz (by simp) (by simp) (by decide) (by decide)
    (Nat.lt_succ_self _) (Nat.le_refl _) (Nat.le_refl _)
  obtain ⟨hstart, -⟩ := hall 2 _ _ _ (by omega) (by omega)
    (split_two hlen hlen fun p hp => hpiece p (by simpa using hp)) _ h 0 rfl
  -- the buffer begins at the third segment, and one segment was output
  simp only [pair, two_zero, buf_fileOf_self, length_xorBlocks] at hstart
  have := readBufSize_pos
  omega

/-- **Soundness.** -/
theorem sound_of_turns (hn : 0 < n) (hN : 0 < N) (hsplit : Stream.Split n N f pieces)
    (h : Reach Stream.step (fun s a => s.Follows a ∧ s.InTurn a) (.init n N pieces) s) :
    s.Sound n N f := by
  intro hpc
  have hI := streamInv_of_reach hn hN hsplit h
  obtain ⟨a, -, hR, hlog⟩ := refines_range hn hN hsplit h
  obtain ⟨hver, -⟩ := hR.verdict _ hpc
  have hx : s.group.xorSize = N := by
    have hc := hR.correct
    unfold verdict at hver
    split_ifs at hver with h1 h2
    · exact absurd hver (by decide)
    · exact absurd hver (by decide)
    · rw [hI.fileSize] at h2
      omega
  have hdata := hR.data
  simp only [Stream.output, hpc] at hdata
  rw [hlog, flatten_segments] at hdata
  -- the output has the length of the files, so nothing was cut off
  have hlen := congrArg List.length hdata
  rw [← hR.xorSize, hx] at hlen
  rw [hdata, List.take_of_length_le]
  simp at hlen ⊢
  omega

theorem sound_of_turns_spill : ∃ s : Stream, s.judge.pc = .done right ∧
    s.Sound 2 (readBufSize + 1) (two (spillPieces 1).flatten (spillPieces 2).flatten []) := by
  obtain ⟨s, hs, hpc⟩ := exists_returned 1 2
  exact ⟨s, hpc, sound_of_turns Nat.two_pos (Nat.succ_pos _) (split_spill 1 2)
    (hs.mono fun _ _ h => ⟨h.1, h.2.1⟩)⟩

/-- In the run of `not_ordered` the consumer returns `RIGHT` with the last two segments exchanged. -/
theorem not_sound : ¬ ∀ n N f pieces, 2 ≤ n → n ≤ 50 → 1 ≤ N → Stream.Split n N f pieces →
    ∀ s, Reach Stream.coarseStep Free (.init n N pieces) s → s.Sound n N f := by
  intro hall
  have hz := fills_zeroSegment
  have hlen : ∀ b : Byte, (zeroSegment ++ (zeroSegment ++ [[b]])).flatten.length =
      readBufSize + readBufSize + 1 := by
    intro b
    simp only [List.flatten_append, List.length_append, hz.length]
    simp
    omega
  have hpiece : ∀ (b : Byte), ∀ p ∈ zeroSegment ++ (zeroSegment ++ [[b]]),
      0 < p.length ∧ p.length ≤ maxline := by
    intro b p hp
    simp only [List.mem_append, List.mem_singleton] at hp
    rcases hp with hp | hp | rfl
    iterate 2 exact hz.piece p hp
    exact ⟨Nat.one_pos, show 1 ≤ maxline by decide⟩
  have h := pair_overtake [1] [0] hz hz (by simp) (by simp) (by decide) (by decide)
    (Nat.lt_succ_self _) (Nat.le_refl _) (Nat.le_refl _)
  have h01 : (0 : Fin 2) ≠ 1 := by simp
  have h10 : (1 : Fin 2) ≠ 0 := by simp
  have hpos := readBufSize_pos
  set x₀ := xorBlocks [zeroSegment.flatten, zeroSegment.flatten] readBufSize with hx₀
  have hlen₀ : x₀.length = readBufSize := by simp [hx₀]
  -- the last byte is output, and then the second segment
  have hlast := h.trans (pair_xor coarse_drains _ _ _ _ _ _ (show [1].length = 1 from rfl) rfl
    (by rw [hlen₀]; omega))
  rw [update_counts_zero] at hlast
  have htest := ((hlast.trans (pair_release coarse_drains _ _ _ _ _ _)).trans (pair_test_fails (by simp))).trans
    (pair_test (counts_one 0 2))
  rw [fileOf_swap h10, fileOf_swap h10] at htest
  obtain ⟨t, ht, hpc, hout⟩ := pair_complete coarse_drains htest hz.length hz.length
    (by rw [List.length_append, hlen₀, length_xorBlocks]; omega)
  have hsound := hall 2 _ _ _ (by omega) (by omega) (by omega)
    (split_two (hlen 1) (hlen 0) fun p hp => hp.elim (hpiece 1 p) (hpiece 0 p)) t ht hpc
  rw [hout] at hsound
  -- after the first segment the output has a `1`, where the files agree
  have hone : (x₀ ++ xorBlocks [[1], [0]] 1 ++
      xorBlocks [zeroSegment.flatten, zeroSegment.flatten] readBufSize).getD readBufSize 0 = 1 := by
    rw [List.append_assoc, List.getD_append_right _ _ _ _ hlen₀.le, hlen₀, Nat.sub_self]
    rfl
  have hagree : ∀ b : Byte, (zeroSegment ++ (zeroSegment ++ [[b]])).flatten.getD readBufSize 0 =
      zeroSegment.flatten.getD 0 0 := by
    intro b
    rw [List.flatten_append, List.flatten_append, List.getD_append_right _ _ _ _ hz.length.le,
      hz.length, Nat.sub_self, List.getD_append _ _ _ _ (by rw [hz.length]; exact hpos)]
  rw [hsound, getD_xorBlocks _ (by omega)] at hone
  simp only [List.range_succ, List.range_zero, List.nil_append, List.cons_append, List.map_cons,
    List.map_nil, two_zero, two_one, columnXor_cons, hagree] at hone
  simp [columnXor] at hone

end ORaidServer
