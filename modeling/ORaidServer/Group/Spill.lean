import ORaidServer.Group.Refine
import ORaidServer.Group.Pair

/-!
# Runs that keep the conditions and use both buffers

* `Opening`: the consumer has drained nothing yet, and only producer `i` is inside of an increment.  A producer
  that takes all the steps from there keeps the three conditions on the scheduler (`Opening.solo`);
* `reach_spilled`: two files of a segment and a byte each fill both their buffers in this way;
* `reach_secondDrain` and `exists_returned`: the consumer then drains one buffer after the other and returns.
-/

namespace ORaidServer

open Guarded ByteMem

namespace Stream

/-- The three conditions on the scheduler together. -/
def Keeps (s : Stream) (a : Actor) : Prop := s.Follows a ∧ s.InTurn a ∧ s.Atomic a

/-- The buffers `0` hold the first segments, and no producer other than `i` is inside of an increment. -/
structure Opening (n N : ℕ) (f : ℕ → List Byte) (i : ℕ) (s : Stream) : Prop where
  inv : StreamInv n N f s
  first : ∀ j < n, ((s.group.file j).slot 0).Holds 0
  begun : ∀ j < n, 0 < (s.group.file j).begun
  alone : ∀ j < n, j ≠ i → ∀ k more v, (s.writer j).loc.pc ≠ .store k more v

namespace Opening

variable {n N i : ℕ} {f : ℕ → List Byte} {s : Stream}

theorem start_zero (h : Opening n N f i s) {j : ℕ} (hj : j < n) : ((s.group.file j).buf 0).start = 0 := by
  obtain ⟨hne, hdiv⟩ := slot_holds.1 (h.first j hj)
  have hlt := (Nat.div_eq_zero_iff.1 hdiv).resolve_left readBufSize_pos.ne'
  exact Nat.eq_zero_of_dvd_of_lt ((h.inv.file j hj).start 0 hne).1 hlt

/-- A producer between two buffers has stored something. -/
theorem stored_pos (h : Opening n N f i s) {j : ℕ} (hj : j < n)
    (hno : ∀ k, ¬ (s.group.file j).Writing k) : 0 < (s.group.file j).stored := by
  have hbegun := h.begun j hj
  rw [begun_of_not_writing hno] at hbegun
  by_contra hzero
  have hpos := readBufSize_pos
  rw [Nat.eq_zero_of_not_pos hzero, Nat.div_eq_of_lt (by omega)] at hbegun
  exact absurd hbegun (lt_irrefl 0)

/-- **A producer's step keeps the conditions.** -/
theorem keeps (h : Opening n N f i s) (hi : i < n) : s.Keeps (.writer i) := by
  refine ⟨?_, trivial, ?_⟩
  · rintro k ⟨-, hempty, hno⟩ j hj k' hk' - hsame
    -- buffer `0` of the file is in use, so this is buffer `1`
    have hk : k = 1 := by
      by_contra h1
      obtain rfl : k = 0 := by omega
      exact (slot_holds.1 (h.first i hi)).1 hempty
    obtain rfl : k' = 0 := by omega
    have hpos := h.stored_pos hi hno
    rw [← hsame, h.start_zero (h.inv.fileNum ▸ hj)] at hpos
    exact absurd hpos (lt_irrefl 0)
  · intro k more hload j hj more' v hstore
    by_cases hji : j = i
    · rw [hji, hload] at hstore
      cases hstore
    · exact h.alone j (h.inv.fileNum ▸ hj) hji k more' v hstore

theorem step (h : Opening n N f i s) (hi : i < n) : Opening n N f i (s.step (.writer i)) := by
  have hinv := h.inv.step (Nat.zero_lt_of_lt hi) (.writer i)
  have hin : i < s.group.fileNum := h.inv.fileNum ▸ hi
  have hstep : s.step (.writer i) = s.writerStep i := if_pos hin
  rw [hstep] at hinv ⊢
  rcases s.writerStep_eq i with ⟨hs, -⟩ | ⟨c, ps, hm, hs⟩
  · rw [hs]
    exact h
  rw [hs] at hinv ⊢
  rw [h.inv.fileSize, ← h.inv.length i hi] at hm
  have hfirst := h.first i hi
  have hbegun := h.begun i hi
  -- what the step does to the slots of file `i`
  have hfile : (c.info.slot 0).Holds 0 ∧ 0 < c.info.begun := by
    rcases hm.gather (h.inv.file i hi) with ⟨hslot, hb⟩ | ⟨k, m, hfill, hslot, hb⟩ |
      ⟨k, hempty, -, -, -, hslot, hb⟩
    · rw [hslot, hb]
      exact ⟨hfirst, hbegun⟩
    · refine ⟨?_, hb ▸ hbegun⟩
      have hfill' : (s.group.file i).slot k = .filling m := hfill
      rw [hslot]
      by_cases hk : 0 = k
      · subst hk
        rw [hfill', Slots.Slot.holds_filling] at hfirst
        rw [Function.update_self, Slots.Slot.holds_filled]
        exact hfirst
      · rw [Function.update_of_ne hk]
        exact hfirst
    · refine ⟨?_, by rw [hb]; exact Nat.succ_pos _⟩
      rw [hslot]
      by_cases hk : 0 = k
      · subst hk
        exact absurd hempty (slot_holds.1 hfirst).1
      · rw [Function.update_of_ne hk]
        exact hfirst
  refine ⟨hinv, fun j hj => ?_, fun j hj => ?_, fun j hj hji => ?_⟩
  · by_cases hji : j = i
    · rw [hji, file_put_self]
      exact hfile.1
    · rw [file_put_of_ne _ _ _ hji]
      exact h.first j hj
  · by_cases hji : j = i
    · rw [hji, file_put_self]
      exact hfile.2
    · rw [file_put_of_ne _ _ _ hji]
      exact h.begun j hj
  · rw [writer_put_of_ne _ _ _ hji]
    exact h.alone j hj hji

/-- The producer takes all the steps. -/
theorem run (h : Opening n N f i s) (hi : i < n) (m : ℕ) :
    Reach Stream.step Keeps s (Guarded.run Stream.step s (List.replicate m (.writer i))) ∧
      Opening n N f i (Guarded.run Stream.step s (List.replicate m (.writer i))) := by
  induction m generalizing s with
  | zero => exact ⟨.refl, h⟩
  | succ m ih =>
    obtain ⟨hreach, hopen⟩ := ih (h.step hi)
    exact ⟨(Reach.single (h.keeps hi)).trans hreach, hopen⟩

/-- A producer that moves while the others pause keeps the conditions. -/
theorem solo (h : Opening n N f i s) (hi : i < n) {c : FileCtx} {ps : List (List Byte)}
    (hsolo : Solo s.group.fileSize (s.ctx i) (s.writer i).pieces c ps) :
    Reach Stream.step Keeps s (s.put i c ps) ∧ Opening n N f i (s.put i c ps) := by
  obtain ⟨m, hm⟩ := hsolo.eq_run (h.inv.fileNum ▸ hi)
  rw [hm]
  exact h.run hi m

/-- The turn passes from a producer outside of an increment to the next one. -/
theorem pass (h : Opening n N f i s) (hout : ∀ k more v, (s.writer i).loc.pc ≠ .store k more v) (i' : ℕ) :
    Opening n N f i' s := by
  refine ⟨h.inv, h.first, h.begun, fun j hj _ => ?_⟩
  by_cases hji : j = i
  · rw [hji]
    exact hout
  · exact h.alone j hj hji

end Opening

theorem opening_init {n N : ℕ} {f : ℕ → List Byte} {pieces : ℕ → List (List Byte)} (hN : 0 < N)
    (hs : Split n N f pieces) (i : ℕ) : Opening n N f i (.init n N pieces) := by
  refine ⟨streamInv_init hN hs, fun j _ => ?_, fun j _ => ?_, fun j _ _ k more v hpc => by cases hpc⟩
  · show (readyFile.slot 0).Holds 0
    rw [slot_holds]
    exact ⟨by simp [readyFile, SingleFileInfo.buf], Nat.zero_div _⟩
  · show 0 < readyFile.begun
    simp [SingleFileInfo.begun, readyFile, SingleFileInfo.buf]

/-- Once it has found a full counter the consumer keeps the conditions. -/
theorem keeps_drains : Drains Stream.step Keeps := by
  refine ⟨fun _ => rfl, fun s hpc => ⟨trivial, fun k hk => absurd hk (hpc k), trivial⟩⟩

end Stream

/-! ### Two files of a segment and a byte -/

section Spill

variable (b c : Byte)

/-- A file of a segment of zeros and the byte `b`. -/
def spillPieces : List (List Byte) := zeroSegment ++ [[b]]

theorem length_spillPieces : (spillPieces b).flatten.length = readBufSize + 1 := by
  rw [spillPieces, List.flatten_append, List.length_append, fills_zeroSegment.length]
  rfl

theorem split_spill : Stream.Split 2 (readBufSize + 1)
    (two (spillPieces b).flatten (spillPieces c).flatten []) (two (spillPieces b) (spillPieces c) []) := by
  have hpiece : ∀ b : Byte, ∀ p ∈ spillPieces b, 0 < p.length ∧ p.length ≤ maxline := by
    intro b p hp
    rcases List.mem_append.1 hp with hp | hp
    · exact fills_zeroSegment.piece p hp
    · obtain rfl := List.mem_singleton.1 hp
      exact ⟨Nat.one_pos, show 1 ≤ maxline by decide⟩
  exact split_two (length_spillPieces b) (length_spillPieces c) fun p hp =>
    hp.elim (hpiece b p) (hpiece c p)

/-- The file once its producer is done. -/
def spilledFile : SingleFileInfo :=
  fileOf 1 ⟨[b], .full, readBufSize⟩ ⟨zeroSegment.flatten, .full, 0⟩ (readBufSize + 1)

theorem Solo.spill (num : Fin 2 → ℕ) :
    Solo (readBufSize + 1 : ℕ) ⟨Stream.readyFile, num, ⟨.idle, [], false⟩⟩ (spillPieces b)
      ⟨spilledFile b, Function.update (Function.update num 0 (num 0 + 1)) 1 (num 1 + 1),
        ⟨.idle, [b], false⟩⟩ [] := by
  have h10 : (1 : Fin 2) ≠ 0 := by simp
  have hseg := fills_zeroSegment
  have hempty : (⟨[], .empty, 0⟩ : InBuf).flag ≠ .writing := by simp
  have hfit : ([] : List Byte).length + zeroSegment.flatten.length ≤ readBufSize := by
    rw [hseg.length, List.length_nil, Nat.zero_add]
  have hend : ((0 + zeroSegment.flatten.length : ℕ) : ℤ) < (readBufSize + 1 : ℕ) := by
    rw [hseg.length]
    omega
  have hone : [b].length = 1 := rfl
  obtain ⟨buf, hfirst⟩ := Solo.storeAll (k := 0) num [] [[b]] zeroSegment hempty hfit hend
  rw [List.nil_append, Nat.zero_add, hseg.length] at hfirst
  rw [readyFile_eq]
  exact hfirst.trans (Solo.switchLast h10 hseg.length (by simp) readBufSize_pos (by rw [hone]))

/-- Both producers are done, and the consumer has not looked at the counters yet. -/
def spilled : Stream :=
  pair (readBufSize + 1) (spilledFile b) (spilledFile c) ⟨⟨.idle, [b], false⟩, []⟩ ⟨⟨.idle, [c], false⟩, []⟩
    (counts 2 2) (.test 0) []

/-- **Both files use both buffers.** -/
theorem reach_spilled : Reach Stream.step Stream.Keeps
    (.init 2 (readBufSize + 1) (two (spillPieces b) (spillPieces c) [])) (spilled b c) := by
  set f := two (spillPieces b).flatten (spillPieces c).flatten [] with hf
  have hopen : Stream.Opening 2 (readBufSize + 1) f 0
      (.init 2 (readBufSize + 1) (two (spillPieces b) (spillPieces c) [])) :=
    Stream.opening_init (Nat.succ_pos _) (split_spill b c) 0
  rw [init_eq_pair, ← readyFile_eq] at hopen ⊢
  obtain ⟨hfirst, hopen₁⟩ := hopen.solo Nat.two_pos (Solo.spill b (counts 0 0))
  rw [put_pair_zero] at hfirst hopen₁
  simp only [counts_zero, counts_one, update_counts_zero, update_counts_one] at hfirst hopen₁
  have hidle : ∀ k more v, WritePc.idle ≠ .store k more v := by simp
  obtain ⟨hsecond, -⟩ := (hopen₁.pass hidle 1).solo Nat.one_lt_two (Solo.spill c (counts 1 1))
  rw [put_pair_one] at hsecond
  simp only [counts_zero, counts_one, update_counts_zero, update_counts_one] at hsecond
  exact hfirst.trans hsecond

/-- A step of the consumer in its turn. -/
theorem keeps_judge {s t : Stream} (hturn : s.InTurn .judge) (h : s.judgeStep = t) :
    Reach Stream.step Stream.Keeps s t :=
  h ▸ Reach.single (a := Actor.judge) ⟨trivial, hturn, trivial⟩

/-- The consumer has drained the first segment and found the other counter full. -/
def secondDrain : Stream :=
  pair (readBufSize + 1)
    (fileOf 1 ⟨[b], .full, readBufSize⟩
      ⟨xorBlocks [zeroSegment.flatten, zeroSegment.flatten] readBufSize, .empty, 0⟩ (readBufSize + 1))
    (fileOf 1 ⟨[c], .full, readBufSize⟩ ⟨zeroSegment.flatten, .empty, 0⟩ (readBufSize + 1))
    ⟨⟨.idle, [b], false⟩, []⟩ ⟨⟨.idle, [c], false⟩, []⟩ (counts 0 2) (.xor 1)
    (xorBlocks [zeroSegment.flatten, zeroSegment.flatten] readBufSize)

/-- **The buffers are drained in turn.** -/
theorem reach_secondDrain : Reach Stream.step Stream.Keeps
    (.init 2 (readBufSize + 1) (two (spillPieces b) (spillPieces c) [])) (secondDrain b c) := by
  have h01 : (0 : Fin 2) ≠ 1 := by simp
  have hlen := fills_zeroSegment.length
  refine (reach_spilled b c).trans ?_
  -- the other buffers are full, but with a later segment
  refine (keeps_judge (t := pair (readBufSize + 1) (spilledFile b) (spilledFile c) ⟨⟨.idle, [b], false⟩, []⟩
    ⟨⟨.idle, [c], false⟩, []⟩ (counts 2 2) (.xor 0) []) ?_ ?_).trans ?_
  · rintro k hpc - ⟨k', hk', hall⟩
    obtain rfl : 0 = k := JudgePc.test.inj hpc
    obtain rfl : k' = 1 := by omega
    have hlt := (hall 0 Nat.two_pos).2
    simp [spilled, pair, spilledFile, buf_fileOf_other h01] at hlt
  · simp [Stream.judgeStep, judgeStep, spilled, pair]
  rw [spilledFile, spilledFile, fileOf_swap h01, fileOf_swap h01]
  refine (pair_xor Stream.keeps_drains _ _ _ _ _ _ hlen hlen (by simp)).trans ?_
  refine (pair_release Stream.keeps_drains _ _ _ _ _ _).trans ?_
  rw [List.nil_append, update_counts_zero]
  have h10 : (1 : Fin 2) ≠ 0 := by simp
  rw [fileOf_swap h10, fileOf_swap h10]
  -- counter `0` has been reset, and buffer `0` is free when counter `1` is looked at
  refine (keeps_judge (t := { secondDrain b c with judge := ⟨.test 1, 2⟩ }) ?_ ?_).trans (keeps_judge ?_ ?_)
  · rintro k hpc hnum -
    obtain rfl : 0 = k := JudgePc.test.inj hpc
    cases hnum
  · simp [Stream.judgeStep, judgeStep, secondDrain, pair]
  · rintro k hpc - ⟨k', hk', hall⟩
    obtain rfl : 1 = k := JudgePc.test.inj hpc
    obtain rfl : k' = 0 := by omega
    have hfull := (hall 0 Nat.two_pos).1
    simp [secondDrain, pair, SingleFileInfo.Full, buf_fileOf_other h01] at hfull
  · simp [Stream.judgeStep, judgeStep, secondDrain, pair]

/-- **The consumer returns.** -/
theorem exists_returned : ∃ t, Reach Stream.step Stream.Keeps
    (.init 2 (readBufSize + 1) (two (spillPieces b) (spillPieces c) [])) t ∧ t.judge.pc = .done right := by
  obtain ⟨t, ht, hpc, -⟩ := pair_complete Stream.keeps_drains (reach_secondDrain b c)
    (show [b].length = 1 from rfl) rfl (by rw [length_xorBlocks])
  exact ⟨t, ht, hpc⟩

end Spill

end ORaidServer
