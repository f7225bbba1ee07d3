import ORaidServer.Group.Judge
import ORaidServer.Group.WriteBuf

/-!
# What the group looks at

`write_buf` and `judge_xor_condition` look neither at the pointers of a file nor at its connection.

* `SingleFileInfo.Same`, `TGroupFileInfo.SameCounts`, `TGroupFileInfo.Same`: equality in what they look at;
* `writeBufStep_same` and `judgeStep_same`: they do the same on what is the same to them.
-/

namespace ORaidServer

/-- Two files that are the same to `write_buf` and to `buf_xor`. -/
structure SingleFileInfo.Same (x y : SingleFileInfo) : Prop where
  inBufInfo : x.inBufInfo = y.inBufInfo
  fileIndex : x.fileIndex = y.fileIndex

namespace SingleFileInfo.Same

variable {x y z : SingleFileInfo}

theorem symm (h : x.Same y) : y.Same x := ⟨h.inBufInfo.symm, h.fileIndex.symm⟩

theorem trans (h : x.Same y) (h' : y.Same z) : x.Same z :=
  ⟨h.inBufInfo.trans h'.inBufInfo, h.fileIndex.trans h'.fileIndex⟩

theorem buf (h : x.Same y) (k : Fin 2) : x.buf k = y.buf k := congrArg (fun b => InFileInfo.buf b k) h.inBufInfo

theorem stored (h : x.Same y) : x.stored = y.stored := by
  rw [SingleFileInfo.stored, SingleFileInfo.stored, h.inBufInfo, h.fileIndex]

theorem setBuf (h : x.Same y) (k : Fin 2) (b : InBuf) : (x.setBuf k b).Same (y.setBuf k b) :=
  ⟨by simp only [SingleFileInfo.setBuf, h.inBufInfo], h.fileIndex⟩

theorem setCpSize (h : x.Same y) (n : ℕ) : (x.setCpSize n).Same (y.setCpSize n) :=
  ⟨by simp only [SingleFileInfo.setCpSize, h.inBufInfo], h.fileIndex⟩

theorem setFileIndex (h : x.Same y) (n : ℕ) : (x.setFileIndex n).Same (y.setFileIndex n) := ⟨h.inBufInfo, rfl⟩

theorem withPtr (h : x.Same y) (p q : Fin 2 → Ptr) : (x.withPtr p).Same (y.withPtr q) := ⟨h.inBufInfo, h.fileIndex⟩

theorem makeWritable (h : x.Same y) (k : Fin 2) :
    (ORaidServer.makeWritable k x).Same (ORaidServer.makeWritable k y) := by
  rw [ORaidServer.makeWritable, ORaidServer.makeWritable, h.buf k, h.stored]
  exact h.setBuf k _

end SingleFileInfo.Same

/-- Two calls of `write_buf` on files that are the same to it. -/
structure FileCtx.Same (c d : FileCtx) : Prop where
  info : c.info.Same d.info
  num : c.num = d.num
  loc : c.loc = d.loc

theorem storeInto_same {c d : FileCtx} (N : ℤ) (k : Fin 2) (h : c.Same d) :
    (storeInto N k c).Same (storeInto N k d) := by
  obtain ⟨hinfo, hnum, hloc⟩ := h
  unfold storeInto
  rw [hinfo.buf k, hinfo.inBufInfo, hinfo.fileIndex, hloc]
  dsimp only
  split_ifs
  · exact ⟨(hinfo.setBuf k _).setCpSize _, hnum, rfl⟩
  · exact ⟨((hinfo.setBuf k _).setFileIndex _).setCpSize _, hnum, rfl⟩
  · exact ⟨((hinfo.setBuf k _).setFileIndex _).setCpSize _, hnum, rfl⟩
  · exact ⟨(hinfo.setBuf k _).setFileIndex _, hnum, rfl⟩
  · exact ⟨(hinfo.setBuf k _).setFileIndex _, hnum, rfl⟩

/-- **`write_buf`.** -/
theorem writeBufStep_same {c d : FileCtx} (N : ℤ) (h : c.Same d) :
    (writeBufStep N c).Same (writeBufStep N d) := by
  have hloc := h.loc
  cases hpc : c.loc.pc with
  | idle =>
    simp only [writeBufStep, hpc, ← hloc]
    exact h
  | head =>
    simp only [writeBufStep, hpc, ← hloc, h.info.buf]
    split_ifs
    · exact storeInto_same N 0 h
    · exact storeInto_same N 1 h
    · exact ⟨h.info, h.num, by rw [hloc]⟩
  | mark k more =>
    simp only [writeBufStep, hpc, ← hloc, h.info.buf]
    exact ⟨h.info.setBuf k _, h.num, rfl⟩
  | load k more =>
    simp only [writeBufStep, hpc, ← hloc, h.num]
    exact ⟨h.info, rfl, rfl⟩
  | store k more v =>
    simp only [writeBufStep, hpc, ← hloc, h.num]
    exact ⟨h.info, rfl, rfl⟩
  | tail0 =>
    simp only [writeBufStep, hpc, ← hloc, h.info.buf]
    split_ifs
    · exact ⟨h.info.makeWritable 0, h.num, rfl⟩
    · exact ⟨h.info, h.num, rfl⟩
  | tail1 =>
    simp only [writeBufStep, hpc, ← hloc, h.info.buf]
    split_ifs
    · exact ⟨h.info.makeWritable 1, h.num, rfl⟩
    · exact ⟨h.info, h.num, rfl⟩

/-! ### The consumer -/

/-- Two groups with the same counters and flags. -/
structure TGroupFileInfo.SameCounts (g g' : TGroupFileInfo) : Prop where
  fileSize : g.fileSize = g'.fileSize
  xorSize : g.xorSize = g'.xorSize
  bufFullNum : g.bufFullNum = g'.bufFullNum
  xorFlag : g.xorFlag = g'.xorFlag
  correctFlag : g.correctFlag = g'.correctFlag

/-- Two groups of `n` files that are the same to `buf_xor`. -/
structure TGroupFileInfo.Same (n : ℕ) (g g' : TGroupFileInfo) : Prop extends TGroupFileInfo.SameCounts g g' where
  file : ∀ i < n, (g.file i).Same (g'.file i)

theorem TGroupFileInfo.SameCounts.verdict {g g' : TGroupFileInfo} (h : g.SameCounts g') :
    ORaidServer.verdict g = ORaidServer.verdict g' := by
  rw [ORaidServer.verdict, ORaidServer.verdict, h.correctFlag, h.fileSize, h.xorSize]

namespace TGroupFileInfo.Same

variable {n : ℕ} {g g' : TGroupFileInfo}

theorem inBuf (h : g.Same n g') (k : Fin 2) {i : ℕ} (hi : i < n) : g.inBuf k i = g'.inBuf k i := by
  rw [TGroupFileInfo.inBuf, TGroupFileInfo.inBuf, (h.file i hi).buf]

theorem setInBuf0 (h : g.Same n g') (k : Fin 2) (m : List Byte) (hn : 0 < n) :
    (g.setInBuf0 k m).Same n (g'.setInBuf0 k m) := by
  refine ⟨⟨h.fileSize, h.xorSize, h.bufFullNum, h.xorFlag, h.correctFlag⟩, fun i hi => ?_⟩
  rw [TGroupFileInfo.setInBuf0, TGroupFileInfo.setInBuf0, TGroupFileInfo.file_setFile, TGroupFileInfo.file_setFile,
    (h.file 0 hn).buf]
  split_ifs
  · exact (h.file 0 hn).setBuf k _
  · exact h.file i hi

theorem addXorSize (h : g.Same n g') (num0 : ℕ) : (g.addXorSize n num0).Same n (g'.addXorSize n num0) := by
  obtain ⟨hnum, hsize, -, hcorrect, hx, hflag⟩ := frame_addXorSize g n num0
  obtain ⟨hnum', hsize', -, hcorrect', hx', hflag'⟩ := frame_addXorSize g' n num0
  refine ⟨⟨?_, ?_, ?_, ?_, ?_⟩, fun i hi => ?_⟩
  · rw [hsize, hsize', h.fileSize]
  · rw [hx, hx', h.xorSize]
  · rw [hnum, hnum', h.bufFullNum]
  · rw [hflag, hflag', h.xorSize, h.fileSize, h.xorFlag]
  · rw [hcorrect, hcorrect', h.correctFlag]
  · obtain ⟨p, hp⟩ := file_addXorSize g n num0 i
    obtain ⟨p', hp'⟩ := file_addXorSize g' n num0 i
    rw [hp, hp']
    exact (h.file i hi).withPtr p p'

theorem raise (h : g.Same n g') :
    TGroupFileInfo.Same n { g with correctFlag := -1 } { g' with correctFlag := -1 } :=
  ⟨⟨h.fileSize, h.xorSize, h.bufFullNum, h.xorFlag, rfl⟩, h.file⟩

/-- `buf_xor`. -/
theorem bufXor (h : g.Same n g') (hn : 0 < n) (out : OutFile) (k : Fin 2) :
    (ORaidServer.bufXor n g out k).2.1.Same n (ORaidServer.bufXor n g' out k).2.1 ∧
      (ORaidServer.bufXor n g out k).2.2 = (ORaidServer.bufXor n g' out k).2.2 := by
  have hsize : (∀ i < n, ((g.file i).buf k).bufSize = ((g'.file 0).buf k).bufSize) ↔
      ∀ i < n, ((g'.file i).buf k).bufSize = ((g'.file 0).buf k).bufSize :=
    forall₂_congr fun i hi => by rw [(h.file i hi).buf]
  have hrest : (List.range' 1 (n - 1)).map (g.inBuf k) = (List.range' 1 (n - 1)).map (g'.inBuf k) := by
    refine List.map_congr_left fun i hi => h.inBuf k ?_
    have := List.mem_range'_1.1 hi
    omega
  unfold ORaidServer.bufXor
  dsimp only
  rw [(h.file 0 hn).buf, if_congr hsize rfl rfl, hrest, h.inBuf k hn]
  split_ifs
  · exact ⟨(h.setInBuf0 k _ hn).raise, rfl⟩
  · exact ⟨(h.setInBuf0 k _ hn).addXorSize _, rfl⟩
  · exact ⟨(h.setInBuf0 k _ hn).addXorSize _, rfl⟩
  · exact ⟨h.raise, rfl⟩

end TGroupFileInfo.Same

/-- The files that the next step of the consumer looks at. -/
def JudgePc.Reads : JudgePc → ℕ → Prop
  | .xor _, _ => True
  | .resetFlag _ l, i => l = i
  | .test _, _ | .resetNum _, _ | .loop, _ | .done _, _ => False

/-- **`judge_xor_condition`.**  It does the same on groups with the same counters and flags if the files that it
looks at are the same; the others it leaves alone. -/
theorem judgeStep_same {n : ℕ} {g g' : TGroupFileInfo} (out : OutFile) {j : JudgeLocal} (h : g.SameCounts g')
    (hfile : ∀ i < n, j.pc.Reads i → (g.file i).Same (g'.file i)) (hn : 0 < n) (hj : j.fileNum = n) :
    (judgeStep g out j).1.SameCounts (judgeStep g' out j).1 ∧ (judgeStep g out j).2 = (judgeStep g' out j).2 ∧
      ∀ i < n, j.pc.Reads i ∧ ((judgeStep g out j).1.file i).Same ((judgeStep g' out j).1.file i) ∨
        (judgeStep g out j).1.file i = g.file i ∧ (judgeStep g' out j).1.file i = g'.file i := by
  cases hpc : j.pc with
  | test k =>
    simp only [judgeStep, hpc, h.bufFullNum]
    split_ifs <;> exact ⟨h, rfl, fun i _ => Or.inr ⟨rfl, rfl⟩⟩
  | xor k =>
    have hall : g.Same n g' := ⟨h, fun i hi => hfile i hi (by rw [hpc]; trivial)⟩
    obtain ⟨hg, hout⟩ := hall.bufXor hn out k
    simp only [judgeStep, hpc, hj]
    exact ⟨hg.toSameCounts, Prod.ext hout rfl, fun i hi => Or.inl ⟨trivial, hg.file i hi⟩⟩
  | resetNum k =>
    simp only [judgeStep, hpc]
    exact ⟨⟨h.fileSize, h.xorSize, by rw [h.bufFullNum], h.xorFlag, h.correctFlag⟩, trivial,
      fun i _ => Or.inr ⟨trivial, trivial⟩⟩
  | resetFlag k l =>
    simp only [judgeStep, hpc, hj]
    split_ifs with hl
    · refine ⟨⟨h.fileSize, h.xorSize, h.bufFullNum, h.xorFlag, h.correctFlag⟩, rfl, fun i hi => ?_⟩
      have hl' := hfile l hl (by rw [hpc]; rfl)
      rw [TGroupFileInfo.clearFlag, TGroupFileInfo.clearFlag, TGroupFileInfo.file_setFile,
        TGroupFileInfo.file_setFile, hl'.buf]
      split_ifs with hil
      · exact Or.inl ⟨hil.symm, hl'.setBuf k _⟩
      · exact Or.inr ⟨rfl, rfl⟩
    · exact ⟨h, rfl, fun i _ => Or.inr ⟨rfl, rfl⟩⟩
  | loop =>
    simp only [judgeStep, hpc, h.xorFlag, h.correctFlag, h.verdict]
    split_ifs <;> exact ⟨h, rfl, fun i _ => Or.inr ⟨rfl, rfl⟩⟩
  | done r =>
    simp only [judgeStep, hpc]
    exact ⟨h, trivial, fun i _ => Or.inr ⟨trivial, trivial⟩⟩

end ORaidServer
