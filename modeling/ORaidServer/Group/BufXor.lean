import ORaidServer.Group.Types
import ORaidServer.Stdio

/-!
# `buf_xor`

`buf_xor(in_buf, file_num, out_fd, k)` of the remote engine: it compares the recorded sizes of the
files' buffers `k`, exclusive-ors the buffers of the files `1, …, file_num - 1` into that of file `0`
by words and then by bytes, writes the result, and accounts for it in `xor_size` and `xor_flag`.

`bufXor_of_sizes` is its specification for equal sizes, `bufXor_of_ne` the one for sizes that differ;
`bufXor_refines` puts the two together.
-/

namespace ORaidServer

open ByteMem

/-- The content of buffer `k` of file `i`, `in_buf[i]` of the source. -/
def TGroupFileInfo.inBuf (g : TGroupFileInfo) (k : Fin 2) (i : ℕ) : List Byte :=
  ((g.file i).buf k).bytes

/-- Overwrite the content of buffer `k` of file `0`. -/
def TGroupFileInfo.setInBuf0 (g : TGroupFileInfo) (k : Fin 2) (m : List Byte) : TGroupFileInfo :=
  g.setFile 0 ((g.file 0).setBuf k { (g.file 0).buf k with bytes := m })

/-- Release both buffers of the files below `fileNum`. -/
def TGroupFileInfo.freeAll (g : TGroupFileInfo) (fileNum : ℕ) : TGroupFileInfo :=
  { g with file := fun i =>
      if i < fileNum then { g.file i with ptr := fun _ => .released } else g.file i }

/-- The accounting at the end of `buf_xor`. -/
def TGroupFileInfo.addXorSize (g : TGroupFileInfo) (fileNum num0 : ℕ) : TGroupFileInfo :=
  let g := { g with xorSize := g.xorSize + num0 }
  if (g.xorSize : ℤ) = g.fileSize then { g with xorFlag := 1 }.freeAll fileNum else g

/-- `buf_xor`: the return value, the group and the output file after the call. -/
def bufXor (fileNum : ℕ) (g : TGroupFileInfo) (out : OutFile) (k : Fin 2) :
    ℤ × TGroupFileInfo × OutFile :=
  let num0 := ((g.file 0).buf k).bufSize
  if ∀ i < fileNum, ((g.file i).buf k).bufSize = num0 then
    let rest := (List.range' 1 (fileNum - 1)).map (g.inBuf k)
    let m := wordPass rest (g.inBuf k 0) (num0 / 4)
    let (ret, out) := out.fwrite m 4 (num0 / 4)
    if ret ≠ num0 / 4 then (-1, { g.setInBuf0 k m with correctFlag := -1 }, out)
    else if num0 % 4 ≠ 0 then
      let m := bytePass rest m (num0 - num0 % 4) (num0 % 4)
      -- the result of this call is not looked at
      let (_, out) := out.fwrite (m.drop (num0 - num0 % 4)) 1 (num0 % 4)
      (0, (g.setInBuf0 k m).addXorSize fileNum num0, out)
    else (0, (g.setInBuf0 k m).addXorSize fileNum num0, out)
  else (-1, { g with correctFlag := -1 }, out)

/-- The two passes together, on blocks of one length. -/
theorem passes_eq (bs : List (List Byte)) (m : List Byte) :
    bytePass bs (wordPass bs m (m.length / 4)) (m.length - m.length % 4) (m.length % 4) =
      xorBlocks (m :: bs) m.length := by
  refine ext_getD (by simp) fun p hp => ?_
  simp only [length_bytePass, length_wordPass] at hp
  rw [getD_xorBlocks _ hp, getD_bytePass _ _ _ _ _ (by simp; omega)]
  split_ifs with h
  · rw [columnXor_cons, columnXor_cons, getD_wordPass _ _ _ _ (by omega), if_neg (by omega)]
  · rw [getD_wordPass _ _ _ _ (by omega), if_pos (by omega)]

theorem bytePass_zero (bs : List (List Byte)) (m : List Byte) (off : ℕ) :
    bytePass bs m off 0 = m := rfl

theorem map_range_eq_cons {α : Type*} (f : ℕ → α) {n : ℕ} (hn : 0 < n) :
    (List.range n).map f = f 0 :: (List.range' 1 (n - 1)).map f := by
  obtain ⟨m, rfl⟩ := Nat.exists_eq_succ_of_ne_zero hn.ne'
  rw [List.range_eq_range', List.range'_succ]
  rfl

/-- For equal sizes `buf_xor` writes the exclusive or of the buffers and accounts for it. -/
theorem bufXor_of_sizes {fileNum : ℕ} (hn : 0 < fileNum) {g : TGroupFileInfo} {out : OutFile}
    {k : Fin 2} {n : ℕ} (hout : out.Accepts)
    (hsize : ∀ i < fileNum, ((g.file i).buf k).bufSize = n) :
    bufXor fileNum g out k =
      (0, (g.setInBuf0 k (xorBlocks ((List.range fileNum).map (g.inBuf k)) n)).addXorSize fileNum n,
        ⟨out.data ++ xorBlocks ((List.range fileNum).map (g.inBuf k)) n, []⟩) := by
  have hn0 : ((g.file 0).buf k).bufSize = n := hsize 0 hn
  have hlen : (g.inBuf k 0).length = n := hn0
  rw [map_range_eq_cons _ hn]
  set rest := (List.range' 1 (fileNum - 1)).map (g.inBuf k) with hrest
  have hpass := passes_eq rest (g.inBuf k 0)
  have htake : (wordPass rest (g.inBuf k 0) (n / 4)).take (4 * (n / 4)) =
      (xorBlocks (g.inBuf k 0 :: rest) n).take (n - n % 4) := by
    rw [take_wordPass _ _ (by omega), take_xorBlocks]
    congr 1
    omega
  rw [hlen] at hpass
  simp only [bufXor, hn0, if_pos hsize, ← hrest, OutFile.fwrite_of_accepts hout, ne_eq, not_true,
    if_false]
  set w := wordPass rest (g.inBuf k 0) (n / 4) with hw
  by_cases hmod : n % 4 = 0
  · rw [if_neg (by simpa using hmod)]
    rw [hmod, bytePass_zero] at hpass
    rw [hpass, List.take_of_length_le (by simp; omega)]
  · rw [if_pos hmod, OutFile.fwrite_of_accepts (by rfl), hpass, htake]
    have htail : ((xorBlocks (g.inBuf k 0 :: rest) n).drop (n - n % 4)).take (n % 4) =
        (xorBlocks (g.inBuf k 0 :: rest) n).drop (n - n % 4) :=
      List.take_of_length_le (by simp; omega)
    rw [Nat.one_mul, htail, List.append_assoc, List.take_append_drop]

/-- For sizes that differ `buf_xor` only raises `correct_flag`. -/
theorem bufXor_of_ne {fileNum : ℕ} {g : TGroupFileInfo} {out : OutFile} {k : Fin 2} {i : ℕ}
    (hi : i < fileNum) (hne : ((g.file i).buf k).bufSize ≠ ((g.file 0).buf k).bufSize) :
    bufXor fileNum g out k = (-1, { g with correctFlag := -1 }, out) := by
  simp only [bufXor]
  rw [if_neg fun h => hne (h i hi)]

/-! ### What `buf_xor` leaves alone -/

theorem file_addXorSize (g : TGroupFileInfo) (fileNum num0 i : ℕ) :
    ∃ p, (g.addXorSize fileNum num0).file i = (g.file i).withPtr p := by
  unfold TGroupFileInfo.addXorSize TGroupFileInfo.freeAll
  dsimp only
  split_ifs
  · dsimp only
    split_ifs
    · exact ⟨_, rfl⟩
    · exact ⟨(g.file i).ptr, rfl⟩
  · exact ⟨(g.file i).ptr, rfl⟩

theorem frame_addXorSize (g : TGroupFileInfo) (fileNum num0 : ℕ) :
    (g.addXorSize fileNum num0).bufFullNum = g.bufFullNum ∧
      (g.addXorSize fileNum num0).fileSize = g.fileSize ∧
      (g.addXorSize fileNum num0).fileNum = g.fileNum ∧
      (g.addXorSize fileNum num0).correctFlag = g.correctFlag ∧
      (g.addXorSize fileNum num0).xorSize = g.xorSize + num0 ∧
      (g.addXorSize fileNum num0).xorFlag =
        if ((g.xorSize + num0 : ℕ) : ℤ) = g.fileSize then 1 else g.xorFlag := by
  unfold TGroupFileInfo.addXorSize TGroupFileInfo.freeAll
  dsimp only
  split_ifs <;> exact ⟨rfl, rfl, rfl, rfl, rfl, rfl⟩

/-- Overwriting a buffer leaves its flag and where it starts. -/
theorem TGroupFileInfo.keep_setInBuf0 (g : TGroupFileInfo) (k k' : Fin 2) (m : List Byte) (i : ℕ) :
    (((g.setInBuf0 k m).file i).buf k').flag = ((g.file i).buf k').flag ∧
      (((g.setInBuf0 k m).file i).buf k').start = ((g.file i).buf k').start := by
  rw [TGroupFileInfo.setInBuf0, TGroupFileInfo.file_setFile]
  split_ifs with hi
  · rcases eq_or_ne k' k with rfl | hk
    · simp [hi]
    · simp [SingleFileInfo.buf_setBuf, hk, hi]
  · exact ⟨rfl, rfl⟩

theorem TGroupFileInfo.stored_setInBuf0 (g : TGroupFileInfo) (k : Fin 2) (m : List Byte) (i : ℕ) :
    ((g.setInBuf0 k m).file i).stored = (g.file i).stored := by
  rw [TGroupFileInfo.setInBuf0, TGroupFileInfo.file_setFile]
  split_ifs with hi
  · rw [hi]
    rfl
  · rfl

theorem setInBuf0_self (g : TGroupFileInfo) (k : Fin 2) : g.setInBuf0 k (g.inBuf k 0) = g := by
  have : (g.file 0).setBuf k { (g.file 0).buf k with bytes := g.inBuf k 0 } = g.file 0 := by
    show SingleFileInfo.setBuf _ k (SingleFileInfo.buf _ k) = _
    simp [SingleFileInfo.setBuf, SingleFileInfo.buf]
  simp [TGroupFileInfo.setInBuf0, TGroupFileInfo.setFile, this]

/-- Whatever the sizes, `buf_xor` changes of the files only the content of buffer `k` of file `0`,
keeping its size, and the pointers; and it leaves the counters alone. -/
theorem bufXor_frame {fileNum : ℕ} (hn : 0 < fileNum) (g : TGroupFileInfo) {out : OutFile}
    (k : Fin 2) (hout : out.Accepts) :
    (∃ m : List Byte, m.length = ((g.file 0).buf k).bufSize ∧
      ∀ i, ∃ p, (bufXor fileNum g out k).2.1.file i = ((g.setInBuf0 k m).file i).withPtr p) ∧
    (bufXor fileNum g out k).2.1.bufFullNum = g.bufFullNum ∧
    (bufXor fileNum g out k).2.1.fileSize = g.fileSize ∧
    (bufXor fileNum g out k).2.1.fileNum = g.fileNum ∧ (bufXor fileNum g out k).2.2.Accepts := by
  by_cases h : ∀ i < fileNum, ((g.file i).buf k).bufSize = ((g.file 0).buf k).bufSize
  · rw [bufXor_of_sizes hn hout h]
    set x := xorBlocks ((List.range fileNum).map (g.inBuf k)) ((g.file 0).buf k).bufSize with hx
    obtain ⟨h1, h2, h3, -⟩ := frame_addXorSize (g.setInBuf0 k x) fileNum
      ((g.file 0).buf k).bufSize
    exact ⟨⟨x, by simp [hx], file_addXorSize _ _ _⟩, h1, h2, h3, rfl⟩
  · push Not at h
    obtain ⟨i, hi, hne⟩ := h
    rw [bufXor_of_ne hi hne]
    refine ⟨⟨g.inBuf k 0, rfl, fun i => ⟨(g.file i).ptr, ?_⟩⟩, rfl, rfl, rfl, hout⟩
    rw [setInBuf0_self]
    rfl

/-- The three ways in which `buf_xor` returns: the write of the words fails, all is done, the sizes
differ. -/
theorem bufXor_cases (fileNum : ℕ) (g : TGroupFileInfo) (out : OutFile) (k : Fin 2) :
    (∃ m : List Byte, m.length = ((g.file 0).buf k).bufSize ∧
      ((bufXor fileNum g out k).2.1 = { g.setInBuf0 k m with correctFlag := -1 } ∨
        (bufXor fileNum g out k).2.1 =
          (g.setInBuf0 k m).addXorSize fileNum ((g.file 0).buf k).bufSize)) ∨
    (bufXor fileNum g out k).2.1 = { g with correctFlag := -1 } := by
  unfold bufXor
  dsimp only
  split_ifs with hsize hret hmod
  · exact Or.inl ⟨_, by rw [length_wordPass]; rfl, Or.inl rfl⟩
  · exact Or.inl ⟨_, by rw [length_bytePass, length_wordPass]; rfl, Or.inr rfl⟩
  · exact Or.inl ⟨_, by rw [length_wordPass]; rfl, Or.inr rfl⟩
  · exact Or.inr rfl

/-- Whatever the sizes and the results of the writes, the flags of the buffers stay. -/
theorem bufXor_flag (fileNum : ℕ) (g : TGroupFileInfo) (out : OutFile) (k k' : Fin 2) (i : ℕ) :
    (((bufXor fileNum g out k).2.1.file i).buf k').flag = ((g.file i).buf k').flag := by
  rcases bufXor_cases fileNum g out k with ⟨m, -, h | h⟩ | h
  · rw [h]
    exact (g.keep_setInBuf0 k k' m i).1
  · obtain ⟨p, hp⟩ := file_addXorSize (g.setInBuf0 k m) fileNum ((g.file 0).buf k).bufSize i
    rw [h, hp]
    exact (g.keep_setInBuf0 k k' m i).1
  · rw [h]

/-- Nor does `buf_xor` touch the counters, the number of files or their length. -/
theorem bufXor_num (fileNum : ℕ) (g : TGroupFileInfo) (out : OutFile) (k : Fin 2) :
    (bufXor fileNum g out k).2.1.bufFullNum = g.bufFullNum ∧
      (bufXor fileNum g out k).2.1.fileNum = g.fileNum ∧
      (bufXor fileNum g out k).2.1.fileSize = g.fileSize := by
  rcases bufXor_cases fileNum g out k with ⟨m, -, h | h⟩ | h
  · rw [h]
    exact ⟨rfl, rfl, rfl⟩
  · obtain ⟨h1, h2, h3, -⟩ := frame_addXorSize (g.setInBuf0 k m) fileNum
      ((g.file 0).buf k).bufSize
    rw [h]
    exact ⟨h1, h3, h2⟩
  · rw [h]
    exact ⟨rfl, rfl, rfl⟩

/-! ### The end of the group -/

/-- `buf_xor` comes to its end and finds that everything has been written. -/
def TGroupFileInfo.Completes (g : TGroupFileInfo) (fileNum : ℕ) (out : OutFile) (k : Fin 2) : Prop :=
  let num0 := ((g.file 0).buf k).bufSize
  (∀ i < fileNum, ((g.file i).buf k).bufSize = num0) ∧
    (out.fwrite (g.inBuf k 0) 4 (num0 / 4)).1 = num0 / 4 ∧
    ((g.xorSize + num0 : ℕ) : ℤ) = g.fileSize

instance (g : TGroupFileInfo) (fileNum : ℕ) (out : OutFile) (k : Fin 2) :
    Decidable (g.Completes fileNum out k) := inferInstanceAs (Decidable (_ ∧ _ ∧ _))

theorem ptr_addXorSize (g : TGroupFileInfo) {fileNum i : ℕ} (hi : i < fileNum) (num0 : ℕ) :
    ((g.addXorSize fileNum num0).file i).ptr =
      if ((g.xorSize + num0 : ℕ) : ℤ) = g.fileSize then fun _ => .released else (g.file i).ptr := by
  unfold TGroupFileInfo.addXorSize TGroupFileInfo.freeAll
  dsimp only
  by_cases h : ((g.xorSize + num0 : ℕ) : ℤ) = g.fileSize
  · rw [if_pos h, if_pos h]
    dsimp only
    rw [if_pos hi]
  · rw [if_neg h, if_neg h]

theorem ptr_setInBuf0 (g : TGroupFileInfo) (k : Fin 2) (m : List Byte) (i : ℕ) :
    ((g.setInBuf0 k m).file i).ptr = (g.file i).ptr := by
  rw [TGroupFileInfo.setInBuf0, TGroupFileInfo.file_setFile]
  split_ifs with hi
  · rw [hi]
    rfl
  · rfl

/-- Whatever the sizes and the results of the writes, `xor_flag` is raised and the buffers are freed just
where everything has been written. -/
theorem bufXor_completes (fileNum : ℕ) (g : TGroupFileInfo) (out : OutFile) (k : Fin 2) :
    (bufXor fileNum g out k).2.1.xorFlag = (if g.Completes fileNum out k then 1 else g.xorFlag) ∧
      ∀ i < fileNum, ((bufXor fileNum g out k).2.1.file i).ptr =
        if g.Completes fileNum out k then fun _ => .released else (g.file i).ptr := by
  set num0 := ((g.file 0).buf k).bufSize with hnum0
  -- the accounting is reached
  have hend : ∀ m, (∀ i < fileNum, ((g.file i).buf k).bufSize = num0) →
      (out.fwrite (g.inBuf k 0) 4 (num0 / 4)).1 = num0 / 4 →
      ((g.setInBuf0 k m).addXorSize fileNum num0).xorFlag =
          (if g.Completes fileNum out k then 1 else g.xorFlag) ∧
        ∀ i < fileNum, (((g.setInBuf0 k m).addXorSize fileNum num0).file i).ptr =
          if g.Completes fileNum out k then fun _ => .released else (g.file i).ptr := by
    intro m hsize hret
    have hiff : g.Completes fileNum out k ↔ ((g.xorSize + num0 : ℕ) : ℤ) = g.fileSize :=
      ⟨fun h => h.2.2, fun h => ⟨hsize, hret, h⟩⟩
    refine ⟨?_, fun i hi => ?_⟩
    · rw [(frame_addXorSize (g.setInBuf0 k m) fileNum num0).2.2.2.2.2]
      exact if_congr hiff.symm rfl rfl
    · rw [ptr_addXorSize _ hi, ptr_setInBuf0]
      exact if_congr hiff.symm rfl rfl
  unfold bufXor
  dsimp only
  rw [← hnum0]
  by_cases hsize : ∀ i < fileNum, ((g.file i).buf k).bufSize = num0
  · rw [if_pos hsize, OutFile.fwrite_fst out _ (g.inBuf k 0)]
    by_cases hret : (out.fwrite (g.inBuf k 0) 4 (num0 / 4)).1 = num0 / 4
    · rw [if_neg (not_not.2 hret)]
      by_cases hmod : num0 % 4 ≠ 0
      · rw [if_pos hmod]
        exact hend _ hsize hret
      · rw [if_neg hmod]
        exact hend _ hsize hret
    · have hnot : ¬ g.Completes fileNum out k := fun h => hret h.2.1
      rw [if_pos hret]
      simp only [if_neg hnot]
      exact ⟨rfl, fun i _ => ptr_setInBuf0 g k _ i⟩
  · have hnot : ¬ g.Completes fileNum out k := fun h => hsize h.1
    rw [if_neg hsize]
    simp [hnot]

/-! ### The byte-wise specification -/

/-- What a call of `buf_xor` does with buffers `k` of one size `s`. -/
structure BufXorDone (fileNum : ℕ) (g : TGroupFileInfo) (out : OutFile) (k : Fin 2) (s : ℕ)
    (r : ℤ × TGroupFileInfo × OutFile) : Prop where
  ret : r.1 = 0
  written : r.2.2.data = out.data ++ xorBlocks ((List.range fileNum).map (g.inBuf k)) s
  kept : ∀ i k', i ≠ 0 ∨ k' ≠ k → (r.2.1.file i).buf k' = (g.file i).buf k'
  ptr : ∀ i < fileNum, (r.2.1.file i).ptr =
    if ((g.xorSize + s : ℕ) : ℤ) = g.fileSize then fun _ => .released else (g.file i).ptr
  xorSize : r.2.1.xorSize = g.xorSize + s
  xorFlag : r.2.1.xorFlag =
    if ((g.xorSize + s : ℕ) : ℤ) = g.fileSize then 1 else g.xorFlag
  correctFlag : r.2.1.correctFlag = g.correctFlag

/-- `buf_xor` is the byte-wise exclusive or: buffers of one size are exclusive-ored, written and
accounted for, and where the sizes differ only `correct_flag` changes. -/
theorem bufXor_refines {fileNum : ℕ} (hn : 0 < fileNum) (g : TGroupFileInfo) {out : OutFile}
    (hout : out.Accepts) (k : Fin 2) :
    (∀ s, (∀ i < fileNum, ((g.file i).buf k).bufSize = s) →
      BufXorDone fileNum g out k s (bufXor fileNum g out k)) ∧
    ((¬ ∃ s, ∀ i < fileNum, ((g.file i).buf k).bufSize = s) →
      bufXor fileNum g out k = (-1, { g with correctFlag := -1 }, out)) := by
  constructor
  · intro s hs
    rw [bufXor_of_sizes hn hout hs]
    set m := xorBlocks ((List.range fileNum).map (g.inBuf k)) s
    obtain ⟨-, -, -, hcorrect, hsize, hflag⟩ := frame_addXorSize (g.setInBuf0 k m) fileNum s
    refine ⟨rfl, rfl, ?_, ?_, hsize, hflag, hcorrect⟩
    · intro i k' hne
      obtain ⟨p, hp⟩ := file_addXorSize (g.setInBuf0 k m) fileNum s i
      have hbuf : ((g.setInBuf0 k m).file i).buf k' = (g.file i).buf k' := by
        rw [TGroupFileInfo.setInBuf0, TGroupFileInfo.file_setFile]
        split_ifs with hi
        · rw [SingleFileInfo.buf_setBuf, if_neg (hne.resolve_left (by simp [hi])), hi]
        · rfl
      rw [← hbuf]
      show (((g.setInBuf0 k m).addXorSize fileNum s).file i).buf k' = _
      rw [hp]
      rfl
    · intro i hi
      rw [ptr_addXorSize _ hi]
      rw [ptr_setInBuf0]
      rfl
  · intro hne
    push Not at hne
    obtain ⟨i, hi, hsize⟩ := hne ((g.file 0).buf k).bufSize
    exact bufXor_of_ne hi hsize

/-- Two files whose buffers hold five bytes each. -/
def fiveBytes : TGroupFileInfo where
  file i :=
    { inBufInfo := ⟨fun _ => ⟨[BitVec.ofNat 8 i, 1, 2, 3, 255], .full, 0⟩, 0⟩
      ptr := fun _ => .live 0
      fd := some 0
      evAccept := some 0
      base := some 0
      writeState := 0
      writeIndex := 0
      writeTotalSize := 0
      filePath := []
      fileIndex := 5 }
  fileSize := 5
  fileNum := 2
  xorSize := 0
  bufFullNum := fun _ => 2
  xorFlag := 0
  correctFlag := 0

theorem bufXor_refines_five :
    (bufXor 2 fiveBytes ⟨[], []⟩ 1).2.2.data = [1, 0, 0, 0, 0] ∧
      (bufXor 2 fiveBytes ⟨[], []⟩ 1).2.1.xorFlag = 1 := by
  have hout : OutFile.Accepts ⟨[], []⟩ := rfl
  have h := (bufXor_refines (show 0 < 2 by decide) fiveBytes hout 1).1 5 (by decide)
  rw [h.written, h.xorFlag]
  exact ⟨by decide, by decide⟩

end ORaidServer
