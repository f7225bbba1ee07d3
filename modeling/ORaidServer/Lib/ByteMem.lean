import Mathlib.Data.List.Basic
import Mathlib.Data.List.GetD
import Mathlib.Data.BitVec
import Mathlib.Tactic.IntervalCases

/-!
# Byte memories, little-endian words and in-place exclusive or

A memory block is a list of bytes.  A 32-bit access reads or writes the four bytes from an
offset, least significant first.

* `load32`, `store32`, and their effect on single bytes;
* `loadLE`, `bytesLE`, numbers of any width;
* `columnXor bs p`, the exclusive or of the `p`-th bytes of the blocks `bs`;
* `wordPass` and `bytePass`, the in-place passes that exclusive-or a list of blocks into a target
  block word by word and byte by byte; `getD_wordPass` and `getD_bytePass` say that each computes
  `columnXor` on the range it covers and leaves every other byte alone.
-/

namespace ByteMem

/-- A byte. -/
abbrev Byte := BitVec 8

instance lawfulBEq : LawfulBEq Byte := inferInstance

/-! ### Words -/

/-- Byte `k` of a 32-bit word, `k = 0` being the least significant one. -/
def byteOf (w : BitVec 32) (k : ℕ) : Byte := w.extractLsb' (8 * k) 8

/-- The little-endian word at offset `off`. -/
def load32 (m : List Byte) (off : ℕ) : BitVec 32 :=
  m.getD (off + 3) 0 ++ m.getD (off + 2) 0 ++ m.getD (off + 1) 0 ++ m.getD off 0

/-- Write a little-endian word at offset `off`. -/
def store32 (m : List Byte) (off : ℕ) (w : BitVec 32) : List Byte :=
  (((m.set off (byteOf w 0)).set (off + 1) (byteOf w 1)).set (off + 2) (byteOf w 2)).set
    (off + 3) (byteOf w 3)

theorem byteOf_xor (v w : BitVec 32) (k : ℕ) :
    byteOf (v ^^^ w) k = byteOf v k ^^^ byteOf w k := by
  simp [byteOf, BitVec.extractLsb'_xor]

theorem byteOf_append (a b c d : Byte) :
    byteOf (d ++ c ++ b ++ a) 0 = a ∧ byteOf (d ++ c ++ b ++ a) 1 = b ∧
      byteOf (d ++ c ++ b ++ a) 2 = c ∧ byteOf (d ++ c ++ b ++ a) 3 = d := by
  refine ⟨?_, ?_, ?_, ?_⟩ <;>
  · apply BitVec.eq_of_getLsbD_eq
    intro j hj
    simp only [byteOf, BitVec.getLsbD_extractLsb', BitVec.getLsbD_append, hj, decide_true,
      Bool.true_and]
    repeat' split
    all_goals first
      | omega
      | (congr 1; omega)

theorem byteOf_load32 (m : List Byte) (off : ℕ) {k : ℕ} (hk : k < 4) :
    byteOf (load32 m off) k = m.getD (off + k) 0 := by
  obtain ⟨h0, h1, h2, h3⟩ := byteOf_append (m.getD off 0) (m.getD (off + 1) 0)
    (m.getD (off + 2) 0) (m.getD (off + 3) 0)
  interval_cases k
  exacts [h0, h1, h2, h3]

@[simp] theorem length_store32 (m : List Byte) (off : ℕ) (w : BitVec 32) :
    (store32 m off w).length = m.length := by simp [store32]

theorem getD_set (m : List Byte) (i p : ℕ) (b : Byte) (hi : i < m.length) :
    (m.set i b).getD p 0 = if p = i then b else m.getD p 0 := by
  simp only [List.getD_eq_getElem?_getD, List.getElem?_set]
  by_cases h : p = i
  · subst h; simp [hi]
  · simp [h, Ne.symm h]

theorem getD_store32 (m : List Byte) (off p : ℕ) (w : BitVec 32) (h : off + 4 ≤ m.length) :
    (store32 m off w).getD p 0 =
      if off ≤ p ∧ p < off + 4 then byteOf w (p - off) else m.getD p 0 := by
  unfold store32
  rw [getD_set _ _ _ _ (by simp; omega), getD_set _ _ _ _ (by simp; omega),
    getD_set _ _ _ _ (by simp; omega), getD_set _ _ _ _ (by omega)]
  by_cases hp : off ≤ p ∧ p < off + 4
  · obtain ⟨k, rfl⟩ := Nat.exists_eq_add_of_le hp.1
    have hk : k < 4 := by omega
    rw [if_pos hp]
    interval_cases k <;> simp
  · rw [if_neg hp, if_neg (by omega), if_neg (by omega), if_neg (by omega), if_neg (by omega)]

/-! ### Little-endian numbers -/

/-- The little-endian number of the `n` bytes at offset `off`. -/
def loadLE (m : List Byte) (off : ℕ) : ℕ → ℕ
  | 0 => 0
  | n + 1 => loadLE m off n + (m.getD (off + n) 0).toNat * 256 ^ n

/-- The `n` low bytes of a number, least significant first. -/
def bytesLE (n v : ℕ) : List Byte := (List.range n).map fun k => BitVec.ofNat 8 (v / 256 ^ k)

@[simp] theorem length_bytesLE (n v : ℕ) : (bytesLE n v).length = n := by simp [bytesLE]

theorem getD_bytesLE {n k : ℕ} (v : ℕ) (hk : k < n) :
    (bytesLE n v).getD k 0 = BitVec.ofNat 8 (v / 256 ^ k) := by
  simp [bytesLE, List.getD_eq_getElem?_getD, hk]

theorem loadLE_bytesLE (n v : ℕ) (post : List Byte) {k : ℕ} (hk : k ≤ n) :
    loadLE (bytesLE n v ++ post) 0 k = v % 256 ^ k := by
  induction k with
  | zero => simp [loadLE, Nat.mod_one]
  | succ k ih =>
    have hmod : v % (256 ^ k * 256) = v % 256 ^ k + 256 ^ k * (v / 256 ^ k % 256) := Nat.mod_mul
    rw [loadLE, ih (by omega), Nat.zero_add, List.getD_append _ _ _ _ (by simp; omega),
      getD_bytesLE v (by omega), BitVec.toNat_ofNat, Nat.pow_succ 256, hmod,
      Nat.mul_comm (_ % 2 ^ 8)]

theorem loadLE_lt (m : List Byte) (off n : ℕ) : loadLE m off n < 256 ^ n := by
  induction n with
  | zero => simp [loadLE]
  | succ n ih =>
    have hb : (m.getD (off + n) 0).toNat + 1 ≤ 256 := (m.getD (off + n) 0).isLt
    have := Nat.mul_le_mul_right (256 ^ n) hb
    rw [Nat.add_mul] at this
    rw [loadLE, Nat.pow_succ]
    omega

theorem loadLE_append (pre m : List Byte) (n : ℕ) :
    loadLE (pre ++ m) pre.length n = loadLE m 0 n := by
  induction n with
  | zero => rfl
  | succ n ih =>
    rw [loadLE, loadLE, ih, List.getD_append_right _ _ _ _ (by omega), Nat.add_sub_cancel_left,
      Nat.zero_add]

/-! ### Exclusive or of columns -/

/-- The exclusive or of the bytes at position `p` of the blocks `bs`. -/
def columnXor (bs : List (List Byte)) (p : ℕ) : Byte :=
  bs.foldl (fun c b => c ^^^ b.getD p 0) 0

/-- The first `n` columns of the blocks `bs`, each reduced to its exclusive or. -/
def xorBlocks (bs : List (List Byte)) (n : ℕ) : List Byte :=
  (List.range n).map (columnXor bs)

theorem foldl_xor (bs : List (List Byte)) (p : ℕ) (c : Byte) :
    bs.foldl (fun c b => c ^^^ b.getD p 0) c = c ^^^ columnXor bs p := by
  unfold columnXor
  induction bs generalizing c with
  | nil => simp
  | cons b bs ih => rw [List.foldl_cons, List.foldl_cons, ih, ih (0 ^^^ _)]; simp [BitVec.xor_assoc]

@[simp] theorem columnXor_cons (b : List Byte) (bs : List (List Byte)) (p : ℕ) :
    columnXor (b :: bs) p = b.getD p 0 ^^^ columnXor bs p := by
  rw [columnXor, List.foldl_cons, foldl_xor]; simp

/-- Columns only depend on the bytes at that position. -/
theorem columnXor_congr {α : Type*} (l : List α) (f g : α → List Byte) (p q : ℕ)
    (h : ∀ a ∈ l, (f a).getD p 0 = (g a).getD q 0) :
    columnXor (l.map f) p = columnXor (l.map g) q := by
  induction l with
  | nil => rfl
  | cons a l ih =>
    rw [List.map_cons, List.map_cons, columnXor_cons, columnXor_cons, h a (by simp),
      ih fun b hb => h b (by simp [hb])]

@[simp] theorem length_xorBlocks (bs : List (List Byte)) (n : ℕ) :
    (xorBlocks bs n).length = n := by simp [xorBlocks]

theorem getD_xorBlocks (bs : List (List Byte)) {n p : ℕ} (hp : p < n) :
    (xorBlocks bs n).getD p 0 = columnXor bs p := by
  simp [xorBlocks, List.getD_eq_getElem?_getD, hp]

theorem take_xorBlocks (bs : List (List Byte)) (k n : ℕ) :
    (xorBlocks bs n).take k = xorBlocks bs (min k n) := by
  rw [xorBlocks, ← List.map_take, List.take_range, xorBlocks]

theorem xorBlocks_add (bs : List (List Byte)) (m n : ℕ) :
    xorBlocks bs (m + n) = xorBlocks bs m ++ (List.range' m n).map (columnXor bs) := by
  rw [xorBlocks, List.range_add, List.map_append, ← List.range'_eq_map_range]
  rfl

/-- Two blocks of one length with the same bytes are equal. -/
theorem ext_getD {a b : List Byte} (hl : a.length = b.length)
    (h : ∀ p < a.length, a.getD p 0 = b.getD p 0) : a = b := by
  refine List.ext_getElem hl fun p ha hb => ?_
  have := h p ha
  simpa [List.getD_eq_getElem?_getD, ha, hb] using this

/-! ### In-place passes -/

/-- `*p ^= *q` on words at the same offset of two blocks. -/
def xor32 (m b : List Byte) (off : ℕ) : List Byte := store32 m off (load32 m off ^^^ load32 b off)

/-- `*p ^= *q` on bytes at the same offset of two blocks. -/
def xor8 (m b : List Byte) (off : ℕ) : List Byte := m.set off (m.getD off 0 ^^^ b.getD off 0)

/-- For the words `0, …, w - 1` in turn, exclusive-or every block of `bs` into `m`. -/
def wordPass (bs : List (List Byte)) (m : List Byte) : ℕ → List Byte
  | 0 => m
  | w + 1 => bs.foldl (fun m b => xor32 m b (4 * w)) (wordPass bs m w)

/-- For the bytes `off, …, off + r - 1` in turn, exclusive-or every block of `bs` into `m`. -/
def bytePass (bs : List (List Byte)) (m : List Byte) (off : ℕ) : ℕ → List Byte
  | 0 => m
  | r + 1 => bs.foldl (fun m b => xor8 m b (off + r)) (bytePass bs m off r)

@[simp] theorem length_xor32 (m b : List Byte) (off : ℕ) : (xor32 m b off).length = m.length := by
  simp [xor32]

@[simp] theorem length_xor8 (m b : List Byte) (off : ℕ) : (xor8 m b off).length = m.length := by
  simp [xor8]

theorem getD_xor32 (m b : List Byte) (off p : ℕ) (h : off + 4 ≤ m.length) :
    (xor32 m b off).getD p 0 =
      if off ≤ p ∧ p < off + 4 then m.getD p 0 ^^^ b.getD p 0 else m.getD p 0 := by
  rw [xor32, getD_store32 _ _ _ _ h]
  split_ifs with hp
  · rw [byteOf_xor, byteOf_load32 _ _ (by omega), byteOf_load32 _ _ (by omega),
      Nat.add_sub_cancel' hp.1]
  · rfl

theorem getD_xor8 (m b : List Byte) (off p : ℕ) (h : off < m.length) :
    (xor8 m b off).getD p 0 = if p = off then m.getD p 0 ^^^ b.getD p 0 else m.getD p 0 := by
  rw [xor8, getD_set _ _ _ _ h]
  split_ifs with hp
  · rw [hp]
  · rfl

@[simp] theorem length_foldl_xor32 (bs : List (List Byte)) (m : List Byte) (off : ℕ) :
    (bs.foldl (fun m b => xor32 m b off) m).length = m.length := by
  induction bs generalizing m with
  | nil => rfl
  | cons b bs ih => rw [List.foldl_cons, ih, length_xor32]

@[simp] theorem length_foldl_xor8 (bs : List (List Byte)) (m : List Byte) (off : ℕ) :
    (bs.foldl (fun m b => xor8 m b off) m).length = m.length := by
  induction bs generalizing m with
  | nil => rfl
  | cons b bs ih => rw [List.foldl_cons, ih, length_xor8]

theorem getD_foldl_xor32 (bs : List (List Byte)) (m : List Byte) (off p : ℕ)
    (h : off + 4 ≤ m.length) :
    (bs.foldl (fun m b => xor32 m b off) m).getD p 0 =
      if off ≤ p ∧ p < off + 4 then m.getD p 0 ^^^ columnXor bs p else m.getD p 0 := by
  induction bs generalizing m with
  | nil => simp [columnXor]
  | cons b bs ih =>
    rw [List.foldl_cons, ih _ (by simpa using h), getD_xor32 _ _ _ _ h, columnXor_cons]
    split_ifs
    · rw [BitVec.xor_assoc]
    · rfl

theorem getD_foldl_xor8 (bs : List (List Byte)) (m : List Byte) (off p : ℕ) (h : off < m.length) :
    (bs.foldl (fun m b => xor8 m b off) m).getD p 0 =
      if p = off then m.getD p 0 ^^^ columnXor bs p else m.getD p 0 := by
  induction bs generalizing m with
  | nil => simp [columnXor]
  | cons b bs ih =>
    rw [List.foldl_cons, ih _ (by simpa using h), getD_xor8 _ _ _ _ h, columnXor_cons]
    split_ifs
    · rw [BitVec.xor_assoc]
    · rfl

@[simp] theorem length_wordPass (bs : List (List Byte)) (m : List Byte) (w : ℕ) :
    (wordPass bs m w).length = m.length := by
  induction w with
  | zero => rfl
  | succ w ih => rw [wordPass, length_foldl_xor32, ih]

@[simp] theorem length_bytePass (bs : List (List Byte)) (m : List Byte) (off r : ℕ) :
    (bytePass bs m off r).length = m.length := by
  induction r with
  | zero => rfl
  | succ r ih => rw [bytePass, length_foldl_xor8, ih]

/-- The word pass computes the exclusive or of its columns on the bytes it covers. -/
theorem getD_wordPass (bs : List (List Byte)) (m : List Byte) (w p : ℕ) (h : 4 * w ≤ m.length) :
    (wordPass bs m w).getD p 0 =
      if p < 4 * w then columnXor (m :: bs) p else m.getD p 0 := by
  induction w with
  | zero => simp [wordPass]
  | succ w ih =>
    rw [wordPass, getD_foldl_xor32 _ _ _ _ (by simp; omega), ih (by omega), columnXor_cons]
    by_cases h1 : p < 4 * w
    · rw [if_neg (by omega), if_pos h1, if_pos (by omega)]
    · by_cases h2 : p < 4 * (w + 1)
      · rw [if_pos (by omega), if_neg h1, if_pos h2]
      · rw [if_neg (by omega), if_neg h1, if_neg h2]

theorem take_wordPass (bs : List (List Byte)) (m : List Byte) {w : ℕ} (h : 4 * w ≤ m.length) :
    (wordPass bs m w).take (4 * w) = xorBlocks (m :: bs) (4 * w) := by
  have hlen : 4 * w ≤ (wordPass bs m w).length := by simpa using h
  refine ext_getD (by simp; omega) fun p hp => ?_
  simp only [List.length_take] at hp
  rw [getD_xorBlocks _ (by omega), List.getD_eq_getElem?_getD, List.getElem?_take_of_lt (by omega),
    ← List.getD_eq_getElem?_getD, getD_wordPass _ _ _ _ h, if_pos (by omega)]

/-- The byte pass computes the exclusive or of its columns on the bytes it covers. -/
theorem getD_bytePass (bs : List (List Byte)) (m : List Byte) (off r p : ℕ)
    (h : off + r ≤ m.length) :
    (bytePass bs m off r).getD p 0 =
      if off ≤ p ∧ p < off + r then columnXor (m :: bs) p else m.getD p 0 := by
  induction r with
  | zero => rw [if_neg (by omega)]; rfl
  | succ r ih =>
    rw [bytePass, getD_foldl_xor8 _ _ _ _ (by simp; omega), ih (by omega), columnXor_cons]
    by_cases h1 : p = off + r
    · rw [if_pos h1, if_neg (by omega), if_pos (by omega)]
    · by_cases h2 : off ≤ p ∧ p < off + r
      · rw [if_neg h1, if_pos h2, if_pos (by omega)]
      · rw [if_neg h1, if_neg h2, if_neg (by omega)]

end ByteMem
