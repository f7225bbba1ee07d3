import ORaidServer.Raid.SRiad
import Mathlib.Data.List.GetD

/-!
# When `s_riad` returns `RIGHT`

`Accepted D c₀ cs` is the condition on the declared size `D` and on the contents `c₀`, `cs` of the
files under which the loop of `s_riad` returns `RIGHT`: every file has the whole words of `D` bytes,
and the byte loop on the first file stops after exactly `D` bytes.

`returns_right_iff` says so, and that the output is then the exclusive or of the first `D` bytes, a
file that is too short being continued by `0xFF`.
-/

namespace ORaidServer

open ByteMem

/-- The bytes that the byte loop takes from offset `p` of a file: those before the first `0xFF`. -/
def tailStop (c : List Byte) (p : ℕ) : ℕ := ((c.drop p).takeWhile fun b => b.toInt ≠ -1).length

/-- The condition for `RIGHT`. -/
def Accepted (D : ℕ) (c₀ : List Byte) (cs : List (List Byte)) : Prop :=
  (∀ c ∈ c₀ :: cs, 4 * (D / 4) ≤ c.length) ∧
    (D % 4 = 0 ∧ 0 < D ∨ tailStop c₀ (4 * (D / 4)) = D % 4)

/-- A content as the byte loop sees it up to offset `D`. -/
def eofPad (D : ℕ) (c : List Byte) : List Byte := c ++ List.replicate (D - c.length) (toChar none)

theorem getD_eofPad (d : List Byte) {D p : ℕ} (hp : p < D) :
    (eofPad D d).getD p 0 = toChar d[p]? := by
  simp only [List.getD_eq_getElem?_getD, eofPad, List.getElem?_append]
  split_ifs with h
  · simp [toChar, h]
  · rw [List.getElem?_replicate, if_pos (by omega), List.getElem?_eq_none (by omega)]
    rfl

theorem eofPad_of_le {c : List Byte} {D : ℕ} (h : D ≤ c.length) : eofPad D c = c := by
  simp [eofPad, Nat.sub_eq_zero_of_le h]

theorem tailStop_eq (d : List Byte) (p : ℕ) :
    tailStop d p = if (toChar d[p]?).toInt = -1 then 0 else tailStop d (p + 1) + 1 := by
  unfold tailStop
  rcases Nat.lt_or_ge p d.length with hp | hp
  · rw [List.drop_eq_getElem_cons hp, List.takeWhile_cons, List.getElem?_eq_getElem hp]
    by_cases h : d[p].toInt = -1 <;> simp [toChar, h]
  · rw [List.drop_eq_nil_of_le hp, List.getElem?_eq_none hp]
    rfl

/-- The byte loop does not go on from where it stopped. -/
theorem tailStop_add (c : List Byte) (p : ℕ) : tailStop c (p + tailStop c p) = 0 := by
  induction ht : tailStop c p generalizing p with
  | zero => exact ht
  | succ t ih =>
    rw [tailStop_eq] at ht
    split_ifs at ht with hstop
    have := ih (p + 1) (by omega)
    rwa [Nat.add_assoc, Nat.add_comm 1] at this

/-! ### Where the files stand -/

/-- The next byte read from `x` is the one at offset `p` of `c`. -/
def ReadsAt (p : ℕ) (c : List Byte) (x : Input) : Prop :=
  x.fd.content = c ∧ (x.fd.pos = p ∨ c.length ≤ x.fd.pos ∧ c.length ≤ p)

/-- The words that a read of `r` words at offset `p` gives. -/
def words (c : List Byte) (p r : ℕ) : ℕ := ((c.drop p).take (4 * r)).length / 4

theorem words_eq_self {c : List Byte} {p r : ℕ} (hr : 0 < r) :
    words c p r = r ↔ p + 4 * r ≤ c.length := by
  simp only [words, List.length_take, List.length_drop]
  omega

theorem words_le (c : List Byte) (p r : ℕ) : words c p r ≤ r := by
  simp only [words, List.length_take, List.length_drop]
  omega

section ReadsAt

variable {p r : ℕ} {c : List Byte} {x : Input} (h : ReadsAt p c x)
include h

theorem ReadsAt.drop : x.fd.content.drop x.fd.pos = c.drop p := by
  obtain ⟨rfl, hp | ⟨hx, hp⟩⟩ := h
  · rw [hp]
  · rw [List.drop_eq_nil_of_le hx, List.drop_eq_nil_of_le hp]

theorem ReadsAt.fgetc :
    x.fd.fgetc.1 = (c)[p]? ∧ ReadsAt (p + 1) c { x with fd := x.fd.fgetc.2 } := by
  have hget : x.fd.content[x.fd.pos]? = (c)[p]? := by
    obtain ⟨rfl, hp | ⟨hx, hp⟩⟩ := h
    · rw [hp]
    · rw [List.getElem?_eq_none hx, List.getElem?_eq_none hp]
  unfold InFile.fgetc
  rw [hget]
  obtain ⟨rfl, hp⟩ := h
  cases hb : x.fd.content[p]? with
  | none =>
    have := List.getElem?_eq_none_iff.1 hb
    exact ⟨rfl, rfl, Or.inr (by simp only; omega)⟩
  | some b =>
    have := (List.getElem?_eq_some_iff.1 hb).1
    exact ⟨rfl, rfl, by simp only; omega⟩

theorem ReadsAt.fread (r : ℕ) :
    (x.fread r).1 = words c p r ∧ ReadsAt (p + 4 * r) c (x.fread r).2 ∧
      (x.fread r).2.buf = (c.drop p).take (4 * r) ++ x.buf.drop ((c.drop p).take (4 * r)).length := by
  have hdrop := h.drop
  simp only [Input.fread, InFile.fread, hdrop]
  refine ⟨rfl, ⟨h.1, ?_⟩, trivial⟩
  obtain ⟨rfl, hp⟩ := h
  simp only [List.length_take, List.length_drop]
  omega

end ReadsAt

/-- The next bytes read from the files are those at offset `p` of the contents. -/
def AllAt (p : ℕ) (cs : List (List Byte)) (xs : List Input) : Prop :=
  List.Forall₂ (ReadsAt p) cs xs

section AllAt

variable {p : ℕ} {cs : List (List Byte)} {xs : List Input} (h : AllAt p cs xs)
include h

theorem AllAt.fgetcRest (c0 : Byte) {D : ℕ} (hp : p < D) :
    (fgetcRest c0 xs).1 = c0 ^^^ columnXor (cs.map (eofPad D)) p ∧
      AllAt (p + 1) cs (fgetcRest c0 xs).2 := by
  unfold AllAt at h
  induction h generalizing c0 with
  | nil => exact ⟨by simp [ORaidServer.fgetcRest, columnXor], .nil⟩
  | @cons c x cs xs hx _ ih =>
    obtain ⟨hget, hnext⟩ := hx.fgetc
    obtain ⟨hcol, hrest⟩ := ih (c0 ^^^ toChar x.fd.fgetc.1)
    refine ⟨?_, .cons hnext hrest⟩
    show (ORaidServer.fgetcRest (c0 ^^^ toChar x.fd.fgetc.1) xs).1 = _
    rw [hcol, List.map_cons, columnXor_cons, getD_eofPad c hp, hget, BitVec.xor_assoc]

/-- The reads give the numbers of words that the files have. -/
theorem AllAt.forall_fread (r k : ℕ) :
    (∀ x ∈ xs, (x.fread r).1 = k) ↔ ∀ c ∈ cs, words c p r = k := by
  unfold AllAt at h
  induction h with
  | nil => simp
  | cons hx _ ih => rw [List.forall_mem_cons, List.forall_mem_cons, ih, (hx.fread r).1]

theorem AllAt.fread (r : ℕ) : AllAt (p + 4 * r) cs (xs.map fun x => (x.fread r).2) := by
  unfold AllAt at *
  induction h with
  | nil => exact .nil
  | cons hx _ ih => exact .cons (hx.fread r).2.1 ih

theorem AllAt.fseek (q : ℕ) :
    AllAt q cs (xs.map fun x => { x with fd := x.fd.fseek q }) := by
  unfold AllAt at *
  induction h with
  | nil => exact .nil
  | cons hx _ ih => exact .cons ⟨hx.1, Or.inl rfl⟩ ih

end AllAt

/-! ### A round of whole words -/

theorem chunk_le (left : ℕ) : 4 * chunk left ≤ left := by
  unfold chunk
  split_ifs <;> simp only [readSize] at * <;> omega

theorem chunk_pos {left : ℕ} : 0 < chunk left ↔ 4 ≤ left := by
  unfold chunk
  split_ifs <;> simp only [readSize] at * <;> omega

section Round

variable {s : RiadState} {p r D : ℕ} {c₀ : List Byte} {cs : List (List Byte)}

/-- The state after the reads of a round. -/
def RiadState.loaded (s : RiadState) (num0 r : ℕ) : RiadState :=
  { s with
    first := (s.first.fread r).2
    rest := s.rest.map fun x => (x.fread r).2
    num0 := num0 }

/-- The reads of the files after the first succeed if each gives that number of words. -/
theorem freadRest_eq (num0 r : ℕ) (xs : List Input) : freadRest num0 r xs =
    if ∀ x ∈ xs, (x.fread r).1 = num0 then some (xs.map fun x => (x.fread r).2) else none := by
  induction xs with
  | nil => simp [freadRest]
  | cons x xs ih =>
    simp only [freadRest, ih, List.forall_mem_cons, List.map_cons]
    by_cases h1 : (x.fread r).1 = num0
    · rw [if_neg (not_not.2 h1.symm)]
      by_cases h2 : ∀ x ∈ xs, (x.fread r).1 = num0
      · rw [if_pos h2, if_pos ⟨h1, h2⟩]
        rfl
      · rw [if_neg h2, if_neg fun h => h2 h.2]
        rfl
    · rw [if_pos (Ne.symm h1), if_neg fun h => h1 h.1]

theorem freadAll_eq (s : RiadState) (hr : 0 < r) : s.freadAll r =
    if ∀ x ∈ s.rest, (x.fread r).1 = (s.first.fread r).1 then some (s.loaded (s.first.fread r).1 r)
    else none := by
  simp only [RiadState.freadAll, if_neg hr.ne', freadRest_eq]
  split_ifs <;> rfl

theorem freadAll_spec (h₀ : ReadsAt p c₀ s.first) (h : AllAt p cs s.rest) (hr : 0 < r) :
    s.freadAll r = if ∀ c ∈ cs, words c p r = words c₀ p r then some (s.loaded (words c₀ p r) r)
      else none := by
  simp only [freadAll_eq s hr, (h₀.fread r).1, h.forall_fread]

/-- The buffers hold the bytes read. -/
theorem ReadsAt.getD_fread {c : List Byte} {x : Input} (h : ReadsAt p c x) {j : ℕ}
    (hlen : p + 4 * r ≤ c.length) (hj : j < 4 * r) :
    (x.fread r).2.buf.getD j 0 = c.getD (p + j) 0 := by
  have hgot : ((c.drop p).take (4 * r)).length = 4 * r := by simp; omega
  rw [(h.fread r).2.2, List.getD_append _ _ _ _ (by omega), List.getD_eq_getElem?_getD,
    List.getElem?_take_of_lt hj, List.getElem?_drop, ← List.getD_eq_getElem?_getD]

theorem AllAt.columnXor_fread {xs : List Input} (h : AllAt p cs xs) {j : ℕ}
    (hlen : ∀ c ∈ cs, p + 4 * r ≤ c.length) (hj : j < 4 * r) :
    columnXor ((xs.map fun x => (x.fread r).2).map Input.buf) j =
      columnXor (cs.map (eofPad D)) (p + j) := by
  unfold AllAt at h
  induction h with
  | nil => rfl
  | @cons c x cs xs hx _ ih =>
    obtain ⟨hc, hcs⟩ := List.forall_mem_cons.1 hlen
    rw [List.map_cons, List.map_cons, List.map_cons, columnXor_cons, columnXor_cons, ih hcs,
      hx.getD_fread hc hj, eofPad, List.getD_append _ _ _ _ (by omega)]

/-- What a round with enough bytes in every file outputs. -/
theorem take_xored_loaded (h₀ : ReadsAt p c₀ s.first) (h : AllAt p cs s.rest)
    (hlen : ∀ c ∈ c₀ :: cs, p + 4 * r ≤ c.length) :
    (s.loaded r r).xored.take (4 * r) =
      (List.range' p (4 * r)).map (columnXor ((c₀ :: cs).map (eofPad D))) := by
  have hall : AllAt p (c₀ :: cs) (s.first :: s.rest) := .cons h₀ h
  have hbuf : 4 * r ≤ (s.loaded r r).first.buf.length := by
    have := hlen c₀ (by simp)
    show 4 * r ≤ (s.first.fread r).2.buf.length
    rw [(h₀.fread r).2.2]
    simp
    omega
  show (wordPass _ _ r).take (4 * r) = _
  rw [take_wordPass _ _ hbuf, xorBlocks, List.range'_eq_map_range, List.map_map]
  refine List.map_congr_left fun j hj => ?_
  exact hall.columnXor_fread hlen (List.mem_range.1 hj)

end Round

/-! ### The accounting -/

section XorWords

variable {s : RiadState} {D : ℕ}

theorem xorWords_of_eq (h : s.xorTotalSize + s.num0 * 4 = D) :
    s.xorWords D = .inr (right, (s.out.fwrite s.xored 4 s.num0).2) := by
  simp only [RiadState.xorWords]
  rw [if_neg (by omega), if_pos h]

theorem xorWords_of_gt (h : D < s.xorTotalSize + s.num0 * 4) :
    s.xorWords D = .inr (errorXorFile, (s.out.fwrite s.xored 4 s.num0).2) := by
  simp only [RiadState.xorWords]
  rw [if_neg (by omega), if_neg (by omega), if_pos h]

theorem xorWords_of_lt (h : s.xorTotalSize + s.num0 * 4 < D) :
    s.xorWords D = .inl { s with
      first := { s.first with buf := s.xored }
      xorTotalSize := s.xorTotalSize + s.num0 * 4
      out := (s.out.fwrite s.xored 4 s.num0).2 } := by
  simp only [RiadState.xorWords]
  rw [if_neg (by omega), if_neg (by omega), if_neg (by omega)]

end XorWords

/-! ### The byte loop -/

section Tail

variable {s : RiadState} {p : ℕ} {c₀ : List Byte} {cs : List (List Byte)} {D : ℕ}

theorem tailBody_spec (h₀ : ReadsAt p c₀ s.first) (h : AllAt p cs s.rest) (hp : p < D) :
    ReadsAt (p + 1) c₀ s.tailBody.first ∧ AllAt (p + 1) cs s.tailBody.rest ∧
      s.tailBody.out = s.out.call (.fputc (columnXor ((c₀ :: cs).map (eofPad D)) p)) := by
  obtain ⟨hget, hnext⟩ := h₀.fgetc
  obtain ⟨hcol, hrest⟩ := h.fgetcRest (toChar c₀[p]?) hp
  refine ⟨hnext, ?_, ?_⟩
  · simp only [RiadState.tailBody, hget]
    exact hrest
  · simp only [RiadState.tailBody, OutFile.call, hget, hcol, List.map_cons, columnXor_cons,
      getD_eofPad c₀ hp]

/-- The calls of `fputc` for the bytes from offset `p` on. -/
def tailCalls (D : ℕ) (bs : List (List Byte)) (p n : ℕ) : List OutCall :=
  (List.range' p n).map fun j => .fputc (columnXor (bs.map (eofPad D)) j)

/-- The byte loop takes the bytes up to `tailStop` and outputs their exclusive or. -/
theorem tail_spec (h₀ : ReadsAt p c₀ s.first) (h : AllAt p cs s.rest)
    (hD : p + tailStop c₀ p ≤ D) :
    s.tail.xorTotalSize = s.xorTotalSize + tailStop c₀ p ∧ s.tail.num0 = s.num0 ∧
      s.tail.first.fd.content = c₀ ∧
      s.tail.out = s.out.calls (tailCalls D (c₀ :: cs) p (tailStop c₀ p)) := by
  induction ht : tailStop c₀ p generalizing s p with
  | zero =>
    rw [tailStop_eq] at ht
    split_ifs at ht with hstop
    rw [RiadState.tail, h₀.fgetc.1, if_pos hstop]
    exact ⟨rfl, rfl, h₀.fgetc.2.1, rfl⟩
  | succ t ih =>
    have ht' := ht
    rw [tailStop_eq] at ht'
    split_ifs at ht' with hstop
    obtain ⟨hnext, hrest, hout⟩ := tailBody_spec h₀ h (D := D) (by omega)
    rw [RiadState.tail, h₀.fgetc.1, if_neg hstop]
    obtain ⟨h1, h2, h3, h4⟩ := ih hnext hrest (by omega) (by omega)
    refine ⟨h1.trans ?_, h2, h3, h4.trans ?_⟩
    · show s.xorTotalSize + 1 + t = _
      omega
    · rw [hout, tailCalls, tailCalls, List.range'_succ, List.map_cons (l := List.range' _ _),
        OutFile.calls_cons]

/-- A stream that takes everything gets the exclusive or. -/
theorem calls_tailCalls {o : OutFile} (ho : o.Accepts) (D : ℕ) (bs : List (List Byte)) (p n : ℕ) :
    o.calls (tailCalls D bs p n) =
      ⟨o.data ++ (List.range' p n).map (columnXor (bs.map (eofPad D))), []⟩ := by
  rw [OutFile.calls_of_accepts ho, tailCalls, List.map_map, ← List.flatMap_def]
  exact congrArg (OutFile.mk · []) (congrArg (o.data ++ ·) (List.flatMap_pure_eq_map _ _))

/-- Where the byte loop has nothing to take it changes nothing but the position of the first
file. -/
theorem tail_of_stop (h₀ : ReadsAt p c₀ s.first) (ht : tailStop c₀ p = 0) :
    s.tail = { s with first := { s.first with fd := s.first.fd.fgetc.2 } } := by
  rw [tailStop_eq] at ht
  split_ifs at ht with hstop
  rw [RiadState.tail, h₀.fgetc.1, if_pos hstop]

end Tail

/-! ### Iterations -/

/-- At the top of the loop, `w` words of every file have been output. -/
structure Chunked (D w : ℕ) (c₀ : List Byte) (cs : List (List Byte)) (s : RiadState) : Prop where
  first : ReadsAt (4 * w) c₀ s.first
  rest : AllAt (4 * w) cs s.rest
  total : s.xorTotalSize = 4 * w
  num0 : s.num0 = 0 ↔ w = 0
  out : s.out = ⟨xorBlocks ((c₀ :: cs).map (eofPad D)) (4 * w), []⟩
  length : ∀ c ∈ c₀ :: cs, 4 * w ≤ c.length
  more : 4 * w < D ∨ w = 0

/-- The files are at their ends, with words left to read. -/
structure Exhausted (D : ℕ) (c₀ : List Byte) (cs : List (List Byte)) (s : RiadState) : Prop where
  pos : ∃ p, ReadsAt p c₀ s.first ∧ AllAt p cs s.rest ∧ ∀ c ∈ c₀ :: cs, c.length ≤ p
  left : s.xorTotalSize + 4 ≤ D

/-- The byte loop has stopped too early, and no words were read. -/
structure Stalled (D : ℕ) (c₀ : List Byte) (s : RiadState) : Prop where
  content : s.first.fd.content = c₀
  num0 : s.num0 = 0
  stop : tailStop c₀ s.xorTotalSize = 0
  left : s.xorTotalSize < D
  short : D < 4

section Iterations

variable {D w : ℕ} {c₀ : List Byte} {cs : List (List Byte)} {s : RiadState}

theorem chunked_start (D : ℕ) (c₀ : List Byte) (cs : List (List Byte)) :
    Chunked D 0 c₀ cs (.start (.ofContent c₀) (cs.map .ofContent) ⟨[], []⟩) where
  first := ⟨rfl, Or.inl rfl⟩
  rest := by
    show AllAt _ _ (List.map _ (cs.map _))
    rw [List.map_map, AllAt, List.forall₂_map_right_iff]
    exact List.forall₂_same.2 fun c _ => ⟨rfl, Or.inl rfl⟩
  total := rfl
  num0 := by simp [RiadState.start]
  out := rfl
  length := by simp
  more := Or.inr rfl

/-- A round in which every file has the words asked for takes them all. -/
theorem iter_of_chunk (h₀ : ReadsAt (4 * w) c₀ s.first) (h : AllAt (4 * w) cs s.rest)
    (htotal : s.xorTotalSize = 4 * w) {r : ℕ} (hr : chunk (D - 4 * w) = r) (hpos : 0 < r)
    (hall : ∀ c ∈ c₀ :: cs, 4 * w + 4 * r ≤ c.length) : iter D s = (s.loaded r r).xorWords D := by
  have hwords : ∀ c ∈ c₀ :: cs, words c (4 * w) r = r := fun c hc =>
    (words_eq_self hpos).2 (hall c hc)
  have hfirst := hwords c₀ (by simp)
  have hread := freadAll_spec h₀ h hpos
  rw [if_pos fun c hc => (hwords c (by simp [hc])).trans hfirst.symm, hfirst] at hread
  simp only [iter, htotal, hr, hread, if_neg hpos.ne']

/-- The state in which the byte loop begins. -/
def RiadState.seeked (D : ℕ) (s : RiadState) : RiadState :=
  if D ≠ s.xorTotalSize then s.fseekAll else s

/-- An iteration with less than a word left begins with the byte loop. -/
theorem iter_of_lt (h₀ : ReadsAt (4 * w) c₀ s.first) (h : AllAt (4 * w) cs s.rest)
    (htotal : s.xorTotalSize = 4 * w) (hleft : D < 4 * w + 4) :
    (ReadsAt (4 * w) c₀ (s.seeked D).first ∧ AllAt (4 * w) cs (s.seeked D).rest ∧
      (s.seeked D).xorTotalSize = 4 * w ∧ (s.seeked D).num0 = s.num0 ∧ (s.seeked D).out = s.out) ∧
    iter D s = if D = (s.seeked D).tail.xorTotalSize then .inr (right, (s.seeked D).tail.out)
      else (s.seeked D).tail.xorWords D := by
  have hchunk : chunk (D - s.xorTotalSize) = 0 := by
    rw [htotal]
    by_contra hne
    have := chunk_pos.1 (Nat.pos_of_ne_zero hne)
    omega
  constructor
  · unfold RiadState.seeked
    split_ifs
    · refine ⟨⟨h₀.1, Or.inl htotal⟩, ?_, htotal, rfl, rfl⟩
      show AllAt (4 * w) cs (s.rest.map fun x => { x with fd := x.fd.fseek s.xorTotalSize })
      rw [htotal]
      exact h.fseek _
    · exact ⟨h₀, h, htotal, rfl, rfl⟩
  · simp only [iter, hchunk, RiadState.freadAll, if_true, RiadState.seeked]
    rfl

/-- A round in which every file has the words asked for. -/
theorem Chunked.iter_full (h : Chunked D w c₀ cs s) {r : ℕ} (hr : chunk (D - 4 * w) = r)
    (hpos : 0 < r) (hall : ∀ c ∈ c₀ :: cs, 4 * (w + r) ≤ c.length) :
    if 4 * (w + r) = D then
      iter D s = .inr (right, ⟨xorBlocks ((c₀ :: cs).map (eofPad D)) (4 * (w + r)), []⟩)
    else ∃ t, iter D s = .inl t ∧ Chunked D (w + r) c₀ cs t := by
  have hle := chunk_le (D - 4 * w)
  rw [hr] at hle
  have hall' : ∀ c ∈ c₀ :: cs, 4 * w + 4 * r ≤ c.length := fun c hc => by
    have := hall c hc
    omega
  have hiter := iter_of_chunk h.first h.rest h.total hr hpos hall'
  have hx : (s.loaded r r).xorTotalSize + (s.loaded r r).num0 * 4 = 4 * (w + r) := by
    show s.xorTotalSize + r * 4 = _
    rw [h.total]
    omega
  have hout : ((s.loaded r r).out.fwrite (s.loaded r r).xored 4 (s.loaded r r).num0).2 =
      ⟨xorBlocks ((c₀ :: cs).map (eofPad D)) (4 * (w + r)), []⟩ := by
    rw [show (s.loaded r r).out = _ from h.out, OutFile.fwrite_of_accepts (by rfl),
      show (s.loaded r r).num0 = r from rfl, take_xored_loaded (D := D) h.first h.rest hall',
      ← xorBlocks_add, ← Nat.mul_add]
  rw [hiter]
  split_ifs with hend
  · rw [xorWords_of_eq (hx.trans hend), hout]
  · refine ⟨_, xorWords_of_lt (by omega), ?_, ?_, hx, ?_, hout, hall, Or.inl (by omega)⟩
    · have := (h.first.fread r).2.1
      rwa [← Nat.mul_add] at this
    · have := h.rest.fread r
      rwa [← Nat.mul_add] at this
    · show r = 0 ↔ w + r = 0
      omega

/-- A round in which some file does not have the words asked for. -/
theorem Chunked.iter_short (h : Chunked D w c₀ cs s) {r : ℕ} (hr : chunk (D - 4 * w) = r)
    (hpos : 0 < r) (hshort : ¬ ∀ c ∈ c₀ :: cs, 4 * (w + r) ≤ c.length) :
    (¬ (∀ c ∈ cs, words c (4 * w) r = words c₀ (4 * w) r) ∧
      iter D s = .inr (errorFreadFile, s.out)) ∨
    ((∀ c ∈ cs, words c (4 * w) r = words c₀ (4 * w) r) ∧
      ∃ t, iter D s = .inl t ∧ Exhausted D c₀ cs t) := by
  have hle := chunk_le (D - 4 * w)
  rw [hr] at hle
  have hread := freadAll_spec h.first h.rest hpos
  split_ifs at hread with hsame
  · right
    -- all files give the same number of words, and it is not the one asked for
    have hlt : words c₀ (4 * w) r < r := by
      refine lt_of_le_of_ne (words_le _ _ _) fun heq => hshort fun c hc => ?_
      have hc' : words c (4 * w) r = r := by
        rcases List.mem_cons.1 hc with rfl | hc
        · exact heq
        · exact (hsame c hc).trans heq
      have := (words_eq_self hpos).1 hc'
      omega
    have hend : ∀ c ∈ c₀ :: cs, c.length ≤ 4 * w + 4 * r := by
      intro c hc
      have hc' : words c (4 * w) r < r := by
        rcases List.mem_cons.1 hc with rfl | hc
        · exact hlt
        · rwa [hsame c hc]
      simp only [words, List.length_take, List.length_drop] at hc'
      omega
    set m := words c₀ (4 * w) r with hm
    have hx : (s.loaded m r).xorTotalSize + (s.loaded m r).num0 * 4 + 4 ≤ D := by
      show s.xorTotalSize + m * 4 + 4 ≤ D
      rw [h.total]
      omega
    have hiter : iter D s = (s.loaded m r).xorWords D := by
      simp only [iter, h.total, hr, hread, if_neg hpos.ne']
    exact ⟨hsame, _, hiter.trans (xorWords_of_lt (by omega)),
      ⟨⟨4 * w + 4 * r, (h.first.fread r).2.1, h.rest.fread r, hend⟩, hx⟩⟩
  · refine Or.inl ⟨hsame, ?_⟩
    simp only [iter, h.total, hr, hread]

/-- Files at their ends give no words, again and again. -/
theorem Exhausted.iter (h : Exhausted D c₀ cs s) :
    ∃ t, Exhausted D c₀ cs t ∧ iter D s = .inl t := by
  obtain ⟨p, h₀, hrest, hend⟩ := h.pos
  have hleft := h.left
  set r := chunk (D - s.xorTotalSize) with hr
  have hpos : 0 < r := chunk_pos.2 (by omega)
  have hwords : ∀ c ∈ c₀ :: cs, words c p r = 0 := by
    intro c hc
    rw [words, List.drop_eq_nil_of_le (hend c hc), List.take_nil]
    rfl
  have hread := freadAll_spec h₀ hrest hpos
  rw [if_pos fun c hc => (hwords c (by simp [hc])).trans (hwords c₀ (by simp)).symm,
    hwords c₀ (by simp)] at hread
  have hx : (s.loaded 0 r).xorTotalSize + (s.loaded 0 r).num0 * 4 = s.xorTotalSize := rfl
  have hiter : ORaidServer.iter D s = (s.loaded 0 r).xorWords D := by
    simp only [ORaidServer.iter, ← hr, hread, if_neg hpos.ne']
  have hstep := xorWords_of_lt (s := s.loaded 0 r) (D := D) (by omega)
  refine ⟨_, ?_, hiter.trans hstep⟩
  exact ⟨⟨p + 4 * r, (h₀.fread r).2.1, hrest.fread r, fun c hc => (hend c hc).trans
    (Nat.le_add_right _ _)⟩, hleft⟩

/-- The last iteration, with less than a word left. -/
theorem Chunked.iter_tail (h : Chunked D w c₀ cs s) (hleft : D < 4 * w + 4) :
    if 4 * w + tailStop c₀ (4 * w) = D then
      iter D s = .inr (right, ⟨xorBlocks ((c₀ :: cs).map (eofPad D)) D, []⟩)
    else if D < 4 ∧ tailStop c₀ 0 < D then ∃ t, iter D s = .inl t ∧ Stalled D c₀ t
    else ∃ out, iter D s = .inr (errorXorFile, out) := by
  obtain ⟨⟨hu₀, hurest, hux, hun, huo⟩, hiter⟩ := iter_of_lt h.first h.rest h.total hleft
  set u := s.seeked D
  obtain ⟨htx, htn, htc, -⟩ := tail_spec hu₀ hurest le_rfl
  rw [hux] at htx
  rw [hiter, htx]
  by_cases h1 : 4 * w + tailStop c₀ (4 * w) = D
  · obtain ⟨-, -, -, hto⟩ := tail_spec hu₀ hurest h1.le
    rw [if_pos h1, if_pos h1.symm, hto, huo, h.out, calls_tailCalls (by rfl), ← xorBlocks_add, h1]
  · rw [if_neg h1, if_neg (Ne.symm h1)]
    have hn := h.num0
    have hmore := h.more
    split_ifs with hearly
    · -- no words were read, so nothing but the byte loop moves the total
      obtain ⟨hD, ht⟩ := hearly
      have hw : w = 0 := by omega
      have ht0 : tailStop c₀ (4 * w) = tailStop c₀ 0 := by rw [hw]
      have hzero : u.tail.num0 = 0 := by omega
      refine ⟨_, xorWords_of_lt (by omega), htc, hzero, ?_, ?_, hD⟩
      · show tailStop c₀ (u.tail.xorTotalSize + u.tail.num0 * 4) = 0
        rw [htx, hzero, Nat.zero_mul, Nat.add_zero]
        exact tailStop_add _ _
      · show u.tail.xorTotalSize + u.tail.num0 * 4 < D
        omega
    · refine ⟨_, xorWords_of_gt ?_⟩
      rcases Nat.eq_zero_or_pos w with hw | hw
      · have ht0 : tailStop c₀ (4 * w) = tailStop c₀ 0 := by rw [hw]
        have : ¬ tailStop c₀ 0 < D := fun ht => hearly ⟨by omega, ht⟩
        omega
      · omega

/-- The byte loop stops where it stopped before. -/
theorem Stalled.iter (h : Stalled D c₀ s) : ∃ t, Stalled D c₀ t ∧ iter D s = .inl t := by
  have hleft := h.left
  have hchunk : chunk (D - s.xorTotalSize) = 0 := by
    by_contra hne
    have := chunk_pos.1 (Nat.pos_of_ne_zero hne)
    have := h.short
    omega
  have hfirst : ReadsAt s.xorTotalSize c₀ s.fseekAll.first := ⟨h.content, Or.inl rfl⟩
  have htail := tail_of_stop hfirst h.stop
  have hiter : ORaidServer.iter D s = s.fseekAll.tail.xorWords D := by
    simp only [ORaidServer.iter, hchunk, RiadState.freadAll, if_true]
    rw [if_pos hleft.ne', if_neg]
    rw [htail]
    exact hleft.ne'
  have hx : s.fseekAll.tail.xorTotalSize = s.xorTotalSize := by rw [htail]; rfl
  have hn : s.fseekAll.tail.num0 = 0 := by rw [htail]; exact h.num0
  have hstep := xorWords_of_lt (s := s.fseekAll.tail) (D := D) (by rw [hx, hn]; omega)
  refine ⟨_, ?_, hiter.trans hstep⟩
  refine ⟨?_, hn, ?_, ?_, h.short⟩
  · show s.fseekAll.tail.first.fd.content = c₀
    rw [htail]
    exact hfirst.fgetc.2.1
  · show tailStop c₀ (s.fseekAll.tail.xorTotalSize + s.fseekAll.tail.num0 * 4) = 0
    rw [hx, hn]
    exact h.stop
  · show s.fseekAll.tail.xorTotalSize + s.fseekAll.tail.num0 * 4 < D
    rw [hx, hn]
    exact hleft

/-- From the top of the loop on, `RIGHT` is returned if and only if the files are accepted, and the
output is then complete. -/
theorem Chunked.returns_right_iff (h : Chunked D w c₀ cs s) (o : OutFile) :
    Loop.Returns (iter D) s (right, o) ↔
      Accepted D c₀ cs ∧ o = ⟨xorBlocks ((c₀ :: cs).map (eofPad D)) D, []⟩ := by
  -- by induction on the number of bytes left
  induction hm : D - 4 * w using Nat.strong_induction_on generalizing w s with
  | _ m ih =>
    rcases Nat.eq_zero_or_pos (chunk (D - 4 * w)) with hr | hr
    · have hleft : D < 4 * w + 4 := by
        by_contra hge
        have := chunk_pos.2 (show 4 ≤ D - 4 * w by omega)
        omega
      have hmore := h.more
      have hw : 4 * (D / 4) = 4 * w := by omega
      have hacc : Accepted D c₀ cs ↔ 4 * w + tailStop c₀ (4 * w) = D := by
        rw [Accepted, hw]
        exact ⟨fun ha => by omega, fun ht => ⟨h.length, Or.inr (by omega)⟩⟩
      have hstep := h.iter_tail hleft
      rw [hacc]
      split_ifs at hstep with ht hearly
      · rw [Loop.returns_of_ret hstep]
        exact ⟨fun he => ⟨ht, (Prod.mk.inj he).2.symm⟩, fun ⟨_, ho⟩ => by rw [ho]⟩
      · refine iff_of_false ?_ fun ha => ht ha.1
        obtain ⟨t, hnext, hst⟩ := hstep
        rw [Loop.returns_of_next hnext]
        exact Loop.not_returns_of_invariant (fun _ hu => Stalled.iter hu) hst
      · refine iff_of_false ?_ fun ha => ht ha.1
        obtain ⟨out, hret⟩ := hstep
        rw [Loop.returns_of_ret hret]
        intro he
        exact absurd (Prod.mk.inj he).1 (by decide)
    · have hle := chunk_le (D - 4 * w)
      by_cases hall : ∀ c ∈ c₀ :: cs, 4 * (w + chunk (D - 4 * w)) ≤ c.length
      · have hstep := h.iter_full rfl hr hall
        split_ifs at hstep with hend
        · have hD : 4 * (D / 4) = D := by omega
          have hacc : Accepted D c₀ cs := by
            refine ⟨fun c hc => ?_, Or.inl (by omega)⟩
            have := hall c hc
            omega
          rw [Loop.returns_of_ret hstep, hend]
          exact ⟨fun he => ⟨hacc, (Prod.mk.inj he).2.symm⟩, fun ⟨_, ho⟩ => by rw [ho]⟩
        · obtain ⟨t, hnext, ht⟩ := hstep
          rw [Loop.returns_of_next hnext]
          exact ih _ (by omega) ht rfl
      · refine iff_of_false ?_ fun ha => hall fun c hc => ?_
        · rcases h.iter_short rfl hr hall with ⟨-, hret⟩ | ⟨-, t, hnext, ht⟩
          · rw [Loop.returns_of_ret hret]
            intro he
            exact absurd (Prod.mk.inj he).1 (by decide)
          · rw [Loop.returns_of_next hnext]
            exact Loop.not_returns_of_invariant (fun _ hu => Exhausted.iter hu) ht
        · have := ha.1.1 c hc
          omega

end Iterations

/-- Every input buffer is allocated. -/
def Allocates (mallocs : ℕ → Bool) (n : ℕ) : Prop := ∀ i < n, mallocs i = true

section Returns

variable {fuel D : ℕ} {mallocs : ℕ → Bool} {first : InFile} {rest : List InFile} {out : OutFile}
  {r : RiadResult}

/-- Once the buffers are allocated the loop is entered. -/
theorem sRiad_of_allocates (h : Allocates mallocs (rest.length + 1)) :
    sRiad fuel D mallocs first rest out =
      (Loop.run (iter D) fuel (.start first rest out)).map fun r => ⟨r.1, r.2, []⟩ := by
  have hfind : ((List.range (rest.length + 1)).find? fun i => !mallocs i) = none := by
    simpa [Allocates] using h
  rw [sRiad, hfind]

/-- The first allocation that fails ends the function. -/
theorem sRiad_of_not_allocates (h : ¬ Allocates mallocs (rest.length + 1)) :
    ∃ i < rest.length + 1, mallocs i = false ∧ (∀ j < i, mallocs j = true) ∧ ∀ fuel D first out,
      sRiad fuel D mallocs first rest out = some ⟨errorApplyMalloc, out, List.range i⟩ := by
  cases hfind : (List.range (rest.length + 1)).find? fun i => !mallocs i with
  | none => exact absurd (by simpa [Allocates] using hfind) h
  | some i =>
    obtain ⟨hfail, hi, hfirst⟩ := List.find?_range_eq_some.1 hfind
    refine ⟨i, List.mem_range.1 hi, by simpa using hfail, fun j hj => by simpa using hfirst j hj,
      fun fuel D first out => ?_⟩
    rw [sRiad, hfind]

/-- The codes that `s_riad` returns. -/
theorem sRiad_code (h : sRiad fuel D mallocs first rest out = some r) :
    r.ret ∈ [right, errorApplyMalloc, errorFreadFile, errorFwriteFile, errorXorFile] := by
  have hwords : ∀ (s : RiadState) (q : ℤ × OutFile), s.xorWords D = .inr q →
      q.1 ∈ [right, errorApplyMalloc, errorFreadFile, errorFwriteFile, errorXorFile] := by
    intro s q hq
    simp only [RiadState.xorWords] at hq
    split_ifs at hq <;> cases hq <;> simp
  have hiter : ∀ (s : RiadState) (q : ℤ × OutFile), iter D s = .inr q →
      q.1 ∈ [right, errorApplyMalloc, errorFreadFile, errorFwriteFile, errorXorFile] := by
    intro s q hq
    simp only [iter] at hq
    split at hq
    · cases hq
      simp
    · split_ifs at hq
      all_goals first
        | exact hwords _ _ hq
        | (cases hq; simp)
  by_cases hall : Allocates mallocs (rest.length + 1)
  · rw [sRiad_of_allocates hall] at h
    obtain ⟨q, hq, rfl⟩ := Option.map_eq_some_iff.1 h
    have hreturns : Loop.Returns (iter D) _ q := ⟨fuel, hq⟩
    exact hreturns.induct (I := fun _ => True)
      (Q := fun q => q.1 ∈ [right, errorApplyMalloc, errorFreadFile, errorFwriteFile, errorXorFile])
      (fun _ _ _ _ => trivial) (fun s q _ => hiter s q) trivial
  · obtain ⟨i, -, -, -, hfail⟩ := sRiad_of_not_allocates hall
    rw [hfail] at h
    cases h
    simp

/-- `s_riad` returns `RIGHT` or a negative code. -/
theorem sRiad_ret (h : sRiad fuel D mallocs first rest out = some r) : r.ret = right ∨ r.ret < 0 := by
  have hcode := sRiad_code h
  simp only [List.mem_cons, List.not_mem_nil, or_false] at hcode
  rcases hcode with hr | hr | hr | hr | hr <;> rw [hr] <;> decide

/-- More iterations do not change what `s_riad` returns. -/
theorem sRiad_unique {fuel' : ℕ} {r' : RiadResult} (h : sRiad fuel D mallocs first rest out = some r)
    (h' : sRiad fuel' D mallocs first rest out = some r') : r = r' := by
  by_cases hall : Allocates mallocs (rest.length + 1)
  · rw [sRiad_of_allocates hall] at h h'
    obtain ⟨q, hq, rfl⟩ := Option.map_eq_some_iff.1 h
    obtain ⟨q', hq', rfl⟩ := Option.map_eq_some_iff.1 h'
    have hreturns : Loop.Returns (iter D) _ q := ⟨fuel, hq⟩
    rw [hreturns.unique ⟨fuel', hq'⟩]
  · obtain ⟨i, -, -, -, hfail⟩ := sRiad_of_not_allocates hall
    rw [hfail] at h h'
    exact Option.some.inj (h.symm.trans h')

end Returns

theorem length_ofContent (cs : List (List Byte)) : (cs.map InFile.ofContent).length = cs.length :=
  List.length_map _

/-- `s_riad` returns `RIGHT` if and only if its buffers are allocated and the files are accepted, and
what it has written is then the exclusive or of the files. -/
theorem sRiad_right_iff (D : ℕ) (mallocs : ℕ → Bool) (c₀ : List Byte) (cs : List (List Byte))
    (o : OutFile) :
    (∃ fuel live, sRiad fuel D mallocs (.ofContent c₀) (cs.map .ofContent) ⟨[], []⟩ =
      some ⟨right, o, live⟩) ↔
      Allocates mallocs (cs.length + 1) ∧ Accepted D c₀ cs ∧
        o = ⟨xorBlocks ((c₀ :: cs).map (eofPad D)) D, []⟩ := by
  rw [← (chunked_start D c₀ cs).returns_right_iff, ← length_ofContent cs]
  by_cases hall : Allocates mallocs ((cs.map InFile.ofContent).length + 1)
  · simp only [sRiad_of_allocates hall, Option.map_eq_some_iff, RiadResult.mk.injEq]
    constructor
    · rintro ⟨fuel, live, ⟨ret, out⟩, hrun, rfl, rfl, -⟩
      exact ⟨hall, fuel, hrun⟩
    · rintro ⟨-, fuel, hrun⟩
      exact ⟨fuel, [], _, hrun, rfl, rfl, rfl⟩
  · refine iff_of_false ?_ fun h => hall h.1
    rintro ⟨fuel, live, hrun⟩
    obtain ⟨i, -, -, -, hfail⟩ := sRiad_of_not_allocates hall
    rw [hfail] at hrun
    simp only [Option.some.injEq, RiadResult.mk.injEq] at hrun
    exact absurd hrun.1 (by decide)

end ORaidServer
