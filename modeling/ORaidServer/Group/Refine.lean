import ORaidServer.Group.StreamInv
import ORaidServer.Lib.Slots

/-!
# The group refines the gathering of segments

Segment `m` of a file is the part of `READ_BUF_SIZE` bytes from `m * READ_BUF_SIZE` on.  Seen this
way, the producers and the consumer of a group carry out the gathering of `Lib.Slots`: a buffer
being written is a slot being filled with a segment, a full one is a filled slot, and `buf_xor` logs
the segment it writes.

* `Stream.gather`, the abstraction, and `Refines`, which adds what was output so far;
* `Refines.writer` and `Refines.judge`: every step that meets `Stream.Follows` is matched by
  at most one step of the gathering.
-/

namespace ORaidServer

open Guarded ByteMem

/-- Buffer `k` of the file as a slot. -/
def SingleFileInfo.slot (x : SingleFileInfo) (k : Fin 2) : Slots.Slot :=
  match (x.buf k).flag with
  | .empty => .free
  | .writing => .filling ((x.buf k).start / readBufSize)
  | .full => .filled ((x.buf k).start / readBufSize)

/-- The number of segments begun. -/
def SingleFileInfo.begun (x : SingleFileInfo) : ℕ :=
  if (x.buf 0).flag = .writing then (x.buf 0).start / readBufSize + 1
  else if (x.buf 1).flag = .writing then (x.buf 1).start / readBufSize + 1
  else (x.stored + readBufSize - 1) / readBufSize

section Slot

variable {x : SingleFileInfo} {k : Fin 2} {m : ℕ}

@[simp] theorem slot_eq_free : x.slot k = .free ↔ (x.buf k).flag = .empty := by
  unfold SingleFileInfo.slot
  cases h : (x.buf k).flag <;> simp

@[simp] theorem slot_eq_filling :
    x.slot k = .filling m ↔ x.Writing k ∧ (x.buf k).start / readBufSize = m := by
  unfold SingleFileInfo.slot SingleFileInfo.Writing
  cases h : (x.buf k).flag <;> simp

@[simp] theorem slot_eq_filled :
    x.slot k = .filled m ↔ x.Full k ∧ (x.buf k).start / readBufSize = m := by
  unfold SingleFileInfo.slot SingleFileInfo.Full
  cases h : (x.buf k).flag <;> simp

theorem slot_holds : (x.slot k).Holds m ↔
    (x.buf k).flag ≠ .empty ∧ (x.buf k).start / readBufSize = m := by
  unfold SingleFileInfo.slot
  cases h : (x.buf k).flag <;> simp

theorem slot_setBuf (b : InBuf) : (x.setBuf k b).slot =
    Function.update x.slot k (((x.setBuf k b).slot) k) := by
  funext k'
  rcases eq_or_ne k' k with rfl | hk
  · simp
  · simp [SingleFileInfo.slot, SingleFileInfo.buf_setBuf, hk]

theorem slot_congr {y : SingleFileInfo}
    (h : ∀ k, (y.buf k).flag = (x.buf k).flag ∧ (y.buf k).start = (x.buf k).start) :
    y.slot = x.slot := by
  funext k
  simp [SingleFileInfo.slot, h k]

theorem begun_of_not_writing (h : ∀ k, ¬ x.Writing k) :
    x.begun = (x.stored + readBufSize - 1) / readBufSize := by
  have h0 : (x.buf 0).flag ≠ .writing := h 0
  have h1 : (x.buf 1).flag ≠ .writing := h 1
  simp [SingleFileInfo.begun, h0, h1]

variable {f : List Byte} {dr : Fin 2 → Prop} {l : WriteLocal} {ps : List (List Byte)}

theorem FileInv.begun_of_writing (h : FileInv f dr x l ps) (hw : x.Writing k) :
    x.begun = (x.buf k).start / readBufSize + 1 := by
  unfold SingleFileInfo.begun
  split_ifs with h0 h1
  · rw [h.one 0 k h0 hw]
  · rw [h.one 1 k h1 hw]
  · exfalso
    obtain rfl | rfl : k = 0 ∨ k = 1 := by omega
    · exact h0 hw
    · exact h1 hw

/-- The number of segments begun depends only on the buffers being written. -/
theorem begun_congr {y : SingleFileInfo} (hw : ∀ k, y.Writing k ↔ x.Writing k)
    (hst : ∀ k, (y.buf k).start = (x.buf k).start)
    (hs : (∀ k, ¬ x.Writing k) → y.stored = x.stored) : y.begun = x.begun := by
  have h0 : (y.buf 0).flag = .writing ↔ (x.buf 0).flag = .writing := hw 0
  have h1 : (y.buf 1).flag = .writing ↔ (x.buf 1).flag = .writing := hw 1
  unfold SingleFileInfo.begun
  simp only [h0, h1, hst]
  split_ifs with hx0 hx1
  · rfl
  · rfl
  · rw [hs (Fin.forall_fin_two.2 ⟨hx0, hx1⟩)]

/-- Freeing a buffer frees its slot. -/
theorem slot_release (x : SingleFileInfo) (k : Fin 2) :
    (x.setBuf k { x.buf k with flag := .empty }).slot = Function.update x.slot k .free := by
  rw [slot_setBuf]
  congr 1
  exact slot_eq_free.2 (by simp)

/-- A buffer that is freed was full, so this does not end a writing. -/
theorem begun_release (h : x.Full k) :
    (x.setBuf k { x.buf k with flag := .empty }).begun = x.begun := by
  refine begun_congr (fun k' => ?_) (fun k' => ?_) fun _ => SingleFileInfo.stored_setBuf _ _ _
  · rcases eq_or_ne k' k with rfl | hk
    · simp [show (x.buf k').flag = .full from h, SingleFileInfo.Writing]
    · simp [SingleFileInfo.Writing, SingleFileInfo.buf_setBuf, hk]
  · rcases eq_or_ne k' k with rfl | hk
    · simp
    · simp [SingleFileInfo.buf_setBuf, hk]

/-- What a step of a producer is for the gathering: nothing, a fill, or a take. -/
theorem WriterMove.gather {c c' : FileCtx} {ps ps' : List (List Byte)}
    (hm : WriterMove f.length c ps c' ps') (h : FileInv f dr c.info c.loc ps) :
    (c'.info.slot = c.info.slot ∧ c'.info.begun = c.info.begun) ∨
    (∃ k m, c.info.slot k = .filling m ∧
      c'.info.slot = Function.update c.info.slot k (.filled m) ∧
      c'.info.begun = c.info.begun) ∨
    (∃ k, (c.info.buf k).flag = .empty ∧ (∀ k', ¬ c.info.Writing k') ∧
      (c.loc.pc = if k = 0 then .tail0 else .tail1) ∧
      c.info.stored = c.info.begun * readBufSize ∧
      c'.info.slot = Function.update c.info.slot k (.filling c.info.begun) ∧
      c'.info.begun = c.info.begun + 1) := by
  have hpos := readBufSize_pos
  cases hm with
  | call p _ hpc => exact Or.inl ⟨rfl, rfl⟩
  | step _ hpc =>
    have h' := h.step
    rcases h.step_cases with ⟨hflag, hstored⟩ | ⟨k, hw, hinfo⟩ | ⟨k, he, hno, hk, hinfo⟩
    · exact Or.inl ⟨slot_congr hflag, begun_congr (fun k => by simp [SingleFileInfo.Writing, hflag])
        (fun k => (hflag k).2) hstored⟩
    · refine Or.inr (Or.inl ⟨k, (c.info.buf k).start / readBufSize, by simp [hw], ?_, ?_⟩)
      · rw [hinfo, slot_setBuf]
        congr 1
        simp [SingleFileInfo.Full]
      · -- the buffer that is marked holds at least one byte and at most a segment
        have hfull : (writeBufStep f.length c).info.Full k := by
          rw [hinfo]
          simp [SingleFileInfo.Full]
        have hno : ∀ k', ¬ (writeBufStep f.length c).info.Writing k' := by
          intro k' hw'
          rw [hinfo] at hw'
          rcases eq_or_ne k' k with rfl | hk
          · simp [SingleFileInfo.Writing] at hw'
          · rw [SingleFileInfo.Writing, SingleFileInfo.buf_setBuf, if_neg hk] at hw'
            exact hk (h.one k' k hw' hw)
        have hsize := h'.full k hfull
        have hlt := (h'.start k (by rw [show _ = BufFlag.full from hfull]; simp)).2
        obtain ⟨hend, -⟩ := h.writing k hw
        obtain ⟨hdvd, -⟩ := h.start k (by rw [show _ = BufFlag.writing from hw]; simp)
        have hbuf : ((writeBufStep f.length c).info.buf k) =
            { c.info.buf k with flag := .full } := by rw [hinfo]; simp
        rw [hbuf] at hsize hlt
        have hsize' : (c.info.buf k).bufSize =
            min readBufSize (f.length - (c.info.buf k).start) := hsize
        have hlt' : (c.info.buf k).start < f.length := hlt
        have hst : (writeBufStep f.length c).info.stored = c.info.stored := by rw [hinfo]; rfl
        rw [begun_of_not_writing hno, h.begun_of_writing hw, hst, ← hend]
        obtain ⟨m, hm⟩ := hdvd
        rw [hm, Nat.mul_div_cancel_left _ hpos, Nat.div_eq_iff hpos]
        rw [hm] at hsize' hlt'
        rw [Nat.succ_mul, Nat.mul_comm m]
        omega
    · refine Or.inr (Or.inr ⟨k, he, hno, hk, ?_⟩)
      have hdvd : readBufSize ∣ c.info.stored := by
        have hwk : (writeBufStep f.length c).info.Writing k := by
          rw [hinfo]
          simp [SingleFileInfo.Writing, makeWritable]
        have := (h'.start k (by rw [show _ = BufFlag.writing from hwk]; simp)).1
        rw [hinfo] at this
        simpa [makeWritable] using this
      obtain ⟨m, hm⟩ := hdvd
      have hb : c.info.begun = m := by
        rw [begun_of_not_writing hno, hm, Nat.div_eq_iff hpos, Nat.mul_comm m]
        omega
      have hstart : ((makeWritable k c.info).buf k).start / readBufSize = m := by
        simp [makeWritable, hm, Nat.mul_div_cancel_left _ hpos]
      have hwk : (makeWritable k c.info).Writing k := by
        simp [SingleFileInfo.Writing, makeWritable]
      rw [hb]
      refine ⟨by rw [hm, Nat.mul_comm], ?_, ?_⟩
      · rw [hinfo, makeWritable, slot_setBuf]
        congr 1
        exact slot_eq_filling.2 ⟨hwk, hstart⟩
      · rw [hinfo] at h' ⊢
        rw [h'.begun_of_writing hwk, hstart]

end Slot

/-! ### The abstraction -/

/-- The exclusive or of the segments `m` of the files below `n`. -/
def segment (n N : ℕ) (f : ℕ → List Byte) (m : ℕ) : List Byte :=
  ((xorBlocks ((List.range n).map f) N).drop (m * readBufSize)).take readBufSize

/-- The first `m` segments in order are what the files' exclusive or begins with. -/
theorem flatten_segments (n N : ℕ) (f : ℕ → List Byte) (m : ℕ) :
    ((List.range m).map (segment n N f)).flatten =
      (xorBlocks ((List.range n).map f) N).take (m * readBufSize) := by
  induction m with
  | zero => simp
  | succ m ih =>
    rw [List.range_succ, List.map_append, List.flatten_append, ih, Nat.succ_mul, List.take_add]
    simp [segment]

/-- The exclusive or of a slice of the blocks is the slice of their exclusive or. -/
theorem xorBlocks_slice (l : List ℕ) (f : ℕ → List Byte) (N o r : ℕ) :
    xorBlocks (l.map fun i => ((f i).drop o).take r) (min r (N - o)) =
      ((xorBlocks (l.map f) N).drop o).take r := by
  refine ext_getD (by simp) fun p hp => ?_
  simp only [length_xorBlocks] at hp
  rw [getD_xorBlocks _ hp]
  have hr : ∀ b : List Byte, ((b.drop o).take r).getD p 0 = b.getD (o + p) 0 := by
    intro b
    rw [List.getD_eq_getElem?_getD, List.getD_eq_getElem?_getD,
      List.getElem?_take_of_lt (by omega), List.getElem?_drop]
  rw [hr, getD_xorBlocks _ (by omega)]
  exact columnXor_congr _ _ _ _ _ fun i _ => hr (f i)

namespace Stream

/-- The drain a consumer at `pc` is in. -/
def drainOf (n : ℕ) : JudgePc → Option (Fin 2 × Set (Fin n))
  | .xor k | .resetNum k => some (k, Set.univ)
  | .resetFlag k j => some (k, {i | j ≤ i})
  | _ => none

/-- The gathering a group is in, the segments drained so far being `log`. -/
def gather (n : ℕ) (s : Stream) (log : List ℕ) : Slots.State (Fin n) (Fin 2) where
  next i := (s.group.file i).begun
  slot i := (s.group.file i).slot
  drain := drainOf n s.judge.pc
  log := log

/-- The drained segments that were output: `buf_xor` may still have to write the last one. -/
def output (s : Stream) (log : List ℕ) : List ℕ :=
  match s.judge.pc with
  | .xor _ => log.dropLast
  | _ => log

end Stream

/-- The group `s` is in the state `a` of the gathering and has output what `a` has drained. -/
structure Refines (n N : ℕ) (f : ℕ → List Byte) (s : Stream)
    (a : Slots.State (Fin n) (Fin 2)) : Prop where
  abs : a = s.gather n a.log
  data : s.out.data = ((s.output a.log).map (segment n N f)).flatten
  xorSize : s.group.xorSize = s.out.data.length
  correct : s.group.correctFlag = 0
  ended : s.group.xorSize = N → s.group.xorFlag = 1
  verdict : ∀ r, s.judge.pc = .done r →
    r = verdict s.group ∧ ¬ (s.group.xorFlag = 0 ∧ s.group.correctFlag = 0)
  result : ∀ k, s.judge.pc = .resetNum k → ∀ m, a.log.getLast? = some m →
    s.group.inBuf k 0 = segment n N f m

/-- The start of the gathering. -/
theorem refines_init {n N : ℕ} {f : ℕ → List Byte} {pieces : ℕ → List (List Byte)} (hN : 0 < N) :
    Refines n N f (.init n N pieces) (Slots.State.start 0) := by
  refine ⟨?_, rfl, rfl, rfl, fun h => absurd h hN.ne, (fun r h => by cases h),
    fun k h => by cases h⟩
  have hslot : Stream.readyFile.slot = Function.update (fun _ => .free) 0 (.filling 0) := by
    funext k
    obtain rfl | rfl : k = 0 ∨ k = 1 := by omega
    · rfl
    · rfl
  simp only [Slots.State.start, Stream.gather]
  congr 1
  · exact funext fun _ => (show (Stream.readyFile.begun) = 1 by
      simp [SingleFileInfo.begun, Stream.readyFile, SingleFileInfo.buf]).symm
  · exact funext fun _ => hslot.symm

/-- `buf_xor` on buffers that all hold segment `m` outputs this segment. -/
theorem StreamInv.bufXor_segment {n N m : ℕ} {f : ℕ → List Byte} {s : Stream} {k : Fin 2}
    (h : StreamInv n N f s) (hn : 0 < n) (hslot : ∀ i < n, (s.group.file i).slot k = .filled m)
    (hold : ∀ i, ¬ s.Overwritten i k) :
    bufXor n s.group s.out k =
      (0, (s.group.setInBuf0 k (segment n N f m)).addXorSize n (min readBufSize (N - m * readBufSize)),
        ⟨s.out.data ++ segment n N f m, []⟩) := by
  have hstart : ∀ i < n, (s.group.file i).Full k ∧
      ((s.group.file i).buf k).start = m * readBufSize := by
    intro i hi
    obtain ⟨hfull, hdiv⟩ := slot_eq_filled.1 (hslot i hi)
    obtain ⟨q, hq⟩ := ((h.file i hi).start k (by rw [show _ = BufFlag.full from hfull]; simp)).1
    rw [hq, Nat.mul_div_cancel_left _ readBufSize_pos] at hdiv
    exact ⟨hfull, by rw [hq, hdiv, Nat.mul_comm]⟩
  have hsize : ∀ i < n, ((s.group.file i).buf k).bufSize =
      min readBufSize (N - m * readBufSize) := by
    intro i hi
    obtain ⟨hfull, hst⟩ := hstart i hi
    rw [(h.file i hi).full k hfull, h.length i hi, hst]
  have hblocks : (List.range n).map (s.group.inBuf k) =
      (List.range n).map fun i => ((f i).drop (m * readBufSize)).take readBufSize := by
    refine List.map_congr_left fun i hi => ?_
    have hi := List.mem_range.1 hi
    obtain ⟨hfull, hst⟩ := hstart i hi
    rw [← hst]
    exact (h.file i hi).bytes_of_full hfull (hold i)
  have hseg : xorBlocks ((List.range n).map (s.group.inBuf k))
      (min readBufSize (N - m * readBufSize)) = segment n N f m := by
    rw [hblocks]
    exact xorBlocks_slice _ _ _ _ _
  have hstep := bufXor_of_sizes hn h.accepts hsize
  rwa [hseg] at hstep

namespace Refines

variable {n N : ℕ} {f : ℕ → List Byte} {s : Stream} {a : Slots.State (Fin n) (Fin 2)}
  {G : Slots.State (Fin n) (Fin 2) → Fin 2 → Prop}

theorem slot_eq (hR : Refines n N f s a) (i : Fin n) : a.slot i = (s.group.file i).slot := by
  rw [hR.abs]
  rfl

theorem drain_eq (hR : Refines n N f s a) : a.drain = Stream.drainOf n s.judge.pc := by
  rw [hR.abs]
  rfl

/-- A step of a producer that follows the others. -/
theorem writer (hR : Refines n N f s a) (h : StreamInv n N f s) {i : ℕ} (hi : i < n)
    {c : FileCtx} {ps : List (List Byte)}
    (hm : WriterMove s.group.fileSize (s.ctx i) (s.writer i).pieces c ps)
    (hF : s.Follows (.writer i)) :
    ∃ a', Relation.ReflTransGen (Slots.Step G) a a' ∧ Refines n N f (s.put i c ps) a' := by
  rw [h.fileSize, ← h.length i hi] at hm
  -- only the record of file `i` changes
  have hput : ∀ (nx : ℕ) (sl : Fin 2 → Slots.Slot), c.info.begun = nx → c.info.slot = sl →
      Refines n N f (s.put i c ps)
        { a with next := Function.update a.next ⟨i, hi⟩ nx,
                 slot := Function.update a.slot ⟨i, hi⟩ sl } := by
    rintro nx sl rfl rfl
    refine ⟨?_, hR.data, hR.xorSize, hR.correct, hR.ended, hR.verdict, fun k hk m hlast => ?_⟩
    rotate_left
    · rw [← hR.result k hk m hlast]
      rcases eq_or_ne i 0 with rfl | hi0
      · have hb := hm.buf_of_full (h.file 0 hi) (h.taken k (Or.inr hk) 0 hi).1
        rw [TGroupFileInfo.inBuf, Stream.file_put_self, hb]
        rfl
      · rw [TGroupFileInfo.inBuf, Stream.file_put_of_ne _ _ _ (Ne.symm hi0)]
        rfl
    have habs := hR.abs
    simp only [Stream.gather] at habs ⊢
    rw [habs]
    dsimp only
    congr 1
    · funext j
      rcases eq_or_ne j ⟨i, hi⟩ with rfl | hj
      · simp [Stream.file_put_self]
      · have hji : (j : ℕ) ≠ i := fun e => hj (Fin.ext e)
        rw [Function.update_of_ne hj, Stream.file_put_of_ne _ _ _ hji]
    · funext j
      rcases eq_or_ne j ⟨i, hi⟩ with rfl | hj
      · simp [Stream.file_put_self]
      · have hji : (j : ℕ) ≠ i := fun e => hj (Fin.ext e)
        rw [Function.update_of_ne hj, Stream.file_put_of_ne _ _ _ hji]
  have hslot : (s.ctx i).info.slot = a.slot ⟨i, hi⟩ := (hR.slot_eq ⟨i, hi⟩).symm
  have hnext : (s.ctx i).info.begun = a.next ⟨i, hi⟩ := by rw [hR.abs]; rfl
  rcases hm.gather (h.file i hi) with ⟨hsl, hb⟩ | ⟨k, m, hfill, hsl, hb⟩ |
    ⟨k, he, hno, hk, hst, hsl, hb⟩
  · refine ⟨_, .refl, ?_⟩
    have := hput _ _ (hb.trans hnext) (hsl.trans hslot)
    rwa [Function.update_eq_self, Function.update_eq_self] at this
  · refine ⟨_, .single (.fill ⟨i, hi⟩ k m (hslot ▸ hfill)), ?_⟩
    rw [hslot] at hsl
    have := hput _ _ (hb.trans hnext) hsl
    rwa [Function.update_eq_self] at this
  · have hstart : ∀ j < n, ∀ k', ((s.group.file j).buf k').flag ≠ .empty →
        ((s.group.file j).buf k').start / readBufSize = (s.group.file i).begun →
        ((s.group.file j).buf k').start = (s.group.file i).stored := by
      intro j hj k' hne hdiv
      obtain ⟨m, hm⟩ := ((h.file j hj).start k' hne).1
      rw [hm, Nat.mul_div_cancel_left _ readBufSize_pos] at hdiv
      rw [hm, hdiv, show (s.group.file i).stored = _ from hst, Nat.mul_comm]
      rfl
    refine ⟨_, .single (.take ⟨i, hi⟩ k ?_ ?_ ?_), ?_⟩
    · rw [← hslot]
      exact slot_eq_free.2 he
    · intro k' m hfill
      rw [← hslot] at hfill
      exact hno k' (slot_eq_filling.1 hfill).1
    · intro j k' hh
      rw [← hnext, hR.slot_eq j] at hh
      obtain ⟨hne, hdiv⟩ := slot_holds.1 hh
      by_contra hk'
      exact hF k ⟨hk, he, hno⟩ j (by rw [h.fileNum]; exact j.2) k' hk' hne
        (hstart j j.2 k' hne hdiv)
    · rw [hslot, hnext] at hsl
      rw [hnext] at hb
      exact hput _ _ hb hsl

/-- A state that differs only in where the consumer stands. -/
theorem move (hR : Refines n N f s a) {s' : Stream} (d : Option (Fin 2 × Set (Fin n)))
    (log : List ℕ) (hfile : ∀ i < n, (s'.group.file i).slot = (s.group.file i).slot ∧
      (s'.group.file i).begun = (s.group.file i).begun)
    (hd : d = Stream.drainOf n s'.judge.pc) (hdata : s'.out.data =
      ((s'.output log).map (segment n N f)).flatten)
    (hx : s'.group.xorSize = s'.out.data.length) (hc : s'.group.correctFlag = 0)
    (hend : s'.group.xorSize = N → s'.group.xorFlag = 1)
    (hver : ∀ r, s'.judge.pc = .done r →
      r = ORaidServer.verdict s'.group ∧
        ¬ (s'.group.xorFlag = 0 ∧ s'.group.correctFlag = 0))
    (hres : ∀ k, s'.judge.pc = .resetNum k → ∀ m, log.getLast? = some m →
      s'.group.inBuf k 0 = segment n N f m) :
    Refines n N f s' { a with drain := d, log := log } := by
  refine ⟨?_, hdata, hx, hc, hend, hver, hres⟩
  have habs := hR.abs
  simp only [Stream.gather] at habs ⊢
  rw [habs, hd]
  dsimp only
  congr 1
  · exact funext fun i => (hfile i i.2).2.symm
  · exact funext fun i => (hfile i i.2).1.symm

/-- The consumer moves on without touching the group. -/
theorem idle (hR : Refines n N f s a) {pc : JudgePc}
    (hd : Stream.drainOf n pc = Stream.drainOf n s.judge.pc)
    (hx : ∀ k, s.judge.pc ≠ .xor k ∧ pc ≠ .xor k) (hr : ∀ k, pc ≠ .resetNum k)
    (hver : ∀ r, pc = .done r → r = ORaidServer.verdict s.group ∧
      ¬ (s.group.xorFlag = 0 ∧ s.group.correctFlag = 0)) :
    Refines n N f { s with judge := { s.judge with pc := pc } } a := by
  have houtput : ∀ {s' : Stream}, (∀ k, s'.judge.pc ≠ .xor k) → s'.output a.log = a.log := by
    intro s' hs'
    unfold Stream.output
    split
    · exact absurd ‹_› (hs' _)
    · rfl
  have hdata := hR.data
  rw [houtput fun k => (hx k).1] at hdata
  exact hR.move a.drain a.log (fun i _ => ⟨rfl, rfl⟩) (hR.drain_eq.trans hd.symm)
    (by rw [houtput fun k => (hx k).2]; exact hdata) hR.xorSize hR.correct hR.ended hver
    fun k hk => absurd hk (hr k)

/-- A successful test starts a drain. -/
theorem judgeTest (hR : Refines n N f s a) (h : StreamInv n N f s) (hn : 0 < n) {k : Fin 2}
    (hpc : s.judge.pc = .test k) (hnum : s.group.bufFullNum k = n) (hG : G a k) :
    ∃ a', Relation.ReflTransGen (Slots.Step G) a a' ∧
      Refines n N f { s with judge := { s.judge with pc := .xor k } } a' := by
  have hfull : ∀ i : Fin n, ∃ m, a.slot i k = .filled m := by
    intro i
    refine ⟨((s.group.file i).buf k).start / readBufSize, ?_⟩
    rw [hR.slot_eq]
    exact slot_eq_filled.2 ⟨(h.counted_of_num hnum i.2).1.1, rfl⟩
  obtain ⟨m, hm⟩ := hfull ⟨0, hn⟩
  have hd : a.drain = none := by rw [hR.drain_eq, hpc]; rfl
  refine ⟨_, .single (.drain ⟨0, hn⟩ k m hd hfull hG hm), ?_⟩
  have hdata := hR.data
  have houtput : s.output a.log = a.log := by simp only [Stream.output, hpc]
  refine hR.move _ _ (fun i _ => ⟨rfl, rfl⟩) rfl ?_ hR.xorSize hR.correct hR.ended
    (fun r hr => by cases hr) fun k' hk' => by cases hk'
  rw [hdata, houtput]
  simp [Stream.output]

/-- The call of `buf_xor` outputs the segment drained. -/
theorem judgeXor (hR : Refines n N f s a) (ha : Slots.Inv a) (h : StreamInv n N f s) (hn : 0 < n)
    {k : Fin 2} (hpc : s.judge.pc = .xor k) : Refines n N f s.judgeStep a := by
  have hdrain : a.drain = some (k, Set.univ) := by rw [hR.drain_eq, hpc]; rfl
  have hold : ∀ i, ¬ s.Overwritten i k := by
    rintro i ⟨-, hk' | ⟨j, hj, -⟩⟩
    · rw [hpc] at hk'
      cases hk'
    · rw [hpc] at hj
      cases hj
  -- every buffer `k` holds the last segment of the log
  obtain ⟨m, hlast, -⟩ := ha.stale (i := ⟨0, hn⟩) ⟨_, hdrain, trivial⟩
  have hslot : ∀ i < n, (s.group.file i).slot k = .filled m := by
    intro i hi
    obtain ⟨m', hlast', hm'⟩ := ha.stale (i := ⟨i, hi⟩) ⟨_, hdrain, trivial⟩
    obtain rfl : m = m' := Option.some.inj (hlast.symm.trans hlast')
    rwa [hR.slot_eq] at hm'
  have hstep := h.bufXor_segment hn hslot hold
  set g := s.group.setInBuf0 k (segment n N f m) with hg
  obtain ⟨-, hfs, -, hcf, hxs, hxf⟩ := frame_addXorSize g n (min readBufSize (N - m * readBufSize))
  set g' := g.addXorSize n (min readBufSize (N - m * readBufSize)) with hg'
  have hs : s.judgeStep = { s with
      group := g', out := ⟨s.out.data ++ segment n N f m, []⟩
      judge := { s.judge with pc := .resetNum k } } := by
    simp only [Stream.judgeStep, judgeStep, hpc, h.judgeNum, hstep]
  have hlen : (segment n N f m).length = min readBufSize (N - m * readBufSize) := by
    simp [segment]
  obtain ⟨log', hlog⟩ : ∃ log', a.log = log' ++ [m] := by
    obtain ⟨log', hlog⟩ := List.getLast?_eq_some_iff.1 hlast
    exact ⟨log', hlog⟩
  have hdata := hR.data
  simp only [Stream.output, hpc, hlog, List.dropLast_concat] at hdata
  apply hR.move a.drain a.log
  · intro i _
    obtain ⟨p, hp⟩ := file_addXorSize g n (min readBufSize (N - m * readBufSize)) i
    have hfile : s.judgeStep.group.file i = (g.file i).withPtr p := by rw [hs]; exact hp
    have hkeep := fun k' => s.group.keep_setInBuf0 k k' (segment n N f m) i
    rw [hfile]
    refine ⟨slot_congr (y := (g.file i).withPtr p) hkeep,
      begun_congr (y := (g.file i).withPtr p) (fun k' => ?_) (fun k' => (hkeep k').2) fun _ => ?_⟩
    · show ((g.file i).buf k').flag = _ ↔ _
      rw [(hkeep k').1, SingleFileInfo.Writing]
    exact s.group.stored_setInBuf0 k (segment n N f m) i
  · rw [hdrain, hs]
    rfl
  · rw [hs]
    simp only [Stream.output, hlog, List.map_append, List.flatten_append, hdata]
    simp
  · rw [hs]
    show g'.xorSize = (s.out.data ++ segment n N f m).length
    rw [hxs, List.length_append, hlen, ← hR.xorSize]
    rfl
  · rw [hs]
    exact hcf.trans hR.correct
  · rw [hs]
    intro hend
    show g'.xorFlag = 1
    rw [hxf, if_pos]
    rw [← hxs, show g'.xorSize = N from hend]
    exact h.fileSize.symm
  · intro r hr
    rw [hs] at hr
    cases hr
  · intro k' hk' m' hlast'
    obtain rfl : m = m' := Option.some.inj (hlast.symm.trans hlast')
    rw [hs] at hk' ⊢
    cases hk'
    obtain ⟨p, hp⟩ := file_addXorSize g n (min readBufSize (N - m * readBufSize)) 0
    rw [TGroupFileInfo.inBuf, show _ = _ from hp, hg]
    simp [SingleFileInfo.withPtr, SingleFileInfo.buf, TGroupFileInfo.setInBuf0,
      SingleFileInfo.setBuf]

/-- The reset of a counter is no step of the gathering. -/
theorem judgeResetNum (hR : Refines n N f s a) {k : Fin 2} (hpc : s.judge.pc = .resetNum k) :
    Refines n N f s.judgeStep a := by
  have hs : s.judgeStep = { s with
      group.bufFullNum := Function.update s.group.bufFullNum k 0
      judge := { s.judge with pc := .resetFlag k 0 } } := by
    simp only [Stream.judgeStep, ORaidServer.judgeStep, hpc]
  have hdata := hR.data
  simp only [Stream.output, hpc] at hdata
  rw [hs]
  refine hR.move a.drain a.log (fun i _ => ⟨rfl, rfl⟩) ?_ hdata hR.xorSize
    hR.correct hR.ended (fun r hr => by cases hr) fun k' hk' => by cases hk'
  rw [hR.drain_eq, hpc]
  simp [Stream.drainOf]

/-- The reset of a flag releases a slot. -/
theorem judgeResetFlag (hR : Refines n N f s a) (h : StreamInv n N f s) {k : Fin 2} {j : ℕ}
    (hj : j < n) (hpc : s.judge.pc = .resetFlag k j) :
    ∃ a', Relation.ReflTransGen (Slots.Step G) a a' ∧ Refines n N f s.judgeStep a' := by
  have hs : s.judgeStep = { s with
      group := s.group.clearFlag k j, judge := { s.judge with pc := .resetFlag k (j + 1) } } := by
    simp only [Stream.judgeStep, ORaidServer.judgeStep, hpc, h.judgeNum, if_pos hj]
  have hd : a.drain = some (k, {i : Fin n | j ≤ i}) := by rw [hR.drain_eq, hpc]; rfl
  have hfull := (h.drain k j hpc j le_rfl hj).1
  refine ⟨_, .single (.release ⟨j, hj⟩ k _ hd (Set.mem_ofPred_eq ▸ le_rfl)), ?_⟩
  have hdata := hR.data
  simp only [Stream.output, hpc] at hdata
  have hfile : s.judgeStep.group.file = Function.update s.group.file j
      ((s.group.file j).setBuf k { (s.group.file j).buf k with flag := .empty }) := by
    rw [hs]
    rfl
  have hpc' : s.judgeStep.judge.pc = .resetFlag k (j + 1) := by rw [hs]
  refine ⟨?_, ?_, by rw [hs]; exact hR.xorSize, by rw [hs]; exact hR.correct,
    by rw [hs]; exact hR.ended, (fun r hr => by rw [hpc'] at hr; cases hr),
    fun k' hk' => by rw [hpc'] at hk'; cases hk'⟩
  · have habs := hR.abs
    simp only [Stream.gather, hpc', hfile] at habs ⊢
    rw [habs]
    dsimp only
    congr 1
    · funext i
      rcases eq_or_ne (i : ℕ) j with hi | hi
      · rw [hi, Function.update_self]
        exact (begun_release hfull).symm
      · rw [Function.update_of_ne hi]
    · funext i
      rcases eq_or_ne i ⟨j, hj⟩ with rfl | hi
      · rw [Slots.setSlot, Function.update_self, Function.update_self]
        exact (slot_release _ k).symm
      · have hij : (i : ℕ) ≠ j := fun e => hi (Fin.ext e)
        rw [Slots.setSlot, Function.update_of_ne hi, Function.update_of_ne hij]
    · simp only [Stream.drainOf]
      congr 2
      ext i
      simp only [Set.mem_sdiff, Set.mem_ofPred_eq, Set.mem_singleton_iff, Fin.ext_iff]
      omega
  · rw [hs]
    simpa [Stream.output] using hdata

/-- A step of the consumer; a drain is started under `G`. -/
theorem judge (hR : Refines n N f s a) (ha : Slots.Inv a) (h : StreamInv n N f s) (hn : 0 < n)
    (hG : ∀ k, s.judge.pc = .test k → s.group.bufFullNum k = n → G a k) :
    ∃ a', Relation.ReflTransGen (Slots.Step G) a a' ∧ Refines n N f s.judgeStep a' := by
  cases hpc : s.judge.pc with
  | test k =>
    by_cases hnum : s.group.bufFullNum k = n
    · have hs : s.judgeStep = { s with judge := { s.judge with pc := .xor k } } := by
        simp only [Stream.judgeStep, ORaidServer.judgeStep, hpc, if_pos (hnum.trans h.judgeNum.symm)]
      rw [hs]
      exact hR.judgeTest h hn hpc hnum (hG k hpc hnum)
    · refine ⟨a, .refl, ?_⟩
      have hne : s.group.bufFullNum k ≠ s.judge.fileNum := h.judgeNum ▸ hnum
      simp only [Stream.judgeStep, ORaidServer.judgeStep, hpc, if_neg hne]
      split_ifs <;>
        exact hR.idle (by rw [hpc]; rfl) (fun k => by rw [hpc]; simp) (by simp)
          fun r hr => by cases hr
  | xor k => exact ⟨a, .refl, hR.judgeXor ha h hn hpc⟩
  | resetNum k => exact ⟨a, .refl, hR.judgeResetNum hpc⟩
  | resetFlag k j =>
    by_cases hj : j < n
    · exact hR.judgeResetFlag h hj hpc
    · have hd : a.drain = some (k, ∅) := by
        rw [hR.drain_eq, hpc]
        simp only [Stream.drainOf]
        congr 2
        ext i
        simp only [Set.mem_ofPred_eq, Set.mem_empty_iff_false, iff_false]
        omega
      have hj' : ¬ j < s.judge.fileNum := h.judgeNum ▸ hj
      refine ⟨_, .single (.finish k hd), ?_⟩
      simp only [Stream.judgeStep, ORaidServer.judgeStep, hpc, if_neg hj']
      have hdata := hR.data
      simp only [Stream.output, hpc] at hdata
      exact hR.move _ a.log (fun i _ => ⟨rfl, rfl⟩) rfl hdata hR.xorSize hR.correct hR.ended
        (fun r hr => by cases hr) fun k' hk' => by cases hk'
  | loop =>
    refine ⟨a, .refl, ?_⟩
    simp only [Stream.judgeStep, ORaidServer.judgeStep, hpc]
    split_ifs with hflags
    · exact hR.idle (by rw [hpc]; rfl) (fun k => by rw [hpc]; simp) (by simp)
        fun r hr => by cases hr
    · refine hR.idle (by rw [hpc]; rfl) (fun k => by rw [hpc]; simp) (by simp) fun r hr => ?_
      cases hr
      exact ⟨rfl, hflags⟩
  | done r =>
    have hs : s.judgeStep = s := by simp only [Stream.judgeStep, ORaidServer.judgeStep, hpc]
    rw [hs]
    exact ⟨a, .refl, hR⟩

/-- **A step that follows the others is matched by the gathering.** -/
theorem step (hR : Refines n N f s a) (ha : Slots.Inv a) (h : StreamInv n N f s) (hn : 0 < n)
    {act : Actor} (hF : s.Follows act)
    (hG : act = .judge → ∀ k, s.judge.pc = .test k → s.group.bufFullNum k = n → G a k) :
    ∃ a', Relation.ReflTransGen (Slots.Step G) a a' ∧ Refines n N f (s.step act) a' := by
  cases act with
  | judge => exact hR.judge ha h hn (hG rfl)
  | writer i =>
    show ∃ a', _ ∧ Refines n N f (if i < s.group.fileNum then s.writerStep i else s) a'
    split_ifs with hi
    · rcases s.writerStep_eq i with ⟨hs, -⟩ | ⟨c, ps, hm, hs⟩
      · rw [hs]
        exact ⟨a, .refl, hR⟩
      · rw [hs]
        exact hR.writer h (h.fileNum ▸ hi) hm hF
    · exact ⟨a, .refl, hR⟩

end Refines

/-- **Every run that follows is matched by a run of the gathering.** -/
theorem refines_of_reach {n N : ℕ} {f : ℕ → List Byte} {pieces : ℕ → List (List Byte)}
    {C : Stream → Actor → Prop} {s : Stream} {G : Slots.State (Fin n) (Fin 2) → Fin 2 → Prop}
    (hn : 0 < n) (hN : 0 < N) (hsplit : Stream.Split n N f pieces)
    (hC : ∀ s act, C s act → s.Follows act)
    (hG : ∀ s a, StreamInv n N f s → Refines n N f s a → C s .judge → ∀ k,
      s.judge.pc = .test k → s.group.bufFullNum k = n → G a k)
    (h : Reach Stream.step C (.init n N pieces) s) :
    ∃ a, Relation.ReflTransGen (Slots.Step G) (Slots.State.start 0) a ∧ Refines n N f s a := by
  have key : ∃ a, Relation.ReflTransGen (Slots.Step G) (Slots.State.start 0) a ∧
      (StreamInv n N f s ∧ Refines n N f s a) := by
    refine h.simulate (R := fun s a => StreamInv n N f s ∧ Refines n N f s a)
      ⟨streamInv_init hN hsplit, refines_init hN⟩ ?_
    rintro t act a ha ⟨hI, hR⟩ hc
    obtain ⟨a', ha', hR'⟩ := hR.step (Slots.inv_of_reachable ha) hI hn (hC t act hc)
      (by rintro rfl; exact hG t a hI hR hc)
    exact ⟨a', ha', hI.step hn act, hR'⟩
  obtain ⟨a, ha, -, hR⟩ := key
  exact ⟨a, ha, hR⟩

end ORaidServer
