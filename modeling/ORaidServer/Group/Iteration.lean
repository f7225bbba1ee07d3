import ORaidServer.Group.Coarse
import ORaidServer.Group.Refine

/-!
# What an iteration of `write_buf` does

An iteration of the loop of `write_buf`, seen as the gathering of segments: `IterationMove` lists what it can
do to the slots of its file and to the counters, `iteration_move` says that it does one of these.
-/

namespace ORaidServer

open Guarded

/-- What an iteration can do; `N` is the length of the file. -/
inductive IterationMove (N : ℕ) (c c' : FileCtx) : Prop
  /-- it stores what is left of the piece -/
  | stored : c'.info.slot = c.info.slot → c'.info.begun = c.info.begun → c'.num = c.num →
      c'.loc.pc = .idle → IterationMove N c c'
  /-- the same at the end of the file -/
  | ended (k : Fin 2) (m : ℕ) : c.info.slot k = .filling m →
      c'.info.slot = Function.update c.info.slot k (.filled m) → c'.info.begun = c.info.begun →
      c'.num = Function.update c.num k (c.num k + 1) → c'.loc.pc = .idle → c'.info.stored = N →
      IterationMove N c c'
  /-- it fills a buffer and goes on in the other one -/
  | switched (k k' : Fin 2) (m : ℕ) : c.loc.flag = false → k' ≠ k → c.info.slot k = .filling m →
      c.info.slot k' = .free →
      c'.info.slot = Function.update (Function.update c.info.slot k (.filled m)) k'
        (.filling c.info.begun) → c'.info.begun = c.info.begun + 1 →
      c'.num = Function.update c.num k (c.num k + 1) → c'.loc.pc = .head → c'.loc.flag = true →
      IterationMove N c c'
  /-- it fills a buffer while the other one is full -/
  | blocked (k : Fin 2) (m : ℕ) : c.loc.flag = false → c.info.slot k = .filling m →
      (∀ k', c'.info.Full k') → c'.info.slot = Function.update c.info.slot k (.filled m) →
      c'.info.begun = c.info.begun → c'.num = Function.update c.num k (c.num k + 1) →
      c'.loc.pc = .head → c'.loc.flag = true → IterationMove N c c'
  /-- it finds both buffers full -/
  | waited : (∀ k, c.info.Full k) → c' = c → IterationMove N c c'
  /-- it finds no buffer being written and takes a free one -/
  | woken (k : Fin 2) : (∀ k', ¬ c.info.Writing k') → c.info.slot k = .free →
      (k = 0 ∨ c.info.slot 0 ≠ .free) →
      c'.info.slot = Function.update c.info.slot k (.filling c.info.begun) →
      c'.info.begun = c.info.begun + 1 → c'.num = c.num → c'.loc.pc = .head →
      c'.loc.flag = c.loc.flag → IterationMove N c c'

/-- A buffer marked full and counted. -/
def FileCtx.marked (c : FileCtx) (k : Fin 2) (more : Bool) : FileCtx :=
  ⟨c.info.setBuf k { c.info.buf k with flag := .full }, Function.update c.num k (c.num k + 1),
    ⟨if more then .tail0 else .idle, c.loc.buffer, more || c.loc.flag⟩⟩

section Steps

variable {f : List Byte} {dr : Fin 2 → Prop} {c : FileCtx} {ps : List (List Byte)} {N : ℤ}

theorem writeBufStep_marked {k : Fin 2} {more : Bool} (hpc : c.loc.pc = .mark k more) :
    writeBufStep N (writeBufStep N (writeBufStep N c)) = c.marked k more := by
  simp [writeBufStep, hpc, FileCtx.marked]

theorem finishIteration_marked {k : Fin 2} {more : Bool} (hpc : c.loc.pc = .mark k more) (t : ℕ) :
    finishIteration N (t + 3) c = finishIteration N t (c.marked k more) := by
  rw [finishIteration_go (by simp [hpc]), finishIteration_go (by simp [writeBufStep, hpc]),
    finishIteration_go (by simp [writeBufStep, hpc]), writeBufStep_marked hpc]

/-- Marking a buffer full fills its slot and leaves none to be written. -/
theorem FileInv.marked {k : Fin 2} {more : Bool} (h : FileInv f dr c.info c.loc ps)
    (hpc : c.loc.pc = .mark k more) :
    (∃ m, c.info.slot k = .filling m ∧
      (c.marked k more).info.slot = Function.update c.info.slot k (.filled m)) ∧
    (c.marked k more).info.begun = c.info.begun ∧
    (∀ k', ¬ (c.marked k more).info.Writing k') ∧
    FileInv f dr (c.marked k more).info (c.marked k more).loc ps := by
  have hinfo : (writeBufStep f.length c).info = (c.marked k more).info := by
    simp [writeBufStep, hpc, FileCtx.marked]
  have hw : c.info.Writing k := by
    have hloc := h.loc
    cases more <;> simp only [LocalInv, hpc] at hloc <;> exact hloc.1
  have hfull : ((c.marked k more).info.buf k).flag = .full := by simp [FileCtx.marked]
  have hno : ∀ k', ¬ (c.marked k more).info.Writing k' := by
    intro k' hw'
    rcases eq_or_ne k' k with rfl | hk
    · rw [SingleFileInfo.Writing, hfull] at hw'
      cases hw'
    · rw [SingleFileInfo.Writing, FileCtx.marked, SingleFileInfo.buf_setBuf, if_neg hk] at hw'
      exact hk (h.one k' k hw' hw)
  have hm : WriterMove f.length c ps (writeBufStep f.length c) ps := .step ps (by simp [hpc])
  have hinv : FileInv f dr (c.marked k more).info (c.marked k more).loc ps := by
    rw [← writeBufStep_marked (N := f.length) hpc]
    exact h.step.step.step
  rcases hm.gather h with ⟨hslot, -⟩ | ⟨k', m, hfill, hslot, hbegun⟩ | ⟨k', -, -, hpc', -⟩
  · exfalso
    have hk := congrFun hslot k
    rw [hinfo] at hk
    unfold SingleFileInfo.slot at hk
    rw [hfull, show (c.info.buf k).flag = .writing from hw] at hk
    cases hk
  · obtain rfl : k' = k := h.one k' k (slot_eq_filling.1 hfill).1 hw
    rw [hinfo] at hslot hbegun
    exact ⟨⟨m, hfill, hslot⟩, hbegun, hno, hinv⟩
  · rw [hpc] at hpc'
    split_ifs at hpc'

/-- The end of an iteration with no buffer being written: both are full, or a free one is taken. -/
theorem FileInv.tails (h : FileInv f dr c.info c.loc ps) (hpc : c.loc.pc = .tail0)
    (hno : ∀ k, ¬ c.info.Writing k) :
    ∃ c', (∀ t, finishIteration f.length (t + 2) c = c') ∧ c'.num = c.num ∧
      c'.loc = { c.loc with pc := .head } ∧
      ((∀ k, c.info.Full k) ∧ c'.info = c.info ∨
        ∃ k, c.info.slot k = .free ∧ (k = 0 ∨ c.info.slot 0 ≠ .free) ∧
          c'.info.slot = Function.update c.info.slot k (.filling c.info.begun) ∧
          c'.info.begun = c.info.begun + 1) := by
  set c₁ := writeBufStep f.length c with hc₁
  have hpc₁ : c₁.loc.pc = .tail1 := writeBufStep_tail0_pc hpc
  have hfinish : ∀ t, finishIteration f.length (t + 2) c = writeBufStep f.length c₁ := by
    intro t
    rw [finishIteration_go (by simp [hpc]), ← hc₁, finishIteration_go (by simp [hpc₁]),
      finishIteration_stop (Or.inl (writeBufStep_tail1_pc hpc₁))]
  have hm : WriterMove f.length c ps c₁ ps := .step ps (by simp [hpc])
  have hm₁ : WriterMove f.length c₁ ps (writeBufStep f.length c₁) ps := .step ps (by simp [hpc₁])
  have h0 : (c.info.buf 0).flag ≠ .writing := hno 0
  have h1 : (c.info.buf 1).flag ≠ .writing := hno 1
  refine ⟨_, hfinish, ?_⟩
  cases hflag0 : (c.info.buf 0).flag with
  | writing => exact absurd hflag0 h0
  | empty =>
    have hc : c₁ = { c with info := ORaidServer.makeWritable 0 c.info, loc.pc := .tail1 } := by
      simp [hc₁, writeBufStep, hpc, hflag0, h1]
    have hw : (c₁.info.buf 0).flag = .writing := by simp [hc, ORaidServer.makeWritable]
    have hc' : writeBufStep f.length c₁ = { c₁ with loc.pc := .head } := by
      simp [writeBufStep, hpc₁, hw]
    rw [hc']
    refine ⟨by rw [hc], by rw [hc], Or.inr ⟨0, slot_eq_free.2 hflag0, Or.inl rfl, ?_⟩⟩
    rcases hm.gather h with ⟨hslot, -⟩ | ⟨k, m, hfill, -⟩ | ⟨k, he, -, hk, -, hslot, hbegun⟩
    · have hk := slot_eq_free.1 ((congrFun hslot 0).trans (slot_eq_free.2 hflag0))
      rw [hw] at hk
      cases hk
    · exact absurd (slot_eq_filling.1 hfill).1 (hno k)
    · obtain rfl : k = 0 := by
        by_contra hk0
        rw [hpc, if_neg hk0] at hk
        cases hk
      exact ⟨hslot, hbegun⟩
  | full =>
    have hc : c₁ = { c with loc.pc := .tail1 } := by
      simp [hc₁, writeBufStep, hpc, hflag0]
    have hslot0 : c.info.slot 0 ≠ .free := fun hfree => by
      rw [slot_eq_free, hflag0] at hfree
      cases hfree
    cases hflag1 : (c.info.buf 1).flag with
    | writing => exact absurd hflag1 h1
    | full =>
      have hc' : writeBufStep f.length c₁ = { c₁ with loc.pc := .head } := by
        simp [writeBufStep, hc, hflag1]
      rw [hc']
      exact ⟨by rw [hc], by rw [hc], Or.inl ⟨Fin.forall_fin_two.2 ⟨hflag0, hflag1⟩, by rw [hc]⟩⟩
    | empty =>
      have hc' : writeBufStep f.length c₁ =
          { c₁ with info := ORaidServer.makeWritable 1 c₁.info, loc.pc := .head } := by
        simp [writeBufStep, hc, hflag0, hflag1]
      have hw : ((writeBufStep f.length c₁).info.buf 1).flag = .writing := by
        simp [hc', ORaidServer.makeWritable]
      have hinfo : c₁.info = c.info := by rw [hc]
      refine ⟨by rw [hc', hc], by rw [hc', hc],
        Or.inr ⟨1, slot_eq_free.2 hflag1, Or.inr hslot0, ?_⟩⟩
      have h₁ : FileInv f dr c₁.info c₁.loc ps := h.step
      rcases hm₁.gather h₁ with ⟨hslot, -⟩ | ⟨k, m, hfill, -⟩ | ⟨k, he, -, hk, -, hslot, hbegun⟩
      · rw [hinfo] at hslot
        have hk := slot_eq_free.1 ((congrFun hslot 1).trans (slot_eq_free.2 hflag1))
        rw [hw] at hk
        cases hk
      · rw [hinfo] at hfill
        exact absurd (slot_eq_filling.1 hfill).1 (hno k)
      · obtain rfl : k = 1 := by
          by_contra hk1
          obtain rfl : k = 0 := by omega
          rw [hpc₁, if_pos rfl] at hk
          cases hk
        rw [hinfo] at hslot hbegun
        exact ⟨hslot, hbegun⟩

/-- An iteration that begins with a buffer being written. -/
theorem FileInv.iteration_writing (h : FileInv f dr c.info c.loc ps) (hpc : c.loc.pc = .head)
    {k : Fin 2} (hw : c.info.Writing k) :
    IterationMove f.length c (iteration f.length c) := by
  set c₁ := writeBufStep f.length c with hc₁
  have hstep : c₁ = ORaidServer.storeInto f.length k c := h.step_head hpc hw
  have hm : WriterMove f.length c ps c₁ ps := .step ps (by simp [hpc])
  have h₁ : FileInv f dr c₁.info c₁.loc ps := h.step
  have hnum : c₁.num = c.num := by rw [hstep, storeInto_num]
  -- the store itself changes no slot
  have hw₁ : c₁.info.Writing k := by
    rw [SingleFileInfo.Writing, hstep, storeInto_flag]
    exact hw
  have hsame : c₁.info.slot = c.info.slot ∧ c₁.info.begun = c.info.begun := by
    rcases hm.gather h with hsame | ⟨k', m, hfill, hslot, -⟩ | ⟨k', -, hno, -⟩
    · exact hsame
    · exfalso
      obtain rfl : k' = k := h.one k' k (slot_eq_filling.1 hfill).1 hw
      have hk := congrFun hslot k'
      rw [Function.update_self] at hk
      have hfull := (slot_eq_filled.1 hk).1
      rw [SingleFileInfo.Full, show (c₁.info.buf k').flag = .writing from hw₁] at hfull
      cases hfull
    · exact absurd hw (hno k)
  have hloc := h.loc
  simp only [LocalInv, hpc] at hloc
  obtain ⟨⟨hcp, hlen⟩, hcp0, hfresh⟩ := hloc
  rw [iteration, ← hc₁]
  by_cases hs : (c.info.buf k).bufSize + c.loc.buffer.length > readBufSize
  · -- the piece does not fit, so it is not the rest of one
    have hflag : c.loc.flag = false := by
      by_contra hflag
      have hbytes := hfresh (by simpa using hflag) k hw
      have hmax := maxline_le_readBufSize
      simp only [InBuf.bufSize, hbytes, List.length_nil] at hs
      omega
    have hpc₁ : c₁.loc.pc = .mark k true := by
      rw [hstep]
      simp [ORaidServer.storeInto, hs]
    obtain ⟨⟨m, hfill, hslot⟩, hbegun, hno, hinv⟩ := h₁.marked hpc₁
    obtain ⟨c', hc', hnum', hloc', hcase⟩ := hinv.tails (by simp [FileCtx.marked]) hno
    rw [show (5 : ℕ) = 2 + 3 from rfl, finishIteration_marked hpc₁, hc' 0]
    rw [hsame.1] at hfill hslot
    rw [hsame.2] at hbegun
    have hnumk : c'.num = Function.update c.num k (c.num k + 1) := by
      rw [hnum', FileCtx.marked, hnum]
    have hflag' : c'.loc.flag = true := by
      rw [hloc']
      simp [FileCtx.marked]
    have hpc' : c'.loc.pc = .head := by rw [hloc']
    rcases hcase with ⟨hfull, hinfo⟩ | ⟨k', hfree, -, hslot', hbegun'⟩
    · exact .blocked k m hflag hfill (by rw [hinfo]; exact hfull) (by rw [hinfo]; exact hslot)
        (by rw [hinfo]; exact hbegun) hnumk hpc' hflag'
    · have hk : k' ≠ k := by
        rintro rfl
        rw [hslot, Function.update_self] at hfree
        cases hfree
      refine .switched k k' m hflag hk hfill ?_ ?_ (by rw [hbegun', hbegun]) hnumk hpc' hflag'
      · rwa [hslot, Function.update_of_ne hk] at hfree
      · rw [hslot', hslot, hbegun]
  · have hfits := storeInto_of_fits (N := f.length) hcp0 hs
    rw [← hstep] at hfits
    by_cases hend : ((c.info.fileIndex + c.loc.buffer.length : ℕ) : ℤ) ≥ f.length
    · have hpc₁ : c₁.loc.pc = .mark k false := by
        rw [hfits]
        exact if_pos hend
      obtain ⟨⟨m, hfill, hslot⟩, hbegun, hno, hinv⟩ := h₁.marked hpc₁
      rw [show (5 : ℕ) = 2 + 3 from rfl, finishIteration_marked hpc₁,
        finishIteration_stop (Or.inr rfl)]
      rw [hsame.1] at hfill hslot
      rw [hsame.2] at hbegun
      refine .ended k m hfill hslot hbegun ?_ rfl ?_
      · rw [FileCtx.marked, hnum]
      · have hstored := h₁.loc
        simp only [LocalInv, hpc₁] at hstored
        exact hstored.2.2
    · have hpc₁ : c₁.loc.pc = .idle := by
        rw [hfits]
        exact if_neg hend
      rw [finishIteration_stop (Or.inr hpc₁)]
      exact .stored hsame.1 hsame.2 hnum hpc₁

/-- An iteration that finds both buffers full does nothing. -/
theorem iteration_of_full (hpc : c.loc.pc = .head) (hfull : ∀ k, c.info.Full k) : iteration N c = c := by
  have hflag : ∀ k, (c.info.buf k).flag = .full := hfull
  have htail : ∀ t, finishIteration N (t + 2) { c with loc.pc := .tail0 } = { c with loc.pc := .head } := by
    intro t
    rw [finishIteration_go (by simp), finishIteration_go (by simp [writeBufStep, hflag]),
      finishIteration_stop (Or.inl (by simp [writeBufStep, hflag]))]
    simp [writeBufStep, hflag]
  have hstep : writeBufStep N c = { c with loc.pc := .tail0 } := by simp [writeBufStep, hpc, hflag]
  rw [iteration, hstep, htail 3]
  obtain ⟨x, num, ⟨pc, buffer, flag⟩⟩ := c
  obtain rfl : pc = .head := hpc
  rfl

/-- **An iteration of `write_buf`** is one of the moves. -/
theorem FileInv.iteration_move (h : FileInv f dr c.info c.loc ps) (hpc : c.loc.pc = .head) :
    IterationMove f.length c (iteration f.length c) := by
  by_cases hw : ∃ k, c.info.Writing k
  · obtain ⟨k, hw⟩ := hw
    exact h.iteration_writing hpc hw
  · have hno : ∀ k, ¬ c.info.Writing k := not_exists.1 hw
    have h0 : (c.info.buf 0).flag ≠ .writing := hno 0
    have h1 : (c.info.buf 1).flag ≠ .writing := hno 1
    have hstep : writeBufStep f.length c = { c with loc.pc := .tail0 } := by
      simp [writeBufStep, hpc, h0, h1]
    have h₁ := h.step
    rw [hstep] at h₁
    obtain ⟨c', hc', hnum, hloc, hcase⟩ := h₁.tails (c := { c with loc.pc := .tail0 }) rfl hno
    rw [iteration, hstep, show (5 : ℕ) = 3 + 2 from rfl, hc' 3]
    rcases hcase with ⟨hfull, hinfo⟩ | ⟨k, hfree, hk, hslot, hbegun⟩
    · refine .waited hfull ?_
      obtain ⟨x, num, ⟨pc, buffer, flag⟩⟩ := c
      obtain ⟨x', num', loc'⟩ := c'
      obtain rfl : pc = .head := hpc
      obtain rfl : x' = x := hinfo
      obtain rfl : num' = num := hnum
      rw [show loc' = _ from hloc]
    · exact .woken k hno hfree hk hslot hbegun hnum (by rw [hloc]) (by rw [hloc])

end Steps

end ORaidServer
