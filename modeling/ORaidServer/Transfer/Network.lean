import ORaidServer.Group.Same
import ORaidServer.Group.OneSegment
import ORaidServer.Transfer.Release
import ORaidServer.Wire.Incoming

/-!
# A transfer with its connections

The transfer of a group together with what is on its way to it: the bytes of each connection, cut into the results
of `recv` they will arrive in.

* `Network`, `Network.step` and `Network.init`;
* `Mirrors`: a transfer is where the producers and the consumer of `Stream` are;
* `exists_mirror`: a run of the transfer is one of `Stream`, as long as no thread has raised `correct_flag`;
* `data_of_returned`: what a return of `RIGHT` comes with.
-/

namespace ORaidServer

open ByteMem Guarded

/-- A transfer, and for each connection the results of `recv` still to come. -/
structure Network where
  transfer : Transfer
  inbox : ℕ → List (List Byte)

/-- What happens next. -/
inductive NetworkAct
  /-- the result of `fopen` -/
  | fopen (ok : Bool)
  /-- the result of creating the next thread -/
  | create (r : CreateResult)
  /-- a step of `judge_xor_condition` -/
  | judge
  /-- the next call of the setup of thread `i` succeeds or not -/
  | call (i : ℕ) (ok : Bool)
  /-- thread `i` goes on by itself -/
  | proceed (i : ℕ)
  /-- the read event of thread `i` finds the next bytes of its connection -/
  | arrive (i : ℕ)
  /-- the connection of thread `i` is closed by the data server -/
  | closed (i : ℕ)
  /-- the connection of thread `i` breaks -/
  | lost (i : ℕ)
  deriving DecidableEq, Repr

namespace Network

/-- A read event of thread `i` would receive from its connection. -/
def Receives (s : Network) (i : ℕ) : Prop :=
  i < s.transfer.group.fileNum ∧ (s.transfer.ctx i).Waits ∧ ¬ (s.transfer.ctx i).Over s.transfer.group.xorFlag

instance (s : Network) (i : ℕ) : Decidable (s.Receives i) := inferInstanceAs (Decidable (_ ∧ _ ∧ _))

/-- A step of the transfer. -/
def act (s : Network) (a : TransferAct) : Network := { s with transfer := s.transfer.step a }

/-- The results of `recv` to come on the connection of thread `i` are others. -/
def setInbox (s : Network) (i : ℕ) (inbox : List (List Byte)) : Network :=
  { s with inbox := Function.update s.inbox i inbox }

/-- One step.  What a connection that has ended has not delivered is lost. -/
def step (s : Network) : NetworkAct → Network
  | .fopen ok => s.act (.fopen ok)
  | .create r => s.act (.create r)
  | .judge => s.act .judge
  | .call i ok => s.act (.thread i (.call ok))
  | .proceed i => s.act (.thread i .proceed)
  | .arrive i =>
    match s.inbox i with
    | [] => s
    | c :: cs => (if s.Receives i then s.setInbox i cs else s).act (.thread i (.recv (.got c)))
  | .closed i => (s.setInbox i []).act (.thread i (.recv (.got [])))
  | .lost i => (s.setInbox i []).act (.thread i (.recv .error))

/-- The step of the transfer that it is, if it is one. -/
def transferAct (inbox : ℕ → List (List Byte)) : NetworkAct → Option TransferAct
  | .fopen ok => some (.fopen ok)
  | .create r => some (.create r)
  | .judge => some .judge
  | .call i ok => some (.thread i (.call ok))
  | .proceed i => some (.thread i .proceed)
  | .arrive i => (inbox i).head?.map fun c => .thread i (.recv (.got c))
  | .closed i => some (.thread i (.recv (.got [])))
  | .lost i => some (.thread i (.recv .error))

/-- The start. -/
def init (n : ℕ) (fileSize : ℤ) (filePath : ℕ → List Byte) (inbox : ℕ → List (List Byte)) : Network :=
  ⟨.init n fileSize filePath, inbox⟩

theorem transfer_step (s : Network) (a : NetworkAct) :
    (s.step a).transfer = (transferAct s.inbox a).elim s.transfer s.transfer.step := by
  cases a with
  | arrive i =>
    rw [step, transferAct]
    cases s.inbox i with
    | nil => rfl
    | cons c cs =>
      dsimp only
      split_ifs <;> rfl
  | _ => rfl

end Network

/-! ### The threads -/

/-- A file of which nothing is stored, with no buffer writable yet. -/
structure SingleFileInfo.Blank (x : SingleFileInfo) : Prop where
  buf : ∀ k, x.buf k = ⟨[], .empty, 0⟩
  cpSize : x.inBufInfo.cpSize = 0
  fileIndex : x.fileIndex = 0
  wire : x.wire = ⟨0, 0, 0⟩

/-- The state of the decoder once the call of `write_buf` has returned. -/
def ThreadCtx.wire (c : ThreadCtx) : WireState :=
  match c.thread.next with
  | none => c.file.wire
  | some next => (afterWrite c.file.wire next).1

/-- What is on its way to a decoder are the pieces that its producer is to hand over. -/
def Bound (w : WireState) (inbox pieces : List (List Byte)) : Prop :=
  inbox = [] ∨ (∃ rest, Incoming w inbox rest) ∧ pieces = handed w inbox

/-- A thread is in the same call of `write_buf` as a producer, or in one without bytes, which the producer leaves
out. -/
def InCall (l : WriteLocal) (w : Writer) : Prop :=
  l = w.loc ∨ w.loc.pc = .idle ∧ (l.pc = .idle ∨ l = .call [] ∧ w.pieces ≠ [])

/-- A thread and the results of `recv` to come on its connection are where a producer with file `x` is. -/
inductive ThreadMirror (c : ThreadCtx) (inbox : List (List Byte)) (x : SingleFileInfo) (w : Writer) : Prop
  /-- the event is not added yet, or never will be -/
  | before (hpc : c.thread.pc ≠ .dispatch) (hnext : c.thread.next = none) (hloc : c.thread.loc.pc = .idle)
      (hfile : c.file.Blank) (hx : x.Same Stream.readyFile) (hw : w.loc.pc = .idle)
      (hin : Bound ⟨0, 0, 0⟩ inbox w.pieces)
  /-- the event was added -/
  | after (hpc : c.thread.pc = .dispatch ∨ c.thread.pc = .exited ∨ c.thread.pc = .faulted)
      (hnext : c.thread.next = none → c.thread.loc.pc = .idle)
      (hfile : c.file.Same x) (hloc : InCall c.thread.loc w) (hin : Bound c.wire inbox w.pieces)

section Thread

variable {c c' : ThreadCtx} {inbox cs : List (List Byte)} {x : SingleFileInfo} {w : Writer} {N xorFlag : ℤ}

theorem Bound.nil (w : WireState) (pieces : List (List Byte)) : Bound w [] pieces := Or.inl rfl

/-- A thread is done with its connection. -/
theorem ThreadMirror.drop (h : ThreadMirror c inbox x w) : ThreadMirror c [] x w := by
  cases h with
  | before hpc hnext hloc hfile hx hw hin => exact .before hpc hnext hloc hfile hx hw (.nil _ _)
  | after hpc hnext hfile hloc hin => exact .after hpc hnext hfile hloc (.nil _ _)

/-- Neither the counters nor the flag of the group matter. -/
theorem ThreadMirror.frame (h : ThreadMirror c inbox x w) (hfile : c'.file = c.file)
    (hthread : c'.thread = c.thread) : ThreadMirror c' inbox x w := by
  cases h with
  | before hpc hnext hloc hblank hx hw hin =>
    exact .before (hthread ▸ hpc) (hthread ▸ hnext) (hthread ▸ hloc) (hfile ▸ hblank) hx hw hin
  | after hpc hnext hx hloc hin =>
    refine .after (hthread ▸ hpc) (hthread ▸ hnext) (hfile ▸ hx) (hthread ▸ hloc) ?_
    rwa [ThreadCtx.wire, hfile, hthread]

/-- The buffers of a file whose event is being added. -/
theorem same_start (h : c.file.Blank) : c.start.file.Same Stream.readyFile := by
  have hbuf : c.start.file.inBufInfo.buf = Stream.readyFile.inBufInfo.buf := by
    funext k
    show c.start.file.buf k = _
    rcases Fin.exists_fin_two.1 ⟨k, rfl⟩ with rfl | rfl
    · simp [ThreadCtx.start, SingleFileInfo.buf_setBuf, h.buf, Stream.readyFile]
    · simp [ThreadCtx.start, h.buf, Stream.readyFile]
  exact ⟨congrArg₂ InFileInfo.mk hbuf h.cpSize, h.fileIndex⟩

/-- A new block for a file of which nothing is stored. -/
theorem SingleFileInfo.Blank.setPtr (h : c.file.Blank) (k : Fin 2) (p : Ptr) : (c.setPtr k p).file.Blank := by
  refine ⟨fun k' => ?_, h.cpSize, h.fileIndex, h.wire⟩
  show (c.file.setBuf k _).buf k' = _
  rw [buf_setBuf]
  split_ifs
  · rw [h.buf k]
    rfl
  · exact h.buf k'

/-- A call of `write_buf` without bytes changes nothing as long as some are still to come. -/
theorem writeBufStep_empty {f : List Byte} {dr : Fin 2 → Prop} {l : WriteLocal} {pieces : List (List Byte)}
    (h : FileInv f dr x l pieces) (hidle : l.pc = .idle) (hne : pieces ≠ []) (num : Fin 2 → ℕ) :
    (writeBufStep f.length ⟨x, num, .call []⟩).info.Same x ∧
      (writeBufStep f.length ⟨x, num, .call []⟩).num = num ∧
      (writeBufStep f.length ⟨x, num, .call []⟩).loc.pc = .idle := by
  have hloc := h.loc
  simp only [LocalInv, hidle] at hloc
  have hlt : x.stored < f.length := by
    refine lt_of_le_of_ne h.le fun hend => ?_
    have hsplit := h.split
    rw [hend, List.drop_length] at hsplit
    simp only [WriteLocal.pending, hidle, List.nil_append] at hsplit
    obtain ⟨p, ps, rfl⟩ := List.exists_cons_of_ne_nil hne
    have hp := (h.pieces_le p List.mem_cons_self).1
    rw [List.flatten_cons] at hsplit
    rw [(List.append_eq_nil_iff.1 hsplit.symm).1] at hp
    exact absurd hp (lt_irrefl _)
  obtain ⟨k, hk⟩ : ∃ k, x.Writing k := by
    by_contra hno
    exact hlt.ne (hloc.2.2 (not_exists.1 hno))
  have hfits : ¬ (x.buf k).bufSize + ([] : List Byte).length > readBufSize := by
    have := (h.writing k hk).2
    simpa using this
  have hindex : ¬ ((x.fileIndex + ([] : List Byte).length : ℕ) : ℤ) ≥ f.length := by
    rw [SingleFileInfo.stored, hloc.1] at hlt
    rw [List.length_nil]
    omega
  have hstep : writeBufStep f.length ⟨x, num, .call []⟩ = storeInto f.length k ⟨x, num, .call []⟩ := by
    rcases Fin.exists_fin_two.1 ⟨k, rfl⟩ with rfl | rfl
    · have h0 : (x.buf 0).flag = .writing := hk
      simp only [writeBufStep, WriteLocal.call, h0, if_true]
    · have h1 : (x.buf 1).flag = .writing := hk
      have h0 : (x.buf 0).flag ≠ .writing := fun h0 => absurd (h.one 0 1 h0 hk) (by simp)
      simp only [writeBufStep, WriteLocal.call, h0, h1, if_false, if_true]
  rw [hstep, storeInto_of_fits (fun _ => hloc.1) hfits]
  refine ⟨⟨?_, rfl⟩, rfl, if_neg hindex⟩
  have hset : Function.update x.inBufInfo.buf k (x.buf k) = x.inBufInfo.buf := Function.update_eq_self k _
  show InFileInfo.mk (Function.update x.inBufInfo.buf k
    { x.buf k with bytes := (x.buf k).bytes ++ List.drop x.inBufInfo.cpSize [] }) 0 = x.inBufInfo
  rw [List.drop_nil, List.append_nil]
  exact (congrArg₂ InFileInfo.mk hset hloc.1.symm)

/-- What a step of a thread is for its producer: nothing, or a step of it. -/
def Mirrored (N : ℤ) (c c' : ThreadCtx) (inbox : List (List Byte)) (d : FileCtx) (ps : List (List Byte)) : Prop :=
  c'.correctFlag = c.correctFlag ∧
    (c'.num = d.num ∧ ThreadMirror c' inbox d.info ⟨d.loc, ps⟩ ∨
      ∃ d' ps', WriterMove N d ps d' ps' ∧ c'.num = d'.num ∧ ThreadMirror c' inbox d'.info ⟨d'.loc, ps'⟩)

section Mirrored

variable {f : List Byte} {dr : Fin 2 → Prop} {d : FileCtx} {ps : List (List Byte)}

theorem ThreadMirror.stay (h : ThreadMirror c inbox d.info ⟨d.loc, ps⟩) (hnum : c.num = d.num) :
    Mirrored N c c inbox d ps := ⟨rfl, Or.inl ⟨hnum, h⟩⟩

/-- A call of the setup. -/
theorem ThreadMirror.call (h : ThreadMirror c inbox d.info ⟨d.loc, ps⟩) (hnum : c.num = d.num) (ok : Bool) :
    (c.call ok).correctFlag = -1 ∨ Mirrored N c (c.call ok) inbox d ps := by
  have hm := threadStep_call_move N 0 c ok
  cases h with
  | after hpc hnext hfile hloc hin =>
    refine Or.inr ?_
    have hsame : c.call ok = c := by
      unfold ThreadCtx.call
      rcases hpc with hpc | hpc | hpc <;> rw [hpc]
    rw [hsame]
    exact ThreadMirror.stay (.after hpc hnext hfile hloc hin) hnum
  | before hpc hnext hloc hfile hx hw hin =>
    generalize c.call ok = c' at hm
    have hbefore : ∀ (y : SingleFileInfo) pc, y.Blank → pc ≠ .dispatch →
        ThreadMirror { c with file := y, thread.pc := pc } inbox d.info ⟨d.loc, ps⟩ := fun y pc hy hne =>
      .before hne hnext hloc hy hx hw hin
    cases hm with
    | stay _ => exact Or.inr (ThreadMirror.stay (.before hpc hnext hloc hfile hx hw hin) hnum)
    | connected pc _ hpc' =>
      refine Or.inr ⟨rfl, Or.inl ⟨hnum, hbefore c.file pc hfile ?_⟩⟩
      rcases hpc' with rfl | rfl | rfl <;> simp
    | unconnected _ => exact Or.inl rfl
    | allocated k _ _ =>
      refine Or.inr ⟨rfl, Or.inl ⟨hnum, hbefore _ _ (hfile.setPtr k _) ?_⟩⟩
      split_ifs <;> simp
    | unallocated k _ _ _ => exact Or.inr ⟨rfl, Or.inl ⟨hnum, hbefore _ _ (hfile.setPtr k _) (by simp)⟩⟩

/-- A thread goes on by itself. -/
theorem ThreadMirror.proceed (xorFlag : ℤ) (h : ThreadMirror c inbox d.info ⟨d.loc, ps⟩) (hnum : c.num = d.num)
    (hI : FileInv f dr d.info d.loc ps) :
    Mirrored f.length c (threadStep f.length xorFlag c .proceed) inbox d ps := by
  cases h with
  | before hpc hnext hloc hfile hx hw hin =>
    unfold threadStep
    dsimp only
    split
    · refine ⟨rfl, Or.inl ⟨hnum, .after (Or.inl rfl) (fun _ => hloc) ((same_start hfile).trans hx.symm)
        (Or.inr ⟨hw, Or.inl hloc⟩) ?_⟩⟩
      have hwire : c.start.wire = ⟨0, 0, 0⟩ := by
        rw [ThreadCtx.wire, show c.start.thread.next = none from hnext]
        exact hfile.wire
      rw [hwire]
      exact hin
    · rename_i hdispatch _
      exact absurd hdispatch hpc
    · rename_i hdispatch _
      exact absurd hdispatch hpc
    · exact ThreadMirror.stay (.before hpc hnext hloc hfile hx hw hin) hnum
  | after hpc hnext hfile hloc hin =>
    unfold threadStep
    dsimp only
    split
    · rename_i hstart
      rw [hstart] at hpc
      rcases hpc with hpc | hpc | hpc <;> cases hpc
    · rename_i next hdispatch hsome
      have hwire : c.wire = (afterWrite c.file.wire next).1 := by rw [ThreadCtx.wire, hsome]
      split_ifs with hidle
      · -- the callback returns
        refine ⟨rfl, Or.inl ⟨hnum, .after hpc (fun _ => hidle) ⟨hfile.inBufInfo, hfile.fileIndex⟩ hloc ?_⟩⟩
        rw [hwire] at hin
        exact hin
      · have hkeep : (c.setWriteCtx (writeBufStep f.length c.writeCtx)).wire = c.wire := by
          rw [hwire, ThreadCtx.wire]
          show (match c.thread.next with
            | none => _
            | some next => (afterWrite (writeBufStep f.length c.writeCtx).info.wire next).1) = _
          rw [hsome, writeBufStep_wire]
          rfl
        have hsome' : (c.setWriteCtx (writeBufStep f.length c.writeCtx)).thread.next = some next := hsome
        rcases hloc with hloc | ⟨hw, hl | ⟨hempty, hne⟩⟩
        · -- a step of `write_buf`, for both
          have hsame := writeBufStep_same f.length (c := c.writeCtx) (d := d) ⟨hfile, hnum, hloc⟩
          refine ⟨rfl, Or.inr ⟨writeBufStep f.length d, ps, .step ps ?_, hsame.num, .after hpc ?_ hsame.info
            (Or.inl hsame.loc) ?_⟩⟩
          · rwa [← show c.thread.loc = d.loc from hloc]
          · rw [hsome']
            exact fun hnone => absurd hnone (Option.some_ne_none next)
          · rwa [hkeep]
        · exact absurd hl hidle
        · -- a call without bytes
          obtain ⟨hinfo, hn, hpc'⟩ := writeBufStep_empty hI hw hne d.num
          have hsame := writeBufStep_same f.length (c := c.writeCtx) (d := ⟨d.info, d.num, .call []⟩)
            ⟨hfile, hnum, hempty⟩
          refine ⟨rfl, Or.inl ⟨hsame.num.trans hn, .after hpc ?_ (hsame.info.trans hinfo)
            (Or.inr ⟨hw, Or.inl ((congrArg WriteLocal.pc hsame.loc).trans hpc')⟩) ?_⟩⟩
          · rw [hsome']
            exact fun hnone => absurd hnone (Option.some_ne_none next)
          · rwa [hkeep]
    · rename_i hnone
      split_ifs
      · exact ⟨rfl, Or.inl ⟨hnum, .after (Or.inr (Or.inl rfl)) hnext hfile hloc hin⟩⟩
      · exact ThreadMirror.stay (.after hpc hnext hfile hloc hin) hnum
    · exact ThreadMirror.stay (.after hpc hnext hfile hloc hin) hnum

/-- The thread of a group that is over notices. -/
theorem ThreadMirror.over (h : ThreadMirror c inbox d.info ⟨d.loc, ps⟩) (hnum : c.num = d.num) (hw : c.Waits) :
    Mirrored N c { c with file := c.file.withPtr fun _ => .released, thread.noticed := true } inbox d ps := by
  cases h with
  | before hpc hnext hloc hfile hx hw' hin => exact absurd hw.1 hpc
  | after hpc hnext hfile hloc hin =>
    exact ⟨rfl, Or.inl ⟨hnum, .after hpc hnext ⟨hfile.inBufInfo, hfile.fileIndex⟩ hloc hin⟩⟩

/-- The next bytes of the connection are received. -/
theorem ThreadMirror.receive {chunk : List Byte} (h : ThreadMirror c (chunk :: cs) d.info ⟨d.loc, ps⟩)
    (hnum : c.num = d.num) (hw : c.Waits) (hover : ¬ c.Over xorFlag) :
    Mirrored N c (c.event xorFlag (.got chunk)) cs d ps := by
  cases h with
  | before hpc hnext hloc hfile hx hw' hin => exact absurd hw.1 hpc
  | after hpc hnext hfile hloc hin =>
    have hwire : c.wire = c.file.wire := by rw [ThreadCtx.wire, hw.2]
    obtain ⟨⟨rest, hinc⟩, hps⟩ := hin.resolve_left (List.cons_ne_nil _ _)
    obtain ⟨x, y, next, hon, -, hinc', -, hy⟩ := hinc.cons
    rw [handed_cons hon] at hps
    rw [hwire] at hon
    have hevent : c.event xorFlag (.got chunk) = { c with thread.loc := .call x, thread.next := some next } := by
      unfold ThreadCtx.event
      rw [if_neg (show ¬ (xorFlag = 1 ∨ c.correctFlag = -1) from hover), hon]
      exact if_neg (by omega)
    have hl : d.loc.pc = .idle := by
      rcases hloc with hloc | ⟨hl, -⟩
      · exact (congrArg WriteLocal.pc hloc).symm.trans (hnext hw.2)
      · exact hl
    rw [hwire] at hinc' hps
    have hbound : Bound (afterWrite c.file.wire next).1 cs (handed (afterWrite c.file.wire next).1 cs) :=
      Or.inr ⟨⟨y, hinc'⟩, rfl⟩
    have hsome : ∀ {p : Prop}, some next = none → p := fun hnone => absurd hnone (Option.some_ne_none next)
    rw [hevent]
    by_cases hx : x = []
    · -- the bytes are the header alone
      rw [if_pos hx, List.nil_append] at hps
      refine ⟨rfl, Or.inl ⟨hnum, .after hpc hsome hfile (Or.inr ⟨hl, Or.inr ⟨by rw [hx], ?_⟩⟩) ?_⟩⟩
      · rintro hnil
        refine hy hx ?_
        rw [← hinc'.pieces.1, ← hps, show ps = [] from hnil]
        rfl
      · rw [show ps = _ from hps]
        exact hbound
    · rw [if_neg hx, List.singleton_append] at hps
      obtain rfl : ps = x :: handed (afterWrite c.file.wire next).1 cs := hps
      exact ⟨rfl, Or.inr ⟨{ d with loc := .call x }, _, .call x _ hl, hnum,
        .after hpc hsome hfile (Or.inl rfl) hbound⟩⟩

/-- The connection is closed, or breaks. -/
theorem ThreadMirror.finish (h : ThreadMirror c inbox d.info ⟨d.loc, ps⟩) (hnum : c.num = d.num) (hw : c.Waits)
    (hloop : c.HasLoop) (hover : ¬ c.Over xorFlag) {r : RecvResult} (hr : r = .got [] ∨ r = .error) :
    (c.event xorFlag r).correctFlag = -1 ∨ Mirrored N c (c.event xorFlag r) [] d ps := by
  unfold ThreadCtx.event
  rw [if_neg (show ¬ (xorFlag = 1 ∨ c.correctFlag = -1) from hover)]
  rcases hr with rfl | rfl
  · cases h.drop with
    | before hpc hnext hloc hfile hx hw' hin => exact absurd hw.1 hpc
    | after hpc hnext hfile hloc hin =>
      refine Or.inr ?_
      unfold onRecv
      by_cases hstate : c.file.wire.writeState = 0
      · simp only [List.length_nil, hstate, and_self, if_true]
        rw [ThreadCtx.leave_eq hloop]
        exact ⟨rfl, Or.inl ⟨hnum, .after (Or.inr (Or.inl rfl)) hnext hfile hloc (.nil _ _)⟩⟩
      · simp only [List.length_nil, hstate, and_false, if_false, if_true]
        exact ⟨rfl, Or.inl ⟨hnum, .after hpc hnext ⟨hfile.inBufInfo, hfile.fileIndex⟩ hloc (.nil _ _)⟩⟩
  · dsimp only [onRecv]
    rw [ThreadCtx.leave_eq hloop]
    exact Or.inl rfl

end Mirrored

end Thread

/-! ### The group -/

/-- The consumer is where it is in `Stream`; before it is entered, it is at its start there. -/
def MainMirror : MainPc → JudgeLocal → Prop
  | .fopen, j | .create _, j => j.pc = .test 0
  | .judge j', j => j' = j ∧ ∀ ret, j.pc ≠ .done ret
  | .returned ret, j => ret = right → j.pc = .done right

/-- A transfer with its connections is where the producers and the consumer of `n` files are. -/
structure Mirrors (n : ℕ) (s : Network) (t : Stream) : Prop where
  fileNum : s.transfer.group.fileNum = n
  counts : s.transfer.group.SameCounts t.group
  out : s.transfer.out = t.out
  main : MainMirror s.transfer.main t.judge
  thread : ∀ i < n, ThreadMirror (s.transfer.ctx i) (s.inbox i) (t.group.file i) (t.writer i)

/-- A thread has raised `correct_flag`; the consumer can return `RIGHT` no more, but may have done so. -/
structure Stopped (s : Transfer) (t : Stream) : Prop where
  correctFlag : s.group.correctFlag = -1
  judge : ∀ j ret, s.main = .judge j → j.pc ≠ .done ret
  right : s.main = .returned right → t.judge.pc = .done right ∧ s.out = t.out

theorem Stream.writerStep_of_move {t : Stream} {i : ℕ} {d : FileCtx} {ps : List (List Byte)}
    (hm : WriterMove t.group.fileSize (t.ctx i) (t.writer i).pieces d ps) : t.writerStep i = t.put i d ps := by
  unfold writerStep
  generalize hps : (t.writer i).pieces = pieces at hm
  cases hm with
  | call p _ hpc =>
    rw [if_pos (show (t.writer i).loc.pc = .idle from hpc)]
    simp [put, ctx, TGroupFileInfo.setFile]
  | step _ hpc =>
    rw [if_neg (show ¬ (t.writer i).loc.pc = .idle from hpc), ← hps]
    rfl

section Group

variable {n N : ℕ} {f : ℕ → List Byte} {s : Network} {t : Stream}

theorem Mirrors.right (h : Mirrors n s t) (hmain : s.transfer.main = .returned ORaidServer.right) :
    t.judge.pc = .done ORaidServer.right ∧ s.transfer.out = t.out := by
  have hm := h.main
  rw [hmain] at hm
  exact ⟨hm rfl, h.out⟩

/-- Where `correct_flag` is raised the transfer is stopped. -/
theorem Mirrors.stopped (h : Mirrors n s t) {s' : Transfer} (hflag : s'.group.correctFlag = -1)
    (hmain : s'.main = s.transfer.main) (hout : s'.out = s.transfer.out) : Stopped s' t := by
  refine ⟨hflag, fun j ret hj => ?_, fun hr => ?_⟩
  · have hm := h.main
    rw [← hmain, hj] at hm
    rw [hm.1]
    exact hm.2 ret
  · rw [hout]
    exact h.right (hmain ▸ hr)

/-- What a thread does, the group sees. -/
theorem Mirrors.thread_step (h : Mirrors n s t) (hI : StreamInv n N f t) {i : ℕ} (hi : i < n) {c : ThreadCtx}
    {inbox : List (List Byte)}
    (hm : Mirrored N (s.transfer.ctx i) c inbox (t.ctx i) (t.writer i).pieces) :
    Mirrors n ⟨s.transfer.setCtx i c, Function.update s.inbox i inbox⟩ t ∨
      Mirrors n ⟨s.transfer.setCtx i c, Function.update s.inbox i inbox⟩ (t.step (.writer i)) := by
  obtain ⟨hflag, hmoves⟩ := hm
  -- what the other threads see is as before
  have hothers : ∀ (t' : Stream), (∀ j ≠ i, t'.group.file j = t.group.file j ∧ t'.writer j = t.writer j) →
      ThreadMirror c inbox (t'.group.file i) (t'.writer i) → ∀ j < n,
      ThreadMirror ((s.transfer.setCtx i c).ctx j) (Function.update s.inbox i inbox j) (t'.group.file j)
        (t'.writer j) := by
    intro t' hne hself j hj
    rcases eq_or_ne j i with rfl | hji
    · rw [s.transfer.ctx_setCtx_self, Function.update_self]
      exact hself
    · obtain ⟨hfile, hwriter⟩ := hne j hji
      rw [Function.update_of_ne hji, hfile, hwriter]
      exact (h.thread j hj).frame (s.transfer.file_setCtx_of_ne i c hji) (s.transfer.thread_setCtx_of_ne i c hji)
  rcases hmoves with ⟨hnum, hself⟩ | ⟨d, ps, hmove, hnum, hself⟩
  · exact Or.inl ⟨h.fileNum,
      ⟨h.counts.fileSize, h.counts.xorSize, hnum, h.counts.xorFlag, hflag.trans h.counts.correctFlag⟩, h.out,
      h.main, hothers t (fun _ _ => ⟨rfl, rfl⟩) hself⟩
  · have hstep : t.step (.writer i) = t.put i d ps := by
      show (if i < t.group.fileNum then t.writerStep i else t) = _
      rw [if_pos (hI.fileNum ▸ hi)]
      exact Stream.writerStep_of_move (hI.fileSize.symm ▸ hmove)
    rw [hstep]
    refine Or.inr ⟨h.fileNum,
      ⟨h.counts.fileSize, h.counts.xorSize, hnum, h.counts.xorFlag, hflag.trans h.counts.correctFlag⟩, h.out, h.main,
      hothers _ (fun j hji => ⟨t.file_put_of_ne d ps hji, t.writer_put_of_ne d ps hji⟩) ?_⟩
    rw [Stream.file_put_self, Stream.writer_put_self]
    exact hself

/-- Buffers that have been filled belong to a thread whose event was added. -/
theorem ThreadMirror.same_of_full {c : ThreadCtx} {inbox : List (List Byte)} {x : SingleFileInfo} {w : Writer}
    (h : ThreadMirror c inbox x w) {k : Fin 2} (hk : x.Full k) : c.file.Same x := by
  cases h with
  | before _ _ _ _ hx _ _ =>
    rw [SingleFileInfo.Full, hx.buf] at hk
    rcases Fin.exists_fin_two.1 ⟨k, rfl⟩ with rfl | rfl <;> cases hk
  | after _ _ hfile _ _ => exact hfile

/-- After a step of the consumer the wait goes on, or the function has returned. -/
theorem main_judgeStep (s : Transfer) (j : JudgeLocal) :
    (∃ ret, (judgeStep s.group s.out j).2.2.pc = .done ret ∧ (s.judgeStep j).main = .returned ret) ∨
      (∀ ret, (judgeStep s.group s.out j).2.2.pc ≠ .done ret) ∧
        (s.judgeStep j).main = .judge (judgeStep s.group s.out j).2.2 := by
  unfold Transfer.judgeStep
  obtain ⟨g, out, l⟩ := judgeStep s.group s.out j
  dsimp only
  cases hpc : l.pc with
  | done ret => exact Or.inl ⟨ret, rfl, rfl⟩
  | _ => exact Or.inr ⟨fun ret => JudgePc.noConfusion, rfl⟩

/-- A step of the consumer. -/
theorem Mirrors.judge (h : Mirrors n s t) (hI : StreamInv n N f t) (hn : 0 < n) {j : JudgeLocal}
    (hmain : s.transfer.main = .judge j) : Mirrors n (s.act .judge) (t.step .judge) := by
  have hm := h.main
  rw [hmain] at hm
  obtain ⟨rfl, hdone⟩ := hm
  have hreads : ∀ i < n, t.judge.pc.Reads i → (s.transfer.group.file i).Same (t.group.file i) := by
    intro i hi hr
    cases hpc : t.judge.pc with
    | xor k => exact (h.thread i hi).same_of_full (hI.taken k (Or.inl hpc) i hi).1
    | resetFlag k l =>
      rw [hpc] at hr
      obtain rfl : l = i := hr
      exact (h.thread l hi).same_of_full (hI.drain k l hpc l le_rfl hi).1
    | _ =>
      rw [hpc] at hr
      exact hr.elim
  obtain ⟨hcounts, hrest, hfiles⟩ := judgeStep_same t.out h.counts hreads hn hI.judgeNum
  have hact : s.act .judge = ⟨s.transfer.judgeStep t.judge, s.inbox⟩ := by
    rw [Network.act, Transfer.step, hmain]
  have hgroup : (s.transfer.judgeStep t.judge).group = (judgeStep s.transfer.group t.out t.judge).1 := by
    rw [← h.out]
    rfl
  rw [hact]
  refine ⟨?_, ?_, ?_, ?_, fun i hi => ?_⟩
  · show (s.transfer.judgeStep t.judge).group.fileNum = n
    rw [hgroup, judgeStep_groupNum, h.fileNum]
  · show (s.transfer.judgeStep t.judge).group.SameCounts _
    rw [hgroup]
    exact hcounts
  · show (judgeStep s.transfer.group s.transfer.out t.judge).2.1 = _
    rw [h.out]
    exact congrArg Prod.fst hrest
  · have hlocal : (judgeStep s.transfer.group s.transfer.out t.judge).2.2 = (t.step .judge).judge := by
      rw [h.out]
      exact congrArg Prod.snd hrest
    show MainMirror (s.transfer.judgeStep t.judge).main (t.step .judge).judge
    have hm := main_judgeStep s.transfer t.judge
    rw [hlocal] at hm
    rcases hm with ⟨ret, hpc, hret⟩ | ⟨hpc, hj⟩
    · rw [hret]
      rintro rfl
      exact hpc
    · rw [hj]
      exact ⟨rfl, hpc⟩
  · have hthread := h.thread i hi
    have hfile : ((⟨s.transfer.judgeStep t.judge, s.inbox⟩ : Network).transfer.ctx i).file =
        (judgeStep s.transfer.group t.out t.judge).1.file i := by
      show (s.transfer.judgeStep t.judge).group.file i = _
      rw [hgroup]
    rcases hfiles i hi with ⟨hr, hsame⟩ | ⟨hold, hold'⟩
    · cases hthread with
      | before _ _ _ hblank hx _ _ =>
        have hflag := congrArg InBuf.flag (((hreads i hi hr).trans hx).buf 0)
        have hempty : ((s.transfer.group.file i).buf 0).flag = .empty := congrArg InBuf.flag (hblank.buf 0)
        rw [hempty] at hflag
        cases hflag
      | after hpc hnext _ hloc hin =>
        obtain ⟨b, p, hb⟩ := (judgeStep_frame s.transfer.group t.out t.judge).1 i
        refine .after hpc hnext ?_ hloc ?_
        · rw [hfile]
          exact hsame
        · have hwire : ((⟨s.transfer.judgeStep t.judge, s.inbox⟩ : Network).transfer.ctx i).wire =
              (s.transfer.ctx i).wire := by
            rw [ThreadCtx.wire, hfile, hb]
            rfl
          rw [hwire]
          exact hin
    · have hold'' : (t.step .judge).group.file i = t.group.file i := hold'
      rw [hold'']
      exact hthread.frame (hfile.trans hold) rfl

/-- What happens before the wait: the threads are created, or it comes to no wait. -/
theorem Mirrors.setup (h : Mirrors n s t) (hI : StreamInv n N f t) (htest : t.judge.pc = .test 0) {s' : Transfer}
    (hgroup : s'.group = s.transfer.group) (hout : s'.out = s.transfer.out)
    (hthread : ∀ i, s'.thread i = s.transfer.thread i ∨
      (s.transfer.thread i).pc = .unborn ∧ s'.thread i = { s.transfer.thread i with pc := .socket })
    (hmain : (∃ i, s'.main = s.transfer.nextMain i) ∨ ∃ ret, s'.main = .returned ret ∧ ret ≠ ORaidServer.right) :
    Mirrors n ⟨s', s.inbox⟩ t := by
  refine ⟨?_, ?_, hout.trans h.out, ?_, fun i hi => ?_⟩
  · show s'.group.fileNum = n
    rw [hgroup, h.fileNum]
  · show s'.group.SameCounts t.group
    rw [hgroup]
    exact h.counts
  · show MainMirror s'.main t.judge
    rcases hmain with ⟨i, hi⟩ | ⟨ret, hret, hne⟩
    · rw [hi, Transfer.nextMain]
      split_ifs
      · exact htest
      · refine ⟨?_, fun ret => by rw [htest]; exact JudgePc.noConfusion⟩
        rw [h.fileNum, ← hI.judgeNum, ← htest]
    · rw [hret]
      exact fun heq => absurd heq hne
  · have hfile : (s'.ctx i).file = (s.transfer.ctx i).file := by
      show s'.group.file i = _
      rw [hgroup]
      rfl
    rcases hthread i with hsame | ⟨hunborn, hborn⟩
    · exact (h.thread i hi).frame hfile hsame
    · have hpc : (s.transfer.ctx i).thread.pc = .unborn := hunborn
      have hctx : (s'.ctx i).thread = { (s.transfer.ctx i).thread with pc := .socket } := hborn
      cases h.thread i hi with
      | before _ hnext hloc hblank hx hw hin =>
        refine .before ?_ ?_ ?_ (hfile.symm ▸ hblank) hx hw hin
        · show (s'.ctx i).thread.pc ≠ .dispatch
          rw [hctx]
          exact ThreadPc.noConfusion
        · exact (congrArg FileThread.next hctx).trans hnext
        · exact (congrArg (fun th => th.loc.pc) hctx).trans hloc
      | after hpc' _ _ _ _ => rcases hpc' with hpc' | hpc' | hpc' <;> rw [hpc] at hpc' <;> cases hpc'

/-- The consumer that finds `correct_flag` raised returns an error. -/
theorem judgeStep_error {g : TGroupFileInfo} {out : OutFile} {j : JudgeLocal} {ret : ℤ} (hflag : g.correctFlag = -1)
    (hj : ∀ r, j.pc ≠ .done r) (h : (judgeStep g out j).2.2.pc = .done ret) : ret ≠ ORaidServer.right := by
  have hverdict : verdict g = errorCreatTransmissionDataConnection := if_pos (by rw [hflag]; decide)
  cases hpc : j.pc with
  | loop =>
    simp only [judgeStep, hpc] at h
    split_ifs at h
    · rw [← JudgePc.done.inj h, hverdict]
      decide
  | done r => exact absurd hpc (hj r)
  | _ =>
    simp only [judgeStep, hpc] at h
    try split_ifs at h
    all_goals cases h

/-- A transfer that is stopped stays so. -/
theorem Stopped.step {s : Transfer} (h : Stopped s t) (a : TransferAct) : Stopped (s.step a) t := by
  obtain ⟨hflag, hjudge, hright⟩ := h
  have herror : errorCreatTransmissionDataConnection ≠ ORaidServer.right := by decide
  -- the wait is entered at its start, or not at all
  have hsetup : ∀ {s' : Transfer}, s'.group.correctFlag = -1 →
      ((∃ i, s'.main = s.nextMain i) ∨ s'.main = .returned errorCreatTransmissionDataConnection) →
      Stopped s' t := by
    intro s' hflag' hmain
    rcases hmain with ⟨i, hi⟩ | hret
    · rw [Transfer.nextMain] at hi
      split_ifs at hi
      · exact ⟨hflag', fun j ret hj => absurd (hi.symm.trans hj) MainPc.noConfusion,
          fun hr => absurd (hi.symm.trans hr) MainPc.noConfusion⟩
      · refine ⟨hflag', fun j ret hj => ?_, fun hr => absurd (hi.symm.trans hr) MainPc.noConfusion⟩
        rw [hi] at hj
        cases hj
        exact JudgePc.noConfusion
    · exact ⟨hflag', fun j ret hj => absurd (hret.symm.trans hj) MainPc.noConfusion,
        fun hr => absurd (MainPc.returned.inj (hret.symm.trans hr)) herror⟩
  cases a with
  | thread i b =>
    rcases Nat.lt_or_ge i s.group.fileNum with hi | hi
    · obtain ⟨c, hm, hs⟩ := s.step_thread hi b
      rw [hs]
      exact ⟨hm.correctFlag.elim (fun hc => hc.trans hflag) id, hjudge, hright⟩
    · rw [s.step_thread_of_le hi]
      exact ⟨hflag, hjudge, hright⟩
  | fopen ok =>
    cases hmain : s.main with
    | fopen =>
      rw [Transfer.step, hmain]
      cases ok with
      | true => exact hsetup hflag (Or.inl ⟨0, rfl⟩)
      | false => exact hsetup hflag (Or.inr rfl)
    | _ =>
      rw [Transfer.step, hmain]
      exact ⟨hflag, hjudge, hright⟩
  | create r =>
    cases hmain : s.main with
    | create i =>
      rw [Transfer.step, hmain]
      cases r with
      | created => exact hsetup hflag (Or.inl ⟨i + 1, rfl⟩)
      | noArg => exact hsetup hflag (Or.inr rfl)
      | noThread => exact hsetup rfl (Or.inr rfl)
    | _ =>
      rw [Transfer.step, hmain]
      exact ⟨hflag, hjudge, hright⟩
  | judge =>
    cases hmain : s.main with
    | judge j =>
      rw [Transfer.step, hmain]
      have hflag' : (s.judgeStep j).group.correctFlag = -1 :=
        (judgeStep_frame s.group s.out j).2.2.elim (fun hc => hc.trans hflag) id
      rcases main_judgeStep s j with ⟨ret, hpc, hret⟩ | ⟨hpc, hj⟩
      · exact ⟨hflag', fun j' ret' hj' => absurd (hret.symm.trans hj') MainPc.noConfusion, fun hr =>
          absurd (MainPc.returned.inj (hret.symm.trans hr)) (judgeStep_error hflag (hjudge j · hmain) hpc)⟩
      · refine ⟨hflag', fun j' ret' hj' => ?_, fun hr => absurd (hj.symm.trans hr) MainPc.noConfusion⟩
        rw [hj] at hj'
        cases hj'
        exact hpc ret'
    | _ =>
      rw [Transfer.step, hmain]
      exact ⟨hflag, hjudge, hright⟩

/-- A step from where `t` is: it has stopped the transfer, or it is a step of `Stream`, or none. -/
def Network.StepOf (n : ℕ) (s' : Network) (t : Stream) : Prop :=
  Stopped s'.transfer t ∨ ∃ t', (t' = t ∨ ∃ b, t' = t.step b) ∧ Mirrors n s' t'

theorem Mirrors.stepOf (h : Mirrors n s t) : s.StepOf n t := Or.inr ⟨t, Or.inl rfl, h⟩

/-- A step of a thread, with what it leaves of its connection. -/
theorem Mirrors.act_thread (h : Mirrors n s t) (hI : StreamInv n N f t) {i : ℕ} (hi : i < n) {b : ThreadAct}
    {inbox : List (List Byte)}
    (hm : (threadStep N s.transfer.group.xorFlag (s.transfer.ctx i) b).correctFlag = -1 ∨
      Mirrored N (s.transfer.ctx i) (threadStep N s.transfer.group.xorFlag (s.transfer.ctx i) b) inbox (t.ctx i)
        (t.writer i).pieces) :
    ((s.setInbox i inbox).act (.thread i b)).StepOf n t := by
  have hsize : s.transfer.group.fileSize = N := h.counts.fileSize.trans hI.fileSize
  have hstep : s.transfer.step (.thread i b) =
      s.transfer.setCtx i (threadStep N s.transfer.group.xorFlag (s.transfer.ctx i) b) := by
    rw [Transfer.step, if_pos (h.fileNum.symm ▸ hi), hsize]
  have hact : (s.setInbox i inbox).act (.thread i b) =
      ⟨s.transfer.setCtx i (threadStep N s.transfer.group.xorFlag (s.transfer.ctx i) b),
        Function.update s.inbox i inbox⟩ := congrArg₂ Network.mk hstep rfl
  rw [hact]
  rcases hm with hflag | hm
  · exact Or.inl (h.stopped hflag rfl rfl)
  · rcases h.thread_step hI hi hm with hstay | hmove
    · exact hstay.stepOf
    · exact Or.inr ⟨_, Or.inr ⟨_, rfl⟩, hmove⟩

/-- A step of a thread that leaves its connection alone. -/
theorem Mirrors.act_thread_self (h : Mirrors n s t) (hI : StreamInv n N f t) {i : ℕ} {b : ThreadAct}
    (hm : i < n → (threadStep N s.transfer.group.xorFlag (s.transfer.ctx i) b).correctFlag = -1 ∨
      Mirrored N (s.transfer.ctx i) (threadStep N s.transfer.group.xorFlag (s.transfer.ctx i) b) (s.inbox i)
        (t.ctx i) (t.writer i).pieces) : (s.act (.thread i b)).StepOf n t := by
  by_cases hi : i < n
  · have hstep := h.act_thread hI hi (hm hi)
    rwa [Network.setInbox, Function.update_eq_self] at hstep
  · rw [Network.act, s.transfer.step_thread_of_le (h.fileNum.symm ▸ Nat.not_lt.1 hi)]
    exact h.stepOf

/-- A read event that receives nothing. -/
theorem Mirrors.idle_event (h : Mirrors n s t) (hO : s.transfer.Own) {i : ℕ} (hi : i < n) (hr : ¬ s.Receives i)
    (r : RecvResult)
    {inbox : List (List Byte)}
    (hm : ThreadMirror (s.transfer.ctx i) inbox (t.ctx i).info ⟨(t.ctx i).loc, (t.writer i).pieces⟩) :
    Mirrored N (s.transfer.ctx i) (threadStep N s.transfer.group.xorFlag (s.transfer.ctx i) (.recv r)) inbox
      (t.ctx i) (t.writer i).pieces := by
  by_cases hw : (s.transfer.ctx i).Waits
  · have hover : (s.transfer.ctx i).Over s.transfer.group.xorFlag := by
      by_contra hover
      exact hr ⟨h.fileNum.symm ▸ hi, hw, hover⟩
    rw [(hO.thread i).threadStep_recv hw, show (s.transfer.ctx i).event s.transfer.group.xorFlag r = _ from
      if_pos hover]
    exact hm.over h.counts.bufFullNum hw
  · rw [show threadStep N s.transfer.group.xorFlag (s.transfer.ctx i) (.recv r) = _ from if_neg fun h => hw h.1]
    exact hm.stay h.counts.bufFullNum

/-- The connection of a thread ends. -/
theorem Mirrors.act_end (h : Mirrors n s t) (hO : s.transfer.Own) (hI : StreamInv n N f t) (i : ℕ) {r : RecvResult}
    (hr : r = .got [] ∨ r = .error) : ((s.setInbox i []).act (.thread i (.recv r))).StepOf n t := by
  by_cases hi : i < n
  · have hm := (h.thread i hi).drop
    refine h.act_thread hI hi ?_
    by_cases hrec : s.Receives i
    · obtain ⟨-, hw, hover⟩ := hrec
      rw [(hO.thread i).threadStep_recv hw]
      exact ThreadMirror.finish (d := t.ctx i) (h.thread i hi) h.counts.bufFullNum hw ((hO.thread i).hasLoop hw.1)
        hover hr
    · exact Or.inr (h.idle_event hO hi hrec r hm)
  · rw [Network.act, show (s.setInbox i []).transfer.step _ = _ from
      s.transfer.step_thread_of_le (h.fileNum.symm ▸ Nat.not_lt.1 hi) _]
    refine Mirrors.stepOf ⟨h.fileNum, h.counts, h.out, h.main, fun j hj => ?_⟩
    show ThreadMirror (s.transfer.ctx j) (Function.update s.inbox i [] j) _ _
    have hji : j ≠ i := by
      rintro rfl
      exact hi hj
    rw [Function.update_of_ne hji]
    exact h.thread j hj

/-- The output file is opened, or a thread is created, or not. -/
theorem Mirrors.act_setup (h : Mirrors n s t) (hB : s.transfer.BufInv n) (hI : StreamInv n N f t) {a : TransferAct}
    (ha : (∃ ok, a = .fopen ok) ∨ ∃ r, a = .create r) : (s.act a).StepOf n t := by
  have hm := h.main
  have herror : errorCreatTransmissionDataConnection ≠ ORaidServer.right := by decide
  rcases ha with ⟨ok, rfl⟩ | ⟨r, rfl⟩
  · cases hmain : s.transfer.main with
    | fopen =>
      rw [hmain] at hm
      rw [Network.act, Transfer.step, hmain]
      refine Mirrors.stepOf (h.setup hI hm rfl rfl (fun _ => Or.inl rfl) ?_)
      cases ok with
      | true => exact Or.inl ⟨0, rfl⟩
      | false => exact Or.inr ⟨_, rfl, herror⟩
    | _ =>
      rw [Network.act, Transfer.step, hmain]
      exact h.stepOf
  · cases hmain : s.transfer.main with
    | create l =>
      rw [hmain] at hm
      rw [Network.act, Transfer.step, hmain]
      cases r with
      | created =>
        refine Mirrors.stepOf (h.setup hI hm rfl rfl (fun i => ?_) (Or.inl ⟨l + 1, rfl⟩))
        rcases eq_or_ne i l with rfl | hil
        · exact Or.inr ⟨hB.unborn i (Or.inr ⟨i, hmain, le_rfl⟩), Function.update_self ..⟩
        · exact Or.inl (Function.update_of_ne hil ..)
      | noArg => exact Mirrors.stepOf (h.setup hI hm rfl rfl (fun _ => Or.inl rfl) (Or.inr ⟨_, rfl, herror⟩))
      | noThread =>
        exact Or.inl ⟨rfl, fun j ret hj => absurd hj MainPc.noConfusion,
          fun hr => absurd (MainPc.returned.inj hr) herror⟩
    | _ =>
      rw [Network.act, Transfer.step, hmain]
      exact h.stepOf

/-- **A step of the transfer.** -/
theorem Mirrors.step (h : Mirrors n s t) (hB : s.transfer.BufInv n) (hI : StreamInv n N f t) (hn : 0 < n)
    (a : NetworkAct) : (s.step a).StepOf n t := by
  cases a with
  | fopen ok => exact h.act_setup hB hI (Or.inl ⟨ok, rfl⟩)
  | create r => exact h.act_setup hB hI (Or.inr ⟨r, rfl⟩)
  | judge =>
    rw [Network.step]
    cases hmain : s.transfer.main with
    | judge j => exact Or.inr ⟨_, Or.inr ⟨_, rfl⟩, h.judge hI hn hmain⟩
    | _ =>
      rw [Network.act, Transfer.step, hmain]
      exact h.stepOf
  | call i ok =>
    exact h.act_thread_self hI fun hi =>
      ThreadMirror.call (d := t.ctx i) (h.thread i hi) h.counts.bufFullNum ok
  | proceed i =>
    refine h.act_thread_self hI fun hi => Or.inr ?_
    have hm := ThreadMirror.proceed (d := t.ctx i) s.transfer.group.xorFlag (h.thread i hi)
      h.counts.bufFullNum (hI.file i hi)
    rwa [hI.length i hi] at hm
  | arrive i =>
    rw [Network.step]
    cases hin : s.inbox i with
    | nil => exact h.stepOf
    | cons c cs =>
      dsimp only
      split_ifs with hr
      · obtain ⟨hi, hw, hover⟩ := hr
        rw [h.fileNum] at hi
        have hm := h.thread i hi
        rw [hin] at hm
        refine h.act_thread hI hi (Or.inr ?_)
        rw [(hB.own.thread i).threadStep_recv hw]
        exact ThreadMirror.receive (d := t.ctx i) hm h.counts.bufFullNum hw hover
      · exact h.act_thread_self hI fun hi => Or.inr (h.idle_event hB.own hi hr _ (h.thread i hi))
  | closed i => exact h.act_end hB.own hI i (Or.inl rfl)
  | lost i => exact h.act_end hB.own hI i (Or.inr rfl)

end Group

/-! ### Runs -/

/-- The data servers send `n` files of `N` bytes, each in messages, and no result of `recv` holds bytes of two
messages or a part of a header. -/
structure Sends (n N : ℕ) (f : ℕ → List Byte) (inbox : ℕ → List (List Byte)) : Prop where
  length : ∀ i < n, (f i).length = N
  recv : ∀ i < n, ∀ c ∈ inbox i, 0 < c.length ∧ c.length ≤ maxline
  messages : ∀ i < n, ∃ msgs, payloads msgs = f i ∧ (inbox i).flatten = stream msgs ∧
    Aligned 0 (lengths msgs) ((inbox i).map List.length)

section Runs

variable {n N : ℕ} {f : ℕ → List Byte} {filePath : ℕ → List Byte} {inbox : ℕ → List (List Byte)}

theorem Sends.incoming (h : Sends n N f inbox) {i : ℕ} (hi : i < n) : Incoming ⟨0, 0, 0⟩ (inbox i) (f i) := by
  obtain ⟨msgs, hf, hflat, hal⟩ := h.messages i hi
  rw [← hf]
  exact incoming_of_aligned (h.recv i hi) hflat hal

theorem Sends.split (h : Sends n N f inbox) : Stream.Split n N f fun i => handed ⟨0, 0, 0⟩ (inbox i) where
  flatten _ hi := (h.incoming hi).pieces.1
  length := h.length
  piece _ hi := (h.incoming hi).pieces.2

/-- At the start the producers have everything to hand over that is on its way. -/
theorem mirrors_init (h : Sends n N f inbox) :
    Mirrors n (.init n N filePath inbox) (.init n N fun i => handed ⟨0, 0, 0⟩ (inbox i)) := by
  refine ⟨rfl, ⟨rfl, rfl, rfl, rfl, rfl⟩, rfl, rfl, fun i hi => ?_⟩
  exact .before ThreadPc.noConfusion rfl rfl ⟨fun _ => rfl, rfl, rfl, rfl⟩ ⟨rfl, rfl⟩ rfl
    (Or.inr ⟨⟨_, h.incoming hi⟩, rfl⟩)

/-- What holds of the buffers of a transfer holds of one with its connections. -/
theorem Network.bufInv_of_reach {fileSize : ℤ} {s : Network}
    (h : Reach Network.step Free (.init n fileSize filePath inbox) s) : s.transfer.BufInv n := by
  refine h.invariant (I := fun s => s.transfer.BufInv n) (.init n fileSize filePath) fun s a hB _ => ?_
  rw [s.transfer_step]
  cases Network.transferAct s.inbox a with
  | none => exact hB
  | some b => exact hB.step b

/-- **The transfer is one of `Stream`.**  In every run, whatever the data servers and the connections do, the
transfer is stopped or where the producers and the consumer are in a run of theirs. -/
theorem exists_mirror (h : Sends n N f inbox) (hn : 0 < n) (hN : 0 < N) {s : Network}
    (hreach : Reach Network.step Free (.init n N filePath inbox) s) :
    ∃ t, Reach Stream.step Free (.init n N fun i => handed ⟨0, 0, 0⟩ (inbox i)) t ∧
      (Stopped s.transfer t ∨ Mirrors n s t) := by
  induction hreach with
  | refl => exact ⟨_, .refl, Or.inr (mirrors_init h)⟩
  | @tail s a hreach _ ih =>
    obtain ⟨t, ht, hs⟩ := ih
    rcases hs with hs | hm
    · refine ⟨t, ht, Or.inl ?_⟩
      rw [s.transfer_step]
      cases Network.transferAct s.inbox a with
      | none => exact hs
      | some b => exact hs.step b
    · rcases hm.step (Network.bufInv_of_reach hreach) (streamInv_of_reach hn hN h.split ht) hn a with
        hs | ⟨t', rfl | ⟨b, rfl⟩, hm'⟩
      · exact ⟨t, ht, Or.inl hs⟩
      · exact ⟨_, ht, Or.inr hm'⟩
      · exact ⟨_, ht.tail trivial, Or.inr hm'⟩

/-- A return of `RIGHT` is one with the exclusive or of the files, where each file fits in a buffer. -/
theorem data_of_returned (h : Sends n N f inbox) (hn : 0 < n) (hN : 0 < N) (hle : N ≤ readBufSize) {s : Network}
    (hreach : Reach Network.step Free (.init n N filePath inbox) s) (hret : s.transfer.main = .returned right) :
    s.transfer.out.data = xorBlocks ((List.range n).map f) N := by
  obtain ⟨t, ht, hs⟩ := exists_mirror h hn hN hreach
  obtain ⟨hdone, hout⟩ := hs.elim (fun hs => hs.right hret) fun hm => hm.right hret
  rw [hout]
  exact (((singleInv_of_reach hn hN hle h.split ht).safe hn hle).verdict _ hdone).2

end Runs

end ORaidServer
