import ORaidServer.Group.StreamInv

/-!
# Whole loop iterations

The group seen at a coarser grain: a producer runs an iteration of its loop in `write_buf` without
being interrupted.  A run of this coarser system is a run of the finer one (`reach_of_coarse`).

* `iteration`, `Stream.coarseStep`;
* `visit` and `Solo`: what a producer does while the others pause, `Solo.coarse` and `Solo.eq_run`;
* `Solo.storeAll`, `Solo.switch`, `Solo.block`, `Solo.wake`: its passage through pieces that fit,
  through the end of a buffer, into a wait and out of it.
-/

namespace ORaidServer

open Guarded

/-- The rest of an iteration, up to the top of the loop or the return. -/
def finishIteration (N : ℤ) : ℕ → FileCtx → FileCtx
  | 0, c => c
  | t + 1, c =>
    if c.loc.pc = .head ∨ c.loc.pc = .idle then c else finishIteration N t (writeBufStep N c)

/-- One iteration of the loop of `write_buf`, from its top. -/
def iteration (N : ℤ) (c : FileCtx) : FileCtx := finishIteration N 5 (writeBufStep N c)

/-- What a producer does with its context and remaining pieces when it is its turn: it enters the
next call, or it runs an iteration. -/
def visit (N : ℤ) (c : FileCtx) (ps : List (List Byte)) : FileCtx × List (List Byte) :=
  if c.loc.pc = .idle then
    match ps with
    | [] => (c, [])
    | p :: ps => ({ c with loc := .call p }, ps)
  else (iteration N c, ps)

namespace Stream

/-- One step of the coarser system. -/
def coarseStep (s : Stream) : Actor → Stream
  | .writer i =>
    if i < s.group.fileNum then
      let r := visit s.group.fileSize (s.ctx i) (s.writer i).pieces
      s.put i r.1 r.2
    else s
  | .judge => s.judgeStep

theorem put_self (s : Stream) (i : ℕ) : s.put i (s.ctx i) (s.writer i).pieces = s := by
  simp [put, ctx, TGroupFileInfo.setFile]

theorem put_put (s : Stream) (i : ℕ) (c c' : FileCtx) (ps ps' : List (List Byte)) :
    (s.put i c ps).put i c' ps' = s.put i c' ps' := by
  simp [put, TGroupFileInfo.setFile]

theorem step_writer {s : Stream} {i : ℕ} (hi : i < s.group.fileNum)
    (hpc : (s.writer i).loc.pc ≠ .idle) :
    s.step (.writer i) =
      s.put i (writeBufStep s.group.fileSize (s.ctx i)) (s.writer i).pieces := by
  show (if i < s.group.fileNum then s.writerStep i else s) = _
  rw [if_pos hi, writerStep, if_neg hpc]
  rfl

/-- The rest of an iteration is a run of the finer system. -/
theorem finishIteration_eq_run (i t : ℕ) (s : Stream) (hi : i < s.group.fileNum) :
    ∃ m, s.put i (finishIteration s.group.fileSize t (s.ctx i)) (s.writer i).pieces =
      run Stream.step s (List.replicate m (.writer i)) := by
  induction t generalizing s with
  | zero => exact ⟨0, s.put_self i⟩
  | succ t ih =>
    unfold finishIteration
    split_ifs with hpc
    · exact ⟨0, s.put_self i⟩
    · have hne : (s.writer i).loc.pc ≠ .idle := fun h => hpc (Or.inr h)
      obtain ⟨m, hm⟩ := ih (s.step (.writer i)) (by rw [step_writer hi hne]; exact hi)
      refine ⟨m + 1, ?_⟩
      rw [List.replicate_succ, run_cons, ← hm, step_writer hi hne, ctx_put_self, writer_put_self, put_put]
      rfl

/-- A coarse step of a producer is a run of its own in the finer system. -/
theorem coarseStep_writer_eq_run (s : Stream) (i : ℕ) :
    ∃ m, s.coarseStep (.writer i) = run Stream.step s (List.replicate m (.writer i)) := by
  simp only [coarseStep]
  split_ifs with hi
  · by_cases hpc : (s.writer i).loc.pc = .idle
    · refine ⟨1, ?_⟩
      show _ = if i < s.group.fileNum then s.writerStep i else s
      rw [if_pos hi, writerStep, if_pos hpc]
      cases hps : (s.writer i).pieces with
      | nil =>
        simp only [visit, ctx, hpc, if_true]
        rw [← hps]
        exact s.put_self i
      | cons p ps =>
        simp only [visit, ctx, hpc, if_true]
        simp [put, TGroupFileInfo.setFile]
    · obtain ⟨m, hm⟩ := finishIteration_eq_run i 5 (s.step (.writer i))
        (by rw [step_writer hi hpc]; exact hi)
      refine ⟨m + 1, ?_⟩
      have hvisit : visit s.group.fileSize (s.ctx i) (s.writer i).pieces =
          (iteration s.group.fileSize (s.ctx i), (s.writer i).pieces) := if_neg hpc
      rw [List.replicate_succ, run_cons, ← hm, step_writer hi hpc, ctx_put_self, writer_put_self, put_put,
        hvisit]
      rfl
  · exact ⟨0, rfl⟩

/-- A coarse step is a run of the finer system. -/
theorem coarseStep_eq_run (s : Stream) (a : Actor) :
    ∃ as, s.coarseStep a = run Stream.step s as := by
  cases a with
  | judge => exact ⟨[.judge], rfl⟩
  | writer i =>
    obtain ⟨m, hm⟩ := s.coarseStep_writer_eq_run i
    exact ⟨_, hm⟩

/-- What the coarser system reaches, the finer one does. -/
theorem reach_of_coarse {s t : Stream} (h : Reach coarseStep Free s t) :
    Reach Stream.step Free s t := by
  induction h with
  | refl => exact .refl
  | @tail t a _ _ ih =>
    obtain ⟨as, has⟩ := t.coarseStep_eq_run a
    rw [has]
    exact ih.trans (reach_run t as)

end Stream

/-- What a producer reaches while the others pause. -/
inductive Solo (N : ℤ) (c : FileCtx) (ps : List (List Byte)) :
    FileCtx → List (List Byte) → Prop
  | refl : Solo N c ps c ps
  | tail {c' : FileCtx} {ps' : List (List Byte)} :
      Solo N c ps c' ps' → Solo N c ps (visit N c' ps').1 (visit N c' ps').2

namespace Solo

variable {N : ℤ} {c c' c'' : FileCtx} {ps ps' ps'' : List (List Byte)}

theorem trans (h : Solo N c ps c' ps') (h' : Solo N c' ps' c'' ps'') : Solo N c ps c'' ps'' := by
  induction h' with
  | refl => exact h
  | tail _ ih => exact ih.tail

/-- A visit is a coarse step. -/
theorem coarseStep_put {s : Stream} {i : ℕ} (hi : i < s.group.fileNum) (c : FileCtx)
    (ps : List (List Byte)) : (s.put i c ps).coarseStep (.writer i) =
      s.put i (visit s.group.fileSize c ps).1 (visit s.group.fileSize c ps).2 := by
  have hi' : i < (s.put i c ps).group.fileNum := hi
  simp only [Stream.coarseStep, if_pos hi', Stream.ctx_put_self, Stream.writer_put_self,
    Stream.put_put]
  rfl

theorem coarse {s : Stream} {i : ℕ} (hi : i < s.group.fileNum)
    (h : Solo s.group.fileSize (s.ctx i) (s.writer i).pieces c ps) :
    Reach Stream.coarseStep Free s (s.put i c ps) := by
  induction h with
  | refl =>
    rw [s.put_self i]
    exact .refl
  | @tail c' ps' _ ih =>
    rw [← coarseStep_put hi]
    exact ih.tail trivial

/-- In the finer system the producer takes all the steps. -/
theorem eq_run {s : Stream} {i : ℕ} (hi : i < s.group.fileNum)
    (h : Solo s.group.fileSize (s.ctx i) (s.writer i).pieces c ps) :
    ∃ m, s.put i c ps = run Stream.step s (List.replicate m (.writer i)) := by
  induction h with
  | refl => exact ⟨0, s.put_self i⟩
  | @tail c' ps' _ ih =>
    obtain ⟨m, hm⟩ := ih
    obtain ⟨m', hm'⟩ := (s.put i c' ps').coarseStep_writer_eq_run i
    refine ⟨m + m', ?_⟩
    rw [← coarseStep_put hi, hm', hm, ← run_append, List.replicate_append_replicate]

end Solo

/-! ### A producer between two iterations -/

/-- A file no part of whose current piece is stored: `b` is buffer `k` and `b'` the other one. -/
def fileOf (k : Fin 2) (b b' : InBuf) (idx : ℕ) : SingleFileInfo :=
  { Stream.readyFile with
    inBufInfo := ⟨fun j => if j = k then b else b', 0⟩, fileIndex := idx }

section FileOf

variable {k k' : Fin 2} {b b' c : InBuf} {idx : ℕ}

@[simp] theorem buf_fileOf_self : (fileOf k b b' idx).buf k = b := by
  simp [fileOf, SingleFileInfo.buf]

theorem buf_fileOf_other (h : k' ≠ k) : (fileOf k b b' idx).buf k' = b' := by
  simp [fileOf, SingleFileInfo.buf, h]

@[simp] theorem setBuf_fileOf_self : (fileOf k b b' idx).setBuf k c = fileOf k c b' idx := by
  simp only [fileOf, SingleFileInfo.setBuf]
  congr 2
  funext j
  rcases eq_or_ne j k with rfl | hj
  · simp
  · simp [hj]

theorem fileOf_swap (h : k' ≠ k) : fileOf k b b' idx = fileOf k' b' b idx := by
  simp only [fileOf]
  congr 2
  funext j
  rcases eq_or_ne j k with rfl | hj
  · simp [Ne.symm h]
  · obtain rfl : j = k' := by omega
    simp [hj]

@[simp] theorem cpSize_fileOf : (fileOf k b b' idx).inBufInfo.cpSize = 0 := rfl

@[simp] theorem fileIndex_fileOf : (fileOf k b b' idx).fileIndex = idx := rfl

@[simp] theorem stored_fileOf : (fileOf k b b' idx).stored = idx := rfl

@[simp] theorem setCpSize_fileOf : (fileOf k b b' idx).setCpSize 0 = fileOf k b b' idx := rfl

@[simp] theorem setFileIndex_fileOf (n : ℕ) :
    (fileOf k b b' idx).setFileIndex n = fileOf k b b' n := rfl

end FileOf

section Iteration

variable {N : ℤ} {k k' : Fin 2} {bs p : List Byte} {b b' : InBuf} {st idx : ℕ} {num : Fin 2 → ℕ}
  {flag : Bool}

theorem finishIteration_stop {t : ℕ} {c : FileCtx} (h : c.loc.pc = .head ∨ c.loc.pc = .idle) :
    finishIteration N t c = c := by
  cases t with
  | zero => rfl
  | succ t => rw [finishIteration, if_pos h]

theorem finishIteration_go {t : ℕ} {c : FileCtx} (h : ¬ (c.loc.pc = .head ∨ c.loc.pc = .idle)) :
    finishIteration N (t + 1) c = finishIteration N t (writeBufStep N c) := by
  rw [finishIteration, if_neg h]

theorem writeBufStep_head_fileOf (hb : b.flag = .writing) (hb' : b'.flag ≠ .writing) :
    writeBufStep N ⟨fileOf k b b' idx, num, ⟨.head, p, flag⟩⟩ =
      storeInto N k ⟨fileOf k b b' idx, num, ⟨.head, p, flag⟩⟩ := by
  unfold writeBufStep
  obtain rfl | rfl : k = 0 ∨ k = 1 := by omega
  · simp [hb]
  · have h0 : (0 : Fin 2) ≠ 1 := by simp
    simp [hb, hb', buf_fileOf_other h0]

theorem storeInto_fileOf (hfit : bs.length + p.length ≤ readBufSize) :
    storeInto N k ⟨fileOf k ⟨bs, .writing, st⟩ b' idx, num, ⟨.head, p, flag⟩⟩ =
      ⟨fileOf k ⟨bs ++ p, .writing, st⟩ b' (idx + p.length), num,
        ⟨if ((idx + p.length : ℕ) : ℤ) ≥ N then .mark k false else .idle, p, false⟩⟩ := by
  have hs : ¬ (⟨bs, .writing, st⟩ : InBuf).bufSize + p.length > readBufSize := not_lt.2 hfit
  cases flag <;> simp [storeInto, hs]

/-- Marking a buffer full and counting it. -/
theorem finishIteration_mark {t : ℕ} {more : Bool} :
    finishIteration N (t + 3) ⟨fileOf k ⟨bs, .writing, st⟩ b' idx, num, ⟨.mark k more, p, flag⟩⟩ =
      finishIteration N t ⟨fileOf k ⟨bs, .full, st⟩ b' idx, Function.update num k (num k + 1),
        ⟨if more then .tail0 else .idle, p, more || flag⟩⟩ := by
  rw [finishIteration_go (by simp), finishIteration_go (by simp [writeBufStep]),
    finishIteration_go (by simp [writeBufStep])]
  simp [writeBufStep]

/-- An iteration that stores the whole piece. -/
theorem iteration_store (hb' : b'.flag ≠ .writing) (hfit : bs.length + p.length ≤ readBufSize)
    (hend : ((idx + p.length : ℕ) : ℤ) < N) :
    iteration N ⟨fileOf k ⟨bs, .writing, st⟩ b' idx, num, ⟨.head, p, flag⟩⟩ =
      ⟨fileOf k ⟨bs ++ p, .writing, st⟩ b' (idx + p.length), num, ⟨.idle, p, false⟩⟩ := by
  rw [iteration, writeBufStep_head_fileOf rfl hb', storeInto_fileOf hfit, if_neg (not_le.2 hend),
    finishIteration_stop (Or.inr rfl)]

/-- An iteration that stores the last piece. -/
theorem iteration_last (hb' : b'.flag ≠ .writing) (hfit : bs.length + p.length ≤ readBufSize)
    (hend : N ≤ ((idx + p.length : ℕ) : ℤ)) :
    iteration N ⟨fileOf k ⟨bs, .writing, st⟩ b' idx, num, ⟨.head, p, flag⟩⟩ =
      ⟨fileOf k ⟨bs ++ p, .full, st⟩ b' (idx + p.length), Function.update num k (num k + 1),
        ⟨.idle, p, false⟩⟩ := by
  rw [iteration, writeBufStep_head_fileOf rfl hb', storeInto_fileOf hfit, if_pos hend,
    finishIteration_mark, finishIteration_stop (Or.inr rfl)]
  rfl

/-- The end of an iteration that finds both buffers full. -/
theorem finishIteration_wait (hb : b.flag = .full) (hb' : b'.flag = .full) {t : ℕ} :
    finishIteration N (t + 2) ⟨fileOf k b b' idx, num, ⟨.tail0, p, flag⟩⟩ =
      ⟨fileOf k b b' idx, num, ⟨.head, p, flag⟩⟩ := by
  have hfull : ∀ j, ((fileOf k b b' idx).buf j).flag = .full := by
    intro j
    rcases eq_or_ne j k with rfl | hj
    · simpa using hb
    · simpa [buf_fileOf_other hj] using hb'
  rw [finishIteration_go (by simp), finishIteration_go (by simp [writeBufStep, hfull]),
    finishIteration_stop (Or.inl (by simp [writeBufStep, hfull]))]
  simp [writeBufStep, hfull]

/-- The end of an iteration that makes buffer `k` writable: it is free, and so is buffer `0` only
if `k` is. -/
theorem finishIteration_free (hb : b.flag = .empty) (hb' : b'.flag ≠ .writing)
    (hk : k = 0 ∨ b'.flag = .full) {t : ℕ} :
    finishIteration N (t + 2) ⟨fileOf k b b' idx, num, ⟨.tail0, p, flag⟩⟩ =
      ⟨fileOf k ⟨[], .writing, idx⟩ b' idx, num, ⟨.head, p, flag⟩⟩ := by
  rw [finishIteration_go (by simp)]
  obtain rfl | rfl : k = 0 ∨ k = 1 := by omega
  · have h1 : (1 : Fin 2) ≠ 0 := by simp
    have hstep : writeBufStep N ⟨fileOf 0 b b' idx, num, ⟨.tail0, p, flag⟩⟩ =
        ⟨fileOf 0 ⟨[], .writing, idx⟩ b' idx, num, ⟨.tail1, p, flag⟩⟩ := by
      simp [writeBufStep, hb, buf_fileOf_other h1, hb', makeWritable]
    rw [hstep, finishIteration_go (by simp)]
    simp [writeBufStep, finishIteration_stop]
  · have h0 : (0 : Fin 2) ≠ 1 := by simp
    have hb'' : b'.flag = .full := hk.resolve_left (by simp)
    have hstep : writeBufStep N ⟨fileOf 1 b b' idx, num, ⟨.tail0, p, flag⟩⟩ =
        ⟨fileOf 1 b b' idx, num, ⟨.tail1, p, flag⟩⟩ := by
      simp [writeBufStep, buf_fileOf_other h0, hb'']
    rw [hstep, finishIteration_go (by simp)]
    simp [writeBufStep, finishIteration_stop, hb, buf_fileOf_other h0, hb'', makeWritable]

/-- The store of a piece that finds buffer `k` filled up. -/
theorem storeInto_filled (hsize : bs.length = readBufSize) (hp : p ≠ []) :
    storeInto N k ⟨fileOf k ⟨bs, .writing, st⟩ b' idx, num, ⟨.head, p, flag⟩⟩ =
      ⟨fileOf k ⟨bs, .writing, st⟩ b' idx, num, ⟨.mark k true, p, flag⟩⟩ := by
  have hb : (⟨bs, .writing, st⟩ : InBuf).bufSize = readBufSize := hsize
  simp [storeInto, hb, hp]

/-- An iteration that finds buffer `k` filled up and the other one full. -/
theorem iteration_block (hb' : b'.flag = .full) (hsize : bs.length = readBufSize) (hp : p ≠ []) :
    iteration N ⟨fileOf k ⟨bs, .writing, st⟩ b' idx, num, ⟨.head, p, flag⟩⟩ =
      ⟨fileOf k ⟨bs, .full, st⟩ b' idx, Function.update num k (num k + 1), ⟨.head, p, true⟩⟩ := by
  rw [iteration, writeBufStep_head_fileOf rfl (by simp [hb']), storeInto_filled hsize hp,
    finishIteration_mark]
  simpa using finishIteration_wait rfl hb'

/-- An iteration that finds buffer `k` filled up and the other one free. -/
theorem iteration_switch (hb' : b'.flag = .empty) (hk : k' ≠ k) (hsize : bs.length = readBufSize)
    (hp : p ≠ []) :
    iteration N ⟨fileOf k ⟨bs, .writing, st⟩ b' idx, num, ⟨.head, p, flag⟩⟩ =
      ⟨fileOf k' ⟨[], .writing, idx⟩ ⟨bs, .full, st⟩ idx, Function.update num k (num k + 1),
        ⟨.head, p, true⟩⟩ := by
  rw [iteration, writeBufStep_head_fileOf rfl (by simp [hb']), storeInto_filled hsize hp,
    finishIteration_mark, fileOf_swap hk]
  simpa using finishIteration_free hb' (by simp) (Or.inr rfl)

/-- An iteration of a producer that waits and finds buffer `k` free. -/
theorem iteration_wake (hb : b.flag = .empty) (hb' : b'.flag ≠ .writing)
    (hk : k = 0 ∨ b'.flag = .full) :
    iteration N ⟨fileOf k b b' idx, num, ⟨.head, p, flag⟩⟩ =
      ⟨fileOf k ⟨[], .writing, idx⟩ b' idx, num, ⟨.head, p, flag⟩⟩ := by
  have hno : ∀ j, ((fileOf k b b' idx).buf j).flag ≠ .writing := by
    intro j
    rcases eq_or_ne j k with rfl | hj
    · simp [hb]
    · simpa [buf_fileOf_other hj] using hb'
  have hstep : writeBufStep N ⟨fileOf k b b' idx, num, ⟨.head, p, flag⟩⟩ =
      ⟨fileOf k b b' idx, num, ⟨.tail0, p, flag⟩⟩ := by
    simp [writeBufStep, hno]
  rw [iteration, hstep]
  exact finishIteration_free hb hb' hk

end Iteration

namespace Solo

variable {N : ℤ} {k k' : Fin 2} {bs bs' p buf : List Byte} {b' : InBuf} {st st' idx : ℕ}
  {num : Fin 2 → ℕ} {ps : List (List Byte)} {flag : Bool}

theorem call {x : SingleFileInfo} : Solo N ⟨x, num, ⟨.idle, buf, flag⟩⟩ (p :: ps)
    ⟨x, num, ⟨.head, p, false⟩⟩ ps := refl.tail

theorem iterate {c : FileCtx} (hpc : c.loc.pc ≠ .idle) : Solo N c ps (iteration N c) ps := by
  have hvisit : visit N c ps = (iteration N c, ps) := if_neg hpc
  have h : Solo N c ps _ _ := refl.tail
  rwa [hvisit] at h

theorem callIterate {x : SingleFileInfo} : Solo N ⟨x, num, ⟨.idle, buf, flag⟩⟩ (p :: ps)
    (iteration N ⟨x, num, ⟨.head, p, false⟩⟩) ps := call.trans (iterate (by simp))

/-- A piece that fits is stored. -/
theorem store (hb' : b'.flag ≠ .writing) (hfit : bs.length + p.length ≤ readBufSize)
    (hend : ((idx + p.length : ℕ) : ℤ) < N) :
    Solo N ⟨fileOf k ⟨bs, .writing, st⟩ b' idx, num, ⟨.idle, buf, false⟩⟩ (p :: ps)
      ⟨fileOf k ⟨bs ++ p, .writing, st⟩ b' (idx + p.length), num, ⟨.idle, p, false⟩⟩ ps := by
  rw [← iteration_store hb' hfit hend]
  exact callIterate

/-- Pieces that fit together are stored one after the other. -/
theorem storeAll (num : Fin 2 → ℕ) (buf : List Byte) (ps qs : List (List Byte))
    (hb' : b'.flag ≠ .writing) (hfit : bs.length + qs.flatten.length ≤ readBufSize)
    (hend : ((idx + qs.flatten.length : ℕ) : ℤ) < N) :
    ∃ buf', Solo N ⟨fileOf k ⟨bs, .writing, st⟩ b' idx, num, ⟨.idle, buf, false⟩⟩ (qs ++ ps)
      ⟨fileOf k ⟨bs ++ qs.flatten, .writing, st⟩ b' (idx + qs.flatten.length), num,
        ⟨.idle, buf', false⟩⟩ ps := by
  induction qs generalizing bs idx buf with
  | nil =>
    refine ⟨buf, ?_⟩
    simp only [List.flatten_nil, List.append_nil, List.length_nil, Nat.add_zero, List.nil_append]
    exact refl
  | cons q qs ih =>
    simp only [List.flatten_cons, List.length_append] at hfit hend
    have hq : bs.length + q.length ≤ readBufSize := by omega
    have hendq : ((idx + q.length : ℕ) : ℤ) < N := by omega
    have hfit' : (bs ++ q).length + qs.flatten.length ≤ readBufSize := by
      rw [List.length_append]
      omega
    have hend' : ((idx + q.length + qs.flatten.length : ℕ) : ℤ) < N := by omega
    obtain ⟨buf', h⟩ := ih q hfit' hend'
    refine ⟨buf', (store hb' hq hendq).trans ?_⟩
    rw [List.flatten_cons, List.length_append, ← Nat.add_assoc, ← List.append_assoc]
    exact h

/-- A producer whose buffer `k` is filled up goes on in the other one. -/
theorem switch (hk : k' ≠ k) (hsize : bs.length = readBufSize) (hp : p ≠ [])
    (hlen : p.length ≤ readBufSize) (hend : ((idx + p.length : ℕ) : ℤ) < N) :
    Solo N ⟨fileOf k ⟨bs, .writing, st⟩ ⟨bs', .empty, st'⟩ idx, num, ⟨.idle, buf, false⟩⟩ (p :: ps)
      ⟨fileOf k' ⟨p, .writing, idx⟩ ⟨bs, .full, st⟩ (idx + p.length),
        Function.update num k (num k + 1), ⟨.idle, p, false⟩⟩ ps := by
  apply callIterate.trans
  rw [iteration_switch rfl hk hsize hp]
  apply (iterate (by simp)).trans
  rw [iteration_store (by simp) (by simpa using hlen) hend]
  exact refl

/-- The same with the last piece. -/
theorem switchLast (hk : k' ≠ k) (hsize : bs.length = readBufSize) (hp : p ≠ [])
    (hlen : p.length ≤ readBufSize) (hend : N ≤ ((idx + p.length : ℕ) : ℤ)) :
    Solo N ⟨fileOf k ⟨bs, .writing, st⟩ ⟨bs', .empty, st'⟩ idx, num, ⟨.idle, buf, false⟩⟩ (p :: ps)
      ⟨fileOf k' ⟨p, .full, idx⟩ ⟨bs, .full, st⟩ (idx + p.length),
        Function.update (Function.update num k (num k + 1)) k' (num k' + 1), ⟨.idle, p, false⟩⟩
      ps := by
  apply callIterate.trans
  rw [iteration_switch rfl hk hsize hp]
  apply (iterate (by simp)).trans
  rw [iteration_last (by simp) (by simpa using hlen) hend, Function.update_of_ne hk]
  exact refl

/-- A producer whose buffer `k` is filled up waits while the other one is full. -/
theorem block (hsize : bs.length = readBufSize) (hp : p ≠ []) :
    Solo N ⟨fileOf k ⟨bs, .writing, st⟩ ⟨bs', .full, st'⟩ idx, num, ⟨.idle, buf, false⟩⟩ (p :: ps)
      ⟨fileOf k ⟨bs, .full, st⟩ ⟨bs', .full, st'⟩ idx, Function.update num k (num k + 1),
        ⟨.head, p, true⟩⟩ ps := by
  apply callIterate.trans
  rw [iteration_block rfl hsize hp]
  exact refl

/-- A producer that waits goes on in a free buffer. -/
theorem wake (hb' : b'.flag ≠ .writing) (hk : k = 0 ∨ b'.flag = .full)
    (hlen : p.length ≤ readBufSize) (hend : ((idx + p.length : ℕ) : ℤ) < N) :
    Solo N ⟨fileOf k ⟨bs, .empty, st⟩ b' idx, num, ⟨.head, p, flag⟩⟩ ps
      ⟨fileOf k ⟨p, .writing, idx⟩ b' (idx + p.length), num, ⟨.idle, p, false⟩⟩ ps := by
  apply (iterate (by simp)).trans
  rw [iteration_wake rfl hb' hk]
  apply (iterate (by simp)).trans
  rw [iteration_store hb' (by simpa using hlen) hend]
  exact refl

/-- The same with the last piece. -/
theorem wakeLast (hb' : b'.flag ≠ .writing) (hk : k = 0 ∨ b'.flag = .full)
    (hlen : p.length ≤ readBufSize) (hend : N ≤ ((idx + p.length : ℕ) : ℤ)) :
    Solo N ⟨fileOf k ⟨bs, .empty, st⟩ b' idx, num, ⟨.head, p, flag⟩⟩ ps
      ⟨fileOf k ⟨p, .full, idx⟩ b' (idx + p.length), Function.update num k (num k + 1),
        ⟨.idle, p, false⟩⟩ ps := by
  apply (iterate (by simp)).trans
  rw [iteration_wake rfl hb' hk]
  apply (iterate (by simp)).trans
  rw [iteration_last hb' (by simpa using hlen) hend]
  exact refl

end Solo

end ORaidServer
