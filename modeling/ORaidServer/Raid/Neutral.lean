import ORaidServer.Lib.Held
import ORaidServer.Raid.Untouched

/-!
# The handles and buffers of `open_file`

`open_file` and `s_riad` with what they hold as explicit state, and with every outcome of the calls they make
given from outside: of `fopen`, `lstat`, `malloc` and, iteration by iteration, of `fread`, `fgetc` and `fwrite`.
What the files contain matters here only through these outcomes.

* `Outcomes`, `riadStep`, `sRiadHeld`, `openFileHeld`;
* `neutral_iff`: what is held afterwards is what was held before if and only if nothing goes wrong, or the first
  `fopen` does;
* `exists_openFileHeld`: every run of `openFile` is one of these, with the same return value and handles.
-/

namespace ORaidServer

open Files ByteMem Held

/-- Something that `open_file` or `s_riad` acquires. -/
inductive Resource
  | inFd (i : ℕ)
  | outFd
  | inputBuf (i : ℕ)
  deriving DecidableEq, Repr

/-- The results of an iteration's calls: the words that each file gives, the bytes of the first file before one
that is taken for `EOF`, the words that the output takes. -/
structure Round where
  fread : ℕ → ℕ
  fgetc : ℕ
  fwrite : ℕ

/-- The results of the calls of one job. -/
structure Outcomes where
  fopenIn : ℕ → Bool
  fopenOut : Bool
  stSize : ℕ → ℕ
  malloc : ℕ → Bool
  rounds : List Round

/-- The variables that decide how the loop of `s_riad` goes on. -/
structure Counters where
  num0 : ℕ
  xorTotalSize : ℕ
  deriving DecidableEq, Repr

/-- The words that file `i` gives when `readSize` are asked for. -/
def Round.num (rd : Round) (readSize i : ℕ) : ℕ := min (rd.fread i) readSize

/-- The output of the words and the accounting. -/
def Counters.xorWords (fileTotalSize : ℕ) (rd : Round) (c : Counters) : Counters ⊕ ℤ :=
  let ret := min rd.fwrite c.num0
  if (ret : ℤ) < 0 then .inr errorFwriteFile
  else
    let xorTotalSize := c.xorTotalSize + c.num0 * 4
    if xorTotalSize = fileTotalSize then .inr right
    else if xorTotalSize > fileTotalSize then .inr errorXorFile
    else .inl ⟨c.num0, xorTotalSize⟩

/-- An iteration of `while (1)` on `n` files; every return from it frees the buffers. -/
def riadStep (fileTotalSize n : ℕ) (rd : Round) (c : Counters) : Counters ⊕ ℤ :=
  let readSize := chunk (fileTotalSize - c.xorTotalSize)
  if readSize = 0 then
    let c := { c with xorTotalSize := c.xorTotalSize + rd.fgetc }
    if fileTotalSize = c.xorTotalSize then .inr right else c.xorWords fileTotalSize rd
  else if ∀ i < n, rd.num readSize i = rd.num readSize 0 then
    Counters.xorWords fileTotalSize rd { c with num0 := rd.num readSize 0 }
  else .inr errorFreadFile

/-- The loop; `none` where it has not returned after the rounds that are listed. -/
def riadLoop (fileTotalSize n : ℕ) : List Round → Counters → Option ℤ
  | [], _ => none
  | rd :: rounds, c =>
    match riadStep fileTotalSize n rd c with
    | .inl c => riadLoop fileTotalSize n rounds c
    | .inr ret => some ret

/-- `s_riad` -/
def sRiadHeld (fileTotalSize n : ℕ) (malloc : ℕ → Bool) (rounds : List Round)
    (held : Multiset Resource) : Option (ℤ × Multiset Resource) :=
  let (ok, held) := acquireAll malloc .inputBuf (List.range n) held
  if ok then
    (riadLoop fileTotalSize n rounds ⟨0, 0⟩).map fun ret =>
      (ret, releaseAll .inputBuf (List.range n) held)
  else some (errorApplyMalloc, held)

/-- `open_file` on `n` paths; without an input `s_riad` would read from `in_fd[0]`, which was never set. -/
def openFileHeld (n : ℕ) (o : Outcomes) (held : Multiset Resource) : Option (ℤ × Multiset Resource) :=
  let (ok, held) := acquireAll o.fopenIn .inFd (List.range n) held
  if ok then
    if o.fopenOut then
      let held := .outFd ::ₘ held
      if ∀ i < n, o.stSize i = o.stSize 0 then
        if n = 0 then none
        else
          (sRiadHeld (o.stSize 0) n o.malloc o.rounds held).map fun (ret, held) =>
            if ret < 0 then (ret, held)
            else (right, (releaseAll .inFd (List.range n) held).erase .outFd)
      else some (errorFileSize, held)
    else some (errorOutputFile, held)
  else some (errorFileOpen, held)

/-- What is held when `open_file` returns is what was held when it was called. -/
def Neutral (n : ℕ) (o : Outcomes) : Prop :=
  ∀ held ret held', openFileHeld n o held = some (ret, held') → held' = held

/-- In an iteration all files give the same number of words, or the byte loop ends where the file does; it may
end before as long as no word was ever read. -/
def Round.Fine (fileTotalSize n : ℕ) (rd : Round) (c : Counters) : Prop :=
  if chunk (fileTotalSize - c.xorTotalSize) = 0 then
    c.xorTotalSize + rd.fgetc = fileTotalSize ∨
      c.num0 = 0 ∧ c.xorTotalSize + rd.fgetc < fileTotalSize
  else ∀ i < n, rd.num (chunk (fileTotalSize - c.xorTotalSize)) i =
    rd.num (chunk (fileTotalSize - c.xorTotalSize)) 0

/-- So it is in every iteration that is reached. -/
def AllFine (fileTotalSize n : ℕ) : List Round → Counters → Prop
  | [], _ => True
  | rd :: rounds, c => rd.Fine fileTotalSize n c ∧
    ∀ c', riadStep fileTotalSize n rd c = .inl c' → AllFine fileTotalSize n rounds c'

/-! ### The loop -/

section Loop

variable {D n : ℕ} {rd : Round} {rounds : List Round} {c : Counters}

/-- An iteration that is fine goes on or returns `RIGHT`. -/
theorem riadStep_of_fine (hc : c.xorTotalSize ≤ D) (h : rd.Fine D n c) :
    riadStep D n rd c = .inr right ∨ ∃ c', riadStep D n rd c = .inl c' ∧ c'.xorTotalSize ≤ D := by
  have hchunk := chunk_le (D - c.xorTotalSize)
  unfold Round.Fine at h
  unfold riadStep Counters.xorWords
  dsimp only
  split_ifs at h with hr
  · rw [if_pos hr]
    rcases h with heq | ⟨hzero, hlt⟩
    · exact Or.inl (if_pos heq.symm)
    · rw [if_neg (by omega), if_neg (by omega), hzero, if_neg (by omega), if_neg (by omega)]
      exact Or.inr ⟨_, rfl, by dsimp only; omega⟩
  · have hnum : rd.num (chunk (D - c.xorTotalSize)) 0 ≤ chunk (D - c.xorTotalSize) :=
      min_le_right _ _
    rw [if_neg hr, if_pos h, if_neg (by omega)]
    split_ifs with heq hgt
    · exact Or.inl rfl
    · omega
    · exact Or.inr ⟨_, rfl, by dsimp only; omega⟩

/-- One that is not returns an error. -/
theorem riadStep_of_not_fine (hc : c.xorTotalSize ≤ D) (h : ¬ rd.Fine D n c) :
    ∃ ret < 0, riadStep D n rd c = .inr ret := by
  unfold Round.Fine at h
  unfold riadStep Counters.xorWords
  dsimp only
  split_ifs at h with hr
  · have hlt : D - c.xorTotalSize < 4 := by
      by_contra hge
      have := chunk_pos.2 (not_lt.1 hge)
      omega
    rw [if_pos hr, if_neg (by omega), if_neg (by omega), if_neg (by omega), if_pos (by omega)]
    exact ⟨errorXorFile, by decide, rfl⟩
  · rw [if_neg hr, if_neg h]
    exact ⟨errorFreadFile, by decide, rfl⟩

/-- The loop returns `RIGHT` or a negative code. -/
theorem riadLoop_ret (hc : c.xorTotalSize ≤ D) {ret : ℤ} (h : riadLoop D n rounds c = some ret) :
    ret = right ∨ ret < 0 := by
  induction rounds generalizing c with
  | nil => cases h
  | cons rd rounds ih =>
    rw [riadLoop] at h
    by_cases hfine : rd.Fine D n c
    · rcases riadStep_of_fine hc hfine with hstep | ⟨c', hstep, hc'⟩
      · rw [hstep] at h
        cases h
        exact Or.inl rfl
      · rw [hstep] at h
        exact ih hc' h
    · obtain ⟨ret', hneg, hstep⟩ := riadStep_of_not_fine hc hfine
      rw [hstep] at h
      cases h
      exact Or.inr hneg

/-- It returns no error if and only if every iteration is fine. -/
theorem riadLoop_right_iff (hc : c.xorTotalSize ≤ D) :
    (∀ ret, riadLoop D n rounds c = some ret → ret = right) ↔ AllFine D n rounds c := by
  induction rounds generalizing c with
  | nil => exact iff_of_true (fun _ h => by cases h) trivial
  | cons rd rounds ih =>
    by_cases hfine : rd.Fine D n c
    · rw [AllFine, and_iff_right hfine, riadLoop]
      rcases riadStep_of_fine hc hfine with hstep | ⟨c', hstep, hc'⟩
      · rw [hstep]
        exact iff_of_true (fun ret h => by cases h; rfl) fun c' h => by cases h
      · rw [hstep, ih hc']
        constructor
        · rintro h _ ⟨⟩
          exact h
        · exact fun h => h c' rfl
    · obtain ⟨ret, hneg, hstep⟩ := riadStep_of_not_fine hc hfine
      refine iff_of_false (fun h => ?_) fun h => hfine h.1
      have hright := h ret (by rw [riadLoop, hstep])
      rw [hright] at hneg
      exact absurd hneg (lt_irrefl _)

end Loop

/-! ### The job -/

section Job

variable {n : ℕ} {o : Outcomes} {held : Multiset Resource}

/-- With its buffers allocated `s_riad` holds afterwards what it held before. -/
theorem sRiadHeld_of_allocates {D : ℕ} {malloc : ℕ → Bool} {rounds : List Round}
    (h : Allocates malloc n) : sRiadHeld D n malloc rounds held =
      (riadLoop D n rounds ⟨0, 0⟩).map fun ret => (ret, held) := by
  rw [sRiadHeld, acquireAll_eq fun i hi => h i (List.mem_range.1 hi)]
  simp only [if_true, releaseAll_add]

/-- A failing allocation leaves the buffers before it. -/
theorem sRiadHeld_of_not_allocates {malloc : ℕ → Bool} (h : ¬ Allocates malloc n) :
    ∃ i < n, malloc i = false ∧ (∀ j < i, malloc j = true) ∧ ∀ D rounds held,
      sRiadHeld D n malloc rounds held =
        some (errorApplyMalloc, held + ((List.range i).map Resource.inputBuf : Multiset Resource)) := by
  obtain ⟨i, hi, hfail, hok, hheld⟩ := acquireAll_range h Resource.inputBuf
  refine ⟨i, hi, hfail, hok, fun D rounds held => ?_⟩
  rw [sRiadHeld, hheld]
  rfl

/-- The handles of the inputs. -/
def inFds (n : ℕ) : Multiset Resource := (List.range n).map Resource.inFd

/-- Once everything is open, the sizes agree and the buffers are there, the loop decides what is closed. -/
theorem openFileHeld_of_opened (hn : n ≠ 0) (hin : ∀ i < n, o.fopenIn i = true)
    (hout : o.fopenOut = true) (held : Multiset Resource) : openFileHeld n o held =
      if ∀ i < n, o.stSize i = o.stSize 0 then
        (sRiadHeld (o.stSize 0) n o.malloc o.rounds (.outFd ::ₘ (held + inFds n))).map
          fun (ret, held) => if ret < 0 then (ret, held)
            else (right, (releaseAll .inFd (List.range n) held).erase .outFd)
      else some (errorFileSize, .outFd ::ₘ (held + inFds n)) := by
  rw [openFileHeld, acquireAll_eq fun i hi => hin i (List.mem_range.1 hi)]
  simp only [if_true, hout, if_neg hn]
  rfl

theorem close_all (n : ℕ) (held : Multiset Resource) :
    (releaseAll Resource.inFd (List.range n) (.outFd ::ₘ (held + inFds n))).erase .outFd = held := by
  rw [inFds, ← Multiset.cons_add, releaseAll_add, Multiset.erase_cons_head]

/-- A return with something more than before is not neutral. -/
theorem not_neutral (ret : ℤ) {r : Resource} {extra : Multiset Resource} (hr : r ∈ extra)
    (hrun : ∀ held, openFileHeld n o held = some (ret, held + extra)) : ¬ Neutral n o := by
  intro hneutral
  have hheld := hneutral 0 _ _ (hrun 0)
  rw [Multiset.zero_add] at hheld
  rw [hheld] at hr
  exact Multiset.notMem_zero r hr

theorem neutral_zero (o : Outcomes) : Neutral 0 o := by
  intro held ret held' hrun
  rw [openFileHeld, List.range_zero, acquireAll] at hrun
  cases hout : o.fopenOut <;> simp [hout] at hrun
  exact hrun.2.symm

theorem mem_inFds (hn : 0 < n) : .inFd 0 ∈ inFds n :=
  List.mem_map.2 ⟨0, List.mem_range.2 hn, rfl⟩

/-- If an input cannot be opened, those before it stay open. -/
theorem neutral_iff_of_failure (hin : ¬ ∀ i < n, o.fopenIn i = true) :
    Neutral n o ↔ o.fopenIn 0 = false := by
  obtain ⟨i, hi, hfail, hok, hheld⟩ := acquireAll_range hin Resource.inFd
  have hrun : ∀ held, openFileHeld n o held = some (errorFileOpen, held + inFds i) := fun held => by
    rw [openFileHeld, hheld]
    rfl
  rcases Nat.eq_zero_or_pos i with rfl | hpos
  · refine iff_of_true (fun held ret held' h => ?_) hfail
    rw [hrun] at h
    obtain ⟨-, rfl⟩ := Prod.mk.inj (Option.some.inj h)
    exact Multiset.add_zero held
  · apply iff_of_false (not_neutral errorFileOpen (mem_inFds hpos) hrun)
    rw [hok 0 hpos]
    decide

/-- If the output cannot be opened, the inputs stay open. -/
theorem not_neutral_of_fopenOut (hn : 0 < n) (hin : ∀ i < n, o.fopenIn i = true)
    (hout : o.fopenOut = false) : ¬ Neutral n o := by
  refine not_neutral errorOutputFile (mem_inFds hn) fun held => ?_
  rw [openFileHeld, acquireAll_eq fun i hi => hin i (List.mem_range.1 hi), hout]
  rfl

/-- Once everything is open, all that goes wrong leaves it open. -/
theorem neutral_iff_of_opened (hn : n ≠ 0) (hin : ∀ i < n, o.fopenIn i = true)
    (hout : o.fopenOut = true) : Neutral n o ↔
      (∀ i < n, o.stSize i = o.stSize 0) ∧ Allocates o.malloc n ∧
        AllFine (o.stSize 0) n o.rounds ⟨0, 0⟩ := by
  have hrun := openFileHeld_of_opened hn hin hout
  have hleak : ∀ (ret : ℤ) (extra : Multiset Resource),
      (∀ held, openFileHeld n o held = some (ret, .outFd ::ₘ (held + inFds n) + extra)) →
      ¬ Neutral n o := by
    intro ret extra hrun
    refine not_neutral ret (Multiset.mem_cons_self .outFd (inFds n + extra)) fun held => ?_
    rw [hrun, Multiset.cons_add, Multiset.add_assoc, Multiset.add_cons]
  by_cases hsize : ∀ i < n, o.stSize i = o.stSize 0
  · rw [and_iff_right hsize]
    simp only [if_pos hsize] at hrun
    by_cases hall : Allocates o.malloc n
    · rw [and_iff_right hall, ← riadLoop_right_iff (Nat.zero_le _)]
      simp only [sRiadHeld_of_allocates hall, Option.map_map] at hrun
      constructor
      · intro hneutral ret hret
        rcases riadLoop_ret (Nat.zero_le _) hret with hright | hneg
        · exact hright
        · refine absurd hneutral (hleak ret 0 fun held => ?_)
          rw [hrun, hret, Multiset.add_zero]
          exact congrArg some (if_pos hneg)
      · intro hright held ret held' hheld
        rw [hrun] at hheld
        obtain ⟨ret', hret', hclosed⟩ := Option.map_eq_some_iff.1 hheld
        rw [hright ret' hret', Function.comp_apply] at hclosed
        dsimp only at hclosed
        rw [if_neg (show ¬ right < 0 by decide), close_all] at hclosed
        exact (Prod.mk.inj hclosed).2.symm
    · refine iff_of_false ?_ fun h => hall h.1
      obtain ⟨i, -, -, -, hfail⟩ := sRiadHeld_of_not_allocates hall
      refine hleak errorApplyMalloc ((List.range i).map Resource.inputBuf : List Resource) fun held => ?_
      rw [hrun, hfail]
      exact congrArg some (if_pos (show errorApplyMalloc < 0 by decide))
  · refine iff_of_false (hleak errorFileSize 0 fun held => ?_) fun h => hsize h.1
    rw [hrun, if_neg hsize, Multiset.add_zero]

/-- **Resources.**  `open_file` leaves nothing behind if and only if there is no input, the first cannot be opened,
or nothing goes wrong. -/
theorem neutral_iff (n : ℕ) (o : Outcomes) : Neutral n o ↔
    n = 0 ∨ o.fopenIn 0 = false ∨
      (∀ i < n, o.fopenIn i = true) ∧ o.fopenOut = true ∧ (∀ i < n, o.stSize i = o.stSize 0) ∧
        Allocates o.malloc n ∧ AllFine (o.stSize 0) n o.rounds ⟨0, 0⟩ := by
  rcases Nat.eq_zero_or_pos n with rfl | hn
  · exact iff_of_true (neutral_zero o) (Or.inl rfl)
  · rw [or_iff_right hn.ne']
    by_cases hin : ∀ i < n, o.fopenIn i = true
    · rw [or_iff_right (by rw [hin 0 hn]; decide), and_iff_right hin]
      cases hout : o.fopenOut with
      | false =>
        exact iff_of_false (not_neutral_of_fopenOut hn hin hout) fun h => absurd h.1 (by decide)
      | true => rw [and_iff_right rfl, neutral_iff_of_opened hn.ne' hin hout]
    · rw [neutral_iff_of_failure hin, or_iff_left fun h => hin h.1]

/-- The second of two inputs cannot be opened, and the first stays open. -/
theorem not_neutral_all : ¬ ∀ n o, Neutral n o := by
  intro hall
  have hrun : openFileHeld 2 ⟨fun i => i = 0, true, fun _ => 1, fun _ => true, []⟩ 0 =
    some (errorFileOpen, {.inFd 0}) := by decide
  exact absurd (hall 2 _ 0 _ _ hrun) (by decide)

end Job

/-! ### The runs of `openFile` -/

section Refine

variable {D : ℕ} {s t : RiadState}

/-- What decides how the loop goes on. -/
def RiadState.counters (s : RiadState) : Counters := ⟨s.num0, s.xorTotalSize⟩

theorem length_fgetcRest (c0 : Byte) (xs : List Input) : (fgetcRest c0 xs).2.length = xs.length := by
  induction xs generalizing c0 with
  | nil => rfl
  | cons x xs ih => exact congrArg (· + 1) (ih _)

theorem tail_frame (s : RiadState) : s.tail.num0 = s.num0 ∧ s.tail.rest.length = s.rest.length := by
  fun_induction RiadState.tail s with
  | case1 s hstop => exact ⟨rfl, rfl⟩
  | case2 s hstop ih => exact ⟨ih.1, ih.2.trans (length_fgetcRest _ _)⟩

theorem seeked_frame (D : ℕ) (s : RiadState) : (s.seeked D).counters = s.counters ∧
    (s.seeked D).rest.length = s.rest.length := by
  unfold RiadState.seeked
  split_ifs
  · exact ⟨rfl, List.length_map _⟩
  · exact ⟨rfl, rfl⟩

theorem map_xorWords (s : RiadState) (rd : Round) :
    (s.xorWords D).map RiadState.counters Prod.fst = s.counters.xorWords D rd := by
  unfold RiadState.xorWords Counters.xorWords RiadState.counters
  dsimp only
  split_ifs <;> first | rfl | omega

theorem rest_xorWords (h : s.xorWords D = .inl t) : t.rest = s.rest := by
  unfold RiadState.xorWords at h
  dsimp only at h
  split_ifs at h
  cases h
  rfl

theorem Input.fread_le (x : Input) (r : ℕ) : (x.fread r).1 ≤ r := by
  simp only [Input.fread, InFile.fread, List.length_take]
  omega

/-- An iteration is one round: its results are what the files give. -/
theorem exists_round (D : ℕ) (s : RiadState) : ∃ rd : Round,
    (iter D s).map RiadState.counters Prod.fst = riadStep D (s.rest.length + 1) rd s.counters ∧
      ∀ t, iter D s = .inl t → t.rest.length = s.rest.length := by
  rcases Nat.eq_zero_or_pos (chunk (D - s.xorTotalSize)) with hr | hr
  · have hiter : iter D s = if D = (s.seeked D).tail.xorTotalSize then .inr (right, (s.seeked D).tail.out)
        else (s.seeked D).tail.xorWords D := by
      simp only [iter, hr, RiadState.freadAll, if_true, RiadState.seeked]
      rfl
    obtain ⟨l, hl, -⟩ := tail_calls (s.seeked D)
    obtain ⟨hnum, hlen⟩ := tail_frame (s.seeked D)
    obtain ⟨hcounters, hlen'⟩ := seeked_frame D s
    have htail : (s.seeked D).tail.counters = ⟨s.num0, s.xorTotalSize + l.length⟩ := by
      have hnum' := congrArg Counters.num0 hcounters
      have htotal' := congrArg Counters.xorTotalSize hcounters
      dsimp only [RiadState.counters] at hnum' htotal'
      rw [RiadState.counters, hnum, hl, hnum', htotal']
    have htotal : (s.seeked D).tail.xorTotalSize = s.xorTotalSize + l.length :=
      congrArg Counters.xorTotalSize htail
    refine ⟨⟨fun _ => 0, l.length, 0⟩, ?_, fun t ht => ?_⟩
    · rw [hiter, riadStep, show s.counters.xorTotalSize = s.xorTotalSize from rfl, if_pos hr, htotal]
      show _ = if D = s.xorTotalSize + l.length then _ else _
      by_cases hend : D = s.xorTotalSize + l.length
      · rw [if_pos hend, if_pos hend]
        rfl
      · rw [if_neg hend, if_neg hend, map_xorWords, htail]
        rfl
    · rw [hiter] at ht
      split_ifs at ht
      rw [rest_xorWords ht, hlen, hlen']
  · set r := chunk (D - s.xorTotalSize)
    set k := (s.first.fread r).1
    have hiter : iter D s = if ∀ x ∈ s.rest, (x.fread r).1 = k then (s.loaded k r).xorWords D
        else .inr (errorFreadFile, s.out) := by
      unfold iter
      dsimp only
      rw [freadAll_eq s hr]
      by_cases hall : ∀ x ∈ s.rest, (x.fread r).1 = k
      · rw [if_pos hall, if_pos hall]
        exact if_neg hr.ne'
      · rw [if_neg hall, if_neg hall]
    -- what file `i` gives
    let rd : Round := ⟨fun i => ((s.first :: s.rest).map fun x => (x.fread r).1).getD i 0, 0, 0⟩
    have hzero : rd.num r 0 = k := min_eq_left (s.first.fread_le r)
    have hsucc : ∀ i (hi : i < s.rest.length), rd.num r (i + 1) = (s.rest[i].fread r).1 := by
      intro i hi
      have hget : rd.fread (i + 1) = (s.rest[i].fread r).1 := by
        show (s.rest.map fun x => (x.fread r).1).getD i 0 = _
        rw [List.getD_eq_getElem _ _ (by simpa using hi), List.getElem_map]
      rw [Round.num, hget]
      exact min_eq_left (Input.fread_le _ r)
    have hsame : (∀ i < s.rest.length + 1, rd.num r i = rd.num r 0) ↔
        ∀ x ∈ s.rest, (x.fread r).1 = k := by
      rw [hzero]
      constructor
      · intro h x hx
        obtain ⟨i, hi, rfl⟩ := List.mem_iff_getElem.1 hx
        rw [← hsucc i hi]
        exact h (i + 1) (Nat.succ_lt_succ hi)
      · intro h i hi
        cases i with
        | zero => exact hzero
        | succ i =>
          rw [hsucc i (Nat.lt_of_succ_lt_succ hi)]
          exact h _ (List.getElem_mem _)
    refine ⟨rd, ?_, fun t ht => ?_⟩
    · rw [hiter, riadStep, show s.counters.xorTotalSize = s.xorTotalSize from rfl, if_neg hr.ne']
      by_cases hall : ∀ x ∈ s.rest, (x.fread r).1 = k
      · rw [if_pos hall, if_pos (hsame.2 hall), map_xorWords, hzero]
        rfl
      · rw [if_neg hall, if_neg fun h => hall (hsame.1 h)]
        rfl
    · rw [hiter] at ht
      split_ifs at ht
      rw [rest_xorWords ht]
      exact List.length_map _

/-- So is the whole loop. -/
theorem exists_rounds {fuel : ℕ} {q : ℤ × OutFile} (h : Loop.run (iter D) fuel s = some q) :
    ∃ rounds, riadLoop D (s.rest.length + 1) rounds s.counters = some q.1 := by
  induction fuel generalizing s with
  | zero => cases h
  | succ fuel ih =>
    obtain ⟨rd, hrd, hlen⟩ := exists_round D s
    rw [Loop.run] at h
    cases hstep : iter D s with
    | inl t =>
      rw [hstep] at h hrd
      obtain ⟨rounds, hrounds⟩ := ih h
      refine ⟨rd :: rounds, ?_⟩
      rw [riadLoop, ← hrd]
      rwa [hlen t hstep] at hrounds
    | inr q' =>
      rw [hstep] at h hrd
      obtain rfl : q' = q := Option.some.inj h
      exact ⟨[rd], by rw [riadLoop, ← hrd]; rfl⟩

/-- There is one first failure. -/
theorem first_failure_unique {ok : ℕ → Bool} {i j : ℕ} (hi : ok i = false) (hi' : ∀ k < i, ok k = true)
    (hj : ok j = false) (hj' : ∀ k < j, ok k = true) : i = j := by
  rcases Nat.lt_trichotomy i j with h | h | h
  · rw [hj' i h] at hi
    cases hi
  · exact h
  · rw [hi' j h] at hj
    cases hj

/-- What `openFile` holds when it returns. -/
def OpenResult.held (r : OpenResult) : Multiset Resource :=
  (if r.outOpen then .outFd ::ₘ inFds r.inOpen else inFds r.inOpen) +
    (r.live.map Resource.inputBuf : Multiset Resource)

theorem held_closed (ret : ℤ) (fs : Disk) (k : ℕ) :
    OpenResult.held ⟨ret, fs, k, false, []⟩ = inFds k := Multiset.add_zero _

theorem held_open (ret : ℤ) (fs : Disk) (k : ℕ) (live : List ℕ) :
    OpenResult.held ⟨ret, fs, k, true, live⟩ =
      .outFd ::ₘ (inFds k + (live.map Resource.inputBuf : Multiset Resource)) := by
  rw [OpenResult.held, if_pos rfl, Multiset.cons_add]

/-- Every run of `open_file` on a file system is one of those with its outcomes given from outside. -/
theorem exists_openFileHeld {fuel : ℕ} {fs : Disk} {mallocs : ℕ → Bool} {results : List ℕ}
    {outputFileName : Path} {aSetOfFiles : List Path} {r : OpenResult}
    (hrun : openFileOf fuel fs mallocs results outputFileName aSetOfFiles = some r) :
    ∃ o : Outcomes, o.malloc = mallocs ∧ ∀ held,
      openFileHeld aSetOfFiles.length o held = some (r.ret, held + r.held) := by
  rcases openFileOf_cases hrun with ⟨k, hk, rfl⟩ | rfl |
    ⟨path₀, paths, i₀, is, o, fs', rfl, h, hopen⟩
  · refine ⟨⟨fun j => decide (j < k), true, fun _ => 0, mallocs, []⟩, rfl, fun held => ?_⟩
    have hin : ¬ ∀ i < aSetOfFiles.length, decide (i < k) = true := fun hall => by
      simpa using hall k hk
    obtain ⟨i, -, hfail, hok, hheld⟩ := acquireAll_range hin Resource.inFd
    obtain rfl := first_failure_unique hfail hok (j := k) (by simp) (by simp)
    rw [openFileHeld, hheld, held_closed]
    rfl
  · refine ⟨⟨fun _ => true, false, fun _ => 0, mallocs, []⟩, rfl, fun held => ?_⟩
    rw [openFileHeld, acquireAll_eq fun _ _ => rfl, held_closed]
    rfl
  · have hlen := length_fopenAll h.rest
    -- what `lstat` reports for path `i`
    let stSize : ℕ → ℕ := fun i => ((path₀ :: paths).map fs'.statSize).getD i 0
    have hsizes : (∀ i < paths.length + 1, stSize i = stSize 0) ↔
        ∀ p ∈ paths, fs'.statSize path₀ = fs'.statSize p := by
      have hsucc : ∀ i (hi : i < paths.length), stSize (i + 1) = fs'.statSize paths[i] := by
        intro i hi
        show (paths.map fs'.statSize).getD i 0 = _
        rw [List.getD_eq_getElem _ _ (by simpa using hi), List.getElem_map]
      constructor
      · intro hall p hp
        obtain ⟨i, hi, rfl⟩ := List.mem_iff_getElem.1 hp
        rw [← hsucc i hi]
        exact (hall (i + 1) (Nat.succ_lt_succ hi)).symm
      · intro hall i hi
        cases i with
        | zero => rfl
        | succ i =>
          rw [hsucc i (Nat.lt_of_succ_lt_succ hi)]
          exact (hall _ (List.getElem_mem _)).symm
    have hheld : ∀ rounds, ∀ held : Multiset Resource, openFileHeld (paths.length + 1)
        ⟨fun _ => true, true, stSize, mallocs, rounds⟩ held = _ :=
      fun rounds held => openFileHeld_of_opened (Nat.succ_ne_zero _) (fun _ _ => rfl) rfl held
    rw [h.openFile_run] at hopen
    by_cases hsize : ∀ p ∈ paths, fs'.statSize path₀ = fs'.statSize p
    · simp only [if_pos hsize, if_pos (hsizes.2 hsize)] at hopen hheld
      obtain ⟨q, hriad, rfl⟩ := Option.map_eq_some_iff.1 hopen
      have hn : ((is.map fs'.content).map InFile.ofContent).length = paths.length := by
        rw [List.length_map, List.length_map, hlen]
      by_cases hall : Allocates mallocs (paths.length + 1)
      · rw [sRiad_of_allocates (hn.symm ▸ hall)] at hriad
        obtain ⟨q, hq, rfl⟩ := Option.map_eq_some_iff.1 hriad
        obtain ⟨rounds, hrounds⟩ := exists_rounds hq
        rw [show (RiadState.start _ _ _).rest.length = paths.length from
          (List.length_map _).trans hn] at hrounds
        refine ⟨_, rfl, fun held => (hheld rounds held).trans ?_⟩
        rw [sRiadHeld_of_allocates hall, show riadLoop (stSize 0) _ rounds ⟨0, 0⟩ = some q.1 from hrounds]
        by_cases hneg : q.1 < 0
        · rw [show closeFiles fs' o (is.length + 1) ⟨q.1, q.2, []⟩ = ⟨q.1, _, is.length + 1, true, []⟩
            from if_pos hneg, held_open, hlen, Multiset.add_cons]
          simp only [Option.map_some, if_pos hneg, List.map_nil, Multiset.coe_nil, Multiset.add_zero]
        · rw [show closeFiles fs' o (is.length + 1) ⟨q.1, q.2, []⟩ = ⟨right, _, 0, false, []⟩
            from if_neg hneg, held_closed]
          simp only [Option.map_some, if_neg hneg, close_all]
          rw [show inFds 0 = 0 from rfl, Multiset.add_zero]
      · have hno : ¬ Allocates mallocs (((is.map fs'.content).map InFile.ofContent).length + 1) := by
          rwa [hn]
        obtain ⟨i, -, hfail, hok, hriad'⟩ := sRiad_of_not_allocates hno
        obtain ⟨j, -, hfail', hok', hheld'⟩ := sRiadHeld_of_not_allocates hall
        obtain rfl := first_failure_unique hfail hok hfail' hok'
        rw [hriad'] at hriad
        cases hriad
        refine ⟨_, rfl, fun held => (hheld [] held).trans ?_⟩
        have hneg : errorApplyMalloc < 0 := by decide
        rw [hheld', show closeFiles fs' o (is.length + 1) ⟨errorApplyMalloc, _, List.range i⟩ =
          ⟨errorApplyMalloc, _, is.length + 1, true, List.range i⟩ from if_pos hneg, held_open, hlen,
          Multiset.add_cons]
        simp only [Option.map_some, if_pos hneg, Multiset.cons_add, Multiset.add_assoc]
    · simp only [if_neg hsize, if_neg fun hall => hsize (hsizes.1 hall)] at hopen hheld
      cases hopen
      refine ⟨_, rfl, fun held => (hheld [] held).trans ?_⟩
      rw [held_open, hlen, Multiset.add_cons, List.map_nil, Multiset.coe_nil, Multiset.add_zero]

end Refine

end ORaidServer
