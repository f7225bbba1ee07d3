import ORaidServer.Raid.Correct

/-!
# When `s_riad` returns at all

For files of any lengths and a declared size `D` the loop of `s_riad` goes on for ever in two cases:

* `EquallyShort`: the files have the same number of whole words, fewer than were declared, so that from
  some round on every `fread` gives `0` words and `xor_total_size` stays;
* `StopsEarly`: less than a word was declared and the byte loop stops before, so that no round moves
  `xor_total_size`.

In all others it returns, whatever happens to the output (`sRiad_returns_iff`).
-/

namespace ORaidServer

open ByteMem

/-- All files have the same number of whole words, fewer than declared. -/
def EquallyShort (D : ℕ) (cs : List (List Byte)) : Prop := ∃ q < D / 4, ∀ c ∈ cs, c.length / 4 = q

/-- Less than a word is declared, and the first file has fewer bytes before its end or its first
`0xFF`. -/
def StopsEarly (D : ℕ) (c₀ : List Byte) : Prop := D < 4 ∧ (c₀.takeWhile (· ≠ 0xFF)).length < D

instance (D : ℕ) (c₀ : List Byte) : Decidable (StopsEarly D c₀) :=
  inferInstanceAs (Decidable (_ ∧ _))

theorem tailStop_zero (c : List Byte) : tailStop c 0 = (c.takeWhile (· ≠ 0xFF)).length := by
  have hchar : ∀ b : Byte, decide (b.toInt ≠ -1) = decide (b ≠ 0xFF) := by decide
  simp only [tailStop, List.drop_zero, hchar]

/-- The words a short read gives. -/
theorem words_eq (c : List Byte) (p r : ℕ) : words c p r = min r ((c.length - p) / 4) := by
  simp only [words, List.length_take, List.length_drop]
  omega

section Loop

variable {D w : ℕ} {c₀ : List Byte} {cs : List (List Byte)} {s : RiadState}

/-- Files that give the same number of words, too few of them, are equally short. -/
theorem equallyShort_iff {r : ℕ} (hr : 4 * w + 4 * r ≤ D) (hlen : ∀ c ∈ c₀ :: cs, 4 * w ≤ c.length)
    (hshort : ¬ ∀ c ∈ c₀ :: cs, 4 * (w + r) ≤ c.length) :
    EquallyShort D (c₀ :: cs) ↔ ∀ c ∈ cs, words c (4 * w) r = words c₀ (4 * w) r := by
  constructor
  · rintro ⟨q, -, hq⟩ c hc
    have h1 := hq c (by simp [hc])
    have h0 := hq c₀ (by simp)
    rw [words_eq, words_eq]
    omega
  · intro hall
    push Not at hshort
    obtain ⟨d, hd, hdlt⟩ := hshort
    have hd0 : words d (4 * w) r = words c₀ (4 * w) r := by
      rcases List.mem_cons.1 hd with rfl | hd
      · rfl
      · exact hall d hd
    have hdlen := hlen d hd
    rw [words_eq, words_eq] at hd0
    refine ⟨d.length / 4, by omega, fun c hc => ?_⟩
    have hc0 : words c (4 * w) r = words c₀ (4 * w) r := by
      rcases List.mem_cons.1 hc with rfl | hc
      · rfl
      · exact hall c hc
    have hclen := hlen c hc
    rw [words_eq, words_eq] at hc0
    omega

/-- From the top of the loop on, when it returns. -/
theorem Chunked.returns_iff (h : Chunked D w c₀ cs s) :
    (∃ q, Loop.Returns (iter D) s q) ↔ ¬ EquallyShort D (c₀ :: cs) ∧ ¬ StopsEarly D c₀ := by
  -- by induction on the number of bytes left
  induction hm : D - 4 * w using Nat.strong_induction_on generalizing w s with
  | _ m ih =>
    have hret : ∀ {q}, iter D s = .inr q → ∃ q, Loop.Returns (iter D) s q := fun {q} hq =>
      ⟨q, (Loop.returns_of_ret hq).2 rfl⟩
    rcases Nat.eq_zero_or_pos (chunk (D - 4 * w)) with hr | hr
    · have hleft : D < 4 * w + 4 := by
        by_contra hge
        have := chunk_pos.2 (show 4 ≤ D - 4 * w by omega)
        omega
      have hmore := h.more
      have hnot : ¬ EquallyShort D (c₀ :: cs) := by
        rintro ⟨q, hq, hall⟩
        have h1 := hall c₀ (by simp)
        have h2 := h.length c₀ (by simp)
        omega
      have hstep := h.iter_tail hleft
      rw [StopsEarly, ← tailStop_zero, and_iff_right hnot]
      split_ifs at hstep with ht hearly
      · refine iff_of_true (hret hstep) fun he => ?_
        obtain rfl : w = 0 := by omega
        rw [Nat.mul_zero, Nat.zero_add] at ht
        exact he.2.ne ht
      · obtain ⟨t, hnext, hst⟩ := hstep
        refine iff_of_false ?_ fun hno => hno hearly
        rintro ⟨q, hq⟩
        rw [Loop.returns_of_next hnext] at hq
        exact Loop.not_returns_of_invariant (fun _ hu => Stalled.iter hu) hst hq
      · obtain ⟨out, hstep⟩ := hstep
        exact iff_of_true (hret hstep) hearly
    · have hle := chunk_le (D - 4 * w)
      have hD : 4 ≤ D - 4 * w := chunk_pos.1 hr
      have hnot : ¬ StopsEarly D c₀ := fun he => by
        have := he.1
        omega
      by_cases hall : ∀ c ∈ c₀ :: cs, 4 * (w + chunk (D - 4 * w)) ≤ c.length
      · have hstep := h.iter_full rfl hr hall
        split_ifs at hstep with hend
        · refine iff_of_true (hret hstep) ⟨?_, hnot⟩
          rintro ⟨q, hq, hshort⟩
          have h1 := hshort c₀ (by simp)
          have h2 := hall c₀ (by simp)
          omega
        · obtain ⟨t, hnext, ht⟩ := hstep
          rw [← ih _ (by omega) ht rfl]
          exact exists_congr fun q => Loop.returns_of_next hnext
      · have hiff : EquallyShort D (c₀ :: cs) ↔
            ∀ c ∈ cs, words c (4 * w) (chunk (D - 4 * w)) = words c₀ (4 * w) (chunk (D - 4 * w)) :=
          equallyShort_iff (by omega) h.length hall
        rw [and_iff_left hnot, hiff]
        rcases h.iter_short rfl hr hall with ⟨hne, hstep⟩ | ⟨hsame, t, hnext, ht⟩
        · exact iff_of_true (hret hstep) hne
        · refine iff_of_false ?_ fun hno => hno hsame
          rintro ⟨q, hq⟩
          rw [Loop.returns_of_next hnext] at hq
          exact Loop.not_returns_of_invariant (fun _ hu => Exhausted.iter hu) ht hq

end Loop

/-! ### The output does not matter -/

section Output

variable {D : ℕ} {s : RiadState}

/-- The same state with another output stream. -/
def RiadState.withOut (s : RiadState) (o : OutFile) : RiadState := { s with out := o }

theorem freadAll_withOut (s : RiadState) (o : OutFile) (r : ℕ) :
    (s.withOut o).freadAll r = (s.freadAll r).map (RiadState.withOut · o) := by
  unfold RiadState.freadAll
  split_ifs
  · rfl
  · show (freadRest _ r s.rest).map _ = ((freadRest _ r s.rest).map _).map _
    rw [Option.map_map]
    rfl

/-- The bytes that the byte loop hands to `fputc` do not depend on the output stream. -/
theorem tail_calls (s : RiadState) : ∃ l : List Byte, s.tail.xorTotalSize = s.xorTotalSize + l.length ∧
    ∀ f, (s.withOut f).tail = s.tail.withOut (f.calls (l.map .fputc)) := by
  fun_induction RiadState.tail s with
  | case1 s hstop =>
    refine ⟨[], rfl, fun f => ?_⟩
    rw [RiadState.tail, if_pos (show (toChar (s.withOut f).first.fd.fgetc.1).toInt = -1 from hstop)]
    rfl
  | case2 s hstop ih =>
    obtain ⟨l, hlen, hl⟩ := ih
    refine ⟨(fgetcRest (toChar s.first.fd.fgetc.1) s.rest).1 :: l, ?_, fun f => ?_⟩
    · rw [hlen, List.length_cons]
      show s.xorTotalSize + 1 + l.length = _
      omega
    · rw [RiadState.tail,
        if_neg (show ¬ (toChar (s.withOut f).first.fd.fgetc.1).toInt = -1 from hstop)]
      exact hl _

/-- One call of `fwrite`, and the accounting does not depend on what comes of it. -/
theorem xorWords_calls (s : RiadState) (f : OutFile) : (s.withOut f).xorWords D =
    (s.xorWords D).map (RiadState.withOut · (f.calls [.fwrite s.xored 4 s.num0]))
      fun q => (q.1, f.calls [.fwrite s.xored 4 s.num0]) := by
  rcases Nat.lt_trichotomy (s.xorTotalSize + s.num0 * 4) D with h | h | h
  · rw [xorWords_of_lt h, xorWords_of_lt (s := s.withOut f) h]
    rfl
  · rw [xorWords_of_eq h, xorWords_of_eq (s := s.withOut f) h]
    rfl
  · rw [xorWords_of_gt h, xorWords_of_gt (s := s.withOut f) h]
    rfl

/-- An iteration makes the same calls whatever the output stream is, and goes on or ends as they are. -/
theorem iter_calls (s : RiadState) : ∃ l, ∀ f, iter D (s.withOut f) =
    (iter D s).map (RiadState.withOut · (f.calls l)) fun q => (q.1, f.calls l) := by
  have hx : ∀ f, (s.withOut f).xorTotalSize = s.xorTotalSize := fun _ => rfl
  unfold iter
  simp only [hx, freadAll_withOut]
  set r := chunk (D - s.xorTotalSize)
  cases hread : s.freadAll r with
  | none => exact ⟨[], fun f => rfl⟩
  | some u =>
    simp only [Option.map_some]
    by_cases hr : r = 0
    · simp only [if_pos hr]
      obtain ⟨v, hv, hv'⟩ : ∃ v, (if D ≠ u.xorTotalSize then u.fseekAll else u) = v ∧
          ∀ f, (if D ≠ (u.withOut f).xorTotalSize then (u.withOut f).fseekAll else u.withOut f) =
            v.withOut f := by
        by_cases hD : D ≠ u.xorTotalSize
        · exact ⟨_, if_pos hD, fun f => if_pos hD⟩
        · exact ⟨_, if_neg hD, fun f => if_neg hD⟩
      obtain ⟨l, -, hl⟩ := tail_calls v
      simp only [hv, hv', hl]
      have hx' : ∀ f, (v.tail.withOut f).xorTotalSize = v.tail.xorTotalSize := fun _ => rfl
      by_cases hend : D = v.tail.xorTotalSize
      · refine ⟨l.map .fputc, fun f => ?_⟩
        rw [hx', if_pos hend, if_pos hend]
        rfl
      · refine ⟨l.map .fputc ++ [.fwrite v.tail.xored 4 v.tail.num0], fun f => ?_⟩
        rw [hx', if_neg hend, if_neg hend, xorWords_calls, OutFile.calls_append]
    · simp only [if_neg hr]
      exact ⟨_, fun f => xorWords_calls u f⟩

/-- So do all iterations together, and the return value is the same. -/
theorem returns_calls {q : ℤ × OutFile} (h : Loop.Returns (iter D) s q) :
    ∃ l, ∀ f, Loop.Returns (iter D) (s.withOut f) (q.1, f.calls l) := by
  obtain ⟨fuel, hf⟩ := h
  induction fuel generalizing s with
  | zero => cases hf
  | succ fuel ih =>
    obtain ⟨l, hl⟩ := iter_calls (D := D) s
    cases hstep : iter D s with
    | inl t =>
      rw [Loop.run, hstep] at hf
      obtain ⟨l', hl'⟩ := ih hf
      refine ⟨l ++ l', fun f => ?_⟩
      have hnext : iter D (s.withOut f) = .inl (t.withOut (f.calls l)) := by
        rw [hl, hstep]
        rfl
      rw [Loop.returns_of_next hnext, OutFile.calls_append]
      exact hl' _
    | inr q' =>
      rw [Loop.run, hstep] at hf
      obtain rfl : q' = q := Option.some.inj hf
      refine ⟨l, fun f => ?_⟩
      have hret : iter D (s.withOut f) = .inr (q'.1, f.calls l) := by
        rw [hl, hstep]
        rfl
      exact (Loop.returns_of_ret hret).2 rfl

end Output

/-- **When `s_riad` returns.**  For any declared size, any files and any output stream it returns after
finitely many iterations if and only if a buffer cannot be allocated or the files are neither equally
short nor stop early. -/
theorem sRiad_returns_iff (D : ℕ) (mallocs : ℕ → Bool) (c₀ : List Byte) (cs : List (List Byte))
    (out : OutFile) :
    (∃ fuel r, sRiad fuel D mallocs (.ofContent c₀) (cs.map .ofContent) out = some r) ↔
      ¬ Allocates mallocs (cs.length + 1) ∨
        (¬ EquallyShort D (c₀ :: cs) ∧ ¬ StopsEarly D c₀) := by
  have hloop : (∃ q, Loop.Returns (iter D) (.start (.ofContent c₀) (cs.map .ofContent) out) q) ↔
      ¬ EquallyShort D (c₀ :: cs) ∧ ¬ StopsEarly D c₀ := by
    rw [← (chunked_start D c₀ cs).returns_iff]
    constructor
    · rintro ⟨q, hq⟩
      obtain ⟨l, hl⟩ := returns_calls hq
      exact ⟨_, hl ⟨[], []⟩⟩
    · rintro ⟨q, hq⟩
      obtain ⟨l, hl⟩ := returns_calls hq
      exact ⟨_, hl out⟩
  rw [← hloop, ← length_ofContent cs]
  by_cases hall : Allocates mallocs ((cs.map InFile.ofContent).length + 1)
  · simp only [sRiad_of_allocates hall, not_not.2 hall, false_or]
    constructor
    · rintro ⟨fuel, _, hr⟩
      obtain ⟨q, hq, -⟩ := Option.map_eq_some_iff.1 hr
      exact ⟨q, fuel, hq⟩
    · rintro ⟨q, fuel, hq⟩
      exact ⟨fuel, _, congrArg (Option.map _) hq⟩
  · obtain ⟨i, -, -, -, hfail⟩ := sRiad_of_not_allocates hall
    exact iff_of_true ⟨0, _, hfail 0 _ _ _⟩ (Or.inl hall)

/-- A declared size of one byte and an empty file keep the loop going. -/
theorem not_sRiad_returns : ¬ ∀ (D : ℕ) (c₀ : List Byte) (cs : List (List Byte)) (out : OutFile),
    ∃ fuel r, sRiad fuel D (fun _ => true) (.ofContent c₀) (cs.map .ofContent) out = some r := by
  intro hall
  obtain ⟨fuel, r, hr⟩ := hall 1 [] [] ⟨[], []⟩
  obtain ⟨q, hq, -⟩ := Option.map_eq_some_iff.1 hr
  exact ((chunked_start 1 [] []).returns_iff.1 ⟨q, fuel, hq⟩).2 (by decide)

end ORaidServer
