import ORaidServer.Raid.Terminate
import ORaidServer.Group.BufXor

/-!
# Short writes

What the two engines report when the output does not take all that is written to it: `s_riad` on the way to
`RIGHT`, and `buf_xor` when it returns `0`.

* `requests`, the items that `s_riad` asks the output to take, call by call: `Chunked.returns_requests`;
* `sRiadWrites_iff` and `bufXorWrites_iff`: what is reported as done was written if and only if no call takes
  less than it is asked to, where the result is not looked at;
* `written_iff`, the two together.
-/

namespace ORaidServer

open ByteMem

/-- The items asked for on the way to `RIGHT`, by each call of `fwrite` and `fputc` in turn: the whole rounds,
the words after them and the bytes at the end. -/
def requests (D : ℕ) : List ℕ :=
  List.replicate (D / readSize) (readSize / 4) ++
    (if 4 ≤ D % readSize then [D % readSize / 4] else []) ++ List.replicate (D % 4) 1

/-- If `s_riad` returns `RIGHT`, all the bytes of the result were accepted, in order. -/
def SRiadWrites (D : ℕ) (mallocs : ℕ → Bool) (c₀ : List Byte) (cs : List (List Byte))
    (results : List ℕ) : Prop :=
  ∀ fuel r, sRiad fuel D mallocs (.ofContent c₀) (cs.map .ofContent) ⟨[], results⟩ = some r →
    r.ret = right → r.out.data = xorBlocks ((c₀ :: cs).map (eofPad D)) D

/-- If `buf_xor` returns `0`, all the bytes of the segment were accepted, and `xor_size` counts these. -/
def BufXorWrites (fileNum : ℕ) (g : TGroupFileInfo) (out : OutFile) (k : Fin 2) : Prop :=
  (bufXor fileNum g out k).1 = 0 →
    (bufXor fileNum g out k).2.2.data = out.data ++
        xorBlocks ((List.range fileNum).map (g.inBuf k)) ((g.file 0).buf k).bufSize ∧
      (bufXor fileNum g out k).2.1.xorSize + out.data.length =
        g.xorSize + (bufXor fileNum g out k).2.2.data.length

/-! ### The local engine -/

section Local

variable {D w left : ℕ} {mallocs : ℕ → Bool} {c₀ : List Byte} {cs : List (List Byte)} {s : RiadState}

theorem readSize_eq : 4 * (readSize / 4) = readSize := by norm_num [readSize]

theorem requests_of_lt (h : left < 4) : requests left = List.replicate left 1 := by
  have hlt : left < readSize := h.trans (by norm_num [readSize])
  rw [requests, Nat.div_eq_of_lt hlt, Nat.mod_eq_of_lt hlt, if_neg (by omega), Nat.mod_eq_of_lt h,
    List.replicate_zero, List.append_nil, List.nil_append]

theorem requests_of_chunk (h : 0 < chunk left) :
    requests left = chunk left :: requests (left - 4 * chunk left) := by
  have h4 := chunk_pos.1 h
  rcases Nat.lt_or_ge left readSize with hlt | hge
  · have hchunk : chunk left = left / 4 := if_pos hlt.le
    have hmod : left - 4 * (left / 4) = left % 4 := by omega
    rw [hchunk, hmod, requests_of_lt (Nat.mod_lt _ (by decide)), requests, Nat.div_eq_of_lt hlt,
      Nat.mod_eq_of_lt hlt, if_pos h4, List.replicate_zero, List.nil_append, List.singleton_append]
  · have hchunk : chunk left = readSize / 4 := by
      unfold chunk
      split_ifs with hle
      · rw [le_antisymm hle hge]
      · rfl
    have hdiv : left / readSize = (left - readSize) / readSize + 1 :=
      Nat.div_eq_sub_div (by norm_num [readSize]) hge
    have hmod : left % readSize = (left - readSize) % readSize := Nat.mod_eq_sub_mod hge
    have hmod4 : left % 4 = (left - readSize) % 4 := by
      have := readSize_eq
      omega
    rw [hchunk, readSize_eq, requests, requests, hdiv, hmod, hmod4, List.replicate_succ,
      List.cons_append, List.cons_append]

/-- The buffer of the first file holds the words of a round. -/
theorem Chunked.le_length_xored (h : Chunked D w c₀ cs s) {r : ℕ}
    (hlen : 4 * w + 4 * r ≤ c₀.length) : 4 * r ≤ (s.loaded r r).xored.length := by
  rw [RiadState.xored, length_wordPass]
  show 4 * r ≤ (s.first.fread r).2.buf.length
  rw [(h.first.fread r).2.2]
  simp
  omega

/-- The one call of a round. -/
theorem Chunked.iter_calls (h : Chunked D w c₀ cs s) {r : ℕ} (hr : chunk (D - 4 * w) = r) (hpos : 0 < r)
    (hall : ∀ c ∈ c₀ :: cs, 4 * w + 4 * r ≤ c.length) (f : OutFile) : iter D (s.withOut f) =
      (iter D s).map (RiadState.withOut · (f.calls [.fwrite (s.loaded r r).xored 4 r]))
        fun q => (q.1, f.calls [.fwrite (s.loaded r r).xored 4 r]) := by
  rw [iter_of_chunk h.first h.rest h.total hr hpos hall,
    iter_of_chunk (s := s.withOut f) h.first h.rest h.total hr hpos hall]
  exact xorWords_calls (s.loaded r r) f

/-- From the top of the loop on, files that are accepted are written by the calls that `requests` lists. -/
theorem Chunked.returns_requests (h : Chunked D w c₀ cs s) (hacc : Accepted D c₀ cs) :
    ∃ l, l.map OutCall.requested = requests (D - 4 * w) ∧ (∀ c ∈ l, c.Full) ∧
      ∀ f, Loop.Returns (iter D) (s.withOut f) (right, f.calls l) := by
  -- by induction on the number of bytes left
  induction hm : D - 4 * w using Nat.strong_induction_on generalizing w s with
  | _ m ih =>
    rcases Nat.eq_zero_or_pos (chunk (D - 4 * w)) with hr | hr
    · have hleft : D < 4 * w + 4 := by
        by_contra hge
        have := chunk_pos.2 (show 4 ≤ D - 4 * w by omega)
        omega
      have hw : 4 * (D / 4) = 4 * w := by
        have := h.more
        omega
      have ht : 4 * w + tailStop c₀ (4 * w) = D := by
        have hmore := h.more
        obtain ⟨-, hend | hend⟩ := hacc
        · omega
        · rw [hw] at hend
          omega
      refine ⟨tailCalls D (c₀ :: cs) (4 * w) (D - 4 * w), ?_, ?_, fun f => ?_⟩
      · rw [← hm, requests_of_lt (by omega), tailCalls, List.map_map]
        show (List.range' _ _).map (Function.const _ 1) = _
        rw [List.map_const, List.length_range']
      · intro c hc
        obtain ⟨j, -, rfl⟩ := List.mem_map.1 hc
        trivial
      · obtain ⟨⟨hu₀, hurest, hux, -, huo⟩, hiter⟩ :=
          iter_of_lt (s := s.withOut f) h.first h.rest h.total hleft
        obtain ⟨htx, -, -, hto⟩ := tail_spec hu₀ hurest ht.le
        have hend : D = ((s.withOut f).seeked D).tail.xorTotalSize := by
          rw [htx, hux, ht]
        rw [if_pos hend, hto, huo, show tailStop c₀ (4 * w) = D - 4 * w by omega] at hiter
        exact (Loop.returns_of_ret hiter).2 rfl
    · have hle := chunk_le (D - 4 * w)
      have hall : ∀ c ∈ c₀ :: cs, 4 * w + 4 * chunk (D - 4 * w) ≤ c.length := fun c hc => by
        have := hacc.1 c hc
        omega
      have hall' : ∀ c ∈ c₀ :: cs, 4 * (w + chunk (D - 4 * w)) ≤ c.length := fun c hc => by
        have := hall c hc
        omega
      have hfull := h.le_length_xored (hall c₀ (by simp))
      have hreq := requests_of_chunk hr
      have hstep := h.iter_full rfl hr hall'
      have hcalls := h.iter_calls rfl hr hall
      set r := chunk (D - 4 * w)
      set call := OutCall.fwrite (s.loaded r r).xored 4 r
      have hcall : call.Full := ⟨by decide, hfull⟩
      subst hm
      split_ifs at hstep with hend
      · refine ⟨[call], ?_, by simpa using hcall, fun f => ?_⟩
        · rw [hreq, show D - 4 * w - 4 * r = 0 by omega, requests_of_lt (by decide)]
          rfl
        · have hiter := hcalls f
          rw [hstep] at hiter
          exact (Loop.returns_of_ret hiter).2 rfl
      · obtain ⟨t, hnext, ht⟩ := hstep
        obtain ⟨l, hl, hlfull, hlret⟩ := ih _ (by omega) ht rfl
        refine ⟨call :: l, ?_, List.forall_mem_cons.2 ⟨hcall, hlfull⟩, fun f => ?_⟩
        · rw [List.map_cons, hl, hreq, show D - 4 * w - 4 * r = D - 4 * (w + r) by omega]
          rfl
        · have hiter := hcalls f
          rw [hnext] at hiter
          rw [Loop.returns_of_next hiter]
          exact hlret _

/-- The calls on the way to `RIGHT`: they ask for the exclusive or, whatever the output is. -/
theorem exists_calls (hacc : Accepted D c₀ cs) : ∃ l, l.map OutCall.requested = requests D ∧
    (∀ c ∈ l, c.Full) ∧
    (l.map OutCall.bytes).flatten = xorBlocks ((c₀ :: cs).map (eofPad D)) D ∧
    ∀ f, Loop.Returns (iter D) (.start (.ofContent c₀) (cs.map .ofContent) f) (right, f.calls l) := by
  have hstart := chunked_start D c₀ cs
  obtain ⟨l, hl, hfull, hret⟩ := hstart.returns_requests hacc
  have hbytes := ((hstart.returns_right_iff _).1 (hret ⟨[], []⟩)).2
  rw [OutFile.calls_of_accepts (by rfl)] at hbytes
  exact ⟨l, hl, hfull, congrArg OutFile.data hbytes, hret⟩

/-- `RIGHT` is returned for files that are accepted only, whatever the output is. -/
theorem accepted_of_right {fuel : ℕ} {out : OutFile} {r : RiadResult}
    (h : sRiad fuel D mallocs (.ofContent c₀) (cs.map .ofContent) out = some r)
    (hret : r.ret = right) : Allocates mallocs (cs.length + 1) ∧ Accepted D c₀ cs := by
  rw [← length_ofContent cs]
  by_cases hall : Allocates mallocs ((cs.map InFile.ofContent).length + 1)
  · rw [sRiad_of_allocates hall] at h
    obtain ⟨q, hq, rfl⟩ := Option.map_eq_some_iff.1 h
    obtain ⟨l, hl⟩ := returns_calls ⟨fuel, hq⟩
    have hright := hl ⟨[], []⟩
    rw [show q.1 = right from hret] at hright
    exact ⟨hall, (((chunked_start D c₀ cs).returns_right_iff _).1 hright).1⟩
  · obtain ⟨i, -, -, -, hfail⟩ := sRiad_of_not_allocates hall
    rw [hfail] at h
    cases h
    exact absurd hret (show errorApplyMalloc ≠ right by decide)

/-- `s_riad` reports a short write if and only if there is none on the way to `RIGHT`. -/
theorem sRiadWrites_iff (results : List ℕ) : SRiadWrites D mallocs c₀ cs results ↔
    (Allocates mallocs (cs.length + 1) → Accepted D c₀ cs →
      ∀ p ∈ (requests D).zip results, p.1 ≤ p.2) := by
  have hdata : ∀ {l : List OutCall}, l.map OutCall.requested = requests D → (∀ c ∈ l, c.Full) →
      (l.map OutCall.bytes).flatten = xorBlocks ((c₀ :: cs).map (eofPad D)) D →
      ((OutFile.calls ⟨[], results⟩ l).data = xorBlocks ((c₀ :: cs).map (eofPad D)) D ↔
        ∀ p ∈ (requests D).zip results, p.1 ≤ p.2) := by
    intro l hl hfull hbytes
    have hiff := OutFile.data_calls_iff ⟨[], results⟩ hfull
    rwa [hl, hbytes, List.nil_append] at hiff
  constructor
  · intro h hall hacc
    obtain ⟨l, hl, hfull, hbytes, hret⟩ := exists_calls hacc
    obtain ⟨fuel, hrun⟩ := hret ⟨[], results⟩
    rw [← length_ofContent cs] at hall
    exact (hdata hl hfull hbytes).1 (h fuel _ (by rw [sRiad_of_allocates hall, hrun]; rfl) rfl)
  · intro h fuel r hrun hret
    obtain ⟨hall, hacc⟩ := accepted_of_right hrun hret
    obtain ⟨l, hl, hfull, hbytes, hcalls⟩ := exists_calls hacc
    have hle := (hdata hl hfull hbytes).2 (h hall hacc)
    obtain ⟨fuel', hrun'⟩ := hcalls ⟨[], results⟩
    rw [← length_ofContent cs] at hall
    rw [← hle, sRiad_unique hrun (by rw [sRiad_of_allocates hall, hrun']; rfl)]

end Local

/-! ### The remote engine -/

section Remote

variable {fileNum : ℕ} {g : TGroupFileInfo} {out : OutFile} {k : Fin 2}

theorem OutFile.fwrite_full_iff (out : OutFile) (bytes : List Byte) (size n : ℕ) :
    (out.fwrite bytes size n).1 = n ↔ ∀ r ∈ out.results.head?, n ≤ r := by
  unfold OutFile.fwrite
  cases out.results <;> simp

/-- For buffers of one size `buf_xor` writes the words and then the bytes, and looks at the first result. -/
theorem bufXor_calls (hsize : ∀ i < fileNum, ((g.file i).buf k).bufSize = ((g.file 0).buf k).bufSize) :
    ∃ l, l.map OutCall.requested = ((g.file 0).buf k).bufSize / 4 ::
        (if ((g.file 0).buf k).bufSize % 4 ≠ 0 then [((g.file 0).buf k).bufSize % 4] else []) ∧
      (∀ c ∈ l, c.Full) ∧
      ∀ out : OutFile,
        ((bufXor fileNum g out k).1 = 0 ↔
          ∀ r ∈ out.results.head?, ((g.file 0).buf k).bufSize / 4 ≤ r) ∧
        ((bufXor fileNum g out k).1 = 0 → (bufXor fileNum g out k).2.2 = out.calls l ∧
          (bufXor fileNum g out k).2.1.xorSize = g.xorSize + ((g.file 0).buf k).bufSize) := by
  have hlen : (g.inBuf k 0).length = ((g.file 0).buf k).bufSize := rfl
  have hdone : ∀ m n, ((g.setInBuf0 k m).addXorSize fileNum n).xorSize = g.xorSize + n := fun m n =>
    (frame_addXorSize (g.setInBuf0 k m) fileNum n).2.2.2.2.1
  unfold bufXor
  simp only [if_pos hsize, ne_eq]
  set s := ((g.file 0).buf k).bufSize
  set rest := (List.range' 1 (fileNum - 1)).map (g.inBuf k)
  set m := wordPass rest (g.inBuf k 0) (s / 4) with hm
  have hmlen : m.length = s := by
    rw [hm, length_wordPass, hlen]
  by_cases hmod : s % 4 = 0
  · refine ⟨[.fwrite m 4 (s / 4)], ?_, ?_, fun out => ?_⟩
    · simp [hmod, OutCall.requested]
    · simp only [List.mem_singleton, forall_eq, OutCall.Full]
      omega
    · rw [← out.fwrite_full_iff m 4]
      simp only [hmod, not_true, if_false]
      split_ifs with hret <;> simp [hret, hdone, OutFile.calls, OutFile.call]
  · refine ⟨[.fwrite m 4 (s / 4), .fwrite ((bytePass rest m (s - s % 4) (s % 4)).drop (s - s % 4)) 1
      (s % 4)], ?_, ?_, fun out => ?_⟩
    · simp [hmod, OutCall.requested]
    · simp only [List.mem_cons, List.not_mem_nil, or_false, forall_eq_or_imp, forall_eq, OutCall.Full,
        List.length_drop, length_bytePass]
      omega
    · rw [← out.fwrite_full_iff m 4]
      simp only [hmod, not_false_eq_true, if_true]
      split_ifs with hret <;> simp [hret, hdone, OutFile.calls, OutFile.call]

/-- `buf_xor` reports a short write if and only if there is none of the bytes after the words. -/
theorem bufXorWrites_iff (hn : 0 < fileNum) : BufXorWrites fileNum g out k ↔
    ((∀ i < fileNum, ((g.file i).buf k).bufSize = ((g.file 0).buf k).bufSize) →
      (∀ r ∈ out.results.head?, ((g.file 0).buf k).bufSize / 4 ≤ r) →
      ((g.file 0).buf k).bufSize % 4 ≠ 0 →
      ∀ r ∈ out.results.tail.head?, ((g.file 0).buf k).bufSize % 4 ≤ r) := by
  by_cases hsize : ∀ i < fileNum, ((g.file i).buf k).bufSize = ((g.file 0).buf k).bufSize
  · obtain ⟨l, hl, hfull, hrun⟩ := bufXor_calls hsize
    -- an output that takes everything shows what the calls ask for
    have hbytes : (l.map OutCall.bytes).flatten =
        xorBlocks ((List.range fileNum).map (g.inBuf k)) ((g.file 0).buf k).bufSize := by
      have haccepts : OutFile.Accepts ⟨[], []⟩ := rfl
      have hall := bufXor_of_sizes hn haccepts hsize
      have hcalls := ((hrun ⟨[], []⟩).2 (by rw [hall])).1
      rw [hall, OutFile.calls_of_accepts haccepts] at hcalls
      exact (congrArg OutFile.data hcalls).symm
    obtain ⟨hzero, hout⟩ := hrun out
    have hdata := OutFile.data_calls_iff out hfull
    rw [hl, hbytes] at hdata
    have hzip : (∀ p ∈ (((g.file 0).buf k).bufSize / 4 ::
          (if ((g.file 0).buf k).bufSize % 4 ≠ 0 then [((g.file 0).buf k).bufSize % 4] else [])).zip
            out.results, p.1 ≤ p.2) ↔
        (∀ r ∈ out.results.head?, ((g.file 0).buf k).bufSize / 4 ≤ r) ∧
          (((g.file 0).buf k).bufSize % 4 ≠ 0 →
            ∀ r ∈ out.results.tail.head?, ((g.file 0).buf k).bufSize % 4 ≤ r) := by
      rcases out.results with _ | ⟨r, _ | ⟨r', rs⟩⟩ <;> split_ifs with hmod <;> simp [hmod]
    rw [BufXorWrites, hzero]
    constructor
    · intro h _ hwords
      obtain ⟨hcalls, -⟩ := hout (hzero.2 hwords)
      obtain ⟨hwritten, -⟩ := h hwords
      rw [hcalls] at hwritten
      exact (hzip.1 (hdata.1 hwritten)).2
    · intro h hwords
      obtain ⟨hcalls, hxor⟩ := hout (hzero.2 hwords)
      have hwritten := hdata.2 (hzip.2 ⟨hwords, h hsize hwords⟩)
      refine ⟨by rw [hcalls, hwritten], ?_⟩
      rw [hcalls, hxor, hwritten, List.length_append, length_xorBlocks]
      omega
  · push Not at hsize
    obtain ⟨i, hi, hne⟩ := hsize
    refine iff_of_true (fun hret => ?_) fun hall => absurd (hall i hi) hne
    rw [bufXor_of_ne hi hne] at hret
    exact absurd hret (show (-1 : ℤ) ≠ 0 by decide)

end Remote

/-- **Short writes.**  Success is reported for a complete output only, if and only if on the way to `RIGHT` no call
takes less than it is asked to and the bytes after the words of a segment are taken in full. -/
theorem written_iff (D : ℕ) (mallocs : ℕ → Bool) (c₀ : List Byte) (cs : List (List Byte))
    (results : List ℕ) {fileNum : ℕ} (hn : 0 < fileNum) (g : TGroupFileInfo) (out : OutFile) (k : Fin 2) :
    (SRiadWrites D mallocs c₀ cs results ↔
      (Allocates mallocs (cs.length + 1) → Accepted D c₀ cs →
        ∀ p ∈ (requests D).zip results, p.1 ≤ p.2)) ∧
    (BufXorWrites fileNum g out k ↔
      ((∀ i < fileNum, ((g.file i).buf k).bufSize = ((g.file 0).buf k).bufSize) →
        (∀ r ∈ out.results.head?, ((g.file 0).buf k).bufSize / 4 ≤ r) →
        ((g.file 0).buf k).bufSize % 4 ≠ 0 →
        ∀ r ∈ out.results.tail.head?, ((g.file 0).buf k).bufSize % 4 ≤ r)) :=
  ⟨sRiadWrites_iff results, bufXorWrites_iff hn⟩

theorem written_iff_five : SRiadWrites 1 (fun _ => true) [7] [] [1] ∧
    BufXorWrites 2 fiveBytes ⟨[], [1, 1]⟩ 1 := by
  obtain ⟨hlocal, hremote⟩ := written_iff 1 (fun _ => true) [7] [] [1] (show 0 < 2 by decide)
    fiveBytes ⟨[], [1, 1]⟩ 1
  exact ⟨hlocal.2 fun _ _ => by decide +kernel, hremote.2 fun _ _ _ => by decide⟩

/-- A full disk: `s_riad` returns `RIGHT` and nothing is written, and `buf_xor` returns `0` without the last
byte. -/
theorem not_written : ¬ SRiadWrites 1 (fun _ => true) [7] [] [0] ∧
    ¬ BufXorWrites 2 fiveBytes ⟨[], [1, 0]⟩ 1 := by
  constructor
  · intro hall
    have hrun : sRiad 1 1 (fun _ => true) (.ofContent [7]) ([].map .ofContent) ⟨[], [0]⟩ =
      some ⟨right, ⟨[], []⟩, []⟩ := by decide +kernel
    exact absurd (hall 1 _ hrun rfl) (by decide)
  · intro hall
    exact absurd (hall (by decide)).1 (by decide)

end ORaidServer
