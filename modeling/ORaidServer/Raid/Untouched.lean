import ORaidServer.Raid.OpenFile
import ORaidServer.Raid.Terminate

/-!
# What `open_file` does to files

`open_file` opens its output for writing, and so truncates it, before it compares the sizes of the inputs and
without a look at whether the output is one of them.

* `inputsKept_iff`: when the inputs are left as they were, whatever the output name leads to;
* `rejectionKeeps_iff`: when a job that is rejected leaves all files as they were, an old output included.

The inputs are read here as they are once the output is open.  An input that is the output as well is empty
then: it gives no word in the first round, before anything is written.
-/

namespace ORaidServer

open Files ByteMem

/-- After `open_file` returns, every file that a path of the list leads to is as it was. -/
def InputsKept (fs : Disk) (outputFileName : Path) (aSetOfFiles : List Path) : Prop :=
  ∀ fuel mallocs results r, openFileOf fuel fs mallocs results outputFileName aSetOfFiles = some r →
    ∀ p ∈ aSetOfFiles, ∀ q i, fs.resolve p = some (q, some (.file i)) → r.fs.content i = fs.content i

/-- After `open_file` returns with one of the codes of a rejected job, every file is as it was. -/
def RejectionKeeps (fs : Disk) (outputFileName : Path) (aSetOfFiles : List Path) : Prop :=
  ∀ fuel mallocs results r, openFileOf fuel fs mallocs results outputFileName aSetOfFiles = some r →
    r.ret ∈ [errorFileOpen, errorOutputFile, errorFileSize] →
    ∀ i < fs.fresh, r.fs.content i = fs.content i

/-- Less than a word is declared, and the byte loop takes some bytes, at least as many as declared: then `s_riad`
returns and has written. -/
def WritesTail (D : ℕ) (c₀ : List Byte) : Prop :=
  D < 4 ∧ 0 < (c₀.takeWhile (· ≠ 0xFF)).length ∧ D ≤ (c₀.takeWhile (· ≠ 0xFF)).length

instance (D : ℕ) (c₀ : List Byte) : Decidable (WritesTail D c₀) :=
  inferInstanceAs (Decidable (_ ∧ _ ∧ _))

/-! ### An empty input -/

section Empty

variable {fuel D : ℕ} {mallocs : ℕ → Bool} {c₀ : List Byte} {cs : List (List Byte)}

/-- Beside an empty input nothing is written in whole words. -/
theorem returns_data_of_empty (hempty : [] ∈ c₀ :: cs) (hD : ¬ WritesTail D c₀) {q : ℤ × OutFile}
    (hq : Loop.Returns (iter D) (.start (.ofContent c₀) (cs.map .ofContent) ⟨[], []⟩) q) :
    q.2.data = [] := by
  have h := chunked_start D c₀ cs
  rw [WritesTail, ← tailStop_zero] at hD
  rcases Nat.lt_or_ge D 4 with hlt | hge
  · have hstep := h.iter_tail (by omega)
    rw [Nat.mul_zero, Nat.zero_add] at hstep
    split_ifs at hstep with ht hearly
    · rw [Loop.returns_of_ret hstep] at hq
      rw [← hq, show D = 0 by omega]
      rfl
    · obtain ⟨t, hnext, hst⟩ := hstep
      rw [Loop.returns_of_next hnext] at hq
      exact absurd hq (Loop.not_returns_of_invariant (fun _ hu => Stalled.iter hu) hst)
    · omega
  · have hpos : 0 < chunk (D - 4 * 0) := chunk_pos.2 (by omega)
    have hshort : ¬ ∀ c ∈ c₀ :: cs, 4 * (0 + chunk (D - 4 * 0)) ≤ c.length := by
      intro hall
      have := hall [] hempty
      rw [List.length_nil] at this
      omega
    rcases h.iter_short rfl hpos hshort with ⟨-, hret⟩ | ⟨-, t, hnext, ht⟩
    · rw [Loop.returns_of_ret hret] at hq
      rw [← hq]
      rfl
    · rw [Loop.returns_of_next hnext] at hq
      exact absurd hq (Loop.not_returns_of_invariant (fun _ hu => Exhausted.iter hu) ht)

/-- So nothing is written, whatever the results of the calls. -/
theorem sRiad_data_of_empty (hempty : [] ∈ c₀ :: cs) (hD : ¬ WritesTail D c₀) {results : List ℕ}
    {r : RiadResult}
    (h : sRiad fuel D mallocs (.ofContent c₀) (cs.map .ofContent) ⟨[], results⟩ = some r) :
    r.out.data = [] := by
  by_cases hall : Allocates mallocs ((cs.map InFile.ofContent).length + 1)
  · rw [sRiad_of_allocates hall] at h
    obtain ⟨q, hq, rfl⟩ := Option.map_eq_some_iff.1 h
    obtain ⟨l, hl⟩ := returns_calls ⟨fuel, hq⟩
    have hbytes := returns_data_of_empty hempty hD (hl ⟨[], []⟩)
    rw [OutFile.calls_of_accepts (by rfl)] at hbytes
    have hle := OutFile.length_calls_le ⟨[], results⟩ l
    rw [show (l.map OutCall.bytes).flatten = [] from hbytes] at hle
    have hq' : Loop.Returns (iter D) _ q := ⟨fuel, hq⟩
    rw [hq'.unique (hl ⟨[], results⟩)]
    exact List.eq_nil_of_length_eq_zero (Nat.le_zero.1 hle)
  · obtain ⟨i, -, -, -, hfail⟩ := sRiad_of_not_allocates hall
    rw [hfail] at h
    cases h
    rfl

/-- Where the byte loop writes, `s_riad` returns. -/
theorem exists_sRiad_of_writesTail (hD : WritesTail D c₀) (cs : List (List Byte)) : ∃ fuel r,
    sRiad fuel D (fun _ => true) (.ofContent c₀) (cs.map .ofContent) ⟨[], []⟩ = some r ∧
      r.out.data ≠ [] := by
  obtain ⟨hlt, hpos, hle⟩ := hD
  rw [← tailStop_zero] at hpos hle
  have h := chunked_start D c₀ cs
  set s := RiadState.start (.ofContent c₀) (cs.map .ofContent) ⟨[], []⟩
  obtain ⟨⟨hu₀, hurest, hux, hun, huo⟩, hiter⟩ := iter_of_lt h.first h.rest h.total (by omega)
  set u := s.seeked D
  rw [Nat.mul_zero] at hu₀ hurest hux
  obtain ⟨htx, htn, -, hto⟩ := tail_spec hu₀ hurest (Nat.zero_add (tailStop c₀ 0)).le
  have hdata : u.tail.out.data.length = tailStop c₀ 0 := by
    rw [hto, huo, calls_tailCalls (by rfl)]
    show ([] ++ _ : List Byte).length = _
    rw [List.nil_append, List.length_map, List.length_range']
  have hret : ∃ q, iter D s = .inr q ∧ q.2.data ≠ [] := by
    have hne : ∀ l : List Byte, u.tail.out.data ++ l ≠ [] := fun l hl => by
      rw [(List.append_eq_nil_iff.1 hl).1, List.length_nil] at hdata
      omega
    rw [hiter]
    split_ifs with hend
    · exact ⟨_, rfl, by simpa using hne []⟩
    · rw [xorWords_of_gt (by omega)]
      exact ⟨_, rfl, hne _⟩
  obtain ⟨q, hq, hne⟩ := hret
  refine ⟨1, ⟨q.1, q.2, []⟩, ?_, hne⟩
  rw [sRiad_of_allocates fun _ _ => rfl, Loop.run, hq]
  rfl

end Empty

/-! ### Aliasing -/

section Files

variable {fs fs' : Disk} {outputFileName path₀ : Path} {paths aSetOfFiles : List Path} {i₀ o : ℕ}
  {is : List ℕ}

/-- A file that a path of the list leads to was opened for reading. -/
theorem Opened.mem_of_resolve (h : Opened fs outputFileName path₀ paths i₀ is o fs') {p q : Path}
    {i : ℕ} (hp : p ∈ path₀ :: paths) (hq : fs.resolve p = some (q, some (.file i))) :
    i ∈ i₀ :: is := by
  obtain ⟨j, hj, hopen⟩ := h.exists_openRead hp
  obtain ⟨q', hres⟩ := FileSystem.resolve_of_openRead hopen
  rw [hq] at hres
  cases hres
  exact hj

/-- What `open_file` returns once everything is open leaves all files but the output. -/
theorem Opened.content_eq (h : Opened fs outputFileName path₀ paths i₀ is o fs') {fuel : ℕ}
    {mallocs : ℕ → Bool} {results : List ℕ} {r : OpenResult}
    (hrun : openFile fuel fs mallocs results outputFileName path₀ paths = some r) {i : ℕ}
    (hi : i ≠ o) : r.fs.content i = fs.content i := by
  have hother := FileSystem.content_openWrite h.output hi
  rw [h.openFile_run] at hrun
  split_ifs at hrun with hsize
  · obtain ⟨q, -, rfl⟩ := Option.map_eq_some_iff.1 hrun
    unfold closeFiles
    split_ifs <;> exact (FileSystem.content_setContent_of_ne _ hi).trans hother
  · cases hrun
    exact hother

/-- **Inputs are not altered** if and only if the output is none of them, or one that is empty and beside which
nothing is written. -/
theorem inputsKept_iff (fs : Disk) (outputFileName : Path) (aSetOfFiles : List Path) :
    InputsKept fs outputFileName aSetOfFiles ↔
      ∀ path₀ paths i₀ is o fs', aSetOfFiles = path₀ :: paths →
        Opened fs outputFileName path₀ paths i₀ is o fs' → o ∈ i₀ :: is →
        fs.content o = [] ∧ ¬ ((∀ p ∈ paths, fs.statSize path₀ = fs.statSize p) ∧
          WritesTail (fs.statSize path₀) (fs.content i₀)) := by
  constructor
  · rintro hkept path₀ paths i₀ is o fs' rfl h hmem
    obtain ⟨p, hp, hopen⟩ := h.mem_iff.1 hmem
    obtain ⟨q, hq⟩ := FileSystem.resolve_of_openRead hopen
    have hfs' := FileSystem.openWrite_eq h.output (h.lt_fresh hmem)
    -- a buffer that cannot be allocated leaves the output empty
    have hempty : fs.content o = [] := by
      have hno : ¬ Allocates (fun _ => false) ((List.map InFile.ofContent
        (is.map fs'.content)).length + 1) := fun hall => by simpa using hall 0 (Nat.succ_pos _)
      obtain ⟨i, -, -, -, hfail⟩ := sRiad_of_not_allocates hno
      have hrun := h.openFile_run 0 (fun _ => false) []
      rw [hfail] at hrun
      split_ifs at hrun with hsize
      · rw [← hkept 0 _ [] _ hrun p hp q o hq]
        exact FileSystem.content_setContent_self _
      · rw [← hkept 0 _ [] _ hrun p hp q o hq]
        exact FileSystem.content_openWrite_self h.output
    refine ⟨hempty, ?_⟩
    rintro ⟨hsize, htail⟩
    have hsame : fs' = fs := by
      rw [hfs', ← hempty, FileSystem.setContent_self]
    obtain ⟨fuel, r, hriad, hne⟩ := exists_sRiad_of_writesTail htail (is.map fs.content)
    have hrun := h.openFile_run fuel (fun _ => true) []
    rw [hsame, if_pos hsize, hriad] at hrun
    have hcontent := hkept fuel _ [] _ hrun p hp q o hq
    rw [hempty] at hcontent
    apply hne
    rw [← hcontent, closeFiles]
    split_ifs <;> exact (FileSystem.content_setContent_self _).symm
  · intro hcond fuel mallocs results r hrun p hp q i hq
    rcases openFileOf_cases hrun with ⟨k, -, rfl⟩ | rfl |
      ⟨path₀, paths, i₀, is, o, fs', rfl, h, hopen⟩
    · rfl
    · rfl
    · by_cases hi : i = o
      · subst hi
        have hmem := h.mem_of_resolve hp hq
        obtain ⟨hempty, htail⟩ := hcond path₀ paths i₀ is i fs' rfl h hmem
        have hsame : fs' = fs := by
          rw [FileSystem.openWrite_eq h.output (h.lt_fresh hmem), ← hempty,
            FileSystem.setContent_self]
        rw [h.openFile_run, hsame] at hopen
        split_ifs at hopen with hsize
        · obtain ⟨r, hriad, rfl⟩ := Option.map_eq_some_iff.1 hopen
          have hnil : [] ∈ fs.content i₀ :: is.map fs.content := by
            rw [← hempty, ← List.map_cons]
            exact List.mem_map_of_mem hmem
          have hdata := sRiad_data_of_empty hnil (fun ht => htail ⟨hsize, ht⟩) hriad
          rw [hempty, ← hdata, closeFiles]
          split_ifs <;> exact FileSystem.content_setContent_self _
        · cases hopen
          rfl
      · exact h.content_eq hopen hi

/-- `s_riad` returns none of the codes of a rejected job. -/
theorem closeFiles_ret_notMem {fuel D inputs : ℕ} {mallocs : ℕ → Bool} {first : InFile}
    {rest : List InFile} {out : OutFile} {r : RiadResult}
    (h : sRiad fuel D mallocs first rest out = some r) :
    (closeFiles fs o inputs r).ret ∉ [errorFileOpen, errorOutputFile, errorFileSize] := by
  have hcode := sRiad_code h
  simp only [List.mem_cons, List.not_mem_nil, or_false] at hcode
  unfold closeFiles
  split_ifs
  · rcases hcode with hr | hr | hr | hr | hr <;> simp only [hr] <;> decide
  · show right ∉ _
    decide

/-- The sizes that `lstat` reports are those before the output was opened, if it is none of the inputs. -/
theorem Opened.statSize_eq (h : Opened fs outputFileName path₀ paths i₀ is o fs') (hne : o ∉ i₀ :: is)
    {p : Path} (hp : p ∈ path₀ :: paths) : fs'.statSize p = fs.statSize p := by
  obtain ⟨j, hj, hopen⟩ := h.exists_openRead hp
  exact FileSystem.statSize_openWrite h.output hopen fun hjo => hne (hjo ▸ hj)

/-- **A rejected job** leaves everything as it was if and only if it is not the sizes that are found to differ
once an output that was not empty is open. -/
theorem rejectionKeeps_iff (hdiff : ∀ p ∈ aSetOfFiles, ∀ q q' j,
      fs.resolve p = some (q, some (.file j)) →
      fs.resolve (outputPath outputFileName) ≠ some (q', some (.file j))) :
    RejectionKeeps fs outputFileName aSetOfFiles ↔
      ∀ path₀ paths i₀ is o fs', aSetOfFiles = path₀ :: paths →
        Opened fs outputFileName path₀ paths i₀ is o fs' →
        (∃ p ∈ paths, fs.statSize path₀ ≠ fs.statSize p) → o < fs.fresh → fs.content o = [] := by
  have hne : ∀ {path₀ paths i₀ is o fs'}, aSetOfFiles = path₀ :: paths →
      Opened fs outputFileName path₀ paths i₀ is o fs' → o ∉ i₀ :: is := by
    rintro path₀ paths i₀ is o fs' rfl h
    refine h.ne fun q j hq hmem => ?_
    obtain ⟨p, hp, hopen⟩ := h.mem_iff.1 hmem
    obtain ⟨q', hq'⟩ := FileSystem.resolve_of_openRead hopen
    exact hdiff p hp q' q j hq' hq
  constructor
  · rintro hkeeps path₀ paths i₀ is o fs' rfl h ⟨p, hp, hsize⟩ hfresh
    have hout := hne rfl h
    have hdiffer : ¬ ∀ p ∈ paths, fs'.statSize path₀ = fs'.statSize p := by
      intro hall
      have heq := hall p hp
      rw [h.statSize_eq hout (by simp), h.statSize_eq hout (by simp [hp])] at heq
      exact hsize heq
    have hrun := h.openFile_run 0 (fun _ => true) []
    rw [if_neg hdiffer] at hrun
    rw [← hkeeps 0 _ [] _ hrun (by simp) o hfresh]
    exact FileSystem.content_openWrite_self h.output
  · intro hcond fuel mallocs results r hrun hcode i hi
    rcases openFileOf_cases hrun with ⟨k, -, rfl⟩ | rfl |
      ⟨path₀, paths, i₀, is, o, fs', rfl, h, hopen⟩
    · rfl
    · rfl
    · by_cases hio : i = o
      · subst hio
        have hout := hne rfl h
        rw [h.openFile_run] at hopen
        split_ifs at hopen with hsize
        · -- `s_riad` returns none of these codes
          obtain ⟨q, hriad, rfl⟩ := Option.map_eq_some_iff.1 hopen
          exact absurd hcode (closeFiles_ret_notMem hriad)
        · cases hopen
          push Not at hsize
          obtain ⟨p, hp, hsize⟩ := hsize
          rw [h.statSize_eq hout (by simp), h.statSize_eq hout (by simp [hp])] at hsize
          rw [hcond path₀ paths i₀ is i fs' rfl h ⟨p, hp, hsize⟩ hi]
          exact FileSystem.content_openWrite_self h.output
      · exact h.content_eq hopen hio

end Files

/-! ### Two more disks -/

/-- Two files of one byte, the first under a name that an output can have. -/
def aliasedDisk : Disk :=
  diskOf [(ascii "/home/file/a", .file 0), (ascii "/in/b", .file 1)] [[1], [2]] (by simp)

/-- The output name leads to the first input, which is truncated before the sizes are compared. -/
theorem not_inputsKept : ¬ ∀ fs outputFileName aSetOfFiles,
    InputsKept fs outputFileName aSetOfFiles := by
  intro hall
  have hret : (openFileOf 1 aliasedDisk (fun _ => true) [] (ascii "a") [ascii "/home/file/a",
    ascii "/in/b"]).map (fun r => r.fs.content 0) = some [] := by decide +kernel
  obtain ⟨r, hrun, hr⟩ := Option.map_eq_some_iff.1 hret
  have hres : aliasedDisk.resolve (ascii "/home/file/a") =
    some (ascii "/home/file/a", some (.file 0)) := by decide +kernel
  have hkept := hall aliasedDisk (ascii "a") [ascii "/home/file/a", ascii "/in/b"] 1 _ [] r hrun
    (ascii "/home/file/a") (by simp) _ 0 hres
  rw [hr] at hkept
  exact absurd hkept (by decide +kernel)

theorem rejectionKeeps_plain :
    RejectionKeeps plainDisk (ascii "p") [ascii "/in/a", ascii "/in/b"] := by
  refine (rejectionKeeps_iff ?_).2 ?_
  · intro p _ q q' j _ hq
    have hnone : plainDisk.resolve (outputPath (ascii "p")) =
      some (outputPath (ascii "p"), none) := by decide +kernel
    rw [hnone] at hq
    cases hq
  · intro path₀ paths i₀ is o fs' _ h _ hfresh
    -- the output is new
    have hnew : (plainDisk.openWrite (outputPath (ascii "p"))).map Prod.fst = some 2 := by
      decide +kernel
    rw [h.output] at hnew
    obtain rfl : o = 2 := Option.some.inj hnew
    exact absurd hfresh (by decide)

/-- Two files of different lengths, and an old output. -/
def changedDisk : Disk :=
  diskOf [(ascii "/in/a", .file 0), (ascii "/in/b", .file 1), (ascii "/home/file/p", .file 2)]
    [[1, 2, 3], [1, 1], [9]] (by simp)

/-- The sizes are found to differ after the old output was truncated. -/
theorem not_rejectionKeeps : ¬ ∀ fs outputFileName aSetOfFiles,
    (∀ p ∈ aSetOfFiles, ∀ q q' j, fs.resolve p = some (q, some (.file j)) →
      fs.resolve (outputPath outputFileName) ≠ some (q', some (.file j))) →
    RejectionKeeps fs outputFileName aSetOfFiles := by
  intro hall
  have hret : (openFileOf 1 changedDisk (fun _ => true) [] (ascii "p") [ascii "/in/a",
    ascii "/in/b"]).map (fun r => (r.ret, r.fs.content 2)) = some (errorFileSize, []) := by
    decide +kernel
  obtain ⟨r, hrun, hr⟩ := Option.map_eq_some_iff.1 hret
  obtain ⟨hcode, hcontent⟩ := Prod.mk.inj hr
  have hkept := hall changedDisk (ascii "p") [ascii "/in/a", ascii "/in/b"] ?_ 1 _ [] r hrun
    (by rw [hcode]; simp) 2 (by decide)
  · rw [hcontent] at hkept
    exact absurd hkept (by decide +kernel)
  · -- the output is a third file
    have hout : changedDisk.resolve (outputPath (ascii "p")) =
      some (ascii "/home/file/p", some (.file 2)) := by decide +kernel
    have hin : ∀ p ∈ [ascii "/in/a", ascii "/in/b"],
        (changedDisk.resolve p).bind Prod.snd ≠ some (.file 2) := by decide +kernel
    intro p hp q q' j hq hq'
    rw [hout] at hq'
    cases hq'
    exact hin p hp (by rw [hq]; rfl)

end ORaidServer
