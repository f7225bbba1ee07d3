import ORaidServer.Raid.Correct
import ORaidServer.Lib.FileSystem

/-!
# `open_file`

`open_file(output_file_name, a_set_of_files)`: it opens the inputs for reading and the output for
writing, compares the sizes that `lstat` reports for the paths of the inputs, and runs `s_riad`.

`openFile` has the first path apart from the others; `openFileOf` takes any list.

`openFile_sound_iff` says when `RIGHT` can be trusted: the sizes compared are those of the paths
themselves, which for symbolic links are not those of the files read.
-/

namespace ORaidServer

open Files ByteMem

/-- A path name. -/
abbrev Path := List Byte

/-- The file systems the server runs on. -/
abbrev Disk := FileSystem Path Byte

/-- The bytes of an ASCII string. -/
def ascii (s : String) : List Byte := s.toList.map fun c => BitVec.ofNat 8 c.toNat

/-- `snprintf(tmp, sizeof(tmp), "/home/file/%s", output_file_name)` -/
def outputPath (outputFileName : Path) : Path := (ascii "/home/file/" ++ outputFileName).take 1023

/-- `fopen(…, "r")` for the paths in turn, up to the first that fails: the inodes opened, and whether
all were. -/
def fopenAll (fs : Disk) : List Path → List ℕ × Bool
  | [] => ([], true)
  | p :: ps =>
    match fs.openRead p with
    | none => ([], false)
    | some i =>
      let (is, ok) := fopenAll fs ps
      (i :: is, ok)

/-- What `open_file` leaves: the return value, the file system, how many inputs and whether the output
are still open, and the buffers of `s_riad` not freed. -/
structure OpenResult where
  ret : ℤ
  fs : Disk
  inOpen : ℕ
  outOpen : Bool
  live : List ℕ

/-- `open_file`, `s_riad` having so many iterations.  `results` are the results of the calls that write
the output; what the stream has accepted counts as written also where it is never closed. -/
def openFile (fuel : ℕ) (fs : Disk) (mallocs : ℕ → Bool) (results : List ℕ)
    (outputFileName : Path) (path₀ : Path) (paths : List Path) : Option OpenResult :=
  match fs.openRead path₀ with
  | none => some ⟨errorFileOpen, fs, 0, false, []⟩
  | some i₀ =>
    let (is, ok) := fopenAll fs paths
    if ok then
      match fs.openWrite (outputPath outputFileName) with
      | none => some ⟨errorOutputFile, fs, is.length + 1, false, []⟩
      | some (o, fs) =>
        let size0 := fs.statSize path₀
        if ∀ p ∈ paths, size0 = fs.statSize p then
          (sRiad fuel size0 mallocs (.ofContent (fs.content i₀))
            (is.map fun i => .ofContent (fs.content i)) ⟨[], results⟩).map fun r =>
              let fs := fs.setContent o r.out.data
              if r.ret < 0 then ⟨r.ret, fs, is.length + 1, true, r.live⟩
              else ⟨right, fs, 0, false, r.live⟩
        else some ⟨errorFileSize, fs, is.length + 1, true, []⟩
    else some ⟨errorFileOpen, fs, is.length + 1, false, []⟩

/-- `open_file(output_file_name, a_set_of_files)`; without an input `s_riad` would read from `in_fd[0]`,
which was never set. -/
def openFileOf (fuel : ℕ) (fs : Disk) (mallocs : ℕ → Bool) (results : List ℕ)
    (outputFileName : Path) : List Path → Option OpenResult
  | [] =>
    match fs.openWrite (outputPath outputFileName) with
    | none => some ⟨errorOutputFile, fs, 0, false, []⟩
    | some _ => none
  | path₀ :: paths => openFile fuel fs mallocs results outputFileName path₀ paths

/-- The inputs and the output could be opened. -/
structure Opened (fs : Disk) (outputFileName path₀ : Path) (paths : List Path) (i₀ : ℕ)
    (is : List ℕ) (o : ℕ) (fs' : Disk) : Prop where
  first : fs.openRead path₀ = some i₀
  rest : fopenAll fs paths = (is, true)
  output : fs.openWrite (outputPath outputFileName) = some (o, fs')

/-- The inputs have one length and the output holds their exclusive or. -/
def OutputsXor (fs : Disk) (i₀ : ℕ) (is : List ℕ) (o : ℕ) (fs' : Disk) : Prop :=
  ∃ L, (∀ i ∈ i₀ :: is, (fs.content i).length = L) ∧
    fs'.content o = xorBlocks ((i₀ :: is).map fs.content) L

section Sound

variable {fs fs' : Disk} {mallocs : ℕ → Bool} {outputFileName path₀ : Path} {paths : List Path}
  {i₀ o : ℕ} {is : List ℕ}

theorem length_fopenAll (h : fopenAll fs paths = (is, true)) : is.length = paths.length := by
  induction paths generalizing is with
  | nil =>
    cases h
    rfl
  | cons p ps ih =>
    simp only [fopenAll] at h
    split at h
    · cases h
    · obtain ⟨rfl, hok⟩ := Prod.mk.inj h
      rw [List.length_cons, List.length_cons, ih (Prod.ext rfl hok)]

theorem length_fopenAll_lt (h : fopenAll fs paths = (is, false)) : is.length < paths.length := by
  induction paths generalizing is with
  | nil => cases h
  | cons p ps ih =>
    simp only [fopenAll] at h
    split at h
    · cases h
      exact Nat.succ_pos _
    · obtain ⟨rfl, hok⟩ := Prod.mk.inj h
      exact Nat.succ_lt_succ (ih (Prod.ext rfl hok))

theorem mem_fopenAll {i : ℕ} (hi : i ∈ (fopenAll fs paths).1) : ∃ p ∈ paths, fs.openRead p = some i := by
  induction paths with
  | nil => cases hi
  | cons p ps ih =>
    simp only [fopenAll] at hi
    split at hi
    · cases hi
    · rename_i j hj
      rcases List.mem_cons.1 hi with rfl | hi
      · exact ⟨p, by simp, hj⟩
      · obtain ⟨q, hq, hopen⟩ := ih hi
        exact ⟨q, by simp [hq], hopen⟩

theorem Opened.unique (h : Opened fs outputFileName path₀ paths i₀ is o fs') {j₀ o' : ℕ}
    {js : List ℕ} {fs'' : Disk} (h' : Opened fs outputFileName path₀ paths j₀ js o' fs'') :
    i₀ = j₀ ∧ is = js ∧ o = o' := by
  have h₁ := h.first.symm.trans h'.first
  have h₂ := h.rest.symm.trans h'.rest
  have h₃ := h.output.symm.trans h'.output
  simp only [Option.some.injEq, Prod.mk.injEq] at h₁ h₂ h₃
  exact ⟨h₁, h₂.1, h₃.1⟩

theorem exists_mem_fopenAll (h : fopenAll fs paths = (is, true)) {p : Path} (hp : p ∈ paths) :
    ∃ i ∈ is, fs.openRead p = some i := by
  induction paths generalizing is with
  | nil => cases hp
  | cons p' ps ih =>
    simp only [fopenAll] at h
    split at h
    · cases h
    · rename_i j hj
      obtain ⟨rfl, hok⟩ := Prod.mk.inj h
      rcases List.mem_cons.1 hp with rfl | hp
      · exact ⟨j, by simp, hj⟩
      · obtain ⟨i, hi, hopen⟩ := ih (Prod.ext rfl hok) hp
        exact ⟨i, by simp [hi], hopen⟩

/-- The files opened are those that the paths lead to. -/
theorem Opened.mem_iff (h : Opened fs outputFileName path₀ paths i₀ is o fs') {i : ℕ} :
    i ∈ i₀ :: is ↔ ∃ p ∈ path₀ :: paths, fs.openRead p = some i := by
  constructor
  · intro hi
    rcases List.mem_cons.1 hi with rfl | hi
    · exact ⟨path₀, by simp, h.first⟩
    · have hopened : i ∈ (fopenAll fs paths).1 := by
        rw [h.rest]
        exact hi
      obtain ⟨p, hp, hopen⟩ := mem_fopenAll hopened
      exact ⟨p, by simp [hp], hopen⟩
  · rintro ⟨p, hp, hopen⟩
    rcases List.mem_cons.1 hp with rfl | hp
    · obtain rfl := Option.some.inj (h.first.symm.trans hopen)
      exact List.mem_cons_self
    · obtain ⟨j, hj, hopen'⟩ := exists_mem_fopenAll h.rest hp
      obtain rfl := Option.some.inj (hopen'.symm.trans hopen)
      exact List.mem_cons_of_mem _ hj

theorem Opened.exists_openRead (h : Opened fs outputFileName path₀ paths i₀ is o fs') {p : Path}
    (hp : p ∈ path₀ :: paths) : ∃ i ∈ i₀ :: is, fs.openRead p = some i := by
  rcases List.mem_cons.1 hp with rfl | hp
  · exact ⟨i₀, by simp, h.first⟩
  · obtain ⟨j, hj, hopen⟩ := exists_mem_fopenAll h.rest hp
    exact ⟨j, by simp [hj], hopen⟩

theorem Opened.lt_fresh (h : Opened fs outputFileName path₀ paths i₀ is o fs') {i : ℕ}
    (hi : i ∈ i₀ :: is) : i < fs.fresh := by
  obtain ⟨p, -, hp⟩ := h.mem_iff.1 hi
  exact FileSystem.openRead_lt hp

/-- An output whose name does not lead to one of the inputs is a file other than the inputs. -/
theorem Opened.ne (h : Opened fs outputFileName path₀ paths i₀ is o fs')
    (hdiff : ∀ q j, fs.resolve (outputPath outputFileName) = some (q, some (.file j)) →
      j ∉ i₀ :: is) : o ∉ i₀ :: is := by
  rcases FileSystem.openWrite_inode h.output with ⟨q, hq⟩ | rfl
  · exact hdiff q o hq
  · exact fun hmem => lt_irrefl _ (h.lt_fresh hmem)

/-- What `open_file` returns on files that are open. -/
def closeFiles (fs : Disk) (o inputs : ℕ) (r : RiadResult) : OpenResult :=
  if r.ret < 0 then ⟨r.ret, fs.setContent o r.out.data, inputs, true, r.live⟩
  else ⟨right, fs.setContent o r.out.data, 0, false, r.live⟩

/-- Once everything is open, the sizes decide whether `s_riad` is run. -/
theorem Opened.openFile_run (h : Opened fs outputFileName path₀ paths i₀ is o fs') (fuel : ℕ)
    (mallocs : ℕ → Bool) (results : List ℕ) :
    openFile fuel fs mallocs results outputFileName path₀ paths =
      if ∀ p ∈ paths, fs'.statSize path₀ = fs'.statSize p then
        (sRiad fuel (fs'.statSize path₀) mallocs (.ofContent (fs'.content i₀))
          ((is.map fs'.content).map .ofContent) ⟨[], results⟩).map (closeFiles fs' o (is.length + 1))
      else some ⟨errorFileSize, fs', is.length + 1, true, []⟩ := by
  have hmap : (is.map fun i => InFile.ofContent (fs'.content i)) =
      (is.map fs'.content).map .ofContent := by
    rw [List.map_map]
    rfl
  simp only [openFile, h.first, h.rest, h.output, if_true, hmap]
  rfl

/-- The same where the output is none of the inputs, which are then as before. -/
theorem Opened.openFile_eq (h : Opened fs outputFileName path₀ paths i₀ is o fs')
    (hne : o ∉ i₀ :: is) (fuel : ℕ) (results : List ℕ) :
    openFile fuel fs mallocs results outputFileName path₀ paths =
      if ∀ p ∈ paths, fs'.statSize path₀ = fs'.statSize p then
        (sRiad fuel (fs'.statSize path₀) mallocs (.ofContent (fs.content i₀))
          ((is.map fs.content).map .ofContent) ⟨[], results⟩).map (closeFiles fs' o (is.length + 1))
      else some ⟨errorFileSize, fs', is.length + 1, true, []⟩ := by
  have hcontent : ∀ i ∈ i₀ :: is, fs'.content i = fs.content i := fun i hi =>
    FileSystem.content_openWrite h.output fun heq => hne (heq ▸ hi)
  have hmap : is.map fs'.content = is.map fs.content :=
    List.map_congr_left fun i hi => hcontent i (by simp [hi])
  rw [h.openFile_run, hmap, hcontent i₀ (by simp)]

/-- Either something could not be opened, and nothing has changed, or everything is open. -/
theorem openFile_cases {fuel : ℕ} {results : List ℕ} {r : OpenResult}
    (hrun : openFile fuel fs mallocs results outputFileName path₀ paths = some r) :
    (∃ k < paths.length + 1, r = ⟨errorFileOpen, fs, k, false, []⟩) ∨
      r = ⟨errorOutputFile, fs, paths.length + 1, false, []⟩ ∨
      ∃ i₀ is o fs', Opened fs outputFileName path₀ paths i₀ is o fs' := by
  unfold openFile at hrun
  split at hrun
  · cases hrun
    exact Or.inl ⟨0, Nat.succ_pos _, rfl⟩
  · rename_i i₀ hfirst
    dsimp only at hrun
    split_ifs at hrun with hok
    · have hlen := length_fopenAll (Prod.ext rfl hok)
      split at hrun
      · cases hrun
        exact Or.inr (Or.inl (by rw [hlen]))
      · rename_i o fs' hout
        exact Or.inr (Or.inr ⟨i₀, _, o, fs', hfirst, Prod.ext rfl hok, hout⟩)
    · cases hrun
      have hlt := length_fopenAll_lt (Prod.ext rfl (Bool.not_eq_true _ ▸ hok))
      exact Or.inl ⟨_, Nat.succ_lt_succ hlt, rfl⟩

/-- The same for any list of paths. -/
theorem openFileOf_cases {fuel : ℕ} {results : List ℕ} {aSetOfFiles : List Path} {r : OpenResult}
    (hrun : openFileOf fuel fs mallocs results outputFileName aSetOfFiles = some r) :
    (∃ k < aSetOfFiles.length, r = ⟨errorFileOpen, fs, k, false, []⟩) ∨
      r = ⟨errorOutputFile, fs, aSetOfFiles.length, false, []⟩ ∨
      ∃ path₀ paths i₀ is o fs', aSetOfFiles = path₀ :: paths ∧
        Opened fs outputFileName path₀ paths i₀ is o fs' ∧
        openFile fuel fs mallocs results outputFileName path₀ paths = some r := by
  cases aSetOfFiles with
  | nil =>
    rw [openFileOf] at hrun
    split at hrun
    · cases hrun
      exact Or.inr (Or.inl rfl)
    · cases hrun
  | cons path₀ paths =>
    rcases openFile_cases hrun with hno | hno | ⟨i₀, is, o, fs', h⟩
    · exact Or.inl hno
    · exact Or.inr (Or.inl hno)
    · exact Or.inr (Or.inr ⟨path₀, paths, i₀, is, o, fs', rfl, h, hrun⟩)

/-- `RIGHT` is returned only after everything was opened. -/
theorem opened_of_right {fuel : ℕ} {results : List ℕ} {r : OpenResult}
    (hrun : openFile fuel fs mallocs results outputFileName path₀ paths = some r)
    (hret : r.ret = right) : ∃ i₀ is o fs', Opened fs outputFileName path₀ paths i₀ is o fs' := by
  rcases openFile_cases hrun with ⟨k, -, rfl⟩ | rfl | h
  · exact absurd hret (show errorFileOpen ≠ right by decide)
  · exact absurd hret (show errorOutputFile ≠ right by decide)
  · exact h

/-- `RIGHT` from `open_file` is `RIGHT` from `s_riad` on inputs that `lstat` finds equally long. -/
theorem Opened.right_iff (h : Opened fs outputFileName path₀ paths i₀ is o fs')
    (hne : o ∉ i₀ :: is) (c : List Byte) :
    (∃ fuel r, openFile fuel fs mallocs [] outputFileName path₀ paths = some r ∧ r.ret = right ∧
      r.fs.content o = c) ↔
      (∀ p ∈ paths, fs'.statSize path₀ = fs'.statSize p) ∧ Allocates mallocs (paths.length + 1) ∧
        Accepted (fs'.statSize path₀) (fs.content i₀) (is.map fs.content) ∧
        c = xorBlocks (((i₀ :: is).map fs.content).map (eofPad (fs'.statSize path₀)))
          (fs'.statSize path₀) := by
  by_cases hsize : ∀ p ∈ paths, fs'.statSize path₀ = fs'.statSize p
  · have hright := sRiad_right_iff (fs'.statSize path₀) mallocs (fs.content i₀) (is.map fs.content)
    rw [List.length_map, length_fopenAll h.rest] at hright
    simp only [h.openFile_eq hne, if_pos hsize]
    constructor
    · rintro ⟨fuel, r, hrun, hret, rfl⟩
      obtain ⟨⟨ret, out, live⟩, hriad, rfl⟩ := Option.map_eq_some_iff.1 hrun
      rcases sRiad_ret hriad with rfl | hneg
      · obtain ⟨hall, hacc, rfl⟩ := (hright out).1 ⟨fuel, live, hriad⟩
        exact ⟨hsize, hall, hacc, FileSystem.content_setContent_self _⟩
      · rw [closeFiles, if_pos hneg] at hret
        exact absurd hret hneg.ne
    · rintro ⟨-, hall, hacc, rfl⟩
      obtain ⟨fuel, live, hriad⟩ := (hright _).2 ⟨hall, hacc, rfl⟩
      exact ⟨fuel, _, Option.map_eq_some_iff.2 ⟨_, hriad, if_neg (lt_irrefl _)⟩, rfl,
        FileSystem.content_setContent_self _⟩
  · refine iff_of_false ?_ fun hc => hsize hc.1
    rintro ⟨fuel, r, hrun, hret, -⟩
    rw [h.openFile_eq hne, if_neg hsize] at hrun
    cases hrun
    exact absurd hret (show errorFileSize ≠ right by decide)

/-- **Trust in `RIGHT`.** -/
theorem openFile_sound_iff (hdiff : ∀ i₀ is o fs', Opened fs outputFileName path₀ paths i₀ is o fs' →
      ∀ q j, fs.resolve (outputPath outputFileName) = some (q, some (.file j)) → j ∉ i₀ :: is) :
    (∀ fuel r, openFile fuel fs mallocs [] outputFileName path₀ paths = some r → r.ret = right →
      ∃ i₀ is o fs', Opened fs outputFileName path₀ paths i₀ is o fs' ∧ OutputsXor fs i₀ is o r.fs) ↔
      ∀ i₀ is o fs', Opened fs outputFileName path₀ paths i₀ is o fs' →
        (∀ p ∈ paths, fs'.statSize path₀ = fs'.statSize p) → Allocates mallocs (paths.length + 1) →
        Accepted (fs'.statSize path₀) (fs.content i₀) (is.map fs.content) →
        ∀ i ∈ i₀ :: is, (fs.content i).length = fs'.statSize path₀ := by
  constructor
  · intro hsound i₀ is o fs' h hsize hall hacc i hi
    have hne := h.ne (hdiff _ _ _ _ h)
    obtain ⟨fuel, r, hrun, hret, hout⟩ := (h.right_iff hne _).2 ⟨hsize, hall, hacc, rfl⟩
    obtain ⟨j₀, js, o', fs'', h', L, hL, hxor⟩ := hsound fuel r hrun hret
    obtain ⟨rfl, rfl, rfl⟩ := h.unique h'
    -- the output has the declared length, and that of the inputs
    have hlen := congrArg List.length (hxor.symm.trans hout)
    rw [length_xorBlocks, length_xorBlocks] at hlen
    rw [hL i hi, hlen]
  · intro hlen fuel r hrun hret
    obtain ⟨i₀, is, o, fs', h⟩ := opened_of_right hrun hret
    have hne := h.ne (hdiff _ _ _ _ h)
    obtain ⟨hsize, hall, hacc, hout⟩ := (h.right_iff hne _).1 ⟨fuel, r, hrun, hret, rfl⟩
    have hL := hlen i₀ is o fs' h hsize hall hacc
    refine ⟨i₀, is, o, fs', h, _, hL, ?_⟩
    rwa [List.map_cons, map_eofPad_of_length (by simpa using hL)] at hout

end Sound

/-! ### Two disks -/

/-- A disk with these names and files, where every file may be read, written and created. -/
def diskOf (names : List (Path × Node Path)) (contents : List (List Byte))
    (h : ∀ e ∈ names, ∀ i, e.2 = .file i → i < contents.length) : Disk where
  node p := names.lookup p
  content i := contents.getD i []
  readable _ := true
  writable _ := true
  creatable _ := true
  fresh := contents.length
  lt_fresh p i hp := by
    rw [List.lookup_eq_some_iff] at hp
    obtain ⟨l₁, l₂, rfl, -⟩ := hp
    exact h (p, .file i) (by simp) i rfl

/-- Two files of three bytes. -/
def plainDisk : Disk :=
  diskOf [(ascii "/in/a", .file 0), (ascii "/in/b", .file 1)] [[1, 2, 3], [1, 1, 1]] (by simp)

/-- Two links with a text of eight bytes, to a file of nine bytes and to one of ten. -/
def linkedDisk : Disk :=
  diskOf [(ascii "/in/a", .link 8 (ascii "/data/01")), (ascii "/in/b", .link 8 (ascii "/data/02")),
    (ascii "/data/01", .file 0), (ascii "/data/02", .file 1)]
    [[1, 2, 3, 4, 5, 6, 7, 8, 9], [1, 1, 1, 1, 1, 1, 1, 1, 1, 1]] (by simp)

theorem openFile_sound_iff_plain : ∃ r,
    openFile 1 plainDisk (fun _ => true) [] (ascii "p") (ascii "/in/a") [ascii "/in/b"] = some r ∧
      r.ret = right ∧ ∃ i₀ is o fs', Opened plainDisk (ascii "p") (ascii "/in/a") [ascii "/in/b"] i₀
        is o fs' ∧ OutputsXor plainDisk i₀ is o r.fs := by
  have hopen : ∀ {i₀ is o fs'}, Opened plainDisk (ascii "p") (ascii "/in/a") [ascii "/in/b"] i₀
      is o fs' → i₀ = 0 ∧ is = [1] ∧ fs'.statSize (ascii "/in/a") = 3 := by
    intro i₀ is o fs' h
    have h₀ : plainDisk.openRead (ascii "/in/a") = some 0 := by decide +kernel
    have h₁ : fopenAll plainDisk [ascii "/in/b"] = ([1], true) := by decide +kernel
    have h₂ : (plainDisk.openWrite (outputPath (ascii "p"))).map (fun x =>
      x.2.statSize (ascii "/in/a")) = some 3 := by decide +kernel
    rw [h.output] at h₂
    exact ⟨Option.some.inj (h.first.symm.trans h₀), (Prod.mk.inj (h.rest.symm.trans h₁)).1,
      Option.some.inj h₂⟩
  have hret : (openFile 1 plainDisk (fun _ => true) [] (ascii "p") (ascii "/in/a")
    [ascii "/in/b"]).map OpenResult.ret = some right := by decide +kernel
  obtain ⟨r, hrun, hr⟩ := Option.map_eq_some_iff.1 hret
  refine ⟨r, hrun, hr, (openFile_sound_iff ?_).2 ?_ 1 r hrun hr⟩
  · intro i₀ is o fs' _ q j hq
    have hnone : plainDisk.resolve (outputPath (ascii "p")) =
      some (outputPath (ascii "p"), none) := by decide +kernel
    rw [hnone] at hq
    cases hq
  · intro i₀ is o fs' h _ _ _ i hi
    obtain ⟨rfl, rfl, hsize⟩ := hopen h
    rw [hsize]
    revert i
    decide +kernel

/-- The links are equally long, the files are not, and `RIGHT` is returned. -/
theorem not_openFile_sound : ¬ ∀ fs outputFileName path₀ paths,
    (∀ i₀ is o fs', Opened fs outputFileName path₀ paths i₀ is o fs' → ∀ q j,
      fs.resolve (outputPath outputFileName) = some (q, some (.file j)) → j ∉ i₀ :: is) →
    ∀ fuel r, openFile fuel fs (fun _ => true) [] outputFileName path₀ paths = some r →
      r.ret = right → ∃ i₀ is o fs', Opened fs outputFileName path₀ paths i₀ is o fs' ∧
        OutputsXor fs i₀ is o r.fs := by
  intro hall
  have hres : linkedDisk.resolve (outputPath (ascii "p")) =
    some (outputPath (ascii "p"), none) := by decide +kernel
  have hret : (openFile 1 linkedDisk (fun _ => true) [] (ascii "p") (ascii "/in/a")
    [ascii "/in/b"]).map OpenResult.ret = some right := by decide +kernel
  obtain ⟨r, hrun, hr⟩ := Option.map_eq_some_iff.1 hret
  obtain ⟨i₀, is, o, fs', h, L, hL, -⟩ := hall linkedDisk (ascii "p") (ascii "/in/a")
    [ascii "/in/b"] (fun _ _ _ _ _ q j hq => by rw [hres] at hq; cases hq) 1 r hrun hr
  -- the inputs are the two files
  have h₀ : linkedDisk.openRead (ascii "/in/a") = some 0 := by decide +kernel
  have h₁ : fopenAll linkedDisk [ascii "/in/b"] = ([1], true) := by decide +kernel
  obtain rfl : 0 = i₀ := Option.some.inj (h₀.symm.trans h.first)
  obtain rfl : [1] = is := (Prod.mk.inj (h₁.symm.trans h.rest)).1
  have hlen : (linkedDisk.content 0).length = (linkedDisk.content 1).length :=
    (hL 0 (by simp)).trans (hL 1 (by simp)).symm
  exact absurd hlen (by decide +kernel)

end ORaidServer
