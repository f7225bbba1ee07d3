import ORaidServer.Lib.History
import ORaidServer.Raid.OpenFile
import ORaidServer.Raid.Recover

/-!
# A lost file is restored on the disk

`open_file` is run twice: first on some files, with the parity as its output; then, at any later time, on the
parity and all but one of the files, in any order.

* `Job`, a run that returned `RIGHT` on regular files, and `Job.Leaves`, what it leaves on the disk;
* `Job.Leaves.opened`: what the second run opens, if the parity and those files are kept;
* `restore_iff`: when the second run returns `RIGHT`, and that its output is then the one file as it was.
-/

namespace ORaidServer

open Files FileSystem ByteMem List

section Opened

variable {fs fs' : Disk} {out path₀ : Path} {paths : List Path} {i₀ o : ℕ} {is : List ℕ}
  (h : Opened fs out path₀ paths i₀ is o fs')
include h

/-- The files opened have the contents that are read at the paths. -/
theorem Opened.map_read : (path₀ :: paths).map fs.read = (i₀ :: is).map fs.content := by
  have hrest : ∀ {ps : List Path} {js : List ℕ}, fopenAll fs ps = (js, true) →
      ps.map fs.read = js.map fs.content := by
    intro ps
    induction ps with
    | nil =>
      intro js hjs
      cases hjs
      rfl
    | cons p ps ih =>
      intro js hjs
      simp only [fopenAll] at hjs
      split at hjs
      · cases hjs
      · rename_i j hj
        obtain ⟨rfl, hok⟩ := Prod.mk.inj hjs
        rw [map_cons, map_cons, read_of_openRead hj, ih (Prod.ext rfl hok)]
  rw [map_cons, map_cons, read_of_openRead h.first, hrest h.rest]

/-- Only the content of the output is other than when everything was open. -/
theorem Opened.exists_setContent {fuel : ℕ} {mallocs : ℕ → Bool} {results : List ℕ} {r : OpenResult}
    (hrun : openFile fuel fs mallocs results out path₀ paths = some r) : ∃ data, r.fs = fs'.setContent o data := by
  rw [h.openFile_run] at hrun
  split_ifs at hrun with hsize
  · obtain ⟨q, -, rfl⟩ := Option.map_eq_some_iff.1 hrun
    refine ⟨q.out.data, ?_⟩
    unfold closeFiles
    split_ifs <;> rfl
  · cases hrun
    exact ⟨fs'.content o, (setContent_self fs' o).symm⟩

end Opened

/-- A run of `open_file` that returned `RIGHT` on regular files, the output being another file. -/
structure Job (fs : Disk) (out path₀ : Path) (paths : List Path) (r : OpenResult) : Prop where
  regular : ∀ p ∈ path₀ :: paths, ∃ i, fs.node p = some (.file i) ∧
    fs.node (outputPath out) ≠ some (.file i)
  output : ∀ size t, fs.node (outputPath out) ≠ some (.link size t)
  run : ∃ fuel mallocs, openFile fuel fs mallocs [] out path₀ paths = some r
  ret : r.ret = right

/-- What the job leaves: the inputs as they were and the parity. -/
structure Job.Leaves (fs : Disk) (out path₀ : Path) (paths : List Path) (r : OpenResult) (N o : ℕ) : Prop where
  length : ∀ p ∈ path₀ :: paths, (fs.read p).length = N
  input : ∀ p ∈ path₀ :: paths, ∃ i, r.fs.node p = some (.file i) ∧ r.fs.openRead p = some i ∧
    r.fs.content i = fs.read p
  node : r.fs.node (outputPath out) = some (.file o)
  content : r.fs.content o = xorBlocks ((path₀ :: paths).map fs.read) N

section Restore

variable {fs : Disk} {out path₀ : Path} {paths : List Path} {r : OpenResult}

theorem Job.leaves (hjob : Job fs out path₀ paths r) : ∃ N o, Job.Leaves fs out path₀ paths r N o := by
  obtain ⟨hregular, hlink, ⟨fuel, mallocs, hrun⟩, hret⟩ := hjob
  obtain ⟨i₀, is, o, fs', h⟩ := opened_of_right hrun hret
  have hinode : ∀ p ∈ path₀ :: paths, ∃ i ∈ i₀ :: is, fs.node p = some (.file i) ∧
      fs.openRead p = some i := by
    intro p hp
    obtain ⟨i, hi, hopen⟩ := h.exists_openRead hp
    obtain ⟨j, hj, -⟩ := hregular p hp
    obtain ⟨q, hq⟩ := resolve_of_openRead hopen
    rw [resolve_of_node hj (by simp)] at hq
    cases hq
    exact ⟨i, hi, hj, hopen⟩
  have hne : o ∉ i₀ :: is := by
    refine h.ne fun q j hq hj => ?_
    rw [resolve_of_node rfl hlink] at hq
    obtain ⟨p, hp, hopen⟩ := h.mem_iff.1 hj
    obtain ⟨i, hi, hout⟩ := hregular p hp
    obtain ⟨k, -, hk, hopen'⟩ := hinode p hp
    rw [hi] at hk
    rw [hopen] at hopen'
    cases hk
    cases hopen'
    exact hout (Prod.mk.inj (Option.some.inj hq)).2
  obtain ⟨hsize, -, -, hout⟩ := (h.right_iff hne _).1 ⟨fuel, r, hrun, hret, rfl⟩
  obtain ⟨data, hfs⟩ := h.exists_setContent hrun
  have hcontent : ∀ i ∈ i₀ :: is, r.fs.content i = fs.content i := by
    intro i hi
    have hio : i ≠ o := fun heq => hne (heq ▸ hi)
    rw [hfs, content_setContent_of_ne _ hio, content_openWrite h.output hio]
  -- `lstat` reports the lengths of the files
  have hlen : ∀ p ∈ path₀ :: paths, (fs.read p).length = fs'.statSize path₀ := by
    intro p hp
    obtain ⟨i, hi, hnode, hopen⟩ := hinode p hp
    have hp' : fs'.statSize path₀ = fs'.statSize p := by
      rcases mem_cons.1 hp with rfl | hp
      · rfl
      · exact hsize p hp
    rw [hp', statSize_openWrite h.output hopen fun heq => hne (heq ▸ hi), statSize_of_file hnode,
      read_of_openRead hopen]
  refine ⟨_, o, hlen, fun p hp => ?_, ?_, ?_⟩
  · obtain ⟨i, hi, hnode, hopen⟩ := hinode p hp
    have hopen' := openRead_openWrite h.output hopen
    refine ⟨i, ?_, ?_, ?_⟩
    · rw [hfs]
      exact node_openWrite h.output hnode
    · rw [hfs]
      have hmono : ∀ q n, fs'.node q = some n → (fs'.setContent o data).node q = some n := fun _ _ hn => hn
      exact openRead_mono hmono rfl hopen'
    · rw [hcontent i hi, read_of_openRead hopen]
  · rw [hfs]
    show fs'.node (outputPath out) = _
    exact node_openWrite_self h.output hlink
  · rw [hout, ← h.map_read, map_cons (f := fs.read), map_eofPad_of_length]
    intro c hc
    rw [← map_cons] at hc
    obtain ⟨p, hp, rfl⟩ := mem_map.1 hc
    exact hlen p hp

/-- What can be opened of the parity and some of the inputs, as long as they are kept, is as the job left it. -/
theorem Job.Leaves.openRead_kept {N o : ℕ} (h : Job.Leaves fs out path₀ paths r N o) {names : Set Path}
    {fs₁ : Disk} (hkept : Kept (r.fs.inodes names) names r.fs fs₁) {q : Path} {j : ℕ} (hname : q ∈ names)
    (hq : q = outputPath out ∨ q ∈ path₀ :: paths) (hj : fs₁.openRead q = some j) :
    r.fs.node q = some (.file j) ∧ fs₁.node q = some (.file j) ∧ fs₁.content j =
      if q = outputPath out then xorBlocks ((path₀ :: paths).map fs.read) N else fs.read q := by
  obtain ⟨i, hi, hcontent⟩ : ∃ i, r.fs.node q = some (.file i) ∧ r.fs.content i =
      if q = outputPath out then xorBlocks ((path₀ :: paths).map fs.read) N else fs.read q := by
    split_ifs with hout
    · subst hout
      exact ⟨o, h.node, h.content⟩
    · obtain ⟨i, hi, -, hcontent⟩ := h.input q (hq.resolve_left hout)
      exact ⟨i, hi, hcontent⟩
  have hnode := hkept.node q hname _ hi
  obtain ⟨q', hq'⟩ := resolve_of_openRead hj
  rw [resolve_of_node hnode (by simp)] at hq'
  cases hq'
  exact ⟨hi, hnode, (hkept.content j ⟨q, hname, hi⟩).trans hcontent⟩

/-- What a later run of `open_file` opens, on the parity and the inputs other than one: files as long as the inputs
were, and their exclusive or is the one that is missing. -/
theorem Job.Leaves.opened {N o : ℕ} (hleaves : Job.Leaves fs out path₀ paths r N o)
    (hout : ∀ p ∈ path₀ :: paths, p ≠ outputPath out) {lost : Path} {survivors : List Path}
    (hlost : lost :: survivors ~ path₀ :: paths) {names : Set Path}
    (hnames : ∀ q ∈ outputPath out :: survivors, q ∈ names) {fs₁ : Disk}
    (hkept : Kept (r.fs.inodes names) names r.fs fs₁) {out₂ q₀ : Path} {qs : List Path}
    (hqs : q₀ :: qs ~ outputPath out :: survivors) {j₀ o₂ : ℕ} {js : List ℕ} {fs₂ : Disk}
    (h₂ : Opened fs₁ out₂ q₀ qs j₀ js o₂ fs₂) (hne : o₂ ∉ j₀ :: js) :
    (fs.read lost).length = N ∧ (∀ q ∈ q₀ :: qs, fs₂.statSize q = N) ∧
      (∀ d ∈ fs₁.content j₀ :: js.map fs₁.content, d.length = N) ∧
      xorBlocks ((j₀ :: js).map fs₁.content) N = fs.read lost := by
  have hN : (fs.read lost).length = N := hleaves.length lost (hlost.subset mem_cons_self)
  have hmem : ∀ q ∈ q₀ :: qs, q = outputPath out ∨ q ∈ survivors := fun q hq => by
    simpa using hqs.subset hq
  have hpaths : ∀ q ∈ survivors, q ∈ path₀ :: paths := fun q hq =>
    hlost.subset (mem_cons_of_mem _ hq)
  have hopened : ∀ q ∈ q₀ :: qs, ∀ j, fs₁.openRead q = some j → fs₁.node q = some (.file j) ∧ fs₁.content j =
      if q = outputPath out then xorBlocks ((path₀ :: paths).map fs.read) N else fs.read q := fun q hq j hj =>
    (hleaves.openRead_kept hkept (hnames q (hqs.subset hq)) ((hmem q hq).imp_right (hpaths q)) hj).2
  have hread : ∀ q ∈ q₀ :: qs, fs₁.read q =
      if q = outputPath out then xorBlocks ((path₀ :: paths).map fs.read) N else fs.read q := by
    intro q hq
    obtain ⟨j, -, hj⟩ := h₂.exists_openRead hq
    rw [read_of_openRead hj]
    exact (hopened q hq j hj).2
  have hlen : ∀ q ∈ q₀ :: qs, (fs₁.read q).length = N := by
    intro q hq
    rw [hread q hq]
    split_ifs with hq'
    · exact length_xorBlocks _ _
    · exact hleaves.length q (hpaths q ((hmem q hq).resolve_left hq'))
  have hcontents : (j₀ :: js).map fs₁.content ~
      xorBlocks ((path₀ :: paths).map fs.read) N :: survivors.map fs.read := by
    have hsurvivors : survivors.map fs₁.read = survivors.map fs.read := by
      refine map_congr_left fun q hq => ?_
      rw [hread q (hqs.symm.subset (mem_cons_of_mem _ hq)), if_neg (hout q (hpaths q hq))]
    have hparity : fs₁.read (outputPath out) = xorBlocks ((path₀ :: paths).map fs.read) N :=
      (hread _ (hqs.symm.subset mem_cons_self)).trans (if_pos rfl)
    rw [← h₂.map_read, ← hsurvivors, ← hparity]
    exact hqs.map _
  refine ⟨hN, fun q hq => ?_, fun d hd => ?_, ?_⟩
  · obtain ⟨j, hj, hopen⟩ := h₂.exists_openRead hq
    have hnode := (hopened q hq j hopen).1
    rw [statSize_openWrite h₂.output hopen fun heq => hne (heq ▸ hj), statSize_of_file hnode,
      ← read_of_openRead hopen, hlen q hq]
  · rw [← map_cons (f := fs₁.content), ← h₂.map_read] at hd
    obtain ⟨q, hq, rfl⟩ := mem_map.1 hd
    exact hlen q hq
  · have hrecover := xorBlocks_recover (hlost.map fs.read)
    rw [hN] at hrecover
    rw [xorBlocks_perm hcontents, hrecover]

/-- No input of a job is its output. -/
theorem Job.ne_outputPath (hjob : Job fs out path₀ paths r) : ∀ p ∈ path₀ :: paths, p ≠ outputPath out := by
  rintro p hp rfl
  obtain ⟨i, hi, hno⟩ := hjob.regular _ hp
  exact hno hi

/-- **Restoring.**  After a job that returned `RIGHT` files are written and names removed, but not the parity and
the inputs other than one.  A job on the parity and those inputs, in any order, then returns `RIGHT` if and only if
its buffers are allocated and its first input has no `0xFF` after the last whole word, and its output is the one
input as it was before. -/
theorem restore_iff (hjob : Job fs out path₀ paths r) {lost : Path} {survivors : List Path}
    (hlost : lost :: survivors ~ path₀ :: paths) {names : Set Path}
    (hnames : ∀ q ∈ outputPath out :: survivors, q ∈ names) {fs₁ : Disk}
    (hlater : Later (r.fs.inodes names) names r.fs fs₁) {out₂ q₀ : Path} {qs : List Path}
    (hqs : q₀ :: qs ~ outputPath out :: survivors) {j₀ o₂ : ℕ} {js : List ℕ} {fs₂ : Disk}
    (h₂ : Opened fs₁ out₂ q₀ qs j₀ js o₂ fs₂) (hne : o₂ ∉ j₀ :: js) (mallocs : ℕ → Bool) (c : List Byte) :
    (∃ fuel r₂, openFile fuel fs₁ mallocs [] out₂ q₀ qs = some r₂ ∧ r₂.ret = right ∧ r₂.fs.content o₂ = c) ↔
      Allocates mallocs (qs.length + 1) ∧
        (∀ b ∈ (fs₁.read q₀).drop (4 * ((fs.read lost).length / 4)), b ≠ 0xFF) ∧ c = fs.read lost := by
  obtain ⟨N, o, hleaves⟩ := hjob.leaves
  obtain ⟨hN, hsize, hlens, hxor⟩ :=
    hleaves.opened hjob.ne_outputPath hlost hnames (kept_of_later hlater) hqs h₂ hne
  rw [h₂.right_iff hne, hsize q₀ mem_cons_self, map_cons, map_eofPad_of_length hlens, accepted_iff_of_length hlens,
    ← map_cons (f := fs₁.content), hxor, hN, read_of_openRead h₂.first]
  exact and_iff_right fun q hq => (hsize q (mem_cons_of_mem _ hq)).symm

end Restore

/-- The first of two files is removed and another file written; the parity and the second file give it back. -/
theorem restore_iff_plain : ∃ r fs',
    openFile 1 plainDisk (fun _ => true) [] (ascii "p") (ascii "/in/a") [ascii "/in/b"] = some r ∧
      (r.fs.unlink (ascii "/in/a")).openWrite (outputPath (ascii "x")) = some (3, fs') ∧
      ∃ fuel r₂, openFile fuel (fs'.setContent 3 [9]) (fun _ => true) [] (ascii "a") (outputPath (ascii "p"))
        [ascii "/in/b"] = some r₂ ∧ r₂.ret = right ∧ r₂.fs.content 4 = [1, 2, 3] := by
  have hstored : (openFile 1 plainDisk (fun _ => true) [] (ascii "p") (ascii "/in/a") [ascii "/in/b"]).map (fun r =>
      (r.ret, r.fs.node (outputPath (ascii "p")), r.fs.node (ascii "/in/b"))) =
      some (right, some (.file 2), some (.file 1)) := by decide +kernel
  have hdone : ((openFile 1 plainDisk (fun _ => true) [] (ascii "p") (ascii "/in/a") [ascii "/in/b"]).bind fun r =>
      ((r.fs.unlink (ascii "/in/a")).openWrite (outputPath (ascii "x"))).map fun x =>
        (x.1, (x.2.setContent 3 [9]).openRead (outputPath (ascii "p")),
          fopenAll (x.2.setContent 3 [9]) [ascii "/in/b"],
          ((x.2.setContent 3 [9]).openWrite (outputPath (ascii "a"))).map Prod.fst)) =
      some (3, some 2, ([1], true), some 4) := by decide +kernel
  have hparity : ((openFile 1 plainDisk (fun _ => true) [] (ascii "p") (ascii "/in/a") [ascii "/in/b"]).bind fun r =>
      ((r.fs.unlink (ascii "/in/a")).openWrite (outputPath (ascii "x"))).map fun x =>
        (x.2.setContent 3 [9]).read (outputPath (ascii "p"))) = some [0, 3, 2] := by decide +kernel
  obtain ⟨r, hrun, hr⟩ := Option.map_eq_some_iff.1 hstored
  rw [hrun, Option.bind_some] at hdone hparity
  obtain ⟨⟨i, fs'⟩, hx, hfacts⟩ := Option.map_eq_some_iff.1 hdone
  simp only [Prod.mk.injEq] at hr hfacts
  obtain ⟨hret, hp, hb⟩ := hr
  obtain ⟨rfl, hfirst, hrest, hout⟩ := hfacts
  rw [hx, Option.map_some, Option.some.injEq] at hparity
  obtain ⟨⟨o₂, fs₂⟩, hwrite, rfl⟩ := Option.map_eq_some_iff.1 hout
  have hnone : plainDisk.node (outputPath (ascii "p")) = none := by decide +kernel
  have hjob : Job plainDisk (ascii "p") (ascii "/in/a") [ascii "/in/b"] r := by
    refine ⟨?_, by simp [hnone], ⟨1, _, hrun⟩, hret⟩
    simp only [mem_cons, not_mem_nil, or_false, forall_eq_or_imp, forall_eq, hnone]
    exact ⟨⟨0, by decide +kernel, by simp⟩, ⟨1, by decide +kernel, by simp⟩⟩
  have hspared : 3 ∉ r.fs.inodes {q | q ∈ [outputPath (ascii "p"), ascii "/in/b"]} := by
    rintro ⟨q, hq, hnode⟩
    rcases mem_pair.1 hq with rfl | rfl
    · rw [hp] at hnode
      cases hnode
    · rw [hb] at hnode
      cases hnode
  have hlater : Later (r.fs.inodes {q | q ∈ [outputPath (ascii "p"), ascii "/in/b"]})
      {q | q ∈ [outputPath (ascii "p"), ascii "/in/b"]} r.fs (fs'.setContent 3 [9]) :=
    ((Relation.ReflTransGen.single (.unlink (by decide +kernel))).tail (.openWrite hx hspared)).tail
      (.write [9] hspared)
  refine ⟨r, fs', hrun, hx, (restore_iff hjob (Perm.refl _) (fun _ => id) hlater (Perm.refl _)
    ⟨hfirst, hrest, hwrite⟩ (by decide) _ _).2 ⟨fun _ _ => rfl, ?_, by decide +kernel⟩⟩
  have hlost : (plainDisk.read (ascii "/in/a")).length = 3 := by decide +kernel
  rw [hparity, hlost]
  decide

end ORaidServer
