import Mathlib.Logic.Relation
import ORaidServer.Lib.FileSystem

/-!
# Files over time

What is left of some files and some names while others are opened for writing, written and removed.

* `inodes`, the files that have one of the names;
* `Kept`, that the names lead where they led and the files hold what they held, and `Kept.openRead`: a name of a
  regular file is opened as before;
* `Spares`, one thing that happens and touches neither the files nor the names, and `Later`, any number of them;
* `kept_of_later`: then they are kept.
-/

namespace Files.FileSystem

variable {π α : Type*} {files : Set ℕ} {names : Set π} {fs fs' fs'' : FileSystem π α} {p : π} {i : ℕ}

/-- The files that have one of the names. -/
def inodes (fs : FileSystem π α) (names : Set π) : Set ℕ := {i | ∃ q ∈ names, fs.node q = some (.file i)}

/-- What the names lead to, and what the files hold, is as before. -/
structure Kept (files : Set ℕ) (names : Set π) (fs fs' : FileSystem π α) : Prop where
  node : ∀ q ∈ names, ∀ n, fs.node q = some n → fs'.node q = some n
  content : ∀ i ∈ files, fs'.content i = fs.content i
  readable : fs'.readable = fs.readable
  fresh : fs.fresh ≤ fs'.fresh

theorem Kept.refl (fs : FileSystem π α) : Kept files names fs fs :=
  ⟨fun _ _ _ h => h, fun _ _ => rfl, rfl, Nat.le_refl _⟩

theorem Kept.trans (h : Kept files names fs fs') (h' : Kept files names fs' fs'') : Kept files names fs fs'' where
  node q hq n hn := h'.node q hq n (h.node q hq n hn)
  content i hi := (h'.content i hi).trans (h.content i hi)
  readable := h'.readable.trans h.readable
  fresh := Nat.le_trans h.fresh h'.fresh

/-- A name of a regular file is opened as before. -/
theorem Kept.openRead (h : Kept files names fs fs') (hp : p ∈ names) (hn : fs.node p = some (.file i)) :
    fs'.openRead p = fs.openRead p := by
  have hres := resolve_of_node hn (by simp)
  have hres' := resolve_of_node (h.node p hp _ hn) (by simp)
  rw [FileSystem.openRead, FileSystem.openRead, hres, hres', h.readable]

variable [DecidableEq π]

/-- One thing that happens: a file other than `files` is opened for writing or written, or a name other than
`names` is removed. -/
inductive Spares (files : Set ℕ) (names : Set π) (fs : FileSystem π α) : FileSystem π α → Prop
  | openWrite {fs' : FileSystem π α} {p : π} {i : ℕ} (h : fs.openWrite p = some (i, fs')) (hi : i ∉ files) :
      Spares files names fs fs'
  | write {i : ℕ} (c : List α) (hi : i ∉ files) : Spares files names fs (fs.setContent i c)
  | unlink {p : π} (hp : p ∉ names) : Spares files names fs (fs.unlink p)

/-- Any number of things that happen. -/
abbrev Later (files : Set ℕ) (names : Set π) : FileSystem π α → FileSystem π α → Prop :=
  Relation.ReflTransGen (Spares files names)

theorem Spares.kept (h : Spares files names fs fs') : Kept files names fs fs' := by
  cases h with
  | openWrite h hi =>
    refine ⟨fun q _ n hn => node_openWrite h hn, fun j hj => ?_, readable_openWrite h, fresh_openWrite h⟩
    exact content_openWrite h fun heq => hi (heq ▸ hj)
  | write c hi =>
    refine ⟨fun _ _ _ hn => hn, fun j hj => ?_, rfl, Nat.le_refl _⟩
    exact content_setContent_of_ne c fun heq => hi (heq ▸ hj)
  | unlink hp =>
    refine ⟨fun q hq n hn => ?_, fun _ _ => rfl, rfl, Nat.le_refl _⟩
    have hne := ne_of_mem_of_not_mem hq hp
    exact (Function.update_of_ne hne ..).trans hn

theorem kept_of_later (h : Later files names fs fs') : Kept files names fs fs' := by
  induction h with
  | refl => exact .refl fs
  | tail _ hstep ih => exact ih.trans hstep.kept

end Files.FileSystem
