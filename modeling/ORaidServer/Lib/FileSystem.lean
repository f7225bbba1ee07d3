import Mathlib.Logic.Function.Basic
import Mathlib.Tactic.Common

/-!
# Files, symbolic links and opening

A file system maps paths to nodes; a node is a regular file, named by its inode number, or a symbolic
link.  What a relative path or the text of a link denotes is settled by whoever sets up the map: `π` is
any type of paths and a link carries the path it leads to.

* `FileSystem`, with the fact that the inode numbers in use are below the next one to be given;
* `follow`, `openRead`, `openWrite` (which truncates or creates), `statSize` (of the node itself);
* `openWrite_inode`: what is opened for writing was there or is new, so that by `openRead_lt` a new
  file is none of those opened for reading;
* `content_openWrite`, `statSize_openWrite`: opening for writing changes the content of no file but the one
  opened, and the size of no path that leads to another file;
* `unlink`, `read`: `node_openWrite` and `openRead_openWrite` say what a path leads to after a file was written.
-/

namespace Files

/-- What a path leads to: a regular file, or a link with the length of its text and the path that the
text denotes. -/
inductive Node (π : Type*)
  | file (inode : ℕ)
  | link (size : ℕ) (target : π)
  deriving DecidableEq

/-- A file system with paths `π` and contents in `α`. -/
structure FileSystem (π α : Type*) where
  node : π → Option (Node π)
  content : ℕ → List α
  readable : ℕ → Bool
  writable : ℕ → Bool
  creatable : π → Bool
  fresh : ℕ
  lt_fresh : ∀ p i, node p = some (.file i) → i < fresh

variable {π α : Type*}

namespace FileSystem

/-- The length of the node itself; `0` where there is none. -/
def statSize (fs : FileSystem π α) (p : π) : ℕ :=
  match fs.node p with
  | some (.file i) => (fs.content i).length
  | some (.link size _) => size
  | none => 0

/-- The path at the end of a chain of links, of at most so many. -/
def follow (fs : FileSystem π α) : ℕ → π → Option π
  | 0, _ => none
  | n + 1, p =>
    match fs.node p with
    | some (.link _ t) => fs.follow n t
    | _ => some p

/-- The most links that are followed. -/
def maxLinks : ℕ := 40

/-- The node a path leads to, links being followed, with the path it has; no node where a file could be
created. -/
def resolve (fs : FileSystem π α) (p : π) : Option (π × Option (Node π)) :=
  (fs.follow (maxLinks + 1) p).map fun q => (q, fs.node q)

/-- Open for reading: the inode opened. -/
def openRead (fs : FileSystem π α) (p : π) : Option ℕ :=
  match fs.resolve p with
  | some (_, some (.file i)) => if fs.readable i then some i else none
  | _ => none

/-- Replace the content of an inode. -/
def setContent (fs : FileSystem π α) (i : ℕ) (c : List α) : FileSystem π α :=
  { fs with content := Function.update fs.content i c }

/-- Create an empty file. -/
def create [DecidableEq π] (fs : FileSystem π α) (p : π) : FileSystem π α :=
  { fs with
    node := Function.update fs.node p (some (.file fs.fresh))
    content := Function.update fs.content fs.fresh []
    fresh := fs.fresh + 1
    lt_fresh := by
      intro q i hq
      rcases eq_or_ne q p with rfl | hne
      · rw [Function.update_self] at hq
        cases hq
        exact Nat.lt_succ_self _
      · rw [Function.update_of_ne hne] at hq
        exact Nat.lt_succ_of_lt (fs.lt_fresh q i hq) }

/-- Open for writing: truncate the file, or create it. -/
def openWrite [DecidableEq π] (fs : FileSystem π α) (p : π) : Option (ℕ × FileSystem π α) :=
  match fs.resolve p with
  | some (_, some (.file i)) => if fs.writable i then some (i, fs.setContent i []) else none
  | some (q, none) => if fs.creatable q then some (fs.fresh, fs.create q) else none
  | _ => none

variable {fs : FileSystem π α} {p : π} {i j : ℕ}

@[simp] theorem content_setContent_self (c : List α) : (fs.setContent i c).content i = c :=
  Function.update_self ..

theorem content_setContent_of_ne (c : List α) (h : j ≠ i) :
    (fs.setContent i c).content j = fs.content j := Function.update_of_ne h ..

/-- What is opened for reading is in use. -/
theorem openRead_lt (h : fs.openRead p = some i) : i < fs.fresh := by
  unfold openRead resolve at h
  cases hq : fs.follow (maxLinks + 1) p with
  | none => simp [hq] at h
  | some q =>
    rw [hq, Option.map_some] at h
    split at h
    · rename_i hnode
      split_ifs at h
      cases h
      have hfile := (Prod.mk.inj (Option.some.inj hnode)).2
      exact fs.lt_fresh _ _ hfile
    · cases h

/-- What is opened for writing was there or is new. -/
theorem openWrite_inode [DecidableEq π] {fs' : FileSystem π α}
    (h : fs.openWrite p = some (i, fs')) :
    (∃ q, fs.resolve p = some (q, some (.file i))) ∨ i = fs.fresh := by
  unfold openWrite at h
  split at h
  · rename_i q k hres
    split_ifs at h
    cases h
    exact Or.inl ⟨q, hres⟩
  · split_ifs at h
    cases h
    exact Or.inr rfl
  · cases h

/-- Opening for writing changes the content of no file but the one opened. -/
theorem content_openWrite [DecidableEq π] {fs' : FileSystem π α}
    (h : fs.openWrite p = some (i, fs')) (hj : j ≠ i) : fs'.content j = fs.content j := by
  unfold openWrite at h
  split at h
  · split_ifs at h
    cases h
    exact content_setContent_of_ne _ hj
  · split_ifs at h
    cases h
    exact Function.update_of_ne hj ..
  · cases h

/-- What is opened for writing is empty. -/
theorem content_openWrite_self [DecidableEq π] {fs' : FileSystem π α}
    (h : fs.openWrite p = some (i, fs')) : fs'.content i = [] := by
  unfold openWrite at h
  split at h
  · split_ifs at h
    cases h
    exact content_setContent_self _
  · split_ifs at h
    cases h
    exact Function.update_self ..
  · cases h

/-- A file that was there and is opened for writing is truncated, and nothing else changes. -/
theorem openWrite_eq [DecidableEq π] {fs' : FileSystem π α} (h : fs.openWrite p = some (i, fs'))
    (hi : i < fs.fresh) : fs' = fs.setContent i [] := by
  unfold openWrite at h
  split at h
  · split_ifs at h
    cases h
    rfl
  · split_ifs at h
    cases h
    exact absurd hi (Nat.lt_irrefl _)
  · cases h

theorem setContent_self (fs : FileSystem π α) (i : ℕ) : fs.setContent i (fs.content i) = fs := by
  rw [setContent, Function.update_eq_self]

/-- A path opened for reading leads to the file opened. -/
theorem resolve_of_openRead (h : fs.openRead p = some i) : ∃ q, fs.resolve p = some (q, some (.file i)) := by
  unfold openRead at h
  split at h
  · rename_i q j hres
    split_ifs at h
    cases h
    exact ⟨q, hres⟩
  · cases h

/-- Where a path is no link it leads to its own node. -/
theorem resolve_of_node {n : Option (Node π)} (h : fs.node p = n) (hn : ∀ s t, n ≠ some (.link s t)) :
    fs.resolve p = some (p, n) := by
  have hfollow : fs.follow (maxLinks + 1) p = some p := by
    rw [follow, h]
    split
    · rename_i size t
      exact absurd rfl (hn size t)
    · rfl
  rw [resolve, hfollow, Option.map_some, h]

/-- Opening another file for writing leaves the size of a path opened for reading. -/
theorem statSize_openWrite [DecidableEq π] {fs' : FileSystem π α} {q : π}
    (h : fs.openWrite q = some (i, fs')) (hp : fs.openRead p = some j) (hne : j ≠ i) :
    fs'.statSize p = fs.statSize p := by
  obtain ⟨p', hres⟩ := resolve_of_openRead hp
  have hnode : fs'.node p = fs.node p := by
    unfold openWrite at h
    split at h
    · split_ifs at h
      cases h
      rfl
    · rename_i q' hq
      split_ifs at h
      cases h
      refine Function.update_of_ne ?_ _ _
      -- where a file is created there was none
      rintro rfl
      have hnone : fs.node p = none := by
        unfold resolve at hq
        obtain ⟨q'', -, heq⟩ := Option.map_eq_some_iff.1 hq
        obtain ⟨rfl, hnone⟩ := Prod.mk.inj heq
        exact hnone
      rw [resolve_of_node hnone (by simp)] at hres
      cases hres
    · cases h
  unfold statSize
  rw [hnode]
  cases hn : fs.node p with
  | none => rfl
  | some n =>
    cases n with
    | link size t => rfl
    | file k =>
      rw [resolve_of_node hn (by simp)] at hres
      cases hres
      exact congrArg List.length (content_openWrite h hne)

/-! ### Names that come and go -/

/-- Remove a name. -/
def unlink [DecidableEq π] (fs : FileSystem π α) (p : π) : FileSystem π α :=
  { fs with
    node := Function.update fs.node p none
    lt_fresh := by
      intro q i hq
      rcases eq_or_ne q p with rfl | hne
      · rw [Function.update_self] at hq
        cases hq
      · rw [Function.update_of_ne hne] at hq
        exact fs.lt_fresh q i hq }

/-- The content of the file that a path leads to; empty where there is none. -/
def read (fs : FileSystem π α) (p : π) : List α := ((fs.openRead p).map fs.content).getD []

theorem read_of_openRead (h : fs.openRead p = some i) : fs.read p = fs.content i := by
  rw [read, h, Option.map_some, Option.getD_some]

/-- Further names do not change where a path leads to. -/
theorem follow_mono {fs' : FileSystem π α} (hnode : ∀ q n, fs.node q = some n → fs'.node q = some n)
    {k : ℕ} {q : π} (h : fs.follow k p = some q) (hq : fs.node q ≠ none) : fs'.follow k p = some q := by
  induction k generalizing p with
  | zero => cases h
  | succ k ih =>
    rw [follow] at h ⊢
    cases hn : fs.node p with
    | none =>
      rw [hn] at h
      cases h
      exact absurd hn hq
    | some n =>
      rw [hn] at h
      rw [hnode p n hn]
      cases n with
      | file i => exact h
      | link size t => exact ih h

theorem openRead_mono {fs' : FileSystem π α} (hnode : ∀ q n, fs.node q = some n → fs'.node q = some n)
    (hread : fs'.readable = fs.readable) (h : fs.openRead p = some i) : fs'.openRead p = some i := by
  obtain ⟨q, hq⟩ := resolve_of_openRead h
  obtain ⟨q, hfollow, hnode'⟩ := Option.map_eq_some_iff.1 hq
  obtain ⟨rfl, hfile⟩ := Prod.mk.inj hnode'
  have hq' : fs'.resolve p = some (q, some (.file i)) := by
    rw [resolve, follow_mono hnode hfollow (by simp [hfile]), Option.map_some, hnode q _ hfile]
  rw [openRead, hq] at h
  rw [openRead, hq', hread]
  exact h

/-- The names of files that were there are there after another file was opened for writing. -/
theorem node_openWrite [DecidableEq π] {fs' : FileSystem π α} (h : fs.openWrite p = some (i, fs')) {q : π}
    {n : Node π} (hq : fs.node q = some n) : fs'.node q = some n := by
  unfold openWrite at h
  split at h
  · split_ifs at h
    cases h
    exact hq
  · rename_i q' hres
    split_ifs at h
    cases h
    obtain ⟨q'', -, heq⟩ := Option.map_eq_some_iff.1 hres
    obtain ⟨rfl, hnone⟩ := Prod.mk.inj heq
    have hne : q ≠ q'' := by
      rintro rfl
      rw [hq] at hnone
      cases hnone
    exact (Function.update_of_ne hne ..).trans hq
  · cases h

theorem readable_openWrite [DecidableEq π] {fs' : FileSystem π α} (h : fs.openWrite p = some (i, fs')) :
    fs'.readable = fs.readable := by
  unfold openWrite at h
  split at h
  · split_ifs at h
    cases h
    rfl
  · split_ifs at h
    cases h
    rfl
  · cases h

theorem fresh_openWrite [DecidableEq π] {fs' : FileSystem π α} (h : fs.openWrite p = some (i, fs')) :
    fs.fresh ≤ fs'.fresh := by
  unfold openWrite at h
  split at h
  · split_ifs at h
    cases h
    exact Nat.le_refl _
  · split_ifs at h
    cases h
    exact Nat.le_succ _
  · cases h

theorem openRead_openWrite [DecidableEq π] {fs' : FileSystem π α} (h : fs.openWrite p = some (i, fs'))
    {q : π} (hq : fs.openRead q = some j) : fs'.openRead q = some j :=
  openRead_mono (fun _ _ => node_openWrite h) (readable_openWrite h) hq

/-- A name that is no link is that of the file opened. -/
theorem node_openWrite_self [DecidableEq π] {fs' : FileSystem π α} (h : fs.openWrite p = some (i, fs'))
    (hp : ∀ s t, fs.node p ≠ some (.link s t)) : fs'.node p = some (.file i) := by
  rw [openWrite, resolve_of_node rfl hp] at h
  cases hn : fs.node p with
  | none =>
    simp only [hn] at h
    split_ifs at h
    cases h
    exact Function.update_self ..
  | some n =>
    cases n with
    | link s t => exact absurd hn (hp s t)
    | file k =>
      simp only [hn] at h
      split_ifs at h
      cases h
      exact hn

/-- The size of a name of a regular file. -/
theorem statSize_of_file (h : fs.node p = some (.file i)) : fs.statSize p = (fs.content i).length := by
  rw [statSize, h]

end FileSystem

end Files
