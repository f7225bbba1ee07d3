import Mathlib.Data.List.Perm.Basic
import Mathlib.Tactic.Common

/-!
# Parity

The combination of a list of values by a commutative operation under which every value is its own inverse,
such as the exclusive or.

* `parity`, which does not depend on the order (`parity_perm`);
* `recover`: the parity of a list and of all its members but one give that member;
* `parity_replace`: what the parity becomes when one member is replaced.
-/

namespace Parity

open List

variable {α : Type*} {op : α → α → α} {e : α}

/-- The combination of the members of a list. -/
def parity (op : α → α → α) (e : α) (l : List α) : α := l.foldl op e

@[simp] theorem parity_nil : parity op e [] = e := rfl

theorem parity_perm [Std.Associative op] [Std.Commutative op] {l l' : List α} (h : l ~ l') :
    parity op e l = parity op e l' := h.foldl_op_eq

section Laws

variable [Std.Associative op] [Std.LawfulIdentity op e]

theorem foldl_eq (c : α) (l : List α) : l.foldl op c = op c (parity op e l) := by
  have hright : ∀ a, op a e = a := Std.LawfulRightIdentity.right_id
  have hleft : ∀ a, op e a = a := Std.LawfulLeftIdentity.left_id
  have hassoc : ∀ a b c, op (op a b) c = op a (op b c) := Std.Associative.assoc
  induction l generalizing c with
  | nil => rw [parity_nil, foldl_nil, hright]
  | cons a l ih => rw [parity, foldl_cons, foldl_cons, ih (op c a), ih (op e a), hleft, hassoc]

@[simp] theorem parity_cons (a : α) (l : List α) : parity op e (a :: l) = op a (parity op e l) := by
  have hleft : op e a = a := Std.LawfulLeftIdentity.left_id a
  rw [parity, foldl_cons, foldl_eq, hleft]

variable [Std.Commutative op] {l rest : List α} {lost new : α}

variable (hself : ∀ a, op a a = e)
include hself

/-- **Recovery.** -/
theorem recover (h : lost :: rest ~ l) : op (parity op e l) (parity op e rest) = lost := by
  have hright : op lost e = lost := Std.LawfulRightIdentity.right_id lost
  have hassoc : ∀ a b c, op (op a b) c = op a (op b c) := Std.Associative.assoc
  rw [← parity_perm h, parity_cons, hassoc, hself, hright]

/-- The parity after a replacement, from the old parity and the two values. -/
theorem parity_replace (h : lost :: rest ~ l) :
    parity op e [parity op e l, lost, new] = parity op e (new :: rest) := by
  have hcomm : ∀ a b, op a b = op b a := Std.Commutative.comm
  have hassoc : ∀ a b c, op (op a b) c = op a (op b c) := Std.Associative.assoc
  have hleft : ∀ a, op e a = a := Std.LawfulLeftIdentity.left_id
  have hright : ∀ a, op a e = a := Std.LawfulRightIdentity.right_id
  calc parity op e [parity op e l, lost, new] = op (op (parity op e l) lost) new := by
        rw [parity, foldl_cons, foldl_cons, foldl_cons, foldl_nil, hleft]
    _ = op (parity op e rest) new := by
        rw [← parity_perm h, parity_cons, hcomm lost, hassoc (parity op e rest) lost lost, hself, hright]
    _ = parity op e (new :: rest) := by rw [parity_cons, hcomm]

end Laws

end Parity
