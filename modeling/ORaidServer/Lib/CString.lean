import Mathlib.Data.List.TakeWhile
import ORaidServer.Lib.ByteMem

/-!
# Character strings

The string functions of `string.h`.  A string is the list of the bytes before its NUL; an array that is
written is given by its size and is zero-filled before, so that the string it holds afterwards is what was
copied.  A copy that leaves no room for a NUL gives `none`.

* `cr`, `lf`, `sp`, `crlf`, and `lit`, the bytes of a literal;
* `strchr`, `strrchr`, the suffixes from the first and from the last occurrence of a byte;
* `strcpy`, `strcat`, `strncpy`, `strncmp`;
* `strtol`, `atoi`, and `atoi_eq_signedNumber_iff`, when the latter is the number in the text.
-/

namespace CString

open ByteMem

/-- The carriage return. -/
def cr : Byte := 13

/-- The line feed. -/
def lf : Byte := 10

/-- The space. -/
def sp : Byte := 32

/-- The end of a line. -/
def crlf : List Byte := [cr, lf]

/-- The bytes of a literal. -/
def lit (s : String) : List Byte := s.toList.map fun c => BitVec.ofNat 8 c.toNat

/-- `strchr(s, c)` -/
def strchr (c : Byte) : List Byte → Option (List Byte)
  | [] => none
  | b :: s => if b = c then some (b :: s) else strchr c s

/-- `strrchr(s, c)` -/
def strrchr (c : Byte) : List Byte → Option (List Byte)
  | [] => none
  | b :: s =>
    match strrchr c s with
    | some t => some t
    | none => if b = c then some (b :: s) else none

/-- `strncmp(s, t, n) == 0` -/
def strncmp (s t : List Byte) (n : ℕ) : Bool := s.take n = t.take n

/-- `strcpy` of `s` to an array of `size` bytes. -/
def strcpy (size : ℕ) (s : List Byte) : Option (List Byte) :=
  if s.length < size then some s else none

/-- `strcat` of `t` to the string `s` in an array of `size` bytes. -/
def strcat (size : ℕ) (s t : List Byte) : Option (List Byte) :=
  if s.length + t.length < size then some (s ++ t) else none

/-- `strncpy` of at most `n` bytes from memory `m` to an array of `size` bytes. -/
def strncpy (size : ℕ) (m : List Byte) (n : ℕ) : Option (List Byte) :=
  let s := (m.take n).takeWhile (· ≠ 0)
  if n ≤ size ∧ s.length < size then some s else none

/-- `isspace` -/
def IsSpace (b : Byte) : Prop := b = sp ∨ 9 ≤ b.toNat ∧ b.toNat ≤ 13

instance (b : Byte) : Decidable (IsSpace b) := inferInstanceAs (Decidable (_ ∨ _))

/-- The number whose decimal digits a string begins with. -/
def leadingNumber (s : List Byte) : ℕ :=
  (s.takeWhile fun b => 48 ≤ b.toNat ∧ b.toNat ≤ 57).foldl (fun n b => 10 * n + (b.toNat - 48)) 0

/-- `strtol(s, NULL, 10)` for a `long` of 64 bits. -/
def strtol (s : List Byte) : ℤ :=
  match s.dropWhile fun b => IsSpace b with
  | [] => 0
  | b :: t =>
    if b = 45 then max (-2 ^ 63) (-leadingNumber t)
    else if b = 43 then min (2 ^ 63 - 1) (leadingNumber t)
    else min (2 ^ 63 - 1) (leadingNumber (b :: t))

/-- `atoi(s)`, the 32 bits of `strtol` that an `int` has. -/
def atoi (s : List Byte) : ℤ := (strtol s).bmod (2 ^ 32)

/-- The number that a string begins with, after white space and with or without a sign, of any size. -/
def signedNumber (s : List Byte) : ℤ :=
  match s.dropWhile fun b => IsSpace b with
  | [] => 0
  | b :: t =>
    if b = 45 then -leadingNumber t
    else if b = 43 then leadingNumber t
    else leadingNumber (b :: t)

theorem strchr_append {c : Byte} {s : List Byte} (t : List Byte) (h : c ∉ s) :
    strchr c (s ++ c :: t) = some (c :: t) := by
  induction s with
  | nil => simp [strchr]
  | cons b s ih =>
    have hb : b ≠ c := fun hbc => h (by simp [hbc])
    rw [List.cons_append, strchr, if_neg hb]
    exact ih fun hs => h (List.mem_cons_of_mem _ hs)

/-- Two strings are the same up to the first occurrence of a byte, and after it. -/
theorem append_cons_inj {c : Byte} {s s' t t' : List Byte} (hs : c ∉ s) (hs' : c ∉ s')
    (h : s ++ c :: t = s' ++ c :: t') : s = s' ∧ t = t' := by
  have hfirst := strchr_append t hs
  rw [h, strchr_append t' hs'] at hfirst
  obtain rfl : t' = t := (List.cons.inj (Option.some.inj hfirst)).2
  exact ⟨List.append_cancel_right h, rfl⟩

theorem strrchr_eq_none {c : Byte} {s : List Byte} : strrchr c s = none ↔ c ∉ s := by
  induction s with
  | nil => simp [strrchr]
  | cons b s ih =>
    rw [strrchr, List.mem_cons, not_or, ← ih]
    cases strrchr c s with
    | none => simp [eq_comm]
    | some t => simp

theorem strrchr_append {c : Byte} (s : List Byte) {t : List Byte} (h : c ∉ t) :
    strrchr c (s ++ c :: t) = some (c :: t) := by
  induction s with
  | nil => simp [strrchr, strrchr_eq_none.2 h]
  | cons b s ih => rw [List.cons_append, strrchr, ih]

theorem eq_cons_of_strrchr {c : Byte} {s t : List Byte} (h : strrchr c s = some t) :
    ∃ u, t = c :: u ∧ c ∉ u := by
  induction s with
  | nil => cases h
  | cons b s ih =>
    rw [strrchr] at h
    cases hs : strrchr c s with
    | some t' =>
      simp only [hs, Option.some.injEq] at h
      subst h
      exact ih hs
    | none =>
      simp only [hs] at h
      split_ifs at h with hb
      cases h
      exact ⟨s, by rw [hb], strrchr_eq_none.1 hs⟩

theorem eq_of_strcpy {size : ℕ} {s t : List Byte} (h : strcpy size s = some t) : t = s := by
  unfold strcpy at h
  split_ifs at h
  exact (Option.some.inj h).symm

theorem strcpy_of_lt {size : ℕ} {s : List Byte} (h : s.length < size) : strcpy size s = some s :=
  if_pos h

theorem eq_of_strcat {size : ℕ} {s t u : List Byte} (h : strcat size s t = some u) : u = s ++ t := by
  unfold strcat at h
  split_ifs at h
  exact (Option.some.inj h).symm

/-- A copy of exactly the bytes of a string that are wanted. -/
theorem strncpy_append {size : ℕ} {s : List Byte} (m : List Byte) (hs : 0 ∉ s)
    (h : s.length < size) : strncpy size (s ++ m) s.length = some s := by
  have hall : s.takeWhile (· ≠ 0) = s :=
    List.takeWhile_eq_self_iff.2 fun b hb => decide_eq_true fun hb0 => hs (hb0 ▸ hb)
  unfold strncpy
  rw [List.take_left, hall]
  exact if_pos ⟨h.le, h⟩

/-- What is copied comes from the bytes copied from. -/
theorem mem_of_strncpy {size n : ℕ} {m s : List Byte} (h : strncpy size m n = some s) {b : Byte}
    (hb : b ∈ s) : b ∈ m.take n := by
  unfold strncpy at h
  dsimp only at h
  split_ifs at h
  cases h
  exact List.takeWhile_subset _ hb

theorem isSome_strcpy_iff {size : ℕ} {s : List Byte} : (strcpy size s).isSome ↔ s.length < size := by
  unfold strcpy
  split_ifs with h <;> simp [h]

/-- The copy of the bytes of a string before its end. -/
theorem isSome_strncpy_iff (size : ℕ) {s : List Byte} (m : List Byte) (hs : 0 ∉ s) :
    (strncpy size (s ++ m) s.length).isSome ↔ s.length < size := by
  constructor
  · intro h
    have hall : s.takeWhile (· ≠ 0) = s :=
      List.takeWhile_eq_self_iff.2 fun b hb => decide_eq_true fun hb0 => hs (hb0 ▸ hb)
    unfold strncpy at h
    rw [List.take_left, hall] at h
    by_contra hlt
    simp [hlt] at h
  · intro h
    rw [strncpy_append m hs h]
    rfl

theorem strncpy_of_lt {size n : ℕ} (m : List Byte) (h : size < n) : strncpy size m n = none := by
  unfold strncpy
  exact if_neg fun hle => absurd hle.1 (not_le.2 h)

theorem exists_last_of_mem {b : Byte} {s : List Byte} (h : b ∈ s) : ∃ a c, s = a ++ b :: c ∧ b ∉ c := by
  obtain ⟨c, a, hs, hc⟩ := List.eq_append_cons_of_mem (List.mem_reverse.2 h)
  refine ⟨a.reverse, c.reverse, ?_, fun hmem => hc (List.mem_reverse.1 hmem)⟩
  rw [← List.reverse_reverse s, hs]
  simp

/-! ### Numbers in texts -/

/-- `strtol` takes the number in the text, or the bound next to it. -/
theorem strtol_eq (s : List Byte) : strtol s = max (-2 ^ 63) (min (2 ^ 63 - 1) (signedNumber s)) := by
  unfold strtol signedNumber
  cases s.dropWhile fun b => IsSpace b with
  | nil => decide
  | cons b t =>
    dsimp only
    split_ifs <;> omega

/-- `atoi` takes the number in the text exactly if it is an `int`. -/
theorem atoi_eq_signedNumber_iff (s : List Byte) :
    atoi s = signedNumber s ↔ -2 ^ 31 ≤ signedNumber s ∧ signedNumber s < 2 ^ 31 := by
  rw [atoi, strtol_eq, Int.bmod_def]
  split_ifs <;> omega

/-- The number in a text does not depend on what comes after a NUL. -/
theorem signedNumber_takeWhile (s : List Byte) : signedNumber (s.takeWhile (· ≠ 0)) = signedNumber s := by
  have hdigits : ∀ t : List Byte, leadingNumber (t.takeWhile (· ≠ 0)) = leadingNumber t := by
    intro t
    unfold leadingNumber
    congr 1
    induction t with
    | nil => rfl
    | cons b t ih =>
      by_cases hb : b = 0
      · subst hb
        rfl
      · rw [List.takeWhile_cons_of_pos (by simpa using hb), List.takeWhile_cons, List.takeWhile_cons, ih]
  induction s with
  | nil => rfl
  | cons b s ih =>
    by_cases hb : b = 0
    · subst hb
      rfl
    · have hcut : (b :: s).takeWhile (· ≠ 0) = b :: s.takeWhile (· ≠ 0) :=
        List.takeWhile_cons_of_pos (by simpa using hb)
      by_cases hspace : IsSpace b
      · unfold signedNumber at ih ⊢
        rw [hcut, List.dropWhile_cons_of_pos (by simpa using hspace),
          List.dropWhile_cons_of_pos (by simpa using hspace)]
        exact ih
      · have hall := hdigits (b :: s)
        rw [hcut] at hall
        unfold signedNumber
        rw [hcut, List.dropWhile_cons_of_neg (by simpa using hspace),
          List.dropWhile_cons_of_neg (by simpa using hspace)]
        dsimp only
        rw [hdigits s, hall]

end CString
