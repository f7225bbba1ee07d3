import ORaidServer.Basic

/-!
# Standard input and output streams

The `FILE *` streams that the two engines use.

* `InFile`, an input stream on a file whose content does not change: `fread`, `fgetc`, `fseek`;
* `OutFile`, an output stream: `fwrite` and `fputc` with the results the environment gives them;
* `OutCall`, a call of either, and `OutFile.calls`, several in turn: `OutFile.data_calls_iff` says when
  everything was written.
-/

namespace ORaidServer

/-- An input stream: the content of the file and the read position. -/
structure InFile where
  content : List Byte
  pos : ℕ
  deriving DecidableEq, Repr

/-- A freshly opened file. -/
def InFile.ofContent (content : List Byte) : InFile := ⟨content, 0⟩

/-- `fread(buf, size, n, fd)`: the number of whole items read, the bytes delivered (a last
incomplete item among them), the stream. -/
def InFile.fread (fd : InFile) (size n : ℕ) : ℕ × List Byte × InFile :=
  let got := (fd.content.drop fd.pos).take (size * n)
  (got.length / size, got, { fd with pos := fd.pos + got.length })

/-- `fgetc(fd)`, with `none` for `EOF`. -/
def InFile.fgetc (fd : InFile) : Option Byte × InFile :=
  match fd.content[fd.pos]? with
  | some b => (some b, { fd with pos := fd.pos + 1 })
  | none => (none, fd)

/-- `fseek(fd, off, SEEK_SET)` -/
def InFile.fseek (fd : InFile) (off : ℕ) : InFile := { fd with pos := off }

/-- An output stream: the bytes accepted so far and, for the coming calls, how many items each
accepts; a call for which nothing is listed accepts everything. -/
structure OutFile where
  data : List Byte
  results : List ℕ
  deriving DecidableEq, Repr

/-- `fwrite(bytes, size, n, fd)` -/
def OutFile.fwrite (fd : OutFile) (bytes : List Byte) (size n : ℕ) : ℕ × OutFile :=
  let m := match fd.results with
    | [] => n
    | r :: _ => min r n
  (m, ⟨fd.data ++ bytes.take (size * m), fd.results.tail⟩)

/-- How much of a write is accepted does not depend on the bytes. -/
theorem OutFile.fwrite_fst (fd : OutFile) (bytes bytes' : List Byte) (size n : ℕ) :
    (fd.fwrite bytes size n).1 = (fd.fwrite bytes' size n).1 := rfl

/-- `fputc(c, fd)`, with `none` for `EOF`. -/
def OutFile.fputc (fd : OutFile) (c : Byte) : Option Byte × OutFile :=
  match fd.results with
  | 0 :: rs => (none, ⟨fd.data, rs⟩)
  | rs => (some c, ⟨fd.data ++ [c], rs.tail⟩)

/-- Every write is accepted in full. -/
def OutFile.Accepts (fd : OutFile) : Prop := fd.results = []

section Accepts

variable {fd : OutFile} (h : fd.Accepts)
include h

theorem OutFile.fwrite_of_accepts (bytes : List Byte) (size n : ℕ) :
    fd.fwrite bytes size n = (n, ⟨fd.data ++ bytes.take (size * n), []⟩) := by
  rw [OutFile.Accepts] at h
  simp [OutFile.fwrite, h]

end Accepts

/-! ### Several calls -/

/-- A call that writes to a stream. -/
inductive OutCall
  | fwrite (bytes : List Byte) (size n : ℕ)
  | fputc (c : Byte)
  deriving DecidableEq, Repr

namespace OutCall

/-- The bytes to be written. -/
def bytes : OutCall → List Byte
  | fwrite bytes size n => bytes.take (size * n)
  | fputc c => [c]

/-- The number of items to be written. -/
def requested : OutCall → ℕ
  | fwrite _ _ n => n
  | fputc _ => 1

/-- All the items are there. -/
def Full : OutCall → Prop
  | fwrite bytes size n => 0 < size ∧ size * n ≤ bytes.length
  | fputc _ => True

end OutCall

/-- The stream after a call. -/
def OutFile.call (fd : OutFile) : OutCall → OutFile
  | .fwrite bytes size n => (fd.fwrite bytes size n).2
  | .fputc c => (fd.fputc c).2

/-- The stream after several calls. -/
def OutFile.calls (fd : OutFile) (l : List OutCall) : OutFile := l.foldl OutFile.call fd

theorem OutFile.calls_cons (fd : OutFile) (c : OutCall) (l : List OutCall) :
    fd.calls (c :: l) = (fd.call c).calls l := rfl

theorem OutFile.calls_append (fd : OutFile) (l l' : List OutCall) :
    fd.calls (l ++ l') = (fd.calls l).calls l' := List.foldl_append ..

/-- A call uses up one result and writes some of its bytes. -/
theorem OutFile.call_spec (fd : OutFile) (c : OutCall) : (fd.call c).results = fd.results.tail ∧
    ∃ w, (fd.call c).data = fd.data ++ w ∧ w.length ≤ c.bytes.length ∧
      ((∀ r ∈ fd.results.head?, c.requested ≤ r) → w = c.bytes) ∧
      (c.Full → w.length = c.bytes.length → ∀ r ∈ fd.results.head?, c.requested ≤ r) := by
  cases c with
  | fwrite bytes size n =>
    refine ⟨rfl, _, rfl, ?_⟩
    cases hres : fd.results with
    | nil => simp [OutCall.bytes]
    | cons r rs =>
      simp only [List.head?_cons, Option.mem_some_iff, forall_eq', OutCall.bytes, OutCall.requested,
        OutCall.Full, List.length_take]
      refine ⟨?_, fun hr => by rw [min_eq_right hr], fun ⟨hsize, hlen⟩ hw => ?_⟩
      · have := Nat.mul_le_mul_left size (min_le_right r n)
        omega
      · by_contra hlt
        have := Nat.mul_lt_mul_of_pos_left (show min r n < n by omega) hsize
        omega
  | fputc c =>
    rcases hres : fd.results with _ | ⟨_ | r, rs⟩
    · refine ⟨?_, [c], ?_, ?_⟩ <;> simp [OutFile.call, OutFile.fputc, hres, OutCall.bytes]
    · refine ⟨?_, [], ?_, ?_⟩ <;>
        simp [OutFile.call, OutFile.fputc, hres, OutCall.bytes, OutCall.requested]
    · refine ⟨?_, [c], ?_, ?_⟩ <;>
        simp [OutFile.call, OutFile.fputc, hres, OutCall.bytes, OutCall.requested]

theorem OutFile.length_calls_le (fd : OutFile) (l : List OutCall) :
    (fd.calls l).data.length ≤ fd.data.length + (l.map OutCall.bytes).flatten.length := by
  induction l generalizing fd with
  | nil => exact le_rfl
  | cons c l ih =>
    obtain ⟨-, w, hw, hlen, -⟩ := fd.call_spec c
    have := ih (fd.call c)
    rw [hw, List.length_append] at this
    rw [calls_cons, List.map_cons, List.flatten_cons, List.length_append]
    omega

/-- Everything is written if and only if no call takes less than it is asked to. -/
theorem OutFile.data_calls_iff (fd : OutFile) {l : List OutCall} (hfull : ∀ c ∈ l, c.Full) :
    (fd.calls l).data = fd.data ++ (l.map OutCall.bytes).flatten ↔
      ∀ p ∈ (l.map OutCall.requested).zip fd.results, p.1 ≤ p.2 := by
  induction l generalizing fd with
  | nil => simp [calls]
  | cons c l ih =>
    obtain ⟨hres, w, hw, hlen, hall, hfirst⟩ := fd.call_spec c
    obtain ⟨hc, hl⟩ := List.forall_mem_cons.1 hfull
    have hzip : (∀ p ∈ ((c :: l).map OutCall.requested).zip fd.results, p.1 ≤ p.2) ↔
        (∀ r ∈ fd.results.head?, c.requested ≤ r) ∧
          ∀ p ∈ (l.map OutCall.requested).zip (fd.call c).results, p.1 ≤ p.2 := by
      rw [hres]
      cases fd.results <;> simp
    have hrest := ih (fd.call c) hl
    rw [hzip, ← hrest, calls_cons, List.map_cons, List.flatten_cons, ← List.append_assoc]
    constructor
    · intro h
      -- what was lost in the first call is not made up for
      have hle := (fd.call c).length_calls_le l
      rw [h, hw] at hle
      simp only [List.length_append] at hle
      have hr := hfirst hc (by omega)
      refine ⟨hr, ?_⟩
      rw [h, hw, hall hr]
    · rintro ⟨hr, h⟩
      rw [h, hw, hall hr]

/-- A stream that takes everything. -/
theorem OutFile.calls_of_accepts {fd : OutFile} (h : fd.Accepts) (l : List OutCall) :
    fd.calls l = ⟨fd.data ++ (l.map OutCall.bytes).flatten, []⟩ := by
  induction l generalizing fd with
  | nil =>
    rw [List.map_nil, List.flatten_nil, List.append_nil]
    exact congrArg (OutFile.mk fd.data) h
  | cons c l ih =>
    obtain ⟨hres, w, hw, -, hall, -⟩ := fd.call_spec c
    rw [OutFile.Accepts] at h
    rw [h] at hres hall
    rw [calls_cons, ih hres, hw, hall (by simp), List.map_cons, List.flatten_cons, List.append_assoc]

end ORaidServer
