import ORaidServer.Lib.CString

/-!
# Responses as a client reads them

The framing of HTTP/1.1 with a `Content-Length`: a header section of lines, each ended by `crlf`, up to the
first empty one, then as many bytes of body as the length says.

* `readLine`, `readHeader`, `readResponse`, `readResponses`;
* `HasEmptyLine`, without which no header section ends, and how it behaves on lines and on appended
  streams.
-/

namespace HttpClient

open ByteMem CString

/-- The next line, and what follows it. -/
def readLine : List Byte → Option (List Byte × List Byte)
  | a :: b :: s =>
    if a = cr ∧ b = lf then some ([], s)
    else (readLine (b :: s)).map fun (line, rest) => (a :: line, rest)
  | _ => none

/-- The lines up to the first empty one, of which there are fewer than `fuel`, and what follows. -/
def readHeader : ℕ → List Byte → Option (List (List Byte) × List Byte)
  | 0, _ => none
  | fuel + 1, s =>
    match readLine s with
    | none => none
    | some ([], rest) => some ([], rest)
    | some (line, rest) => (readHeader fuel rest).map fun (lines, rest) => (line :: lines, rest)

/-- A number in digits. -/
def number (s : List Byte) : Option ℕ :=
  if s ≠ [] ∧ ∀ b ∈ s, 48 ≤ b.toNat ∧ b.toNat ≤ 57 then
    some (s.foldl (fun n b => 10 * n + (b.toNat - 48)) 0)
  else none

/-- The length that the header section gives. -/
def contentLength (lines : List (List Byte)) : Option ℕ :=
  (lines.find? fun l => strncmp l (lit "Content-Length: ") 16).bind fun l => number (l.drop 16)

/-- The body of the next response, and what follows it. -/
def readResponse (s : List Byte) : Option (List Byte × List Byte) := do
  let (lines, rest) ← readHeader (s.length + 1) s
  let n ← contentLength lines
  if n ≤ rest.length then some (rest.take n, rest.drop n) else none

/-- The bodies of the next responses, and what follows them. -/
def readResponses : ℕ → List Byte → Option (List (List Byte) × List Byte)
  | 0, s => some ([], s)
  | k + 1, s => do
    let (body, rest) ← readResponse s
    let (bodies, rest) ← readResponses k rest
    some (body :: bodies, rest)

example : readResponses 2 (lit "a" ++ crlf ++ lit "Content-Length: 2" ++ crlf ++ crlf ++ lit "xy" ++
    lit "Content-Length: 0" ++ crlf ++ crlf) = some ([lit "xy", []], []) := by decide

/-- There is an empty line: at the start, or after another line. -/
def HasEmptyLine (s : List Byte) : Prop := crlf <+: s ∨ crlf ++ crlf <:+: s

theorem eq_of_readLine {s line rest : List Byte} (h : readLine s = some (line, rest)) :
    s = line ++ crlf ++ rest := by
  induction s generalizing line with
  | nil => cases h
  | cons a s ih =>
    cases s with
    | nil => cases h
    | cons b s =>
      rw [readLine] at h
      split_ifs at h with hab
      · cases h
        rw [hab.1, hab.2]
        rfl
      · simp only [Option.map_eq_some_iff, Prod.exists, Prod.mk.injEq] at h
        obtain ⟨line', rest', hr, rfl, rfl⟩ := h
        rw [ih hr]
        rfl

/-- A header section ends in an empty line. -/
theorem hasEmptyLine_of_readHeader {fuel : ℕ} {s rest : List Byte} {lines : List (List Byte)}
    (h : readHeader fuel s = some (lines, rest)) : HasEmptyLine s := by
  induction fuel generalizing s lines with
  | zero => cases h
  | succ fuel ih =>
    rw [readHeader] at h
    split at h
    · cases h
    · next hline =>
      rw [eq_of_readLine hline]
      exact Or.inl (List.prefix_append _ _)
    · next line tail _ hline =>
      simp only [Option.map_eq_some_iff, Prod.exists, Prod.mk.injEq] at h
      obtain ⟨lines', rest', hr, -, rfl⟩ := h
      rw [eq_of_readLine hline]
      rcases ih hr with ⟨t, ht⟩ | hin
      · refine Or.inr ⟨line, t, ?_⟩
        rw [← ht]
        simp only [List.append_assoc]
      · exact Or.inr (hin.trans ⟨line ++ crlf, [], by simp⟩)

theorem readResponse_eq_none {s : List Byte} (h : ¬ HasEmptyLine s) : readResponse s = none := by
  cases hr : readHeader (s.length + 1) s with
  | none => simp [readResponse, hr]
  | some p => exact absurd (hasEmptyLine_of_readHeader hr) h

/-- A stream has an empty line if its start has one. -/
theorem HasEmptyLine.mono {s t : List Byte} (h : HasEmptyLine s) (hst : s <+: t) :
    HasEmptyLine t :=
  h.imp (fun h => h.trans hst) fun h => h.trans hst.isInfix

/-- A line that is not empty leaves the empty line to what follows. -/
theorem HasEmptyLine.of_line {line s : List Byte} (hne : line ≠ []) (hcr : cr ∉ line)
    (h : HasEmptyLine (line ++ crlf ++ s)) : HasEmptyLine s := by
  have hpass : ∀ l : List Byte, cr ∉ l → crlf ++ crlf <:+: l ++ (crlf ++ s) →
      crlf ++ crlf <:+: crlf ++ s := by
    intro l hl h
    induction l with
    | nil => exact h
    | cons a l ih =>
      rw [List.cons_append, List.infix_cons_iff] at h
      rcases h with h | h
      · exact absurd (List.cons_prefix_cons.1 h).1 fun hcra => hl (by simp [hcra])
      · exact ih (fun hm => hl (List.mem_cons_of_mem _ hm)) h
  rw [List.append_assoc] at h
  rcases h with h | h
  · obtain ⟨a, line, rfl⟩ := List.exists_cons_of_ne_nil hne
    exact absurd (List.cons_prefix_cons.1 h).1 fun hcra => hcr (by simp [hcra])
  · have := hpass line hcr h
    simp only [crlf, List.cons_append, List.nil_append, List.infix_cons_iff,
      List.cons_prefix_cons] at this
    rcases this with h | h | h
    · exact Or.inl h.2.2
    · exact absurd h.1 (by decide)
    · exact Or.inr h

theorem not_hasEmptyLine_of_cr_notMem {s : List Byte} (h : cr ∉ s) : ¬ HasEmptyLine s := by
  rintro (hp | hi)
  · exact h (hp.subset (by simp [crlf]))
  · exact h (hi.subset (by simp [crlf]))

/-- A prefix does not reach a byte that it does not contain. -/
theorem prefix_of_notMem {l s t : List Byte} {b : Byte} (hb : b ∉ l) (h : l <+: s ++ b :: t) :
    l <+: s := by
  induction s generalizing l with
  | nil =>
    cases l with
    | nil => exact List.nil_prefix
    | cons a l => exact absurd (List.cons_prefix_cons.1 h).1 fun hab => hb (by simp [hab])
  | cons a s ih =>
    cases l with
    | nil => exact List.nil_prefix
    | cons c l =>
      rw [List.cons_append, List.cons_prefix_cons] at h
      exact List.cons_prefix_cons.2 ⟨h.1, ih (fun hm => hb (List.mem_cons_of_mem _ hm)) h.2⟩

/-- No empty line straddles the start of a stream that begins with neither `cr` nor `lf`. -/
theorem HasEmptyLine.of_append {s t : List Byte} {b : Byte} (hcr : b ≠ cr) (hlf : b ≠ lf)
    (h : HasEmptyLine (s ++ b :: t)) : HasEmptyLine s ∨ HasEmptyLine (b :: t) := by
  have hin : crlf ++ crlf <:+: s ++ b :: t →
      crlf ++ crlf <:+: s ∨ crlf ++ crlf <:+: b :: t := by
    clear h
    intro h
    induction s with
    | nil => exact Or.inr h
    | cons a s ih =>
      rw [List.cons_append, List.infix_cons_iff] at h
      rcases h with h | h
      · rw [← List.cons_append] at h
        exact Or.inl (prefix_of_notMem (by simp [crlf, hcr, hlf]) h).isInfix
      · exact (ih h).imp_left fun h => h.trans ⟨[a], [], by simp⟩
  rcases h with h | h
  · exact Or.inl (Or.inl (prefix_of_notMem (by simp [crlf, hcr, hlf]) h))
  · exact (hin h).imp Or.inr Or.inr

end HttpClient
