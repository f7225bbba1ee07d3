import ORaidServer.Http.Nonlocal

/-!
# Reading an answer

The content that `set_send_json_info` of `json.cpp` makes of a return code, for a program that reads it as JSON.

* `reportsErrno`, the codes whose message ends with a text of `strerror`, and `ReadBack`, what a program is to find;
* `atoi_intDecimal_iff`: when the code that is found is the return code;
* `readBack_iff`: what is found is what was meant exactly if such a text is of bytes that stand for themselves.
-/

namespace ORaidServer

open CString Json

/-- The codes whose message ends with a text of `strerror`. -/
def reportsErrno : List ℤ :=
  [errorFileOpen, errorApplyMalloc, errorFreadFile, errorFwriteFile, errorOutputFile]

/-- A program that reads an answer as JSON finds the return code in it, and the message. -/
def ReadBack (e : Errno) (ret : ℤ) : Prop :=
  ∃ v, Json.parse (setSendJsonInfo e ret) = some v ∧ (v.getString (lit "code")).map atoi = some ret ∧
    v.getString (lit "message") = some (jsonMessage e ret)

/-! ### The strings of an answer -/

theorem plain_intDecimal (n : ℤ) : ∀ b ∈ intDecimal n, Plain b := by
  intro b hb
  have hdigit : ∀ c : Byte, 48 ≤ c.toNat ∧ c.toNat ≤ 57 → Plain c := by decide +kernel
  have hminus : ∀ c ∈ lit "-", Plain c := by decide
  by_cases hd : 48 ≤ b.toNat ∧ b.toNat ≤ 57
  · exact hdigit b hd
  · by_cases hm : b ∈ lit "-"
    · exact hminus b hm
    · exact absurd hb (notMem_intDecimal hd hm n)

/-- A message is a text of the server, or has one between `errno` and its `strerror`. -/
theorem jsonMessage_cases (e : Errno) (ret : ℤ) :
    (ret ∈ reportsErrno ∧ ∃ m, (∀ b ∈ lit m, Plain b) ∧ jsonMessage e ret = e.report m) ∨
      (ret ∉ reportsErrno ∧ ∃ m, (∀ b ∈ lit m, Plain b) ∧ jsonMessage e ret = lit m) := by
  by_cases hmem : ret ∈ reportsErrno
  · refine Or.inl ⟨hmem, ?_⟩
    simp only [reportsErrno, List.mem_cons, List.not_mem_nil, or_false] at hmem
    rcases hmem with rfl | rfl | rfl | rfl | rfl
    · exact ⟨",Error opening file,", by simp [lit, Plain, quote, backslash], rfl⟩
    · exact ⟨",Request memory error,", by simp [lit, Plain, quote, backslash], rfl⟩
    · exact ⟨",The fread file failed,", by simp [lit, Plain, quote, backslash], rfl⟩
    · exact ⟨",The fwrite file failed,", by simp [lit, Plain, quote, backslash], rfl⟩
    · exact ⟨",Error opening output file,", by simp [lit, Plain, quote, backslash], rfl⟩
  · refine Or.inr ⟨hmem, ?_⟩
    simp only [reportsErrno, List.mem_cons, List.not_mem_nil, or_false, not_or] at hmem
    obtain ⟨hopen, hmalloc, hread, hwrite, hout⟩ := hmem
    unfold jsonMessage
    rw [if_neg hopen, if_neg hmalloc, if_neg hread, if_neg hwrite, if_neg hout]
    split_ifs
    · exact ⟨"success!", by simp [lit, Plain, quote, backslash], rfl⟩
    · exact ⟨"file path error", by simp [lit, Plain, quote, backslash], rfl⟩
    · exact ⟨"File sizes are inconsistent", by simp [lit, Plain, quote, backslash], rfl⟩
    · exact ⟨"error cjson parse", by simp [lit, Plain, quote, backslash], rfl⟩
    · exact ⟨"Error method not found", by simp [lit, Plain, quote, backslash], rfl⟩
    · exact ⟨"unknown error", by simp [lit, Plain, quote, backslash], rfl⟩

theorem plain_jsonMessage_iff (e : Errno) (ret : ℤ) :
    (∀ b ∈ jsonMessage e ret, Plain b) ↔ (ret ∈ reportsErrno → ∀ b ∈ e.text, Plain b) := by
  rcases jsonMessage_cases e ret with ⟨hmem, m, hm, heq⟩ | ⟨hmem, m, hm, heq⟩
  · rw [heq, Errno.report, List.forall_mem_append, List.forall_mem_append]
    exact ⟨fun h _ => h.2, fun h => ⟨⟨plain_intDecimal e.num, hm⟩, h hmem⟩⟩
  · rw [heq]
    exact ⟨fun _ h => absurd h hmem, fun _ => hm⟩

/-- The number that `strtol` reads of one that `%d` printed. -/
theorem strtol_intDecimal {n : ℤ} (h : -2 ^ 63 ≤ n) (h' : n < 2 ^ 63) : strtol (intDecimal n) = n := by
  unfold intDecimal
  split_ifs with hn
  · have hminus : lit "-" = [45] := by decide
    have hspace : ¬ CString.IsSpace 45 := by decide
    rw [hminus, List.singleton_append, strtol, List.dropWhile_cons_of_neg (by simpa using hspace)]
    dsimp only
    rw [if_pos rfl, leadingNumber_decimal]
    omega
  · rw [strtol_decimal (by omega)]
    omega

/-- The code of an answer is the return code as long as that one is an `int`. -/
theorem atoi_intDecimal_iff {n : ℤ} (h : -2 ^ 63 ≤ n) (h' : n < 2 ^ 63) :
    atoi (intDecimal n) = n ↔ -2 ^ 31 ≤ n ∧ n < 2 ^ 31 := by
  rw [atoi, strtol_intDecimal h h', Int.bmod_def]
  split_ifs <;> omega

/-! ### Reading -/

/-- The second member of an answer. -/
def messageText (e : Errno) (ret : ℤ) : List Byte :=
  quote :: (lit "message" ++ quote :: colon :: quote :: (jsonMessage e ret ++ [quote, rbrace]))

/-- The text of an answer, up to the space after its comma. -/
theorem setSendJsonInfo_eq (e : Errno) (ret : ℤ) : setSendJsonInfo e ret =
    lbrace :: quote :: (lit "code" ++ quote :: colon :: quote :: (intDecimal ret ++
      quote :: comma :: sp :: messageText e ret)) := by
  have hcode : lit "\x7b\"code\":\"" = lbrace :: quote :: (lit "code" ++ [quote, colon, quote]) := by decide
  have hmessage : lit "\", \"message\":\"" =
      quote :: comma :: sp :: quote :: (lit "message" ++ [quote, colon, quote]) := by decide
  have hend : lit "\"\x7d" = [quote, rbrace] := by decide
  rw [setSendJsonInfo, hcode, hmessage, hend, messageText]
  simp

/-- A name that stands for itself, a colon and a string. -/
theorem memberName_quote {name : List Byte} (hname : ∀ b ∈ name, Plain b) (s : List Byte) :
    memberName (quote :: (name ++ quote :: colon :: quote :: s)) = some (name, quote :: s) := by
  rw [memberName_of_plain hname, skipSpace_cons (by decide)]

/-- The first member of an answer is read as it is meant. -/
theorem members_code (e : Errno) (ret : ℤ) (fuel : ℕ) :
    members (fuel + 2) (quote :: (lit "code" ++ quote :: colon :: quote :: (intDecimal ret ++
        quote :: comma :: sp :: messageText e ret))) =
      (members (fuel + 1) (messageText e ret)).map fun x =>
        ((lit "code", .string (intDecimal ret)) :: x.1, x.2) := by
  have hcode : ∀ b ∈ lit "code", Plain b := by decide
  have hvalue : value (fuel + 1) (quote :: (intDecimal ret ++ quote :: comma :: sp :: messageText e ret)) =
      some (.string (intDecimal ret), comma :: sp :: messageText e ret) := by
    rw [value_quote, string_of_plain (plain_intDecimal ret)]
    rfl
  have hspace : skipSpace (sp :: messageText e ret) = messageText e ret :=
    (List.dropWhile_cons_of_pos (by decide)).trans (skipSpace_cons (by decide) _)
  rw [members_comma (memberName_quote hcode _) hvalue, hspace]

/-- **Reading an answer.**  A program finds the return code and the message exactly if the text of `strerror`, where
there is one, is of bytes that stand for themselves in JSON. -/
theorem readBack_iff (e : Errno) {ret : ℤ} (hle : -2 ^ 31 ≤ ret) (hlt : ret < 2 ^ 31) :
    ReadBack e ret ↔ (ret ∈ reportsErrno → ∀ b ∈ e.text, Plain b) := by
  have hspace : skipSpace (setSendJsonInfo e ret) = setSendJsonInfo e ret := by
    rw [setSendJsonInfo_eq, skipSpace_cons (by decide)]
  have hname : ∀ b ∈ lit "message", Plain b := by decide
  have hne : lit "code" ≠ lit "message" := by decide
  obtain ⟨fuel, hfuel⟩ : ∃ fuel, 2 * (setSendJsonInfo e ret).length + 1 = fuel + 4 := by
    refine ⟨2 * (setSendJsonInfo e ret).length - 3, ?_⟩
    rw [setSendJsonInfo_eq, List.length_cons, List.length_cons]
    omega
  rw [← plain_jsonMessage_iff, ReadBack, parse, hspace, hfuel, setSendJsonInfo_eq, value_lbrace (by decide),
    if_neg (by decide), members_code]
  constructor
  · rintro ⟨w, hw, -, hmessage⟩
    obtain ⟨⟨v, rest⟩, hv, hrest⟩ := Option.bind_eq_some_iff.1 hw
    dsimp only at hrest
    split_ifs at hrest
    obtain rfl := Option.some.inj hrest
    obtain ⟨⟨l, r⟩, hl, hr⟩ := Option.map_eq_some_iff.1 hv
    obtain rfl := (Prod.mk.inj hr).1
    obtain ⟨⟨l', r'⟩, hl', hr'⟩ := Option.map_eq_some_iff.1 hl
    obtain rfl := (Prod.mk.inj hr').1
    obtain ⟨x, s, l'', hx, rfl⟩ := exists_of_members (memberName_quote hname _) hl'
    -- the second member is a string that was read
    rw [value_quote] at hx
    obtain ⟨⟨y, s'⟩, hy, hy'⟩ := Option.map_eq_some_iff.1 hx
    obtain rfl := (Prod.mk.inj hy').1
    have hget : y = jsonMessage e ret := by
      simpa [Value.getString, Value.get, hne] using hmessage
    rw [hget] at hy
    exact plain_of_string hy (Or.inl List.not_mem_nil)
  · intro h
    have hvalue : value (fuel + 1) (quote :: (jsonMessage e ret ++ [quote, rbrace])) =
        some (.string (jsonMessage e ret), [rbrace]) := by
      rw [value_quote, string_of_plain h]
      rfl
    rw [messageText, members_last (memberName_quote hname _) hvalue]
    refine ⟨_, rfl, ?_, ?_⟩
    · have hcode := (atoi_intDecimal_iff (by omega) (by omega)).2 ⟨hle, hlt⟩
      simpa [Value.getString, Value.get] using hcode
    · simp [Value.getString, Value.get, hne]

example : ((Json.parse (setSendJsonInfo ⟨2, lit "No such file or directory", by decide⟩ errorFileOpen)).bind fun v =>
    (v.getString (lit "code")).map atoi) = some errorFileOpen := by decide +kernel

end ORaidServer
