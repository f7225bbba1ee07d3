import ORaidServer.Http.Handler
import ORaidServer.Http.Job

/-!
# The data server and the files

The two messages of `json.cpp` between this server and the data server: `set_send_nonlocal_http_content`,
which asks for files by name, and `get_json_nonlocal_file_attribute_info`, which takes their size from the
answer.

* `parse_setSendNonlocalHttpContent_iff`: the message is read as it is meant exactly if every byte of the
  names is one that stands for itself in JSON;
* `size_taken_iff`: the size is taken over for files of less than two gigabytes.
-/

namespace ORaidServer

open CString

/-! ### Asking for the files -/

/-- The loop of `set_send_nonlocal_http_content`. -/
def appendNames : List (List Byte) → List Byte → Option (List Byte)
  | [], content => some content
  | name :: rest, content =>
    (strcat bufMax content (lit "\x7b\"file_name\": \"")).bind fun content =>
    (strcat bufMax content name).bind fun content =>
    (strcat bufMax content (lit "\"\x7d")).bind fun content =>
    (if rest ≠ [] then strcat bufMax content (lit ",") else some content).bind fun content =>
    appendNames rest content

/-- `set_send_nonlocal_http_content(send_http_content, send_http_ip_port_method, file_name_total)` on two
empty arrays: what they hold afterwards. -/
def setSendNonlocalHttpContent (server : DataServerInfo) (fileNameTotal : List (List Byte)) :
    Option (List Byte × List Byte) := do
  let content ← strcat bufMax [] (lit "\x7b\"nonlocal_file_name\": [")
  let content ← appendNames fileNameTotal content
  let content ← strcat bufMax content (lit "]\x7d")
  let target ← strcpy 1024 server.dataServerIp
  let target ← strcat 1024 target (lit ":")
  let target ← strcat 1024 target server.dataServerPort
  let target ← strcat 1024 target (lit "/")
  let target ← strcat 1024 target server.dataServerMethod
  some (content, target)

/-- The items of the array in the message. -/
def nameItems : List (List Byte) → List Byte
  | [] => []
  | [name] => lit "\x7b\"file_name\": \"" ++ name ++ lit "\"\x7d"
  | name :: name' :: rest =>
    lit "\x7b\"file_name\": \"" ++ name ++ lit "\"\x7d" ++ (lit "," ++ nameItems (name' :: rest))

/-- The element of the array for a name. -/
def nameItem (name : List Byte) : Json.Value := .object [(lit "file_name", .string name)]

/-- What the message is meant to say. -/
def nameList (fileNameTotal : List (List Byte)) : Json.Value :=
  .object [(lit "nonlocal_file_name", .array (fileNameTotal.map nameItem))]

theorem length_eq_of_nameList {names names' : List (List Byte)} (h : nameList names = nameList names') :
    names.length = names'.length := by
  have hmember := (List.cons.inj (Json.Value.object.inj h)).1
  have harray := Json.Value.array.inj (Prod.mk.inj hmember).2
  simpa using congrArg List.length harray

theorem appendNames_eq {names : List (List Byte)} {content content' : List Byte}
    (h : appendNames names content = some content') : content' = content ++ nameItems names := by
  induction names generalizing content with
  | nil =>
    cases h
    exact (List.append_nil _).symm
  | cons name rest ih =>
    simp only [appendNames, Option.bind_eq_some_iff] at h
    obtain ⟨c₁, h₁, c₂, h₂, c₃, h₃, c₄, h₄, h⟩ := h
    obtain rfl := eq_of_strcat h₁
    obtain rfl := eq_of_strcat h₂
    obtain rfl := eq_of_strcat h₃
    rw [ih h]
    cases rest with
    | nil =>
      obtain rfl : content ++ _ ++ _ ++ _ = c₄ := Option.some.inj h₄
      simp [nameItems]
    | cons name' rest =>
      obtain rfl := eq_of_strcat h₄
      simp [nameItems]

theorem setSendNonlocalHttpContent_eq {server : DataServerInfo} {names : List (List Byte)}
    {content target : List Byte} (h : setSendNonlocalHttpContent server names = some (content, target)) :
    content = lit "\x7b\"nonlocal_file_name\": [" ++ nameItems names ++ lit "]\x7d" := by
  simp only [setSendNonlocalHttpContent, Option.bind_eq_bind, Option.bind_eq_some_iff, Option.some.injEq,
    Prod.mk.injEq] at h
  obtain ⟨c₁, h₁, c₂, h₂, c₃, h₃, t₁, -, t₂, -, t₃, -, t₄, -, t₅, -, rfl, -⟩ := h
  obtain rfl := eq_of_strcat h₁
  obtain rfl := appendNames_eq h₂
  exact eq_of_strcat h₃

section Reading

open Json

/-- A name, a colon and a space before a value. -/
theorem memberName_sp {name : List Byte} (hname : ∀ b ∈ name, Plain b) {b : Byte} (hb : ¬ Json.IsSpace b)
    (s : List Byte) : memberName (quote :: (name ++ quote :: colon :: sp :: b :: s)) = some (name, b :: s) := by
  rw [memberName_of_plain hname, skipSpace, List.dropWhile_cons_of_pos (by decide)]
  exact congrArg (fun t => some (name, t)) (skipSpace_cons hb s)

theorem fileName_append (s : List Byte) : lit "\x7b\"file_name\": \"" ++ s =
    lbrace :: quote :: (lit "file_name" ++ quote :: colon :: sp :: quote :: s) := by
  have h : lit "\x7b\"file_name\": \"" = lbrace :: quote :: (lit "file_name" ++ [quote, colon, sp, quote]) := by
    decide
  rw [h]
  simp

/-- An element is read as it is meant if its name is. -/
theorem value_nameItem {name s rest : List Byte} (h : string s = some (name, rbrace :: rest)) (fuel : ℕ) :
    value (fuel + 3) (lit "\x7b\"file_name\": \"" ++ s) = some (nameItem name, rest) := by
  have hvalue : value (fuel + 1) (quote :: s) = some (.string name, rbrace :: rest) := by
    rw [value_quote, h]
    rfl
  rw [fileName_append, value_lbrace (by decide), if_neg (by decide),
    members_last (memberName_sp (by decide) (by decide) s) hvalue]
  rfl

theorem string_of_value_nameItem {name s rest : List Byte} {fuel : ℕ}
    (h : value fuel (lit "\x7b\"file_name\": \"" ++ s) = some (nameItem name, rest)) :
    ∃ n rest', fuel = n + 3 ∧ string s = some (name, rest') := by
  rw [fileName_append] at h
  cases fuel with
  | zero => simp [value] at h
  | succ fuel =>
    rw [value_lbrace (by decide), if_neg (by decide)] at h
    obtain ⟨⟨l, r⟩, hl, h'⟩ := Option.map_eq_some_iff.1 h
    obtain rfl := Value.object.inj (Prod.mk.inj h').1
    cases fuel with
    | zero => simp [members] at hl
    | succ fuel =>
      obtain ⟨r', hr⟩ := value_of_members (memberName_sp (by decide) (by decide) s) hl
      cases fuel with
      | zero => simp [value] at hr
      | succ fuel =>
        rw [value_quote] at hr
        obtain ⟨⟨x, r''⟩, hx, hr'⟩ := Option.map_eq_some_iff.1 hr
        obtain rfl := Value.string.inj (Prod.mk.inj hr').1
        exact ⟨fuel, r'', rfl, hx⟩

/-- No string goes on after `"},{"`. -/
theorem eq_of_body {t s tail rest : List Byte} (h : Body t s)
    (htail : rbrace :: comma :: lbrace :: quote :: tail = t ++ quote :: rest) : t = [rbrace, comma, lbrace] := by
  obtain ⟨a, rfl, ha⟩ | ⟨a, hab, ha⟩ :=
    List.append_eq_append_iff.1 (show [rbrace, comma, lbrace] ++ quote :: tail = t ++ quote :: rest from htail)
  · cases a with
    | nil => rfl
    | cons b a =>
      obtain ⟨rfl, -⟩ := List.cons.inj ha
      obtain ⟨u, x, y, hu, -⟩ := h.exists_of_quote rfl
      have := congrArg List.getLast? hu
      simp [backslash, lbrace] at this
  · cases a with
    | nil => exact (List.append_nil t ▸ hab).symm
    | cons b a =>
      obtain ⟨rfl, -⟩ := List.cons.inj ha
      have : quote ∈ [rbrace, comma, lbrace] := hab ▸ by simp
      exact absurd this (by decide)

/-- A name that is read as it is meant consists of bytes that stand for themselves: the text that follows it
does not let the string go on behind it. -/
theorem plain_of_string {name tail rest : List Byte}
    (h : string (name ++ quote :: rbrace :: tail) = some (name, rest))
    (htail : quote ∉ tail ∨ ∃ t, tail = comma :: lbrace :: quote :: t) : ∀ b ∈ name, Plain b := by
  obtain ⟨body, htext, hbody⟩ := string_spec h
  by_cases hlen : name.length = body.length
  · exact (hbody.plain_of_length_eq hlen).2
  obtain ⟨t, rfl, ht⟩ | ⟨t, rfl, ht⟩ := List.append_eq_append_iff.1 htext
  · cases t with
    | nil => exact absurd (congrArg List.length (List.append_nil name).symm) hlen
    | cons b t =>
      obtain ⟨rfl, ht'⟩ := List.cons.inj ht
      obtain ⟨u, x, y, hu, hx, -, hy⟩ := hbody.exists_of_quote rfl
      obtain hquote | ⟨tail, rfl⟩ := htail
      · have : quote ∈ rbrace :: tail := ht' ▸ List.mem_append_right _ (List.mem_cons_self ..)
        exact absurd ((List.mem_cons.1 this).resolve_left (by decide)) hquote
      · -- the string would end in a brace, the name in the backslash before its quote
        obtain rfl := eq_of_body hy ht'
        obtain rfl := hy.eq_of_notMem (by decide)
        have := congrArg List.getLast? (hu.symm.trans hx)
        simp [backslash, lbrace] at this
  · -- a string is not longer than what it is read from
    have := hbody.length_le
    rw [List.length_append] at this hlen
    omega

theorem skipSpace_nameItems {name : List Byte} {rest : List (List Byte)} (tail : List Byte) :
    skipSpace (nameItems (name :: rest) ++ tail) = nameItems (name :: rest) ++ tail := by
  cases rest <;> exact skipSpace_cons (by decide) _

theorem nameItems_cons_cons (name name' : List Byte) (rest : List (List Byte)) (tail : List Byte) :
    nameItems (name :: name' :: rest) ++ tail =
      lit "\x7b\"file_name\": \"" ++ (name ++ quote :: rbrace :: comma :: (nameItems (name' :: rest) ++ tail)) := by
  rw [nameItems]
  simp only [List.append_assoc]
  rfl

theorem nameItems_singleton (name tail : List Byte) :
    nameItems [name] ++ tail = lit "\x7b\"file_name\": \"" ++ (name ++ quote :: rbrace :: tail) := by
  rw [nameItems]
  simp only [List.append_assoc]
  rfl

/-- Names of bytes that stand for themselves are read as they are meant. -/
theorem elements_nameItems {names : List (List Byte)} (hne : names ≠ [])
    (h : ∀ name ∈ names, ∀ b ∈ name, Plain b) (rest : List Byte) (fuel : ℕ) :
    elements (fuel + names.length + 3) (nameItems names ++ rbracket :: rest) =
      some (names.map nameItem, rest) := by
  induction names with
  | nil => exact absurd rfl hne
  | cons name names ih =>
    have hname := string_of_plain (h name (List.mem_cons_self ..))
    cases names with
    | nil =>
      rw [nameItems_singleton, List.length_singleton, Nat.add_right_comm,
          elements_last (value_nameItem (hname _) fuel)]
      rfl
    | cons name' names =>
      have hitem := value_nameItem (hname (rbrace :: comma :: (nameItems (name' :: names) ++ rbracket :: rest)))
        (fuel + (name' :: names).length)
      have hrest := ih (List.cons_ne_nil _ _) fun n hn => h n (List.mem_cons_of_mem _ hn)
      rw [nameItems_cons_cons, List.length_cons, ← Nat.add_assoc, Nat.add_right_comm _ 1 3,
        elements_comma hitem, skipSpace_nameItems, hrest]
      rfl

theorem exists_nameItems (name : List Byte) (rest : List (List Byte)) (tail : List Byte) :
    ∃ t, nameItems (name :: rest) ++ tail = lbrace :: quote :: t := by
  cases rest <;> exact ⟨_, rfl⟩

/-- If the names are read as they are meant, their bytes stand for themselves. -/
theorem plain_of_elements {names : List (List Byte)} {tail rest : List Byte} {fuel : ℕ} (htail : quote ∉ tail)
    (h : elements fuel (nameItems names ++ tail) = some (names.map nameItem, rest)) :
    ∀ name ∈ names, ∀ b ∈ name, Plain b := by
  induction names generalizing fuel with
  | nil => exact fun name hname => absurd hname List.not_mem_nil
  | cons name names ih =>
    cases fuel with
    | zero => simp [elements] at h
    | succ fuel =>
      obtain ⟨s', hv⟩ := value_of_elements h
      cases names with
      | nil =>
        rw [nameItems_singleton] at hv
        obtain ⟨n, r, -, hr⟩ := string_of_value_nameItem hv
        exact List.forall_mem_singleton.2 (plain_of_string hr (Or.inl htail))
      | cons name' names =>
        rw [nameItems_cons_cons] at hv h
        obtain ⟨n, r, rfl, hr⟩ := string_of_value_nameItem hv
        obtain ⟨t, ht⟩ := exists_nameItems name' names tail
        have hplain := plain_of_string hr (Or.inr ⟨t, congrArg _ ht⟩)
        rw [elements_comma (value_nameItem (string_of_plain hplain _) n), skipSpace_nameItems] at h
        obtain ⟨⟨l, r'⟩, hl, hr'⟩ := Option.map_eq_some_iff.1 h
        obtain ⟨hcons, rfl⟩ := Prod.mk.inj hr'
        obtain ⟨-, rfl⟩ := List.cons.inj hcons
        exact List.forall_mem_cons.2 ⟨hplain, ih hl⟩

theorem length_le_nameItems (names : List (List Byte)) : names.length ≤ (nameItems names).length := by
  induction names with
  | nil => exact le_rfl
  | cons name names ih =>
    cases names with
    | nil => simp [nameItems, lit]
    | cons name' names =>
      simp only [nameItems, List.length_append, List.length_cons] at ih ⊢
      have : (lit ",").length = 1 := rfl
      omega

/-- The array of the message is read as it is meant if the bytes of the names stand for themselves. -/
theorem value_nameItems {names : List (List Byte)} (h : ∀ name ∈ names, ∀ b ∈ name, Plain b)
    (rest : List Byte) (fuel : ℕ) :
    value (fuel + names.length + 4) (lbracket :: (nameItems names ++ rbracket :: rest)) =
      some (.array (names.map nameItem), rest) := by
  cases names with
  | nil =>
    show value (fuel + 0 + 4) (lbracket :: rbracket :: rest) = _
    rw [value_lbracket (by decide)]
    rfl
  | cons name names =>
    obtain ⟨t, ht⟩ := exists_nameItems name names (rbracket :: rest)
    have hitems := elements_nameItems (List.cons_ne_nil name names) h rest fuel
    rw [ht] at hitems ⊢
    rw [value_lbracket (by decide), if_neg (by decide), hitems]
    rfl

theorem plain_of_value {names : List (List Byte)} {rest rest' : List Byte} {fuel : ℕ} (hrest : quote ∉ rest)
    (h : value fuel (lbracket :: (nameItems names ++ rbracket :: rest)) =
      some (.array (names.map nameItem), rest')) : ∀ name ∈ names, ∀ b ∈ name, Plain b := by
  cases names with
  | nil => exact fun name hname => absurd hname List.not_mem_nil
  | cons name names =>
    cases fuel with
    | zero => simp [value] at h
    | succ fuel =>
      obtain ⟨t, ht⟩ := exists_nameItems name names (rbracket :: rest)
      rw [ht, value_lbracket (by decide), if_neg (by decide), ← ht] at h
      obtain ⟨⟨l, r⟩, hl, hr⟩ := Option.map_eq_some_iff.1 h
      obtain rfl := Value.array.inj (Prod.mk.inj hr).1
      have htail : quote ∉ rbracket :: rest := fun hmem =>
        hrest ((List.mem_cons.1 hmem).resolve_left (by decide))
      exact plain_of_elements htail hl

/-- The text of the message. -/
def nameText (names : List (List Byte)) : List Byte :=
  lbrace :: quote :: (lit "nonlocal_file_name" ++ quote :: colon :: sp :: lbracket ::
    (nameItems names ++ [rbracket, rbrace]))

/-- The message is read as it is meant exactly if the bytes of the names stand for themselves in JSON. -/
theorem parse_nameText_iff (names : List (List Byte)) :
    parse (nameText names) = some (nameList names) ↔ ∀ name ∈ names, ∀ b ∈ name, Plain b := by
  have hspace : skipSpace (nameText names) = nameText names := skipSpace_cons (by decide) _
  have hname : ∀ b ∈ lit "nonlocal_file_name", Plain b := by decide
  constructor
  · intro h
    obtain ⟨⟨v, rest⟩, hv, hrest⟩ := Option.bind_eq_some_iff.1 h
    dsimp only at hrest
    split_ifs at hrest
    obtain rfl := Option.some.inj hrest
    rw [hspace, nameText, value_lbrace (by decide), if_neg (by decide)] at hv
    obtain ⟨⟨l, r⟩, hl, hr⟩ := Option.map_eq_some_iff.1 hv
    obtain rfl := Value.object.inj (Prod.mk.inj hr).1
    obtain ⟨r', hr'⟩ := value_of_members (memberName_sp hname (by decide) _) hl
    exact plain_of_value (by decide) hr'
  · intro h
    obtain ⟨fuel, hfuel⟩ : ∃ fuel, 2 * (nameText names).length + 1 = fuel + names.length + 6 := by
      have := length_le_nameItems names
      refine ⟨2 * (nameText names).length + 1 - names.length - 6, ?_⟩
      simp only [nameText, List.length_cons, List.length_append]
      omega
    have hmember := members_last (memberName_sp hname (by decide) _) (value_nameItems h [rbrace] fuel)
    rw [parse, hspace, hfuel, nameText, value_lbrace (by decide), if_neg (by decide), hmember]
    rfl

end Reading

/-- The message that `set_send_nonlocal_http_content` builds is read as it is meant exactly if the bytes of the
names stand for themselves in JSON. -/
theorem parse_setSendNonlocalHttpContent_iff {server : DataServerInfo} {names : List (List Byte)}
    {content target : List Byte} (h : setSendNonlocalHttpContent server names = some (content, target)) :
    Json.parse content = some (nameList names) ↔ ∀ name ∈ names, ∀ b ∈ name, Json.Plain b := by
  have htext : content = nameText names := by
    rw [setSendNonlocalHttpContent_eq h, nameText, List.append_assoc]
    rfl
  rw [htext]
  exact parse_nameText_iff names

theorem parse_setSendNonlocalHttpContent_iff_two :
    setSendNonlocalHttpContent ⟨lit "10.0.0.7", lit "8080", lit "file"⟩ [lit "a", lit "b"] =
        some (nameText [lit "a", lit "b"], lit "10.0.0.7:8080/file") ∧
      (Json.parse (nameText [lit "a", lit "b"]) = some (nameList [lit "a", lit "b"]) ↔
        ∀ name ∈ [lit "a", lit "b"], ∀ b ∈ name, Json.Plain b) :=
  have h : setSendNonlocalHttpContent ⟨lit "10.0.0.7", lit "8080", lit "file"⟩ [lit "a", lit "b"] =
      some (nameText [lit "a", lit "b"], lit "10.0.0.7:8080/file") := by decide +kernel
  ⟨h, parse_setSendNonlocalHttpContent_iff h⟩

/-- A job with two files, the first with a name that ends its own string and begins another. -/
def splitNameJob : List Byte :=
  lit "\x7b\"data_server_ip\":\"10.0.0.7\",\"data_server_port\":\"8080\",\"data_server_method\":\"file\"," ++
    lit "\"output_file_name\":\"o\",\"file_name_total\":[" ++
    lit "\x7b\"file_path\":\"a\\\"\x7d,\x7b\\\"file_name\\\": \\\"b\"\x7d,\x7b\"file_path\":\"c\"\x7d]\x7d"

/-- That name. -/
def splitName : List Byte := lit "a\"\x7d,\x7b\"file_name\": \"b"

/-- The job is accepted, and the message for its two files asks for three. -/
theorem not_parse_setSendNonlocalHttpContent :
    (Json.parse splitNameJob).map (fun v => getJsonNeedXorFileInfo (some (.ofJson v)) ⟨[], [], []⟩) =
        some (some ⟨right, ⟨lit "10.0.0.7", lit "8080", lit "file"⟩, ⟨[splitName, lit "c"], lit "o"⟩⟩) ∧
      setSendNonlocalHttpContent ⟨lit "10.0.0.7", lit "8080", lit "file"⟩ [splitName, lit "c"] =
        some (nameText [lit "a", lit "b", lit "c"], lit "10.0.0.7:8080/file") ∧
      Json.parse (nameText [lit "a", lit "b", lit "c"]) ≠ some (nameList [splitName, lit "c"]) := by
  refine ⟨by decide +kernel, by decide +kernel, ?_⟩
  rw [(parse_nameText_iff _).2 (by decide)]
  intro h
  exact absurd (length_eq_of_nameList (Option.some.inj h)) (by decide)

/-! ### The size of the files -/

/-- `get_json_nonlocal_file_attribute_info(info, file_size)` on the parsed text: the result and `file_size`
afterwards. -/
def getJsonNonlocalFileAttributeInfo (json : Option CJson) (fileSize : ℤ) : Option (ℤ × ℤ) :=
  match json with
  | none => some (errorFileName, fileSize)
  | some json =>
    (match cJSON_GetObjectItem json (lit "file_total_size") with
      | none => some fileSize
      | some item => item.valuestring.map atoi).map fun fileSize =>
        if (cJSON_GetObjectItem json (lit "error_file_name")).isSome then (errorFileName, fileSize)
        else if (cJSON_GetObjectItem json (lit "error_file_size")).isSome then (errorFileSize, fileSize)
        else (right, fileSize)

/-- The answer names no error, in any spelling. -/
def NoError (json : CJson) : Prop :=
  cJSON_GetObjectItem json (lit "error_file_name") = none ∧
    cJSON_GetObjectItem json (lit "error_file_size") = none

theorem leadingNumber_decimal (n : ℕ) : leadingNumber (decimal n) = n := by
  have hdigit : ∀ b ∈ decimal n, (decide (48 ≤ b.toNat ∧ b.toNat ≤ 57)) = true := fun b hb =>
    decide_eq_true (by_contra fun h => notMem_decimal h n hb)
  have hval : ∀ b : Byte, (Char.ofNat b.toNat).toNat = b.toNat := by decide +kernel
  rw [leadingNumber, List.takeWhile_eq_self_iff.2 hdigit]
  have h := Nat.ofDigitChars_ten_toDigits (n := n)
  rw [← map_decimal, Nat.ofDigitChars_eq_foldl, List.foldl_map] at h
  simp only [hval] at h
  exact h

theorem decimal_ne_nil (n : ℕ) : decimal n ≠ [] := fun h =>
  Nat.toDigits_ne_nil (List.map_eq_nil_iff.1 h)

theorem strtol_decimal {n : ℕ} (h : n < 2 ^ 63) : strtol (decimal n) = n := by
  have hminus : (45 : Byte) ∉ decimal n := notMem_decimal (by decide) n
  have hplus : (43 : Byte) ∉ decimal n := notMem_decimal (by decide) n
  have hdigits := leadingNumber_decimal n
  have hhead : ¬ IsSpace ((decimal n).head (decimal_ne_nil n)) := fun hspace =>
    notMem_decimal (by rcases hspace with h | h <;> simp_all [sp]; omega) n (List.head_mem (decimal_ne_nil n))
  cases hd : decimal n with
  | nil => exact absurd hd (decimal_ne_nil n)
  | cons b t =>
    simp only [hd, List.head_cons, List.mem_cons, not_or] at hminus hplus hhead hdigits
    rw [strtol, List.dropWhile_cons_of_neg (by simpa using hhead)]
    dsimp only
    rw [if_neg (Ne.symm hminus.1), if_neg (Ne.symm hplus.1), hdigits]
    omega

theorem atoi_decimal_eq_iff {n : ℕ} (h : n < 2 ^ 63) : atoi (decimal n) = n ↔ n < 2 ^ 31 := by
  rw [atoi, strtol_decimal h, Int.bmod_def]
  split_ifs <;> omega

/-- The result says that all is well exactly for an answer without errors, with the size as `atoi` takes it. -/
theorem getJsonNonlocalFileAttributeInfo_eq_right_iff (json : CJson) (fileSize size : ℤ) :
    getJsonNonlocalFileAttributeInfo (some json) fileSize = some (right, size) ↔
      NoError json ∧
        (cJSON_GetObjectItem json (lit "file_total_size") = none ∧ size = fileSize ∨
          ∃ s, cJSON_GetObjectItem json (lit "file_total_size") = some (.string s) ∧ size = atoi s) := by
  have hname : errorFileName ≠ right := by decide
  have hsize : errorFileSize ≠ right := by decide
  unfold getJsonNonlocalFileAttributeInfo NoError
  dsimp only
  rw [Option.map_eq_some_iff]
  cases cJSON_GetObjectItem json (lit "error_file_name") with
  | some item => simp [hname]
  | none =>
    cases cJSON_GetObjectItem json (lit "error_file_size") with
    | some item => simp [hsize]
    | none =>
      cases cJSON_GetObjectItem json (lit "file_total_size") with
      | none => simp [eq_comm]
      | some item => cases item <;> simp [CJson.valuestring, eq_comm]

/-- What an answer is to say: the size of the files, and no error. -/
structure Answer (v : Json.Value) (n : ℕ) : Prop where
  lt : n < 2 ^ 63
  size : v.getString (lit "file_total_size") = some (decimal n)
  noName : v.get (lit "error_file_name") = none
  noSize : v.get (lit "error_file_size") = none

/-- Such an answer has something for the size. -/
theorem Answer.isSome {v : Json.Value} {n : ℕ} (h : Answer v n) :
    (cJSON_GetObjectItem (.ofJson v) (lit "file_total_size")).isSome := by
  obtain ⟨w, hw⟩ := Option.isSome_iff_exists.1 (Json.Value.isSome_get_of_getString h.size)
  exact isSome_getObjectItem (by decide) hw

/-- The size is taken over exactly if no error is found in another spelling and what is found for the size is
that text, of a number below `2 ^ 31`, or else another text that `atoi` takes for the same number.  Without a
text for the size the result is an error exactly if an error is found in some spelling, or what is found for
the size in another spelling is no text, so that there is no result. -/
theorem size_taken_iff (fileSize : ℤ) :
    (∀ v n, Answer v n →
      (getJsonNonlocalFileAttributeInfo (some (.ofJson v)) fileSize = some (right, (n : ℤ)) ↔
        NoError (.ofJson v) ∧ ∃ s, cJSON_GetObjectItem (.ofJson v) (lit "file_total_size") = some (.string s) ∧
          (s = decimal n ∧ n < 2 ^ 31 ∨ s ≠ decimal n ∧ atoi s = n))) ∧
      ∀ tree : Option Json.Value,
        ((∀ v, tree = some v → v.getString (lit "file_total_size") = none) →
          ∀ size, getJsonNonlocalFileAttributeInfo (tree.map .ofJson) fileSize ≠ some (right, size)) ↔
        ∀ v, tree = some v → v.getString (lit "file_total_size") = none → NoError (.ofJson v) →
          ∃ item, cJSON_GetObjectItem (.ofJson v) (lit "file_total_size") = some item ∧
            item.valuestring = none := by
  constructor
  · intro v n h
    have hsome := h.isSome
    rw [getJsonNonlocalFileAttributeInfo_eq_right_iff]
    refine and_congr_right fun _ => ⟨?_, ?_⟩
    · rintro (⟨hnone, -⟩ | ⟨s, hs, hn⟩)
      · rw [hnone] at hsome
        cases hsome
      · refine ⟨s, hs, ?_⟩
        by_cases hd : s = decimal n
        · subst hd
          exact Or.inl ⟨rfl, (atoi_decimal_eq_iff h.lt).1 hn.symm⟩
        · exact Or.inr ⟨hd, hn.symm⟩
    · rintro ⟨s, hs, ⟨rfl, hn⟩ | ⟨-, hn⟩⟩
      · exact Or.inr ⟨_, hs, ((atoi_decimal_eq_iff h.lt).2 hn).symm⟩
      · exact Or.inr ⟨s, hs, hn.symm⟩
  · intro tree
    cases tree with
    | none =>
      refine ⟨fun _ v hv => absurd hv.symm (Option.some_ne_none v), fun _ _ size h => ?_⟩
      have : errorFileName ≠ right := by decide
      exact this (Prod.mk.inj (Option.some.inj h)).1
    | some v =>
      simp only [Option.some.injEq, forall_eq', Option.map_some]
      refine forall_congr' fun _ => ?_
      simp only [ne_eq, getJsonNonlocalFileAttributeInfo_eq_right_iff, not_and, not_or]
      cases cJSON_GetObjectItem (.ofJson v) (lit "file_total_size") with
      | none => simp
      | some item => cases item <;> simp [CJson.valuestring]

/-- The answer with that text for the size. -/
def sizeAnswer (text : List Byte) : Json.Value := .object [(lit "file_total_size", .string text)]

theorem size_taken_iff_five :
    getJsonNonlocalFileAttributeInfo (some (.ofJson (sizeAnswer (lit "5")))) 0 = some (right, ((5 : ℕ) : ℤ)) ↔
      NoError (.ofJson (sizeAnswer (lit "5"))) ∧
        ∃ s, cJSON_GetObjectItem (.ofJson (sizeAnswer (lit "5"))) (lit "file_total_size") = some (.string s) ∧
          (s = decimal 5 ∧ 5 < 2 ^ 31 ∨ s ≠ decimal 5 ∧ atoi s = (5 : ℕ)) :=
  (size_taken_iff 0).1 (sizeAnswer (lit "5")) 5 ⟨by norm_num, by decide +kernel, rfl, rfl⟩

/-- Three gigabytes are taken for a negative size, and an answer without anything is right. -/
theorem not_size_taken :
    Answer (sizeAnswer (lit "3000000000")) 3000000000 ∧
      getJsonNonlocalFileAttributeInfo (some (.ofJson (sizeAnswer (lit "3000000000")))) 0 =
        some (right, -1294967296) ∧
      (Json.Value.object []).getString (lit "file_total_size") = none ∧
      getJsonNonlocalFileAttributeInfo (some (.ofJson (.object []))) 0 = some (right, 0) :=
  ⟨⟨by norm_num, by decide +kernel, rfl, rfl⟩, by decide +kernel, rfl, by decide +kernel⟩

end ORaidServer
