import ORaidServer.Lib.CString

/-!
# JSON texts

A parser for JSON texts given as bytes, for the standard syntax: strings are the bytes that they denote, with
`\u` escapes in UTF-8, and bytes from `0x80` on stand for themselves.

* `Value`, `string`, `value`, `elements`, `members` and `parse`;
* `Escape` and `Body`, what a string can look like: `string_spec` and `string_of_plain`;
* `value_quote`, `elements_last` and the like, for texts without white space;
* `Value.minSize` and `minSize_le`: a text is as long as what it denotes.
-/

namespace Json

open ByteMem CString

/-- A value; a number is kept as its text. -/
inductive Value
  | null
  | bool (b : Bool)
  | number (text : List Byte)
  | string (s : List Byte)
  | array (l : List Value)
  | object (l : List (List Byte × Value))

/-- The value of the first member of exactly that name. -/
def Value.get (v : Value) (name : List Byte) : Option Value :=
  match v with
  | .object l => (l.find? fun m => m.1 = name).map Prod.snd
  | _ => none

/-- The string under a name. -/
def Value.getString (v : Value) (name : List Byte) : Option (List Byte) :=
  match v.get name with
  | some (.string s) => some s
  | _ => none

theorem Value.isSome_get_of_getString {v : Value} {name s : List Byte} (h : v.getString name = some s) :
    (v.get name).isSome := by
  rw [Value.getString] at h
  split at h
  · next hget =>
    rw [hget]
    rfl
  · cases h

/-! ### The characters of the syntax -/

/-- `"` -/
def quote : Byte := 34

/-- `\` -/
def backslash : Byte := 92

/-- `,` -/
def comma : Byte := 44

/-- `:` -/
def colon : Byte := 58

/-- `[` -/
def lbracket : Byte := 91

/-- `]` -/
def rbracket : Byte := 93

/-- `{` -/
def lbrace : Byte := 123

/-- `}` -/
def rbrace : Byte := 125

/-- White space. -/
def IsSpace (b : Byte) : Prop := b = 32 ∨ b = 9 ∨ b = 10 ∨ b = 13

instance (b : Byte) : Decidable (IsSpace b) := inferInstanceAs (Decidable (_ ∨ _ ∨ _ ∨ _))

/-- What follows white space. -/
def skipSpace (s : List Byte) : List Byte := s.dropWhile fun b => IsSpace b

/-- A byte that stands for itself in a string. -/
def Plain (b : Byte) : Prop := 32 ≤ b.toNat ∧ b ≠ quote ∧ b ≠ backslash

instance (b : Byte) : Decidable (Plain b) := inferInstanceAs (Decidable (_ ∧ _ ∧ _))

/-- A digit. -/
def IsDigit (b : Byte) : Prop := 48 ≤ b.toNat ∧ b.toNat ≤ 57

instance (b : Byte) : Decidable (IsDigit b) := inferInstanceAs (Decidable (_ ∧ _))

/-! ### Strings -/

/-- What an escape of one letter stands for. -/
def shortEscape (e : Byte) : Option Byte :=
  if e = quote then some quote
  else if e = backslash then some backslash
  else if e = 47 then some 47
  else if e = 98 then some 8
  else if e = 102 then some 12
  else if e = 110 then some 10
  else if e = 114 then some 13
  else if e = 116 then some 9
  else none

/-- The value of a hexadecimal digit. -/
def hexDigit (b : Byte) : Option ℕ :=
  if IsDigit b then some (b.toNat - 48)
  else if 65 ≤ b.toNat ∧ b.toNat ≤ 70 then some (b.toNat - 55)
  else if 97 ≤ b.toNat ∧ b.toNat ≤ 102 then some (b.toNat - 87)
  else none

/-- The value of four hexadecimal digits. -/
def hex4 (a b c d : Byte) : Option ℕ :=
  (hexDigit a).bind fun a => (hexDigit b).bind fun b => (hexDigit c).bind fun c =>
    (hexDigit d).map fun d => ((a * 16 + b) * 16 + c) * 16 + d

/-- A code point in UTF-8. -/
def utf8 (u : ℕ) : List Byte :=
  if u < 0x80 then [BitVec.ofNat 8 u]
  else if u < 0x800 then [BitVec.ofNat 8 (0xC0 + u / 64), BitVec.ofNat 8 (0x80 + u % 64)]
  else if u < 0x10000 then
    [BitVec.ofNat 8 (0xE0 + u / 4096), BitVec.ofNat 8 (0x80 + u / 64 % 64), BitVec.ofNat 8 (0x80 + u % 64)]
  else
    [BitVec.ofNat 8 (0xF0 + u / 262144), BitVec.ofNat 8 (0x80 + u / 4096 % 64),
      BitVec.ofNat 8 (0x80 + u / 64 % 64), BitVec.ofNat 8 (0x80 + u % 64)]

/-- The rest of a string after its first quote: the bytes it denotes, and what follows it. -/
def string : List Byte → Option (List Byte × List Byte)
  | [] => none
  | b :: s =>
    if b = quote then some ([], s)
    else if b = backslash then
      match s with
      | [] => none
      | e :: s =>
        if e = 117 then
          match s with
          | a :: b :: c :: d :: s =>
            (hex4 a b c d).bind fun u =>
              if 0xD800 ≤ u ∧ u < 0xDC00 then
                -- the first half of a code point beyond the basic plane
                match s with
                | e₁ :: e₂ :: a :: b :: c :: d :: s =>
                  if e₁ = backslash ∧ e₂ = 117 then
                    (hex4 a b c d).bind fun l =>
                      if 0xDC00 ≤ l ∧ l < 0xE000 then
                        (string s).map fun (x, rest) =>
                          (utf8 (0x10000 + (u - 0xD800) * 1024 + (l - 0xDC00)) ++ x, rest)
                      else none
                  else none
                | _ => none
              else if 0xDC00 ≤ u ∧ u < 0xE000 then none
              else (string s).map fun (x, rest) => (utf8 u ++ x, rest)
          | _ => none
        else
          (shortEscape e).bind fun c => (string s).map fun (x, rest) => (c :: x, rest)
    else if b.toNat < 32 then none
    else (string s).map fun (x, rest) => (b :: x, rest)

/-! ### What a string looks like -/

/-- An escape sequence, and what it stands for. -/
inductive Escape : List Byte → List Byte → Prop
  | short {e c : Byte} (h : shortEscape e = some c) : Escape [backslash, e] [c]
  | unicode {a b c d : Byte} {u : ℕ} (h : hex4 a b c d = some u) :
      Escape [backslash, 117, a, b, c, d] (utf8 u)
  | pair {a b c d a' b' c' d' : Byte} {u l : ℕ} (h : hex4 a b c d = some u)
      (h' : hex4 a' b' c' d' = some l) :
      Escape [backslash, 117, a, b, c, d, backslash, 117, a', b', c', d']
        (utf8 (0x10000 + (u - 0xD800) * 1024 + (l - 0xDC00)))

/-- The bytes between the quotes of a string, and what they stand for. -/
inductive Body : List Byte → List Byte → Prop
  | nil : Body [] []
  | plain {b : Byte} {body s : List Byte} (hb : Plain b) (h : Body body s) : Body (b :: body) (b :: s)
  | escape {p d body s : List Byte} (hp : Escape p d) (h : Body body s) : Body (p ++ body) (d ++ s)

/-- An escape sequence in front of what is read of a string. -/
theorem exists_body_of_escape {p d t s rest : List Byte} (hp : Escape p d)
    (ih : ∀ {s rest : List Byte}, string t = some (s, rest) → ∃ body, t = body ++ quote :: rest ∧ Body body s)
    (h : (string t).map (fun x => (d ++ x.1, x.2)) = some (s, rest)) :
    ∃ body, p ++ t = body ++ quote :: rest ∧ Body body s := by
  obtain ⟨⟨x, r⟩, hx, hs⟩ := Option.map_eq_some_iff.1 h
  obtain ⟨rfl, rfl⟩ := Prod.mk.inj hs
  obtain ⟨body, ht, hbody⟩ := ih hx
  exact ⟨p ++ body, by rw [ht, List.append_assoc], Body.escape hp hbody⟩

/-- What is read of a string ends with its first quote that is not part of an escape sequence. -/
theorem string_spec {text s rest : List Byte} (h : string text = some (s, rest)) :
    ∃ body, text = body ++ quote :: rest ∧ Body body s := by
  fun_induction string text generalizing s rest with
  | case1 => cases h
  | case2 t =>
    cases h
    exact ⟨[], rfl, Body.nil⟩
  | case3 => cases h
  | case4 a b c d t _ ihpair ih =>
    obtain ⟨u, hu, h⟩ := Option.bind_eq_some_iff.1 h
    split_ifs at h with hhigh hlow
    · split at h
      · next e₁ e₂ a' b' c' d' t =>
        split_ifs at h with he
        obtain ⟨l, hl, h⟩ := Option.bind_eq_some_iff.1 h
        split_ifs at h
        rw [he.1, he.2]
        exact exists_body_of_escape (Escape.pair hu hl) ihpair h
      · cases h
    · exact exists_body_of_escape (Escape.unicode hu) ih h
  | case5 => cases h
  | case6 e t _ _ ih =>
    obtain ⟨c, hc, h⟩ := Option.bind_eq_some_iff.1 h
    exact exists_body_of_escape (Escape.short hc) ih h
  | case7 => cases h
  | case8 b t hquote hbackslash hspace ih =>
    obtain ⟨⟨x, r⟩, hx, hs⟩ := Option.map_eq_some_iff.1 h
    obtain ⟨rfl, rfl⟩ := Prod.mk.inj hs
    obtain ⟨body, rfl, hbody⟩ := ih hx
    exact ⟨b :: body, rfl, Body.plain ⟨not_lt.1 hspace, hquote, hbackslash⟩ hbody⟩

/-- Plain bytes stand for themselves. -/
theorem string_of_plain {s : List Byte} (h : ∀ b ∈ s, Plain b) (rest : List Byte) :
    string (s ++ quote :: rest) = some (s, rest) := by
  induction s with
  | nil => rw [List.nil_append, string.eq_def]; exact if_pos rfl
  | cons b s ih =>
    obtain ⟨hspace, hquote, hbackslash⟩ := h b (List.mem_cons_self ..)
    rw [List.cons_append, string.eq_def]
    dsimp only
    rw [if_neg hquote, if_neg hbackslash, if_neg (not_lt.2 hspace),
      ih fun b hb => h b (List.mem_cons_of_mem _ hb)]
    rfl

theorem length_utf8_le (u : ℕ) : (utf8 u).length ≤ 4 := by
  unfold utf8
  split_ifs <;> simp

/-- No escape sequence is as short as what it stands for. -/
theorem Escape.length_lt {p d : List Byte} (h : Escape p d) : d.length < p.length := by
  cases h with
  | short h => exact Nat.lt_succ_self 1
  | @unicode _ _ _ _ u h => exact lt_of_le_of_lt (length_utf8_le u) (by simp)
  | pair h h' => exact lt_of_le_of_lt (length_utf8_le _) (by simp)

theorem hexDigit_quote : hexDigit quote = none := by decide

/-- The digits of an escape sequence are no quotes. -/
theorem quote_notMem_of_hex4 {a b c d : Byte} {u : ℕ} (h : hex4 a b c d = some u) : quote ∉ [a, b, c, d] := by
  intro hmem
  simp only [hex4, Option.bind_eq_some_iff, Option.map_eq_some_iff] at h
  obtain ⟨_, ha, _, hb, _, hc, _, hd, -⟩ := h
  simp only [List.mem_cons, List.not_mem_nil, or_false] at hmem
  obtain rfl | rfl | rfl | rfl := hmem <;> simp_all [hexDigit_quote]

/-- The only escape sequence with a quote is the one for a quote. -/
theorem Escape.eq_of_quote_mem {p d : List Byte} (h : Escape p d) (hq : quote ∈ p) :
    p = [backslash, quote] ∧ d = [quote] := by
  cases h with
  | @short e c h =>
    obtain rfl : quote = e := by simpa [quote, backslash] using hq
    obtain rfl : quote = c := by simpa [shortEscape] using h
    exact ⟨rfl, rfl⟩
  | unicode h =>
    have := quote_notMem_of_hex4 h
    simp_all [quote, backslash]
  | pair h h' =>
    have := quote_notMem_of_hex4 h
    have := quote_notMem_of_hex4 h'
    simp_all [quote, backslash]

namespace Body

variable {body s : List Byte}

/-- No string is shorter in the text than it is. -/
theorem length_le (h : Body body s) : s.length ≤ body.length := by
  induction h with
  | nil => exact le_rfl
  | plain hb h ih => exact Nat.succ_le_succ ih
  | escape hp h ih =>
    rw [List.length_append, List.length_append]
    exact Nat.add_le_add hp.length_lt.le ih

/-- Where a string is as long as its text there are no escape sequences. -/
theorem plain_of_length_eq (h : Body body s) (hlen : s.length = body.length) :
    body = s ∧ ∀ b ∈ s, Plain b := by
  induction h with
  | nil => exact ⟨rfl, fun b hb => absurd hb List.not_mem_nil⟩
  | @plain b body s hb h ih =>
    obtain ⟨rfl, hs⟩ := ih (Nat.succ.inj hlen)
    refine ⟨rfl, fun c hc => ?_⟩
    obtain rfl | hc := List.mem_cons.1 hc
    · exact hb
    · exact hs c hc
  | escape hp h ih =>
    rw [List.length_append, List.length_append] at hlen
    have := hp.length_lt
    have := h.length_le
    omega

/-- Without a backslash there are no escape sequences. -/
theorem eq_of_notMem (h : Body body s) (hbackslash : backslash ∉ body) : s = body := by
  induction h with
  | nil => rfl
  | plain hb h ih => rw [ih fun hmem => hbackslash (List.mem_cons_of_mem _ hmem)]
  | escape hp h ih =>
    refine absurd (List.mem_append_left _ ?_) hbackslash
    cases hp <;> exact List.mem_cons_self ..

/-- A quote between the quotes of a string belongs to the escape sequence that stands for it. -/
theorem exists_of_quote {u v : List Byte} (h : Body body s) (hbody : body = u ++ quote :: v) :
    ∃ u' x y, u = u' ++ [backslash] ∧ s = x ++ quote :: y ∧ Body u' x ∧ Body v y := by
  induction h generalizing u with
  | nil => simp at hbody
  | @plain b body s hb h ih =>
    cases u with
    | nil => exact absurd (List.cons.inj hbody).1 hb.2.1
    | cons c u =>
      obtain ⟨rfl, htail⟩ := List.cons.inj hbody
      obtain ⟨u', x, y, rfl, rfl, hu, hv⟩ := ih htail
      exact ⟨b :: u', b :: x, y, rfl, rfl, Body.plain hb hu, hv⟩
  | @escape p d body s hp h ih =>
    obtain ⟨t, rfl, htail⟩ | ⟨t, rfl, htail⟩ := List.append_eq_append_iff.1 hbody
    · -- the quote comes after the escape sequence
      obtain ⟨u', x, y, rfl, rfl, hu, hv⟩ := ih htail
      exact ⟨p ++ u', d ++ x, y, by simp, by simp, Body.escape hp hu, hv⟩
    · cases t with
      | nil =>
        obtain ⟨u', x, y, hu', -⟩ := ih (u := []) (by simpa using htail.symm)
        simp at hu'
      | cons c t =>
        obtain ⟨rfl, rfl⟩ := List.cons.inj htail
        obtain ⟨hp', rfl⟩ := hp.eq_of_quote_mem (by simp)
        have hut : u = [backslash] ∧ t = [] := by
          cases u with
          | nil => simp [quote, backslash] at hp'
          | cons e u =>
            cases u with
            | nil => simpa using hp'
            | cons e' u => simp at hp'
        obtain ⟨rfl, rfl⟩ := hut
        exact ⟨[], [], s, rfl, rfl, Body.nil, h⟩

end Body

/-! ### Numbers -/

/-- One digit or more. -/
def digits (s : List Byte) : Option (List Byte × List Byte) :=
  let ds := s.takeWhile fun b => IsDigit b
  if ds = [] then none else some (ds, s.dropWhile fun b => IsDigit b)

/-- The piece that may follow a byte among `bs`, with a sign among `signs` between them. -/
def optional (bs signs : List Byte) (s : List Byte) : Option (List Byte × List Byte) :=
  match s with
  | [] => some ([], [])
  | b :: t =>
    if b ∈ bs then
      match t with
      | [] => none
      | c :: u =>
        if c ∈ signs then (digits u).map fun (ds, rest) => (b :: c :: ds, rest)
        else (digits t).map fun (ds, rest) => (b :: ds, rest)
    else some ([], s)

/-- A number, and what follows it. -/
def number (s : List Byte) : Option (List Byte × List Byte) :=
  let sign := s.take (if s.head? = some 45 then 1 else 0)
  (digits (s.drop sign.length)).bind fun (int, s) =>
    if int.head? = some 48 ∧ int.length ≠ 1 then none
    else
      (optional [46] [] s).bind fun (frac, s) =>
        (optional [69, 101] [43, 45] s).map fun (exp, s) => (sign ++ int ++ frac ++ exp, s)

/-- What follows a word. -/
def word (w s : List Byte) : Option (List Byte) := if w <+: s then some (s.drop w.length) else none

/-! ### Values -/

/-- A string, and what follows it. -/
def stringValue : List Byte → Option (List Byte × List Byte)
  | [] => none
  | b :: s => if b = quote then string s else none

/-- A name with its colon. -/
def memberName (s : List Byte) : Option (List Byte × List Byte) :=
  (stringValue s).bind fun (name, s) =>
    match skipSpace s with
    | [] => none
    | b :: s => if b = colon then some (name, skipSpace s) else none

mutual

/-- A value that begins here, and what follows it; the fuel bounds the values inside. -/
def value : ℕ → List Byte → Option (Value × List Byte)
  | 0, _ => none
  | _ + 1, [] => none
  | fuel + 1, b :: s =>
    if b = quote then (string s).map fun (x, rest) => (.string x, rest)
    else if b = lbracket then
      match skipSpace s with
      | [] => none
      | c :: t =>
        if c = rbracket then some (.array [], t)
        else (elements fuel (c :: t)).map fun (l, rest) => (.array l, rest)
    else if b = lbrace then
      match skipSpace s with
      | [] => none
      | c :: t =>
        if c = rbrace then some (.object [], t)
        else (members fuel (c :: t)).map fun (l, rest) => (.object l, rest)
    else if b = 110 then (word (lit "null") (b :: s)).map fun rest => (.null, rest)
    else if b = 116 then (word (lit "true") (b :: s)).map fun rest => (.bool true, rest)
    else if b = 102 then (word (lit "false") (b :: s)).map fun rest => (.bool false, rest)
    else (number (b :: s)).map fun (text, rest) => (.number text, rest)

/-- The elements of an array, up to its end. -/
def elements : ℕ → List Byte → Option (List Value × List Byte)
  | 0, _ => none
  | fuel + 1, s =>
    (value fuel s).bind fun (v, s) =>
      match skipSpace s with
      | [] => none
      | b :: s =>
        if b = rbracket then some ([v], s)
        else if b = comma then (elements fuel (skipSpace s)).map fun (l, rest) => (v :: l, rest)
        else none

/-- The members of an object, up to its end. -/
def members : ℕ → List Byte → Option (List (List Byte × Value) × List Byte)
  | 0, _ => none
  | fuel + 1, s =>
    (memberName s).bind fun (name, s) =>
      (value fuel s).bind fun (v, s) =>
        match skipSpace s with
        | [] => none
        | b :: s =>
          if b = rbrace then some ([(name, v)], s)
          else if b = comma then
            (members fuel (skipSpace s)).map fun (l, rest) => ((name, v) :: l, rest)
          else none

end

/-- The value of a text; no text has more values inside than bytes. -/
def parse (text : List Byte) : Option Value :=
  (value (2 * text.length + 1) (skipSpace text)).bind fun (v, rest) =>
    if skipSpace rest = [] then some v else none

/-! ### Reading a text without white space -/

theorem skipSpace_cons {b : Byte} (h : ¬ IsSpace b) (s : List Byte) : skipSpace (b :: s) = b :: s :=
  List.dropWhile_cons_of_neg (by simpa using h)

theorem memberName_of_plain {name : List Byte} (h : ∀ b ∈ name, Plain b) (rest : List Byte) :
    memberName (quote :: (name ++ quote :: colon :: rest)) = some (name, skipSpace rest) := by
  have hcolon : ¬ IsSpace colon := by decide
  simp only [memberName, stringValue, if_true, string_of_plain h, Option.bind_some, skipSpace_cons hcolon]

theorem value_quote (fuel : ℕ) (s : List Byte) :
    value (fuel + 1) (quote :: s) = (string s).map fun x => (.string x.1, x.2) := by
  rw [value, if_pos rfl]

theorem value_lbracket {b : Byte} (hspace : ¬ IsSpace b) (fuel : ℕ) (s : List Byte) :
    value (fuel + 1) (lbracket :: b :: s) =
      if b = rbracket then some (.array [], s)
      else (elements fuel (b :: s)).map fun x => (.array x.1, x.2) := by
  rw [value, if_neg (by decide), if_pos rfl, skipSpace_cons hspace]

theorem value_lbrace {b : Byte} (hspace : ¬ IsSpace b) (fuel : ℕ) (s : List Byte) :
    value (fuel + 1) (lbrace :: b :: s) =
      if b = rbrace then some (.object [], s)
      else (members fuel (b :: s)).map fun x => (.object x.1, x.2) := by
  rw [value, if_neg (by decide), if_neg (by decide), if_pos rfl, skipSpace_cons hspace]

/-- The last element of an array. -/
theorem elements_last {fuel : ℕ} {s rest : List Byte} {v : Value}
    (h : value fuel s = some (v, rbracket :: rest)) : elements (fuel + 1) s = some ([v], rest) := by
  have hspace : ¬ IsSpace rbracket := by decide
  simp only [elements, h, Option.bind_some, skipSpace_cons hspace, if_true]

/-- An element of an array before the next. -/
theorem elements_comma {fuel : ℕ} {s rest : List Byte} {v : Value}
    (h : value fuel s = some (v, comma :: rest)) :
    elements (fuel + 1) s = (elements fuel (skipSpace rest)).map fun (l, rest) => (v :: l, rest) := by
  have hspace : ¬ IsSpace comma := by decide
  have hne : comma ≠ rbracket := by decide
  simp only [elements, h, Option.bind_some, skipSpace_cons hspace, if_neg hne, if_true]

/-- The only member of an object. -/
theorem members_last {fuel : ℕ} {name s s' rest : List Byte} {v : Value} (hn : memberName s = some (name, s'))
    (h : value fuel s' = some (v, rbrace :: rest)) : members (fuel + 1) s = some ([(name, v)], rest) := by
  have hspace : ¬ IsSpace rbrace := by decide
  simp only [members, hn, h, Option.bind_some, skipSpace_cons hspace, if_true]

/-- A member of an object before the next. -/
theorem members_comma {fuel : ℕ} {name s s' rest : List Byte} {v : Value} (hn : memberName s = some (name, s'))
    (h : value fuel s' = some (v, comma :: rest)) :
    members (fuel + 1) s = (members fuel (skipSpace rest)).map fun (l, rest) => ((name, v) :: l, rest) := by
  have hspace : ¬ IsSpace comma := by decide
  have hne : comma ≠ rbrace := by decide
  simp only [members, hn, h, Option.bind_some, skipSpace_cons hspace, if_neg hne, if_true]

/-- The first element of an array. -/
theorem value_of_elements {fuel : ℕ} {s rest : List Byte} {v : Value} {l : List Value}
    (h : elements (fuel + 1) s = some (v :: l, rest)) : ∃ s', value fuel s = some (v, s') := by
  rw [elements] at h
  obtain ⟨⟨w, s'⟩, hw, h⟩ := Option.bind_eq_some_iff.1 h
  dsimp only at h
  split at h
  · cases h
  · split_ifs at h
    · cases h
      exact ⟨s', hw⟩
    · obtain ⟨x, -, h⟩ := Option.map_eq_some_iff.1 h
      obtain ⟨⟨rfl, -⟩, -⟩ := Prod.mk.inj h
      exact ⟨s', hw⟩

/-- What is read of the members of an object begins with the first. -/
theorem exists_of_members {fuel : ℕ} {s rest name s' : List Byte} {l : List (List Byte × Value)}
    (hn : memberName s = some (name, s')) (h : members (fuel + 1) s = some (l, rest)) :
    ∃ v s'' l', value fuel s' = some (v, s'') ∧ l = (name, v) :: l' := by
  rw [members, hn, Option.bind_some] at h
  obtain ⟨⟨w, s''⟩, hw, h⟩ := Option.bind_eq_some_iff.1 h
  dsimp only at h
  split at h
  · cases h
  · split_ifs at h
    · cases h
      exact ⟨w, s'', [], hw, rfl⟩
    · obtain ⟨y, -, h⟩ := Option.map_eq_some_iff.1 h
      obtain ⟨rfl, -⟩ := Prod.mk.inj h
      exact ⟨w, s'', y.1, hw, rfl⟩

/-- The first member of an object. -/
theorem value_of_members {fuel : ℕ} {s rest name s' : List Byte} {x : List Byte × Value}
    {l : List (List Byte × Value)} (hn : memberName s = some (name, s'))
    (h : members (fuel + 1) s = some (x :: l, rest)) : ∃ s'', value fuel s' = some (x.2, s'') := by
  obtain ⟨v, s'', l', hv, hl⟩ := exists_of_members hn h
  obtain ⟨rfl, -⟩ := List.cons.inj hl
  exact ⟨s'', hv⟩

/-! ### The size of a text -/

mutual

/-- The fewest bytes that a text of this value has; brackets without anything between them count as one. -/
def Value.minSize : Value → ℕ
  | .null => 1
  | .bool _ => 1
  | .number _ => 1
  | .string s => s.length + 2
  | .array l => elementsSize l + 1
  | .object l => membersSize l + 1

/-- The elements of an array, each with the byte after it. -/
def elementsSize : List Value → ℕ
  | [] => 0
  | v :: l => v.minSize + 1 + elementsSize l

/-- The members of an object, each with its name, the colon and the byte after it. -/
def membersSize : List (List Byte × Value) → ℕ
  | [] => 0
  | (name, v) :: l => name.length + 3 + v.minSize + 1 + membersSize l

end

theorem length_skipSpace_le (s : List Byte) : (skipSpace s).length ≤ s.length :=
  (List.dropWhile_sublist _).length_le

theorem length_of_string {text s rest : List Byte} (h : string text = some (s, rest)) :
    s.length + 1 + rest.length ≤ text.length := by
  obtain ⟨body, rfl, hbody⟩ := string_spec h
  have := hbody.length_le
  simp only [List.length_append, List.length_cons]
  omega

theorem length_of_stringValue {text s rest : List Byte} (h : stringValue text = some (s, rest)) :
    s.length + 2 + rest.length ≤ text.length := by
  cases text with
  | nil => cases h
  | cons b text =>
    rw [stringValue] at h
    split_ifs at h
    have := length_of_string h
    rw [List.length_cons]
    omega

theorem length_of_memberName {text name rest : List Byte} (h : memberName text = some (name, rest)) :
    name.length + 3 + rest.length ≤ text.length := by
  obtain ⟨⟨x, s⟩, hx, h⟩ := Option.bind_eq_some_iff.1 h
  have hs := length_of_stringValue hx
  have hskip := length_skipSpace_le s
  dsimp only at h
  split at h
  · cases h
  · next b t ht =>
    split_ifs at h
    cases h
    have := length_skipSpace_le t
    rw [ht, List.length_cons] at hskip
    omega

theorem length_of_digits {s ds rest : List Byte} (h : digits s = some (ds, rest)) : rest.length < s.length := by
  unfold digits at h
  dsimp only at h
  split_ifs at h with hds
  cases h
  have := List.length_pos_iff.2 hds
  have := congrArg List.length (List.takeWhile_append_dropWhile (p := fun b : Byte => IsDigit b) (l := s))
  rw [List.length_append] at this
  omega

theorem length_of_optional {bs signs s x rest : List Byte} (h : optional bs signs s = some (x, rest)) :
    rest.length ≤ s.length := by
  unfold optional at h
  split at h
  · cases h
    exact le_rfl
  · split_ifs at h
    · split at h
      · cases h
      · split_ifs at h
        all_goals
          obtain ⟨⟨ds, r⟩, hds, hr⟩ := Option.map_eq_some_iff.1 h
          cases hr
          have := length_of_digits hds
          simp only [List.length_cons] at this ⊢
          omega
    · cases h
      exact le_rfl

theorem length_of_number {s text rest : List Byte} (h : number s = some (text, rest)) :
    rest.length < s.length := by
  obtain ⟨⟨int, s₁⟩, hint, h⟩ := Option.bind_eq_some_iff.1 h
  dsimp only at h
  split at h
  · cases h
  obtain ⟨⟨frac, s₂⟩, hfrac, h⟩ := Option.bind_eq_some_iff.1 h
  obtain ⟨⟨exp, s₃⟩, hexp, h⟩ := Option.map_eq_some_iff.1 h
  obtain ⟨rfl, rfl⟩ := Prod.mk.inj h
  calc s₃.length
    _ ≤ s₂.length := length_of_optional hexp
    _ ≤ s₁.length := length_of_optional hfrac
    _ < _ := length_of_digits hint
    _ ≤ s.length := (List.drop_sublist ..).length_le

theorem length_of_word {w s rest : List Byte} (h : word w s = some rest) : w.length + rest.length ≤ s.length := by
  unfold word at h
  split_ifs at h with hw
  cases h
  have := hw.length_le
  rw [List.length_drop]
  omega

section Size

variable {fuel : ℕ} {s rest : List Byte}

/-- The size of a value, given those of the values inside. -/
theorem size_of_value
    (ihe : ∀ s l rest, elements fuel s = some (l, rest) → elementsSize l + rest.length ≤ s.length)
    (ihm : ∀ s l rest, members fuel s = some (l, rest) → membersSize l + rest.length ≤ s.length) {v : Value}
    (h : value (fuel + 1) s = some (v, rest)) : v.minSize + rest.length ≤ s.length := by
  cases s with
  | nil => simp [value] at h
  | cons b s =>
    have hskip := length_skipSpace_le s
    rw [value] at h
    split_ifs at h
    · obtain ⟨⟨x, r⟩, hx, h⟩ := Option.map_eq_some_iff.1 h
      cases h
      have := length_of_string hx
      rw [Value.minSize, List.length_cons]
      omega
    · split at h
      · cases h
      · next c t ht =>
        rw [ht, List.length_cons] at hskip
        split_ifs at h
        · cases h
          rw [Value.minSize, elementsSize, List.length_cons]
          omega
        · obtain ⟨⟨l, r⟩, hl, h⟩ := Option.map_eq_some_iff.1 h
          cases h
          have := ihe _ _ _ hl
          rw [Value.minSize, List.length_cons]
          rw [List.length_cons] at this
          omega
    · split at h
      · cases h
      · next c t ht =>
        rw [ht, List.length_cons] at hskip
        split_ifs at h
        · cases h
          rw [Value.minSize, membersSize, List.length_cons]
          omega
        · obtain ⟨⟨l, r⟩, hl, h⟩ := Option.map_eq_some_iff.1 h
          cases h
          have := ihm _ _ _ hl
          rw [Value.minSize, List.length_cons]
          rw [List.length_cons] at this
          omega
    · obtain ⟨r, hr, h⟩ := Option.map_eq_some_iff.1 h
      obtain ⟨rfl, rfl⟩ := Prod.mk.inj h
      have : 4 + r.length ≤ _ := length_of_word hr
      rw [Value.minSize]
      omega
    · obtain ⟨r, hr, h⟩ := Option.map_eq_some_iff.1 h
      obtain ⟨rfl, rfl⟩ := Prod.mk.inj h
      have : 4 + r.length ≤ _ := length_of_word hr
      rw [Value.minSize]
      omega
    · obtain ⟨r, hr, h⟩ := Option.map_eq_some_iff.1 h
      obtain ⟨rfl, rfl⟩ := Prod.mk.inj h
      have : 5 + r.length ≤ _ := length_of_word hr
      rw [Value.minSize]
      omega
    · obtain ⟨⟨x, r⟩, hx, h⟩ := Option.map_eq_some_iff.1 h
      cases h
      have := length_of_number hx
      rw [Value.minSize]
      omega

theorem size_of_elements
    (ihv : ∀ s v rest, value fuel s = some (v, rest) → v.minSize + rest.length ≤ s.length)
    (ihe : ∀ s l rest, elements fuel s = some (l, rest) → elementsSize l + rest.length ≤ s.length)
    {l : List Value} (h : elements (fuel + 1) s = some (l, rest)) : elementsSize l + rest.length ≤ s.length := by
  rw [elements] at h
  obtain ⟨⟨v, s₁⟩, hv, h⟩ := Option.bind_eq_some_iff.1 h
  have hsize := ihv _ _ _ hv
  have hskip := length_skipSpace_le s₁
  dsimp only at h
  split at h
  · cases h
  · next b t ht =>
    rw [ht, List.length_cons] at hskip
    split_ifs at h
    · cases h
      rw [elementsSize, elementsSize]
      omega
    · obtain ⟨⟨l', r⟩, hl, h⟩ := Option.map_eq_some_iff.1 h
      obtain ⟨rfl, rfl⟩ := Prod.mk.inj h
      have := ihe _ _ _ hl
      have := length_skipSpace_le t
      rw [elementsSize]
      dsimp only
      omega

theorem size_of_members
    (ihv : ∀ s v rest, value fuel s = some (v, rest) → v.minSize + rest.length ≤ s.length)
    (ihm : ∀ s l rest, members fuel s = some (l, rest) → membersSize l + rest.length ≤ s.length)
    {l : List (List Byte × Value)} (h : members (fuel + 1) s = some (l, rest)) :
    membersSize l + rest.length ≤ s.length := by
  rw [members] at h
  obtain ⟨⟨name, s₀⟩, hname, h⟩ := Option.bind_eq_some_iff.1 h
  obtain ⟨⟨v, s₁⟩, hv, h⟩ := Option.bind_eq_some_iff.1 h
  have hnsize := length_of_memberName hname
  have hsize := ihv _ _ _ hv
  have hskip := length_skipSpace_le s₁
  dsimp only at h hsize
  split at h
  · cases h
  · next b t ht =>
    rw [ht, List.length_cons] at hskip
    split_ifs at h
    · cases h
      rw [membersSize, membersSize]
      omega
    · obtain ⟨⟨l', r⟩, hl, h⟩ := Option.map_eq_some_iff.1 h
      obtain ⟨rfl, rfl⟩ := Prod.mk.inj h
      have := ihm _ _ _ hl
      have := length_skipSpace_le t
      rw [membersSize]
      dsimp only
      omega

end Size

/-- What is read takes its size from the text. -/
theorem minSize_read (fuel : ℕ) :
    (∀ s v rest, value fuel s = some (v, rest) → v.minSize + rest.length ≤ s.length) ∧
      (∀ s l rest, elements fuel s = some (l, rest) → elementsSize l + rest.length ≤ s.length) ∧
      ∀ s l rest, members fuel s = some (l, rest) → membersSize l + rest.length ≤ s.length := by
  induction fuel with
  | zero =>
    refine ⟨fun s v rest h => ?_, fun s l rest h => ?_, fun s l rest h => ?_⟩
    · simp [value] at h
    · simp [elements] at h
    · simp [members] at h
  | succ fuel ih =>
    obtain ⟨ihv, ihe, ihm⟩ := ih
    exact ⟨fun s v rest => size_of_value ihe ihm, fun s l rest => size_of_elements ihv ihe,
      fun s l rest => size_of_members ihv ihm⟩

/-- A text is at least as long as its value takes. -/
theorem minSize_le {text : List Byte} {v : Value} (h : parse text = some v) : v.minSize ≤ text.length := by
  obtain ⟨⟨w, rest⟩, hw, h⟩ := Option.bind_eq_some_iff.1 h
  dsimp only at h
  split_ifs at h
  cases h
  have := (minSize_read _).1 _ _ _ hw
  have := length_skipSpace_le text
  omega

/-- The values that an array or an object consists of. -/
def Value.parts : Value → List Value
  | .array l => l
  | .object l => l.map Prod.snd
  | _ => []

theorem sum_minSize_le_elementsSize (l : List Value) : (l.map fun v => v.minSize + 1).sum ≤ elementsSize l := by
  induction l with
  | nil => exact le_rfl
  | cons v l ih =>
    rw [List.map_cons, List.sum_cons, elementsSize]
    exact Nat.add_le_add_left ih _

theorem sum_minSize_le_membersSize (l : List (List Byte × Value)) :
    ((l.map Prod.snd).map fun v => v.minSize + 1).sum ≤ membersSize l := by
  induction l with
  | nil => exact le_rfl
  | cons m l ih =>
    rw [List.map_cons, List.map_cons, List.sum_cons, membersSize]
    omega

/-- A value takes more than its parts with a byte after each. -/
theorem Value.sum_minSize_parts_lt (v : Value) : (v.parts.map fun w => w.minSize + 1).sum < v.minSize := by
  cases v with
  | array l =>
    rw [minSize]
    exact Nat.lt_succ_of_le (sum_minSize_le_elementsSize l)
  | object l =>
    rw [minSize]
    exact Nat.lt_succ_of_le (sum_minSize_le_membersSize l)
  | null => exact Nat.one_pos
  | bool b => exact Nat.one_pos
  | number text => exact Nat.one_pos
  | string s => exact Nat.succ_pos _

/-- The members of an object take their part of it. -/
theorem size_le_membersSize {l : List (List Byte × Value)} {m : List Byte × Value} (hm : m ∈ l) :
    m.1.length + 4 + m.2.minSize ≤ membersSize l := by
  induction l with
  | nil => exact absurd hm List.not_mem_nil
  | cons m' l ih =>
    rw [membersSize]
    obtain rfl | hm := List.mem_cons.1 hm
    · omega
    · have := ih hm
      omega

end Json
