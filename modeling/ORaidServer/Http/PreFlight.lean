import ORaidServer.Http.Nonlocal

/-!
# Asking the data server

`send_file_name_main` of `send_feedback_info.cpp`, which posts the names of the files until it is answered, and
the reading of the answer that follows it in `buffered_on_read`.  The replies to the posts and the parser of the
answers are given.

* `retryPost`, the loop on the attempts, and `retryPost_eq`, the reply that it stops at;
* `preFlight`, the two functions together;
* `decidedByReply_iff`: the result is the one that the first reply with code 200 asks for, unless this is the
  reply to the last post, or the reader stumbles over it.
-/

namespace ORaidServer

open CString

/-- `RestClient::Response` -/
structure Response where
  code : ℤ
  body : List Byte
  deriving DecidableEq, Repr

/-- `body.c_str()` -/
def Response.cStr (r : Response) : List Byte := r.body.takeWhile (· ≠ 0)

/-- The loop of `send_file_name_main` with `n` iterations to go, `r` being the reply to the last of so many
`posts`: the reply that it breaks off with, or none where the function returns from it, and the number of
posts. -/
def retryPost (replies : ℕ → Response) : ℕ → ℕ → Response → Option Response × ℕ
  | 0, posts, r => (some r, posts)
  | n + 1, posts, r =>
    if r.code ≠ 200 then
      -- `k == 2`: the reply to the post just made is not looked at
      if n = 0 then (none, posts + 1) else retryPost replies n (posts + 1) (replies posts)
    else (some r, posts)

/-- What `send_file_name_main` leaves: its result, the array of the caller, how many posts it has made, and of
what and where to. -/
structure SentFileNames where
  ret : ℤ
  fileAttribyte : List Byte
  posts : ℕ
  content : List Byte
  target : List Byte
  deriving DecidableEq, Repr

/-- `send_file_name_main(a_set_of_files, file_attribyte)`, the array of the caller being empty. -/
def sendFileNameMain (server : DataServerInfo) (aSetOfFiles : List (List Byte)) (replies : ℕ → Response) :
    Option SentFileNames :=
  (setSendNonlocalHttpContent server aSetOfFiles).bind fun (content, target) =>
    match retryPost replies 3 1 (replies 0) with
    | (none, posts) => some ⟨errorSendFileNameClient, [], posts, content, target⟩
    | (some r, posts) => (strcpy bufMax r.cStr).map fun s => ⟨right, s, posts, content, target⟩

/-- What `buffered_on_read` knows before it asks for the files themselves. -/
structure PreFlight where
  ret : ℤ
  fileSize : ℤ
  posts : ℕ
  deriving DecidableEq, Repr

/-- `send_file_name_main` and then, on success, `get_json_nonlocal_file_attribute_info`. -/
def preFlight (cJSONParse : List Byte → Option Json.Value) (server : DataServerInfo)
    (aSetOfFiles : List (List Byte)) (replies : ℕ → Response) : Option PreFlight :=
  (sendFileNameMain server aSetOfFiles replies).bind fun sent =>
    if sent.ret = right then
      (getJsonNonlocalFileAttributeInfo ((cJSONParse sent.fileAttribyte).map .ofJson) 0).map
        fun (ret, fileSize) => ⟨ret, fileSize, sent.posts⟩
    else some ⟨sent.ret, 0, sent.posts⟩

/-! ### What the replies ask for -/

/-- The first of `n` replies with code 200. -/
def firstOk (replies : ℕ → Response) (n : ℕ) : Option ℕ :=
  (List.range n).find? fun k => (replies k).code = 200

/-- The answer has one of the two error keys. -/
def NamesError (v : Json.Value) : Prop :=
  (v.get (lit "error_file_name")).isSome ∨ (v.get (lit "error_file_size")).isSome

instance : DecidablePred NamesError := fun _ => inferInstanceAs (Decidable (_ ∨ _))

/-- The body is malformed, or has one of the error keys. -/
def Refuses (cJSONParse : List Byte → Option Json.Value) (r : Response) : Prop :=
  ∀ v, cJSONParse r.cStr = some v → NamesError v

section Decided

variable (cJSONParse : List Byte → Option Json.Value) (server : DataServerInfo)
  (aSetOfFiles : List (List Byte)) (replies : ℕ → Response)

/-- An error is reported exactly if none of the posts made was answered with code 200 or the first such answer
is a refusal, and otherwise the size used is the one that this answer carries. -/
def DecidedByReply : Prop :=
  ∃ p, preFlight cJSONParse server aSetOfFiles replies = some p ∧
    (p.ret ≠ right ↔ ∀ k, firstOk replies p.posts = some k → Refuses cJSONParse (replies k)) ∧
    (p.ret = right → ∃ k v s, firstOk replies p.posts = some k ∧
      cJSONParse (replies k).cStr = some v ∧ v.getString (lit "file_total_size") = some s ∧
      p.fileSize = signedNumber s)

/-- What is found in the answer for the size, in any spelling of the key: a string if there is an error key,
and else, with no error found in another spelling, the size of the answer as an `int`. -/
def ReadAsMeant (v : Json.Value) : Prop :=
  if NamesError v then
    ∀ item, cJSON_GetObjectItem (.ofJson v) (lit "file_total_size") = some item → item.valuestring.isSome
  else
    NoError (.ofJson v) ∧ ∀ s, v.getString (lit "file_total_size") = some s →
      ∃ t, cJSON_GetObjectItem (.ofJson v) (lit "file_total_size") = some (.string t) ∧
        (t = s.takeWhile (· ≠ 0) ∧ -2 ^ 31 ≤ signedNumber s ∧ signedNumber s < 2 ^ 31 ∨
          t ≠ s.takeWhile (· ≠ 0) ∧ atoi t = signedNumber s)

/-- The message to be posted fits its arrays; one of the first three replies has code 200 and the first such
answer is read as it is meant, or none has and the fourth has not either or is a refusal. -/
structure Examined : Prop where
  message : (setSendNonlocalHttpContent server aSetOfFiles).isSome
  first : ∀ k, firstOk replies 3 = some k → ∀ v, cJSONParse (replies k).cStr = some v → ReadAsMeant v
  last : firstOk replies 3 = none → (replies 3).code = 200 → Refuses cJSONParse (replies 3)

end Decided

/-! ### The loop -/

section Loop

variable (replies : ℕ → Response)

/-- With `n + 1` iterations to go the loop stops at the first of the next `n + 1` replies with code 200, and
otherwise after one post more. -/
theorem retryPost_eq (n i : ℕ) : retryPost replies (n + 1) (i + 1) (replies i) =
    match (List.range' i (n + 1)).find? fun k => (replies k).code = 200 with
    | some k => (some (replies k), k + 1)
    | none => (none, i + n + 2) := by
  induction n generalizing i with
  | zero =>
    rw [retryPost, List.range'_succ, List.range'_zero, List.find?_singleton]
    by_cases hi : (replies i).code = 200 <;> simp [hi]
  | succ n ih =>
    rw [retryPost, List.range'_succ, List.find?_cons]
    by_cases hi : (replies i).code = 200
    · simp [hi]
    · rw [if_pos hi, if_neg (Nat.succ_ne_zero n), ih, decide_eq_false hi]
      have hcount : i + 1 + n + 2 = i + (n + 1) + 2 := by omega
      rw [hcount]

variable {replies}

/-- The loop of the source. -/
theorem retryPost_three : retryPost replies 3 1 (replies 0) =
    match firstOk replies 3 with
    | some k => (some (replies k), k + 1)
    | none => (none, 4) := by
  have h := retryPost_eq replies 2 0
  rwa [← List.range_eq_range'] at h

/-- The reply that the loop stops at is the first with code 200 among all that there were. -/
theorem firstOk_posts {n k : ℕ} (h : firstOk replies n = some k) : firstOk replies (k + 1) = some k := by
  unfold firstOk at h ⊢
  rw [List.find?_range_eq_some] at h ⊢
  exact ⟨h.1, List.mem_range.2 k.lt_succ_self, h.2.2⟩

theorem firstOk_succ {n : ℕ} (h : firstOk replies n = none) :
    firstOk replies (n + 1) = if (replies n).code = 200 then some n else none := by
  unfold firstOk at h ⊢
  rw [List.range_succ, List.find?_append, h, Option.none_or, List.find?_singleton]
  split_ifs <;> simp_all

end Loop

/-! ### The reading of the answer -/

section Answer

variable {v : Json.Value} {s : List Byte}

/-- There is a result unless what is found for the size is no string. -/
theorem isSome_getJsonNonlocalFileAttributeInfo_iff (json : CJson) (fileSize : ℤ) :
    (getJsonNonlocalFileAttributeInfo (some json) fileSize).isSome ↔
      ∀ item, cJSON_GetObjectItem json (lit "file_total_size") = some item → item.valuestring.isSome := by
  unfold getJsonNonlocalFileAttributeInfo
  dsimp only
  rw [Option.isSome_map]
  cases cJSON_GetObjectItem json (lit "file_total_size") with
  | none => simp
  | some item => simp

/-- An error key is found as it stands. -/
theorem NamesError.not_noError (h : NamesError v) : ¬ NoError (.ofJson v) := by
  rintro ⟨hname, hsize⟩
  rcases h with h | h
  · obtain ⟨w, hw⟩ := Option.isSome_iff_exists.1 h
    have hfound := isSome_getObjectItem (by decide) hw
    rw [hname] at hfound
    cases hfound
  · obtain ⟨w, hw⟩ := Option.isSome_iff_exists.1 h
    have hfound := isSome_getObjectItem (by decide) hw
    rw [hsize] at hfound
    cases hfound

/-- An answer with an error key is not taken for right. -/
theorem NamesError.ret_ne (h : NamesError v) {fileSize ret size : ℤ}
    (hret : getJsonNonlocalFileAttributeInfo (some (.ofJson v)) fileSize = some (ret, size)) : ret ≠ right := by
  rintro rfl
  exact h.not_noError ((getJsonNonlocalFileAttributeInfo_eq_right_iff _ _ _).1 hret).1

/-- The size of the answer is taken over exactly if the answer is read as it is meant. -/
theorem readAsMeant_iff (herror : ¬ NamesError v) (hs : v.getString (lit "file_total_size") = some s) :
    getJsonNonlocalFileAttributeInfo (some (.ofJson v)) 0 = some (right, signedNumber s) ↔ ReadAsMeant v := by
  obtain ⟨w, hw⟩ := Option.isSome_iff_exists.1 (Json.Value.isSome_get_of_getString hs)
  have hfound := isSome_getObjectItem (by decide) hw
  rw [getJsonNonlocalFileAttributeInfo_eq_right_iff, ReadAsMeant, if_neg herror]
  apply and_congr_right
  intro _
  simp only [hs, Option.some.injEq, forall_eq']
  constructor
  · rintro (⟨hnone, -⟩ | ⟨t, ht, hsize⟩)
    · rw [hnone] at hfound
      cases hfound
    · refine ⟨t, ht, ?_⟩
      by_cases hcut : t = s.takeWhile (· ≠ 0)
      · subst hcut
        rw [← signedNumber_takeWhile s] at hsize
        have hrange := (atoi_eq_signedNumber_iff _).1 hsize.symm
        rw [signedNumber_takeWhile] at hrange
        exact Or.inl ⟨rfl, hrange⟩
      · exact Or.inr ⟨hcut, hsize.symm⟩
  · rintro ⟨t, ht, ⟨rfl, hrange⟩ | ⟨-, hsize⟩⟩
    · refine Or.inr ⟨_, ht, ?_⟩
      rw [← signedNumber_takeWhile s] at hrange ⊢
      exact ((atoi_eq_signedNumber_iff _).2 hrange).symm
    · exact Or.inr ⟨t, ht, hsize.symm⟩

end Answer

/-! ### The two functions together -/

section Decided

variable {cJSONParse : List Byte → Option Json.Value} {server : DataServerInfo}
  {aSetOfFiles : List (List Byte)} {replies : ℕ → Response}

/-- The reply that is examined is the first of the first three with code 200. -/
theorem preFlight_eq (hmessage : (setSendNonlocalHttpContent server aSetOfFiles).isSome)
    (hlt : ∀ k, (replies k).body.length < bufMax) :
    preFlight cJSONParse server aSetOfFiles replies =
      match firstOk replies 3 with
      | some k =>
        (getJsonNonlocalFileAttributeInfo ((cJSONParse (replies k).cStr).map .ofJson) 0).map
          fun (ret, fileSize) => ⟨ret, fileSize, k + 1⟩
      | none => some ⟨errorSendFileNameClient, 0, 4⟩ := by
  obtain ⟨⟨content, target⟩, hsome⟩ := Option.isSome_iff_exists.1 hmessage
  unfold preFlight sendFileNameMain
  rw [hsome, retryPost_three]
  cases firstOk replies 3 with
  | none => rfl
  | some k =>
    have hcopy : (replies k).cStr.length < bufMax :=
      (List.IsPrefix.length_le (List.takeWhile_prefix _)).trans_lt (hlt k)
    simp [strcpy_of_lt hcopy]

/-- Nothing is decided where the message does not fit. -/
theorem DecidedByReply.message (h : DecidedByReply cJSONParse server aSetOfFiles replies) :
    (setSendNonlocalHttpContent server aSetOfFiles).isSome := by
  obtain ⟨p, hp, -⟩ := h
  obtain ⟨sent, hsent, -⟩ := Option.bind_eq_some_iff.1 hp
  obtain ⟨m, hm, -⟩ := Option.bind_eq_some_iff.1 hsent
  rw [hm]
  rfl

/-- An answer among the first three decides exactly if it is malformed or read as it is meant. -/
theorem decidedByReply_of_firstOk {k : ℕ}
    (hmessage : (setSendNonlocalHttpContent server aSetOfFiles).isSome)
    (hlt : ∀ k, (replies k).body.length < bufMax) (hk : firstOk replies 3 = some k)
    (hsize : ∀ v, cJSONParse (replies k).cStr = some v → ¬ NamesError v →
      (v.getString (lit "file_total_size")).isSome) :
    DecidedByReply cJSONParse server aSetOfFiles replies ↔
      ∀ v, cJSONParse (replies k).cStr = some v → ReadAsMeant v := by
  have hposts := firstOk_posts hk
  unfold DecidedByReply
  rw [preFlight_eq hmessage hlt, hk]
  dsimp only
  cases hv : cJSONParse (replies k).cStr with
  | none =>
    refine iff_of_true ⟨⟨errorFileName, 0, k + 1⟩, rfl, ?_, ?_⟩ fun v h => by cases h
    · refine iff_of_true (show errorFileName ≠ right by decide) fun j hj v hjv => ?_
      rw [hposts] at hj
      cases hj
      rw [hv] at hjv
      cases hjv
    · exact fun h => absurd (show errorFileName = right from h) (by decide)
  | some v =>
    simp only [Option.map_some, Option.some.injEq, forall_eq']
    by_cases herror : NamesError v
    · -- an error is reported unless the reader stumbles
      have hrefuse : Refuses cJSONParse (replies k) := fun v' hv' => by
        rw [hv] at hv'
        cases hv'
        exact herror
      rw [ReadAsMeant, if_pos herror, ← isSome_getJsonNonlocalFileAttributeInfo_iff _ 0]
      constructor
      · rintro ⟨p, hp, -⟩
        obtain ⟨⟨ret, size⟩, hret, -⟩ := Option.map_eq_some_iff.1 hp
        rw [hret]
        rfl
      · intro h
        obtain ⟨⟨ret, size⟩, hret⟩ := Option.isSome_iff_exists.1 h
        have hne := herror.ret_ne hret
        refine ⟨⟨ret, size, k + 1⟩, by rw [hret]; rfl, ?_, fun h => absurd h hne⟩
        refine iff_of_true hne fun j hj => ?_
        rw [hposts] at hj
        cases hj
        exact hrefuse
    · obtain ⟨s, hs⟩ := Option.isSome_iff_exists.1 (hsize v hv herror)
      rw [← readAsMeant_iff herror hs]
      constructor
      · rintro ⟨p, hp, hiff, hright⟩
        obtain ⟨⟨ret, size⟩, hret, rfl⟩ := Option.map_eq_some_iff.1 hp
        dsimp only at hiff hright
        obtain rfl : ret = right := by
          by_contra hne
          exact herror (hiff.1 hne k hposts v hv)
        obtain ⟨j, w, t, hj, hw, ht, rfl⟩ := hright rfl
        rw [hposts] at hj
        cases hj
        rw [hv] at hw
        cases hw
        rw [hs] at ht
        cases ht
        exact hret
      · intro hret
        refine ⟨⟨right, signedNumber s, k + 1⟩, by rw [hret]; rfl, ?_, ?_⟩
        · exact iff_of_false (not_not.2 rfl) fun h => herror (h k hposts v hv)
        · exact fun _ => ⟨k, v, s, hposts, hv, hs, rfl⟩

/-- **The reply that decides.**  The pre-flight reports an error exactly if no post was answered with code 200 or
the first such answer is a refusal, and takes over its size otherwise, if and only if that answer was examined
and read as it is meant. -/
theorem decidedByReply_iff (hlt : ∀ k, (replies k).body.length < bufMax)
    (hsize : ∀ k v, (replies k).code = 200 → cJSONParse (replies k).cStr = some v → ¬ NamesError v →
      (v.getString (lit "file_total_size")).isSome) :
    DecidedByReply cJSONParse server aSetOfFiles replies ↔
      Examined cJSONParse server aSetOfFiles replies := by
  by_cases hmessage : (setSendNonlocalHttpContent server aSetOfFiles).isSome
  · cases hk : firstOk replies 3 with
    | some k =>
      have hcode : (replies k).code = 200 := by simpa using List.find?_some hk
      rw [decidedByReply_of_firstOk hmessage hlt hk fun v => hsize k v hcode]
      constructor
      · intro h
        refine ⟨hmessage, fun j hj => ?_, fun hnone => ?_⟩
        · rw [hk] at hj
          cases hj
          exact h
        · rw [hk] at hnone
          cases hnone
      · exact fun h => h.first k hk
    | none =>
      have hfour := firstOk_succ hk
      have hne : errorSendFileNameClient ≠ right := by decide
      have hfirst : ∀ j, firstOk replies 3 ≠ some j := fun j hj => by
        rw [hk] at hj
        cases hj
      unfold DecidedByReply
      rw [preFlight_eq hmessage hlt, hk]
      simp only [Option.some.injEq, exists_eq_left', hfour]
      constructor
      · intro h
        refine ⟨hmessage, fun j hj => absurd hj (hfirst j), fun _ hcode => ?_⟩
        exact h.1.1 hne 3 (if_pos hcode)
      · intro h
        refine ⟨iff_of_true hne fun j hj => ?_, fun h => absurd h hne⟩
        split_ifs at hj with hcode
        cases hj
        exact h.last hk hcode
  · exact iff_of_false (fun h => hmessage h.message) fun h => hmessage h.message

end Decided

/-- The data server of the examples. -/
def exampleServer : DataServerInfo := ⟨lit "10.0.0.7", lit "8080", lit "file"⟩

/-- The answer that the files have five bytes. -/
def fiveByteReply : Response := ⟨200, lit "\x7b\"file_total_size\":\"5\"\x7d"⟩

/-- The data server answers at the fourth attempt. -/
def lateReplies (k : ℕ) : Response := if k < 3 then ⟨503, []⟩ else fiveByteReply

/-- That answer has a size and no error key. -/
theorem parse_fiveByteReply : ∃ v, Json.parse fiveByteReply.cStr = some v ∧
    (v.getString (lit "file_total_size")).isSome ∧ ¬ NamesError v := by
  have h : (Json.parse fiveByteReply.cStr).any fun v =>
      (v.getString (lit "file_total_size")).isSome && !decide (NamesError v) := by decide +kernel
  obtain ⟨v, hv, hall⟩ := (Option.any_eq_true _ _).1 h
  rw [Bool.and_eq_true, Bool.not_eq_true', decide_eq_false_iff_not] at hall
  exact ⟨v, hv, hall⟩

theorem isSome_getString_fiveByteReply {v : Json.Value} (hv : Json.parse fiveByteReply.cStr = some v) :
    (v.getString (lit "file_total_size")).isSome := by
  obtain ⟨w, hw, hsize, -⟩ := parse_fiveByteReply
  rw [hw] at hv
  cases hv
  exact hsize

theorem decidedByReply_iff_two :
    DecidedByReply Json.parse exampleServer [lit "a", lit "b"] (fun _ => fiveByteReply) ↔
      Examined Json.parse exampleServer [lit "a", lit "b"] fun _ => fiveByteReply :=
  decidedByReply_iff (fun _ => by decide) fun _ _ _ hv _ => isSome_getString_fiveByteReply hv

/-- Three attempts fail and the fourth is answered: an error is reported. -/
theorem not_decidedByReply :
    (∀ k, (lateReplies k).body.length < bufMax) ∧
      (∀ k v, (lateReplies k).code = 200 → Json.parse (lateReplies k).cStr = some v → ¬ NamesError v →
        (v.getString (lit "file_total_size")).isSome) ∧
      preFlight Json.parse exampleServer [lit "a", lit "b"] lateReplies =
        some ⟨errorSendFileNameClient, 0, 4⟩ ∧
      firstOk lateReplies 4 = some 3 ∧ ¬ Refuses Json.parse (lateReplies 3) ∧
      ¬ DecidedByReply Json.parse exampleServer [lit "a", lit "b"] lateReplies := by
  have hrun : preFlight Json.parse exampleServer [lit "a", lit "b"] lateReplies =
      some ⟨errorSendFileNameClient, 0, 4⟩ := by decide +kernel
  have hfirst : firstOk lateReplies 4 = some 3 := by decide
  have hrefuse : ¬ Refuses Json.parse (lateReplies 3) := fun h => by
    obtain ⟨v, hv, -, herror⟩ := parse_fiveByteReply
    exact herror (h v hv)
  refine ⟨fun k => ?_, fun k v hcode hv _ => ?_, hrun, hfirst, hrefuse, ?_⟩
  · unfold lateReplies
    split_ifs <;> decide
  · unfold lateReplies at hcode hv
    split_ifs at hcode hv
    · exact absurd hcode (by decide)
    · exact isSome_getString_fiveByteReply hv
  · rintro ⟨p, hp, hiff, -⟩
    rw [hrun] at hp
    cases hp
    exact hrefuse (hiff.1 (by decide) 3 hfirst)

end ORaidServer
