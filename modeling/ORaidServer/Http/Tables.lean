import Mathlib.Algebra.Group.Action.Defs
import Mathlib.Algebra.Order.BigOperators.Group.List
import ORaidServer.Http.Job

/-!
# The tables for a job

A job that is accepted goes to arrays of fixed sizes: its strings to those of `get_json_need_xor_file_info`, its
paths to the table of a group in `create_client_connect_data_server` and to the arrays of the two engines.  What
bounds its size is the length of its text.
-/

namespace ORaidServer

open CString

/-- `MAX_FILE_NUM` -/
def maxFileNum : ℕ := 1024

/-- A loop that sets one entry of an array of `size` entries after another, from entry `i` on; `none` where it
goes beyond the array, or where there is no `entry`. -/
def fill {α β : Type} (size : ℕ) (entry : α → Option β) : ℕ → List α → Option (List β)
  | _, [] => some []
  | i, a :: l => if i < size then (entry a).bind fun b => (fill size entry (i + 1) l).map (b :: ·) else none

/-- `single_file_array[i].file_path`, as `create_client_connect_data_server` sets them. -/
def singleFileArray (filePath : List (List Byte)) : Option (List (List Byte)) :=
  fill 50 (strcpy 1024) 0 filePath

/-- `in_buf` of `judge_xor_condition`, `in_buf_full` and `remain_buf_bytes` of `buf_xor`, one entry for each
file. -/
def inBuf (filePath : List (List Byte)) : Option (List (List Byte)) := fill 100 some 0 filePath

/-- `in_fd` of `open_file`. -/
def inFd (aSetOfFiles : List (List Byte)) : Option (List (List Byte)) := fill maxFileNum some 0 aSetOfFiles

theorem isSome_fill_iff {α β : Type} {size : ℕ} {entry : α → Option β} {i : ℕ} {l : List α} :
    (fill size entry i l).isSome ↔ (∀ a ∈ l, (entry a).isSome) ∧ (l = [] ∨ i + l.length ≤ size) := by
  induction l generalizing i with
  | nil => simp [fill]
  | cons a l ih =>
    rw [fill]
    by_cases hi : i < size
    · have hlen : i + (l.length + 1) ≤ size ↔ l = [] ∨ i + 1 + l.length ≤ size := by
        constructor
        · intro h
          exact Or.inr (by omega)
        · rintro (rfl | h)
          · exact hi
          · omega
      rw [if_pos hi, List.forall_mem_cons, List.length_cons, and_assoc]
      cases entry a with
      | none => simp
      | some b => simp [ih, hlen]
    · rw [if_neg hi]
      simp only [Option.isSome_none, Bool.false_eq_true, List.cons_ne_nil, false_or, List.length_cons, false_iff]
      omega

/-- The arrays that the accepted job goes to have room for it: those of the reader, and those of the engine that
does the job, which depends on the address of the data server. -/
structure JobFits (localAddr : List Byte) (v : Json.Value) (server : DataServerInfo) (job : XorJob) : Prop where
  strings : ∀ server', (getJsonNeedXorFileInfo (some (.ofJson v)) server').isSome
  remote : localAddr ≠ server.dataServerIp →
    (singleFileArray job.aSetOfFiles).isSome ∧ (inBuf job.aSetOfFiles).isSome
  here : localAddr = server.dataServerIp → (inFd job.aSetOfFiles).isSome

/-! ### The size of what is found -/

/-- What is found in a value is one of its parts; under a name it has that name, whatever its spelling. -/
theorem exists_of_getObjectItem {v : Json.Value} {name : List Byte} {item : CJson}
    (h : cJSON_GetObjectItem (.ofJson v) name = some item) :
    ∃ l m, v = .object l ∧ m ∈ l ∧ item = .ofJson m.2 ∧ name.length ≤ m.1.length := by
  obtain ⟨c, hc, rfl⟩ := Option.map_eq_some_iff.1 h
  have hname := List.find?_some hc
  have hmem := List.mem_of_find?_eq_some hc
  cases v with
  | object l =>
    change c ∈ CJson.ofMembers l at hmem
    rw [CJson.ofMembers_eq_map, List.mem_map] at hmem
    obtain ⟨m, hm, rfl⟩ := hmem
    have hlower : (m.1.takeWhile (· ≠ 0)).map toLower = name.map toLower := by simpa using hname
    have hlength : (m.1.takeWhile (· ≠ 0)).length = name.length := by simpa using congrArg List.length hlower
    exact ⟨l, m, rfl, hm, rfl, hlength ▸ (List.takeWhile_sublist _).length_le⟩
  | array l =>
    change c ∈ CJson.ofElements l at hmem
    rw [CJson.ofElements_eq_map, List.mem_map] at hmem
    obtain ⟨w, -, rfl⟩ := hmem
    simp at hname
  | _ => exact absurd hmem List.not_mem_nil

/-- A string takes its bytes and two quotes. -/
theorem length_of_valuestring {v : Json.Value} {s : List Byte} (h : (CJson.ofJson v).valuestring = some s) :
    s.length + 2 ≤ v.minSize := by
  cases v with
  | string t =>
    obtain rfl := Option.some.inj h
    rw [Json.Value.minSize]
    exact Nat.add_le_add_right (List.takeWhile_sublist _).length_le 2
  | _ => cases h

/-- An object with a string under a name takes that, and the punctuation. -/
theorem length_of_findString {v : Json.Value} {name s : List Byte} (h : findString (.ofJson v) name = some s) :
    name.length + s.length + 7 ≤ v.minSize := by
  obtain ⟨item, hitem, hs⟩ := Option.bind_eq_some_iff.1 h
  obtain ⟨l, m, rfl, hm, rfl, hname⟩ := exists_of_getObjectItem hitem
  have := length_of_valuestring hs
  have := Json.size_le_membersSize hm
  rw [Json.Value.minSize]
  omega

theorem map_children_ofJson (v : Json.Value) : (CJson.ofJson v).children.map Prod.snd = v.parts.map .ofJson := by
  cases v with
  | object l =>
    change (CJson.ofMembers l).map Prod.snd = (l.map Prod.snd).map .ofJson
    simp [CJson.ofMembers_eq_map, Function.comp_def]
  | array l =>
    change (CJson.ofElements l).map Prod.snd = l.map .ofJson
    simp [CJson.ofElements_eq_map, Function.comp_def]
  | _ => rfl

/-- Each file takes seventeen bytes of the text. -/
theorem length_of_foundFiles {v : Json.Value} {paths : List (List Byte)} (h : FoundFiles (.ofJson v) paths) :
    17 * paths.length < v.minSize ∧ ∀ path ∈ paths, path.length < v.minSize := by
  obtain ⟨array, harray, hpaths⟩ := h
  obtain ⟨l, m, rfl, hm, rfl, -⟩ := exists_of_getObjectItem harray
  have hparts : m.2.parts.map (fun w => findString (.ofJson w) (lit "file_path")) = paths.map some :=
    calc m.2.parts.map (fun w => findString (.ofJson w) (lit "file_path"))
      _ = (m.2.parts.map CJson.ofJson).map (findString · (lit "file_path")) := by rw [List.map_map]; rfl
      _ = (CJson.ofJson m.2).children.map fun c => findString c.2 (lit "file_path") := by
        rw [← map_children_ofJson, List.map_map]
        rfl
      _ = paths.map some := hpaths
  have hname : (lit "file_path").length = 9 := by decide
  have hpart : ∀ w ∈ m.2.parts, ∀ path, findString (.ofJson w) (lit "file_path") = some path →
      path.length + 16 ≤ w.minSize := by
    intro w _ path hpath
    have := length_of_findString hpath
    omega
  have hsum := m.2.sum_minSize_parts_lt
  have hsize : m.2.minSize < (Json.Value.object l).minSize := by
    have := Json.size_le_membersSize hm
    rw [Json.Value.minSize]
    omega
  constructor
  · have hle : ∀ n ∈ m.2.parts.map fun w => w.minSize + 1, 17 ≤ n := by
      intro n hn
      obtain ⟨w, hw, rfl⟩ := List.mem_map.1 hn
      have hmem := List.mem_map_of_mem (f := fun w => findString (.ofJson w) (lit "file_path")) hw
      rw [hparts] at hmem
      obtain ⟨path, -, hpath⟩ := List.mem_map.1 hmem
      have := hpart w hw path hpath.symm
      omega
    have hcard := List.card_nsmul_le_sum _ 17 hle
    have hlength := congrArg List.length hparts
    rw [List.length_map, smul_eq_mul] at hcard
    rw [List.length_map, List.length_map] at hlength
    omega
  · intro path hpath
    have hmem := List.mem_map_of_mem (f := some) hpath
    rw [← hparts] at hmem
    obtain ⟨w, hw, hfound⟩ := List.mem_map.1 hmem
    have := hpart w hw path hfound
    have := List.single_le_sum (fun n _ => Nat.zero_le n) _ (List.mem_map_of_mem (f := fun w => w.minSize + 1) hw)
    omega

/-! ### What fits -/

/-- A job in a text of at most 1023 bytes fits exactly if the address, the port and the method of its data
server do and it is done here or has at most 50 files. -/
theorem jobFits_iff {localAddr text : List Byte} {v : Json.Value} {server : DataServerInfo} {job : XorJob}
    (htext : text.length ≤ 1023) (hparse : Json.parse text = some v) (hjob : FoundJob (.ofJson v) server job) :
    JobFits localAddr v server job ↔
      server.dataServerIp.length < 32 ∧ server.dataServerPort.length < 16 ∧
        server.dataServerMethod.length < 128 ∧
        (localAddr ≠ server.dataServerIp → job.aSetOfFiles.length ≤ 50) := by
  have hsize := Json.minSize_le hparse
  obtain ⟨hcount, hpaths⟩ := length_of_foundFiles hjob.files
  have houtput := length_of_findString hjob.output
  constructor
  · intro h
    obtain ⟨hip, hport, hmethod, -⟩ :=
      hjob.foundItems_iff.1 ((isSome_getJsonNeedXorFileInfo_iff server).1 (h.strings server))
    refine ⟨hip, hport, hmethod, fun hremote => ?_⟩
    obtain ⟨-, hempty | hlength⟩ := isSome_fill_iff.1 (h.remote hremote).1
    · rw [hempty]
      exact Nat.zero_le 50
    · omega
  · rintro ⟨hip, hport, hmethod, hfiles⟩
    have hcopy : ∀ path ∈ job.aSetOfFiles, (strcpy 1024 path).isSome := by
      intro path hpath
      have := hpaths path hpath
      rw [strcpy_of_lt (by omega)]
      rfl
    have hitems := hjob.foundItems_iff.2 ⟨hip, hport, hmethod, by omega⟩
    refine ⟨fun server' => (isSome_getJsonNeedXorFileInfo_iff server').2 hitems, fun hremote => ⟨?_, ?_⟩, fun _ => ?_⟩
    · have := hfiles hremote
      exact isSome_fill_iff.2 ⟨hcopy, Or.inr (by omega)⟩
    · exact isSome_fill_iff.2 ⟨fun _ _ => rfl, Or.inr (by omega)⟩
    · refine isSome_fill_iff.2 ⟨fun _ _ => rfl, Or.inr ?_⟩
      rw [maxFileNum]
      omega

/-- The text of a job without any names, for a data server at an address. -/
def jobText (ip : List Byte) (files : ℕ) : List Byte :=
  lit "\x7b\"data_server_ip\":\"" ++ ip ++
    lit "\",\"data_server_port\":\"1\",\"data_server_method\":\"\",\"output_file_name\":\"\",\"file_name_total\":[" ++
    ((List.replicate files (lit "\x7b\"file_path\":\"\"\x7d")).intersperse (lit ",")).flatten ++ lit "]\x7d"

/-- Nothing is missing in the text of such a job. -/
theorem exists_parse_of_any (text : List Byte) (server : DataServerInfo) (job : XorJob)
    (h : ((Json.parse text).any fun v => FoundJob (.ofJson v) server job) = true) :
    ∃ v, Json.parse text = some v ∧ FoundJob (.ofJson v) server job := by
  cases hparse : Json.parse text with
  | none => simp [hparse] at h
  | some v =>
    rw [hparse] at h
    exact ⟨v, rfl, of_decide_eq_true h⟩

theorem jobFits_iff_two : ∃ v, Json.parse (jobText (lit "::1") 2) = some v ∧
    (JobFits (lit "127.0.0.1") v ⟨lit "::1", lit "1", []⟩ ⟨[[], []], []⟩ ↔
      (lit "::1").length < 32 ∧ (lit "1").length < 16 ∧ ([] : List Byte).length < 128 ∧
        (lit "127.0.0.1" ≠ lit "::1" → [([] : List Byte), []].length ≤ 50)) := by
  obtain ⟨v, hparse, hjob⟩ := exists_parse_of_any (jobText (lit "::1") 2) ⟨lit "::1", lit "1", []⟩
    ⟨[[], []], []⟩ (by decide +kernel)
  exact ⟨v, hparse, jobFits_iff (by decide +kernel) hparse hjob⟩

/-- A text has room for 51 files, and for an address of 32 bytes. -/
theorem not_jobFits :
    ((jobText (lit "::1") 51).length ≤ 1023 ∧ ∃ v, Json.parse (jobText (lit "::1") 51) = some v ∧
      FoundJob (.ofJson v) ⟨lit "::1", lit "1", []⟩ ⟨List.replicate 51 [], []⟩ ∧
      ¬ JobFits (lit "127.0.0.1") v ⟨lit "::1", lit "1", []⟩ ⟨List.replicate 51 [], []⟩) ∧
    ((jobText (List.replicate 32 49) 2).length ≤ 1023 ∧ ∃ v, Json.parse (jobText (List.replicate 32 49) 2) = some v ∧
      FoundJob (.ofJson v) ⟨List.replicate 32 49, lit "1", []⟩ ⟨[[], []], []⟩ ∧
      ¬ JobFits (lit "127.0.0.1") v ⟨List.replicate 32 49, lit "1", []⟩ ⟨[[], []], []⟩) := by
  constructor
  · refine ⟨by decide +kernel, ?_⟩
    obtain ⟨v, hparse, hjob⟩ := exists_parse_of_any (jobText (lit "::1") 51) ⟨lit "::1", lit "1", []⟩
      ⟨List.replicate 51 [], []⟩ (by decide +kernel)
    exact ⟨v, hparse, hjob, fun h => absurd (h.remote (by decide)).1 (by decide +kernel)⟩
  · refine ⟨by decide +kernel, ?_⟩
    obtain ⟨v, hparse, hjob⟩ := exists_parse_of_any (jobText (List.replicate 32 49) 2)
      ⟨List.replicate 32 49, lit "1", []⟩ ⟨[[], []], []⟩ (by decide +kernel)
    refine ⟨v, hparse, hjob, fun h => ?_⟩
    have hitems := (isSome_getJsonNeedXorFileInfo_iff ⟨[], [], []⟩).1 (h.strings _)
    exact absurd (hjob.foundItems_iff.1 hitems).1 (by decide)

end ORaidServer
