import ORaidServer.Http.Json
import ORaidServer.Lib.Json

/-!
# Jobs as JSON texts

What `get_json_need_xor_file_info` of `json.cpp` takes from a text, seen from the text.

* `CJson.ofJson`, the items of a value;
* `FoundItems` and `FoundJob`, what the reader finds, and `getJsonNeedXorFileInfo_of_foundItems`, what it then
  returns;
* `SpelledJob` and `CompleteJob`, what the text says of a job;
* `acceptsComplete_iff`: the reader accepts the complete jobs and nothing else exactly if what it finds is what
  the text says.
-/

namespace ORaidServer

open CString

namespace CJson

mutual

/-- The items that a value consists of.  A string ends with its first NUL. -/
def ofJson : Json.Value → CJson
  | .null => .other []
  | .bool _ => .other []
  | .number _ => .other []
  | .string s => .string (s.takeWhile (· ≠ 0))
  | .array l => .other (ofElements l)
  | .object l => .other (ofMembers l)

/-- The items of an array. -/
def ofElements : List Json.Value → List (Option (List Byte) × CJson)
  | [] => []
  | v :: l => (none, ofJson v) :: ofElements l

/-- The items of an object. -/
def ofMembers : List (List Byte × Json.Value) → List (Option (List Byte) × CJson)
  | [] => []
  | (name, v) :: l => (some (name.takeWhile (· ≠ 0)), ofJson v) :: ofMembers l

end

theorem ofElements_eq_map (l : List Json.Value) : ofElements l = l.map fun v => (none, ofJson v) := by
  induction l with
  | nil => rfl
  | cons v l ih => rw [ofElements, ih, List.map_cons]

theorem ofMembers_eq_map (l : List (List Byte × Json.Value)) :
    ofMembers l = l.map fun m => (some (m.1.takeWhile (· ≠ 0)), ofJson m.2) := by
  induction l with
  | nil => rfl
  | cons m l ih => rw [ofMembers, ih, List.map_cons]

end CJson

/-- What has a name is found under it, or something before it is. -/
theorem isSome_getObjectItem {v w : Json.Value} {name : List Byte} (hname : 0 ∉ name) (h : v.get name = some w) :
    (cJSON_GetObjectItem (.ofJson v) name).isSome := by
  cases v with
  | object l =>
    obtain ⟨m, hm, rfl⟩ := Option.map_eq_some_iff.1 h
    have hcut : name.takeWhile (· ≠ 0) = name :=
      List.takeWhile_eq_self_iff.2 fun b hb => decide_eq_true fun hb0 => hname (hb0 ▸ hb)
    have hmname : m.1 = name := by simpa using List.find?_some hm
    rw [cJSON_GetObjectItem, Option.isSome_map, List.find?_isSome]
    refine ⟨(some name, .ofJson m.2), ?_, by simp⟩
    show _ ∈ CJson.ofMembers l
    rw [CJson.ofMembers_eq_map, List.mem_map]
    exact ⟨m, List.mem_of_find?_eq_some hm, by rw [hmname, hcut]⟩
  | _ => cases h

/-! ### What the reader finds -/

/-- The string that the reader finds under a name. -/
def findString (json : CJson) (name : List Byte) : Option (List Byte) :=
  (cJSON_GetObjectItem json name).bind CJson.valuestring

/-- What is found under a name is a string that fits in an array of `size` bytes. -/
def Fits (json : CJson) (name : String) (size : ℕ) : Prop :=
  ∀ item, cJSON_GetObjectItem json (lit name) = some item → ∃ s, item.valuestring = some s ∧ s.length < size

/-- Whatever is found of a job is a string that fits. -/
structure FoundItems (json : CJson) : Prop where
  ip : Fits json "data_server_ip" 32
  port : Fits json "data_server_port" 16
  method : Fits json "data_server_method" 128
  output : Fits json "output_file_name" 1024
  files : ∀ array, cJSON_GetObjectItem json (lit "file_name_total") = some array →
    ∀ c ∈ array.children, ∀ item, cJSON_GetObjectItem c.2 (lit "file_path") = some item →
      item.valuestring.isSome

/-- Each item of `file_name_total` has a path. -/
def FoundFiles (json : CJson) (paths : List (List Byte)) : Prop :=
  ∃ array, cJSON_GetObjectItem json (lit "file_name_total") = some array ∧
    array.children.map (fun c => findString c.2 (lit "file_path")) = paths.map some

/-- Nothing of a job is missing. -/
structure FoundJob (json : CJson) (server : DataServerInfo) (job : XorJob) : Prop where
  ip : findString json (lit "data_server_ip") = some server.dataServerIp
  port : findString json (lit "data_server_port") = some server.dataServerPort
  method : findString json (lit "data_server_method") = some server.dataServerMethod
  output : findString json (lit "output_file_name") = some job.outputFileName
  files : FoundFiles json job.aSetOfFiles

instance (json : CJson) (paths : List (List Byte)) : Decidable (FoundFiles json paths) :=
  decidable_of_iff _ Option.map_eq_some_iff

instance (json : CJson) (server : DataServerInfo) (job : XorJob) : Decidable (FoundJob json server job) :=
  decidable_of_iff (_ ∧ _ ∧ _ ∧ _ ∧ _)
    ⟨fun h => ⟨h.1, h.2.1, h.2.2.1, h.2.2.2.1, h.2.2.2.2⟩, fun h => ⟨h.ip, h.port, h.method, h.output, h.files⟩⟩

section Reader

variable {json : CJson} {name : String} {size : ℕ}

theorem copyItem_of_fits (h : Fits json name size) (old : List Byte) :
    copyItem json name size old =
      some ((findString json (lit name)).getD old, (findString json (lit name)).isSome) := by
  unfold copyItem findString
  cases hitem : cJSON_GetObjectItem json (lit name) with
  | none => rfl
  | some item =>
    obtain ⟨s, hs, hlen⟩ := h item hitem
    simp [hs, strcpy_of_lt hlen]

theorem copyItem_of_not_fits (h : ¬ Fits json name size) (old : List Byte) :
    copyItem json name size old = none := by
  simp only [Fits, not_forall, not_exists, not_and, not_lt] at h
  obtain ⟨item, hitem, hlong⟩ := h
  unfold copyItem
  rw [hitem]
  cases hs : item.valuestring with
  | none => simp [hs]
  | some s => simp [hs, strcpy, not_lt.2 (hlong s hs)]

/-- The loop goes through if every path that is found is a string, and notes whether there is one for every
item. -/
theorem filePaths_of_strings {l : List CJson}
    (h : ∀ o ∈ l, ∀ item, cJSON_GetObjectItem o (lit "file_path") = some item → item.valuestring.isSome) :
    (∃ paths, filePaths l = some (paths, true) ∧ l.map (findString · (lit "file_path")) = paths.map some) ∨
      (∃ paths, filePaths l = some (paths, false)) ∧
        ∀ paths : List (List Byte), l.map (findString · (lit "file_path")) ≠ paths.map some := by
  induction l with
  | nil => exact Or.inl ⟨[], rfl, rfl⟩
  | cons o l ih =>
    have hl := ih fun o ho => h o (List.mem_cons_of_mem _ ho)
    cases hitem : cJSON_GetObjectItem o (lit "file_path") with
    | none =>
      obtain ⟨paths, ok, hpaths⟩ : ∃ paths ok, filePaths l = some (paths, ok) := by
        obtain ⟨paths, hpaths, -⟩ | ⟨⟨paths, hpaths⟩, -⟩ := hl
        · exact ⟨paths, true, hpaths⟩
        · exact ⟨paths, false, hpaths⟩
      refine Or.inr ⟨⟨paths, by simp only [filePaths, hitem, hpaths, Option.map_some]⟩, fun paths' hmap => ?_⟩
      cases paths' with
      | nil => simp at hmap
      | cons p paths' => simp [findString, hitem] at hmap
    | some item =>
      obtain ⟨path, hpath⟩ := Option.isSome_iff_exists.1 (h o (List.mem_cons_self ..) item hitem)
      have hstring : findString o (lit "file_path") = some path := by rw [findString, hitem]; exact hpath
      obtain ⟨paths, hpaths, hmap⟩ | ⟨⟨paths, hpaths⟩, hmap⟩ := hl
      · refine Or.inl ⟨path :: paths, ?_, ?_⟩
        · simp only [filePaths, hitem, hpath, hpaths, Option.bind_some, Option.map_some]
        · rw [List.map_cons, List.map_cons, hstring, hmap]
      · refine Or.inr ⟨⟨path :: paths, ?_⟩, fun paths' hmap' => ?_⟩
        · simp only [filePaths, hitem, hpath, hpaths, Option.bind_some, Option.map_some]
        · cases paths' with
          | nil => simp at hmap'
          | cons p paths' => exact hmap paths' (List.cons.inj hmap').2

theorem filePaths_of_not_string {l : List CJson} {o item : CJson} (ho : o ∈ l)
    (hitem : cJSON_GetObjectItem o (lit "file_path") = some item) (hs : item.valuestring = none) :
    filePaths l = none := by
  induction l with
  | nil => exact absurd ho List.not_mem_nil
  | cons o' l ih =>
    unfold filePaths
    obtain rfl | ho := List.mem_cons.1 ho
    · simp [hitem, hs]
    · rw [ih ho]
      cases cJSON_GetObjectItem o' (lit "file_path") with
      | none => rfl
      | some item' => simp

theorem fileNameTotal_of_foundItems (h : FoundItems json) :
    (∃ paths, fileNameTotal json = some (paths, true) ∧ FoundFiles json paths) ∨
      (∃ paths, fileNameTotal json = some (paths, false)) ∧ ∀ paths, ¬ FoundFiles json paths := by
  unfold FoundFiles fileNameTotal
  cases harray : cJSON_GetObjectItem json (lit "file_name_total") with
  | none => exact Or.inr ⟨⟨[], rfl⟩, fun paths ⟨array, harray', _⟩ => by cases harray'⟩
  | some array =>
    have hstrings : ∀ o ∈ array.children.map Prod.snd, ∀ item,
        cJSON_GetObjectItem o (lit "file_path") = some item → item.valuestring.isSome := by
      intro o ho
      obtain ⟨c, hc, rfl⟩ := List.mem_map.1 ho
      exact h.files array harray c hc
    simp only [Option.some.injEq, exists_eq_left']
    simpa only [List.map_map, Function.comp_def] using filePaths_of_strings hstrings

theorem fileNameTotal_of_not_string {array : CJson} {c : Option (List Byte) × CJson} {item : CJson}
    (harray : cJSON_GetObjectItem json (lit "file_name_total") = some array) (hc : c ∈ array.children)
    (hitem : cJSON_GetObjectItem c.2 (lit "file_path") = some item) (hs : item.valuestring = none) :
    fileNameTotal json = none := by
  rw [fileNameTotal, harray]
  exact filePaths_of_not_string (List.mem_map_of_mem hc) hitem hs

/-- The reader goes through if whatever is found is a string that fits. -/
theorem getJsonNeedXorFileInfo_of_foundItems (h : FoundItems json) (server : DataServerInfo) :
    (∃ server' job, FoundJob json server' job ∧
        getJsonNeedXorFileInfo (some json) server = some ⟨right, server', job⟩) ∨
      (¬ ∃ server' job, FoundJob json server' job) ∧
        ∃ need, getJsonNeedXorFileInfo (some json) server = some need ∧ need.ret = errorCjsonFormat := by
  unfold getJsonNeedXorFileInfo
  simp only [copyItem_of_fits h.ip, copyItem_of_fits h.port, copyItem_of_fits h.method,
    copyItem_of_fits h.output, Option.bind_some]
  obtain ⟨paths, hpaths, hfiles⟩ | ⟨⟨paths, hpaths⟩, hfiles⟩ := fileNameTotal_of_foundItems h
  · rw [hpaths]
    by_cases hall : (findString json (lit "data_server_ip")).isSome ∧
        (findString json (lit "data_server_port")).isSome ∧
        (findString json (lit "data_server_method")).isSome ∧ (findString json (lit "output_file_name")).isSome
    · simp only [Option.isSome_iff_exists] at hall
      obtain ⟨⟨ip, hip⟩, ⟨port, hport⟩, ⟨method, hmethod⟩, output, houtput⟩ := hall
      refine Or.inl ⟨⟨ip, port, method⟩, ⟨paths, output⟩, ⟨hip, hport, hmethod, houtput, hfiles⟩, ?_⟩
      simp [hip, hport, hmethod, houtput]
    · refine Or.inr ⟨fun ⟨_, _, hjob⟩ => hall ?_, _, rfl, if_neg fun hok => hall ?_⟩
      · simp [hjob.ip, hjob.port, hjob.method, hjob.output]
      · simpa [and_assoc] using hok
  · refine Or.inr ⟨fun ⟨_, job, hjob⟩ => hfiles job.aSetOfFiles hjob.files, ?_⟩
    rw [hpaths]
    exact ⟨_, rfl, by simp⟩

theorem fits_of_copyItem {old : List Byte} {x : List Byte × Bool} (h : copyItem json name size old = some x) :
    Fits json name size := by
  by_contra hfits
  rw [copyItem_of_not_fits hfits] at h
  cases h

/-- Otherwise memory outside an array is accessed. -/
theorem foundItems_of_getJsonNeedXorFileInfo {server : DataServerInfo} {need : NeedXor}
    (h : getJsonNeedXorFileInfo (some json) server = some need) : FoundItems json := by
  unfold getJsonNeedXorFileInfo at h
  simp only [Option.bind_eq_some_iff, Option.map_eq_some_iff] at h
  obtain ⟨_, hip, _, hport, _, hmethod, _, houtput, _, hpaths, -⟩ := h
  refine ⟨fits_of_copyItem hip, fits_of_copyItem hport, fits_of_copyItem hmethod, fits_of_copyItem houtput, ?_⟩
  intro array harray c hc item hitem
  by_contra hs
  rw [fileNameTotal_of_not_string harray hc hitem (Option.not_isSome_iff_eq_none.1 hs)] at hpaths
  cases hpaths

theorem isSome_getJsonNeedXorFileInfo_iff (server : DataServerInfo) :
    (getJsonNeedXorFileInfo (some json) server).isSome ↔ FoundItems json := by
  rw [Option.isSome_iff_exists]
  constructor
  · rintro ⟨need, hneed⟩
    exact foundItems_of_getJsonNeedXorFileInfo hneed
  · intro h
    obtain ⟨_, _, -, hcode⟩ | ⟨-, need, hcode, -⟩ := getJsonNeedXorFileInfo_of_foundItems h server
    · exact ⟨_, hcode⟩
    · exact ⟨need, hcode⟩

theorem fits_iff {s : List Byte} (h : findString json (lit name) = some s) :
    Fits json name size ↔ s.length < size := by
  obtain ⟨item, hitem, hs⟩ := Option.bind_eq_some_iff.1 h
  simp [Fits, hitem, hs]

theorem FoundJob.foundItems_iff {server : DataServerInfo} {job : XorJob} (h : FoundJob json server job) :
    FoundItems json ↔ server.dataServerIp.length < 32 ∧ server.dataServerPort.length < 16 ∧
      server.dataServerMethod.length < 128 ∧ job.outputFileName.length < 1024 := by
  rw [← fits_iff h.ip, ← fits_iff h.port, ← fits_iff h.method, ← fits_iff h.output]
  constructor
  · intro hitems
    exact ⟨hitems.ip, hitems.port, hitems.method, hitems.output⟩
  · rintro ⟨hip, hport, hmethod, houtput⟩
    refine ⟨hip, hport, hmethod, houtput, fun array harray c hc item hitem => ?_⟩
    obtain ⟨array', harray', hpaths⟩ := h.files
    obtain rfl := Option.some.inj (harray.symm.trans harray')
    have hmem := List.mem_map_of_mem (f := fun c => findString c.2 (lit "file_path")) hc
    rw [hpaths] at hmem
    obtain ⟨path, -, hpath⟩ := List.mem_map.1 hmem
    rw [findString, hitem] at hpath
    exact Option.isSome_iff_exists.2 ⟨path, hpath.symm⟩

theorem FoundJob.unique {server server' : DataServerInfo} {job job' : XorJob} (h : FoundJob json server job)
    (h' : FoundJob json server' job') : server = server' ∧ job = job' := by
  have hip := Option.some.inj (h.ip.symm.trans h'.ip)
  have hport := Option.some.inj (h.port.symm.trans h'.port)
  have hmethod := Option.some.inj (h.method.symm.trans h'.method)
  have houtput := Option.some.inj (h.output.symm.trans h'.output)
  obtain ⟨array, harray, hfiles⟩ := h.files
  obtain ⟨array', harray', hfiles'⟩ := h'.files
  obtain rfl := Option.some.inj (harray.symm.trans harray')
  have hpaths := List.map_injective_iff.2 (Option.some_injective _) (hfiles.symm.trans hfiles')
  cases server
  cases server'
  cases job
  cases job'
  simp_all

end Reader

/-! ### Complete jobs -/

/-- What a value says of a job under the very names. -/
structure SpelledJob (v : Json.Value) (server : DataServerInfo) (job : XorJob) : Prop where
  ip : v.getString (lit "data_server_ip") = some server.dataServerIp
  port : v.getString (lit "data_server_port") = some server.dataServerPort
  method : v.getString (lit "data_server_method") = some server.dataServerMethod
  output : v.getString (lit "output_file_name") = some job.outputFileName
  files : ∃ l, v.get (lit "file_name_total") = some (.array l) ∧
    l.map (fun o => o.getString (lit "file_path")) = job.aSetOfFiles.map some

/-- A job of two files or more. -/
structure CompleteJob (v : Json.Value) (server : DataServerInfo) (job : XorJob) : Prop extends
  SpelledJob v server job where
  two : 2 ≤ job.aSetOfFiles.length

/-- The reader accepts what is complete, takes over what it says, and rejects everything else; `tree` is the
value of the text, if it has one. -/
def AcceptsComplete (tree : Option Json.Value) (server : DataServerInfo) : Prop :=
  ∃ need, getJsonNeedXorFileInfo (tree.map .ofJson) server = some need ∧
    (need.ret = right ∧ (∃ v, tree = some v ∧ CompleteJob v need.server need.job) ∨
      (need.ret = errorCjsonParse ∨ need.ret = errorCjsonFormat) ∧
        ¬ ∃ v server' job, tree = some v ∧ CompleteJob v server' job)

/-- The reader accepts what is complete exactly if whatever it finds is a string that fits, what it finds where
nothing is missing is under the very names and of two files or more, and it misses nothing of a complete job. -/
theorem acceptsComplete_iff (tree : Option Json.Value) (server : DataServerInfo) :
    AcceptsComplete tree server ↔
      ∀ v, tree = some v → FoundItems (.ofJson v) ∧
        (∀ server' job, FoundJob (.ofJson v) server' job →
          2 ≤ job.aSetOfFiles.length ∧ SpelledJob v server' job) ∧
        ((∃ server' job, CompleteJob v server' job) → ∃ server' job, FoundJob (.ofJson v) server' job) := by
  have hright : right ≠ errorCjsonParse ∧ right ≠ errorCjsonFormat := by decide
  cases tree with
  | none =>
    refine ⟨fun _ v hv => absurd hv.symm (Option.some_ne_none v), fun _ => ⟨_, rfl, Or.inr ⟨Or.inl rfl, ?_⟩⟩⟩
    rintro ⟨v, _, _, hv, -⟩
    cases hv
  | some v =>
    simp only [AcceptsComplete, Option.map_some, Option.some.injEq, exists_eq_left', exists_and_left, forall_eq']
    constructor
    · rintro ⟨need, hneed, hret⟩
      have hitems := foundItems_of_getJsonNeedXorFileInfo hneed
      refine ⟨hitems, ?_⟩
      obtain ⟨server', job, hjob, hcode⟩ | ⟨hnone, need', hcode, hformat⟩ :=
        getJsonNeedXorFileInfo_of_foundItems hitems server
      · obtain rfl := Option.some.inj (hneed.symm.trans hcode)
        obtain ⟨-, hcomplete⟩ | ⟨herror, -⟩ := hret
        · refine ⟨fun server'' job' hjob' => ?_, fun _ => ⟨server', job, hjob⟩⟩
          obtain ⟨rfl, rfl⟩ := hjob.unique hjob'
          exact ⟨hcomplete.two, hcomplete.toSpelledJob⟩
        · exact absurd herror (not_or.2 hright)
      · obtain rfl := Option.some.inj (hneed.symm.trans hcode)
        refine ⟨fun server' job hjob => absurd ⟨server', job, hjob⟩ hnone, fun hcomplete => ?_⟩
        obtain ⟨hret, -⟩ | ⟨-, hnot⟩ := hret
        · exact absurd (hret.symm.trans hformat) hright.2
        · exact absurd hcomplete hnot
    · rintro ⟨hitems, hspelled, hfound⟩
      obtain ⟨server', job, hjob, hcode⟩ | ⟨hnone, need, hcode, hformat⟩ :=
        getJsonNeedXorFileInfo_of_foundItems hitems server
      · obtain ⟨htwo, hjob⟩ := hspelled server' job hjob
        exact ⟨_, hcode, Or.inl ⟨rfl, hjob, htwo⟩⟩
      · exact ⟨need, hcode, Or.inr ⟨Or.inr hformat, fun hcomplete => hnone (hfound hcomplete)⟩⟩

/-- A job of one file. -/
def oneFileJob : Json.Value :=
  .object [(lit "data_server_ip", .string (lit "10.0.0.7")), (lit "data_server_port", .string (lit "8080")),
    (lit "data_server_method", .string (lit "file")), (lit "output_file_name", .string (lit "o")),
    (lit "file_name_total", .array [.object [(lit "file_path", .string (lit "a"))]])]

/-- The job of one file is accepted, and a number for the address is used as a string. -/
theorem not_acceptsComplete :
    ¬ AcceptsComplete (some oneFileJob) ⟨[], [], []⟩ ∧
      getJsonNeedXorFileInfo (some (.ofJson (.object [(lit "data_server_ip", .number (lit "5"))]))) ⟨[], [], []⟩ =
        none := by
  refine ⟨?_, by decide +kernel⟩
  rintro ⟨need, hneed, hret⟩
  have hcode : getJsonNeedXorFileInfo (some (.ofJson oneFileJob)) ⟨[], [], []⟩ =
      some ⟨right, ⟨lit "10.0.0.7", lit "8080", lit "file"⟩, ⟨[lit "a"], lit "o"⟩⟩ := by decide +kernel
  obtain rfl := Option.some.inj (hneed.symm.trans hcode)
  obtain ⟨-, v, -, hjob⟩ | ⟨herror, -⟩ := hret
  · exact absurd hjob.two (by decide)
  · exact absurd herror (by decide)

end ORaidServer
