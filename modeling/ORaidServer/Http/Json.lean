import ORaidServer.Basic
import ORaidServer.Lib.CString

/-!
# The job in a request

`get_json_need_xor_file_info` of `json.cpp`, which takes the files of a job, its output file and the data
server from the JSON text of a request.  The text is parsed by a library; `CJson` is what it hands back.
-/

namespace ORaidServer

open CString

/-- An item of a parsed JSON text: a string, or anything else with the items that it consists of, which have
names in an object and none in an array. -/
inductive CJson
  | string (valuestring : List Byte)
  | other (children : List (Option (List Byte) × CJson))

namespace CJson

/-- `valuestring`, with `none` for the null pointer. -/
def valuestring : CJson → Option (List Byte)
  | string s => some s
  | other _ => none

/-- The items in an array or object. -/
def children : CJson → List (Option (List Byte) × CJson)
  | string _ => []
  | other l => l

end CJson

/-- `tolower` -/
def toLower (b : Byte) : Byte := if 65 ≤ b.toNat ∧ b.toNat ≤ 90 then b + 32 else b

/-- `cJSON_GetObjectItem(object, string)`: the first item of that name, without regard to case. -/
def cJSON_GetObjectItem (object : CJson) (string : List Byte) : Option CJson :=
  (object.children.find? fun c => c.1.map (·.map toLower) = some (string.map toLower)).map Prod.snd

/-- `tDataServerInfo` -/
structure DataServerInfo where
  dataServerIp : List Byte
  dataServerPort : List Byte
  dataServerMethod : List Byte
  deriving DecidableEq, Repr

/-- The files to read and the file to write. -/
structure XorJob where
  aSetOfFiles : List (List Byte)
  outputFileName : List Byte
  deriving DecidableEq, Repr

/-- What `get_json_need_xor_file_info` leaves behind: its result, the data server, the job. -/
structure NeedXor where
  ret : ℤ
  server : DataServerInfo
  job : XorJob
  deriving DecidableEq, Repr

/-- `strcpy` of the string of that name to an array of `size` bytes that holds `old`; where there is no such
item the array stays and the error is noted.  `none` where memory outside an array is accessed. -/
def copyItem (json : CJson) (string : String) (size : ℕ) (old : List Byte) :
    Option (List Byte × Bool) :=
  match cJSON_GetObjectItem json (lit string) with
  | none => some (old, false)
  | some item => (item.valuestring.bind (strcpy size)).map fun s => (s, true)

/-- What an array holds before matters only where the item is missing. -/
theorem copyItem_eq (json : CJson) (string : String) (size : ℕ) (old : List Byte) :
    copyItem json string size old =
      (copyItem json string size []).map fun (s, found) => (if found then s else old, found) := by
  unfold copyItem
  cases cJSON_GetObjectItem json (lit string) with
  | none => rfl
  | some item =>
    dsimp only
    cases item.valuestring.bind (strcpy size) <;> rfl

/-- The loop on the items of `file_name_total`: the paths, and whether each item has one. -/
def filePaths : List CJson → Option (List (List Byte) × Bool)
  | [] => some ([], true)
  | object :: rest =>
    match cJSON_GetObjectItem object (lit "file_path") with
    | none => (filePaths rest).map fun (paths, _) => (paths, false)
    | some item =>
      item.valuestring.bind fun path => (filePaths rest).map fun (paths, ok) => (path :: paths, ok)

/-- The paths of `file_name_total`. -/
def fileNameTotal (json : CJson) : Option (List (List Byte) × Bool) :=
  match cJSON_GetObjectItem json (lit "file_name_total") with
  | none => some ([], false)
  | some arrayItem => filePaths (arrayItem.children.map Prod.snd)

/-- `get_json_need_xor_file_info(info, a_set_of_files, output_file_name)` on the parsed text, with the data
server that is known before. -/
def getJsonNeedXorFileInfo (json : Option CJson) (server : DataServerInfo) : Option NeedXor :=
  match json with
  | none => some ⟨errorCjsonParse, server, ⟨[], []⟩⟩
  | some json =>
    (copyItem json "data_server_ip" 32 server.dataServerIp).bind fun ip =>
    (copyItem json "data_server_port" 16 server.dataServerPort).bind fun port =>
    (copyItem json "data_server_method" 128 server.dataServerMethod).bind fun method =>
    (copyItem json "output_file_name" 1024 []).bind fun output =>
    (fileNameTotal json).map fun paths =>
      ⟨if ip.2 && port.2 && method.2 && output.2 && paths.2 then right else errorCjsonFormat,
        ⟨ip.1, port.1, method.1⟩, ⟨paths.1, output.1⟩⟩

/-- Either it fails, with a negative code, or everything it leaves behind comes from the text.  The data
server known before decides neither whether it fails nor how. -/
theorem getJsonNeedXorFileInfo_cases (json : Option CJson) (server server' : DataServerInfo) :
    (getJsonNeedXorFileInfo json server = none ∧ getJsonNeedXorFileInfo json server' = none) ∨
      ∃ need need', getJsonNeedXorFileInfo json server = some need ∧
        getJsonNeedXorFileInfo json server' = some need' ∧
        (need.ret = right ∧ need' = need ∨ need.ret < 0 ∧ need'.ret = need.ret) := by
  cases json with
  | none => exact Or.inr ⟨_, _, rfl, rfl, Or.inr ⟨by show errorCjsonParse < 0; decide, rfl⟩⟩
  | some json =>
    unfold getJsonNeedXorFileInfo
    dsimp only
    rw [copyItem_eq json _ _ server.dataServerIp, copyItem_eq json _ _ server'.dataServerIp,
      copyItem_eq json _ _ server.dataServerPort, copyItem_eq json _ _ server'.dataServerPort,
      copyItem_eq json _ _ server.dataServerMethod, copyItem_eq json _ _ server'.dataServerMethod]
    cases copyItem json "data_server_ip" 32 [] with
    | none => exact Or.inl ⟨rfl, rfl⟩
    | some ip =>
    cases copyItem json "data_server_port" 16 [] with
    | none => exact Or.inl ⟨rfl, rfl⟩
    | some port =>
    cases copyItem json "data_server_method" 128 [] with
    | none => exact Or.inl ⟨rfl, rfl⟩
    | some method =>
    cases copyItem json "output_file_name" 1024 [] with
    | none => exact Or.inl ⟨rfl, rfl⟩
    | some output =>
    cases fileNameTotal json with
    | none => exact Or.inl ⟨rfl, rfl⟩
    | some paths =>
      refine Or.inr ⟨_, _, rfl, rfl, ?_⟩
      dsimp only
      by_cases hall : (ip.2 && port.2 && method.2 && output.2 && paths.2) = true
      · simp only [Bool.and_eq_true] at hall
        obtain ⟨⟨⟨⟨hip, hport⟩, hmethod⟩, houtput⟩, hpaths⟩ := hall
        simp [hip, hport, hmethod, houtput, hpaths]
      · refine Or.inr ⟨?_, rfl⟩
        rw [if_neg hall]
        decide

end ORaidServer
