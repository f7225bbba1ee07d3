import ORaidServer.Lib.ByteMem
import Mathlib.Data.Int.Notation

/-!
# Constants of the server

The return codes of `send_message.h` that the modelled functions return, and the sizes of the two
engines' buffers: `READ_SIZE` of `raid_all_file.cpp`, `MAXLINE` and `READ_BUF_SIZE` of
`get_data_client_file_data.h`, `CMD_LEN` and the command numbers of `file_info.h`.
-/

namespace ORaidServer

export ByteMem (Byte)

/-- `RIGHT` -/
def right : ℤ := 0

/-- `ERROR_FILE_PATH` -/
def errorFilePath : ℤ := -1

/-- `ERROR_FILE_SIZE` -/
def errorFileSize : ℤ := -2

/-- `ERROR_FILE_OPEN` -/
def errorFileOpen : ℤ := -3

/-- `ERROR_APPLY_MALLOC` -/
def errorApplyMalloc : ℤ := -4

/-- `ERROR_FREAD_FILE` -/
def errorFreadFile : ℤ := -5

/-- `ERROR_FWRITE_FILE` -/
def errorFwriteFile : ℤ := -6

/-- `ERROR_CJSON_PARSE` -/
def errorCjsonParse : ℤ := -7

/-- `ERROR_CJSON_FORMAT` -/
def errorCjsonFormat : ℤ := -8

/-- `ERROR_OUTPUT_FILE` -/
def errorOutputFile : ℤ := -9

/-- `ERROR_METHOD_NOT_FOUND` -/
def errorMethodNotFound : ℤ := -10

/-- `ERROR_XOR_FILE` -/
def errorXorFile : ℤ := -11

/-- `ERROR_FILE_NAME` -/
def errorFileName : ℤ := -21

/-- `ERROR_CREAT_TRANSMISSION_DATA_CONNECTION` -/
def errorCreatTransmissionDataConnection : ℤ := -101

/-- `ERROR_SEND_FILE_NAME_CLIENT` -/
def errorSendFileNameClient : ℤ := -103

/-- `READ_SIZE`, the bytes the local engine takes of each file in one round. -/
def readSize : ℕ := 4 * 1024 * 1024

/-- `MAXLINE`, the most bytes one `recv` delivers. -/
def maxline : ℕ := 2048000

/-- `READ_BUF_SIZE`, the bytes of each of the two buffers of a file. -/
def readBufSize : ℕ := 100 * 1024 * 1024

theorem readBufSize_pos : 0 < readBufSize := by decide

theorem maxline_le_readBufSize : maxline ≤ readBufSize := by decide

end ORaidServer
