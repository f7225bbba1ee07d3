import ORaidServer.Basic
import ORaidServer.Stdio
import ORaidServer.Lib.ByteMem
import ORaidServer.Lib.CString
import ORaidServer.Lib.FileSystem
import ORaidServer.Lib.Guarded
import ORaidServer.Lib.Held
import ORaidServer.Lib.HttpClient
import ORaidServer.Lib.Interleave
import ORaidServer.Lib.Loop
import ORaidServer.Lib.Parity
import ORaidServer.Lib.Slots
import ORaidServer.Group.Types
import ORaidServer.Group.WriteBuf
import ORaidServer.Group.FileInv
import ORaidServer.Group.BufXor
import ORaidServer.Group.Judge
import ORaidServer.Group.Stream
import ORaidServer.Group.OneFile
import ORaidServer.Group.Count
import ORaidServer.Group.StreamInv
import ORaidServer.Group.Refine
import ORaidServer.Group.Coarse
import ORaidServer.Group.Pair
import ORaidServer.Group.Safety
import ORaidServer.Group.Progress
import ORaidServer.Group.Iteration
import ORaidServer.Group.Prompt
import ORaidServer.Group.InOrder
import ORaidServer.Group.PromptInv
import ORaidServer.Raid.SRiad
import ORaidServer.Raid.Accept
import ORaidServer.Raid.Correct
import ORaidServer.Raid.OpenFile
import ORaidServer.Raid.Terminate
import ORaidServer.Raid.Agree
import ORaidServer.Raid.Written
import ORaidServer.Http.Input
import ORaidServer.Http.Json
import ORaidServer.Http.Output
import ORaidServer.Http.Send
import ORaidServer.Http.Handler
import ORaidServer.Http.Request
import ORaidServer.Transfer.Exit
import ORaidServer.Transfer.Threads
import ORaidServer.Wire.Message
import ORaidServer.Wire.Callback
import ORaidServer.Wire.Receiver
import ORaidServer.Wire.Decode
import ORaidServer.Transfer.Release
import ORaidServer.Transfer.Quiesce
import ORaidServer.Transfer.Clients
import ORaidServer.Transfer.Alone
import ORaidServer.Raid.Untouched
import ORaidServer.Raid.Neutral
import ORaidServer.Lib.Json
import ORaidServer.Http.Job
import ORaidServer.Http.Nonlocal
import ORaidServer.Http.PreFlight
import ORaidServer.Http.Tables
import ORaidServer.Http.Bounds
import ORaidServer.Raid.Recover
import ORaidServer.Raid.Restore
import ORaidServer.Group.OneSegment
import ORaidServer.Group.Completion
import ORaidServer.Lib.Descriptors
import ORaidServer.Server.Process
import ORaidServer.Server.Accounts
import ORaidServer.Server.Leaks
import ORaidServer.Server.Stolen
import ORaidServer.Server.Transfers
import ORaidServer.Group.Same
import ORaidServer.Transfer.Network
import ORaidServer.Transfer.Remote
import ORaidServer.Http.Reply
import ORaidServer.Http.Start
import ORaidServer.Transfer.Own
import ORaidServer.Transfer.Watch
import ORaidServer.Group.Spill
