import Iouring.Machine
import Iouring.Counter
import Iouring.Search
import Iouring.CursorFile
import Iouring.Bytes
import Iouring.SubmitQueue
import Iouring.SubmitSteps
import Iouring.EnterExclusion
import Iouring.EnterWaits
import Iouring.CallsEnd
import Iouring.SubmitLaws
import Iouring.EntryBytes
import Iouring.SlotReuse
import Iouring.SubmitSolo
import Iouring.WakeUp
import Iouring.SqPoll
import Iouring.SubmitCounters
import Iouring.SubmitRounds
import Iouring.Prepare
import Iouring.Abi
import Iouring.ArrayArguments
import Iouring.PrepareCalls
import Iouring.PrepareFailures
import Iouring.PrepareSteps
import Iouring.ReturnedIds
import Iouring.UserData
import Iouring.CompletionQueue
import Iouring.Completer
import Iouring.CompleterRuns
import Iouring.SlotLoops
import Iouring.EntryBy
import Iouring.Ring
import Iouring.RingSteps
import Iouring.OnEntry
import Iouring.OnEntryHead
import Iouring.OnEntrySteps
import Iouring.Requests
import Iouring.CompleteCalls
import Iouring.CqHead
import Iouring.CqDrain
import Iouring.OneCaller
import Iouring.RunReturns
import Iouring.Blocking
import Iouring.BlockingRuns
import Iouring.BlockingEnds
import Iouring.RunSubmits
import Iouring.Submitter
import Iouring.MmapRing
import Iouring.MmapUsable
import Iouring.Mappings
import Iouring.Stop
import Iouring.RingFio
import Iouring.FioScan
import Iouring.FioResults
import Iouring.ResultPaths
import Iouring.FioAcks
import Iouring.FioJams
import Iouring.FioCursor
import Iouring.FileIo
import Iouring.FileRefines
import Iouring.FioCalls
import Iouring.Cp
import Iouring.FioSeek
import Iouring.FioSession
import Iouring.FioPositional
import Iouring.FileRegistry
import Iouring.RegistryCalls
import Iouring.SockoptListener
import Iouring.ListenerSockets
import Iouring.ListenerAddress
import Iouring.ListenerOpens
import Iouring.Listener
import Iouring.ListenerWalk
import Iouring.ListenerFull
import Iouring.ListenerConns
import Iouring.ListenerPolls
import Iouring.EntryByRuns
import Iouring.ConnStop
import Iouring.ConnCalls
