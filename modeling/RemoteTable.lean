import RemoteTable.Exec
import RemoteTable.Block
import RemoteTable.Heap
import RemoteTable.Entry
import RemoteTable.LinkedList
import RemoteTable.Table
import RemoteTable.HashIndex
import RemoteTable.TableSpec
import RemoteTable.Assoc
import RemoteTable.ListRuns
import RemoteTable.TableMap
import RemoteTable.TableRuns
import RemoteTable.Serialization
import RemoteTable.Rendering
import RemoteTable.Message
import RemoteTable.Stats
import RemoteTable.Skeleton
import RemoteTable.SkeletonSpec
import RemoteTable.RequestSafety
import RemoteTable.ReplyBytes
import RemoteTable.ServerRuns
import RemoteTable.ClientStub
import RemoteTable.KeyListing
import RemoteTable.PrintedTable
import RemoteTable.StubSafety
import RemoteTable.TableFrame
import RemoteTable.RequestOutcome
import RemoteTable.ReplyValues
import RemoteTable.RunningMean
import RemoteTable.StatsRuns
import RemoteTable.Transition
import RemoteTable.Tally
import RemoteTable.RwMutex
import RemoteTable.RwExclusion
import RemoteTable.InvokeLocks
import RemoteTable.LockProgress
import RemoteTable.DispatchThreads
import RemoteTable.SerialOrder
import RemoteTable.Socket
import RemoteTable.Framing
import RemoteTable.MessageStream
import RemoteTable.StreamEnd
import RemoteTable.ConnectionRelease
import RemoteTable.Redundancy
import RemoteTable.PrimaryAddress
import RemoteTable.AddressHandover
import RemoteTable.WatchRuns
import RemoteTable.TextNumbers
import RemoteTable.AddressParsing
import RemoteTable.Fields
import RemoteTable.CommandLoop
import RemoteTable.CommandSafety
import RemoteTable.CommandLines
import RemoteTable.Cells
import RemoteTable.RenderBounds
import RemoteTable.ServerDrains
import RemoteTable.ProtoWire
import RemoteTable.StubCalls
import RemoteTable.CallAnswers
import RemoteTable.RemoteClients
import RemoteTable.ClientSteps
import RemoteTable.ClientOrder
import RemoteTable.AnyClient
import RemoteTable.FailingCalls
import RemoteTable.Ownership
import RemoteTable.Pointers
import RemoteTable.PointerLists
import RemoteTable.PointerTables
import RemoteTable.PointerServer
import RemoteTable.PointerReplies
import RemoteTable.TableMirror
import RemoteTable.InvokeMirror
import RemoteTable.RoundMirror
import RemoteTable.ServerMemory
import RemoteTable.ServerFaults
