import HuiRpc.Iovector
import HuiRpc.Lib.Blocks
import HuiRpc.Lib.Runs
import HuiRpc.Serializer
import HuiRpc.Packetise
import HuiRpc.PieceCount
import HuiRpc.Packets
import HuiRpc.Pkthdr
import HuiRpc.TxBurst
import HuiRpc.WireMsg
import HuiRpc.TxMsg
import HuiRpc.Client
import HuiRpc.Server
import HuiRpc.Session
import HuiRpc.SlotProtocol
import HuiRpc.Extract
import HuiRpc.RoundTrip
import HuiRpc.SlotSteps
import HuiRpc.SessionInv
import HuiRpc.SessionSteps
import HuiRpc.Rpcs
import HuiRpc.ServerOrder
import HuiRpc.ClientOrder
import HuiRpc.Lib.Circular
import HuiRpc.RxRing
import HuiRpc.Sm
import HuiRpc.SmInv
import HuiRpc.SmRuns
import HuiRpc.SmWorld
import HuiRpc.SmSteps
import HuiRpc.SmAgree
import HuiRpc.Dispatch
import HuiRpc.ReqNum
import HuiRpc.MsgLimit
import HuiRpc.Replay
import HuiRpc.BgHandlers
import HuiRpc.Lib.Forests
import HuiRpc.Nested
import HuiRpc.HugeAlloc
import HuiRpc.Lib.Extents
import HuiRpc.AllocRuns
import HuiRpc.AllocClasses
import HuiRpc.Lib.Chains
import HuiRpc.TimingWheel
import HuiRpc.WheelRuns
import HuiRpc.SmPending
import HuiRpc.SmThread
import HuiRpc.Pmica
import HuiRpc.PmicaRefine
import HuiRpc.Lib.Pmem
import HuiRpc.RedoLog
import HuiRpc.PmemLog
import HuiRpc.Heartbeat
import HuiRpc.SerializerIov
import HuiRpc.Smr
import HuiRpc.SendQueue
import HuiRpc.SgeRows
import HuiRpc.TxBatch
import HuiRpc.PreResp
import HuiRpc.ReqAssembly
import HuiRpc.RespOwner
import HuiRpc.Retransmit
import HuiRpc.WheelTx
import HuiRpc.TxStamps
import HuiRpc.TxTimes
import HuiRpc.Lib.Queues
import HuiRpc.RpcQueues
import HuiRpc.RpcRuns
import HuiRpc.ExtractForms
import HuiRpc.ExtractRuns
import HuiRpc.Memcpy
import HuiRpc.MemcpyForms
import HuiRpc.Slice
import HuiRpc.FlatLog
import HuiRpc.SessionUri
import HuiRpc.RecvRing
import HuiRpc.Reset
import HuiRpc.SmDestroy
import HuiRpc.HeartbeatQueue
import HuiRpc.Lib.Buckets
import HuiRpc.PmicaLayout
import HuiRpc.QpOwnership
import HuiRpc.WheelOrder
import HuiRpc.IovectorPush
import HuiRpc.IovectorBounds
import HuiRpc.AppendEntries
import HuiRpc.ProtoGen
import HuiRpc.Lib.Peel
import HuiRpc.Latency
import HuiRpc.Pacing
