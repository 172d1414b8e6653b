import Fusa.Server.QpnTable
import Fusa.Server.CasInterleaving
import Fusa.Rpc.Herd
import Fusa.Rpc.Linearizable
import Fusa.Agent.Refinement
import Fusa.Server.Admission
import Fusa.Agent.InFlight
import Fusa.Agent.Visibility
import Fusa.Agent.Barrier
import Fusa.Table.UpdateResize
import Fusa.Table.InsertResize
import Fusa.Table.LostUpdate
import Fusa.Table.StaleInsert
import Fusa.Smart.AllocSound
import Fusa.Driver.SendQueue
import Fusa.Driver.FailedOffload
import Fusa.Agent.ColdSlots
import Fusa.Agent.Budget
import Fusa.Agent.OldStrategies
import Fusa.Agent.BusiestSlot
import Fusa.Agent.ScanRound
import Fusa.Server.ReplyLoop
import Fusa.Server.HerdFaa
import Fusa.Steering.MatcherMask
import Fusa.Driver.RawSend
import Fusa.Driver.TagOwner
import Fusa.Table.BlockBytes
import Fusa.Smart.Credit
import Fusa.Smart.Backoff
import Fusa.Smart.BumpAlloc
import Fusa.Smart.TaskSwitch
import Fusa.Smart.Exchange
import Fusa.Table.DirectoryGrowth
import Fusa.Driver.InlineRecv
import Fusa.Driver.CqClean
import Fusa.Driver.Uidx
import Fusa.Driver.IntervalSet
import Fusa.Steering.SendRing
