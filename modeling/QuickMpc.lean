import QuickMpc.Compare.BitConversion
import QuickMpc.Compare.Fp2Pf
import QuickMpc.Compare.Interval
import QuickMpc.Compare.Subprotocols
import QuickMpc.CondCount.WakeUp
import QuickMpc.ConfigParse
import QuickMpc.DbGate.DocumentKeys
import QuickMpc.DbGate.LockOrder
import QuickMpc.DbGate.LockTokens
import QuickMpc.DbGate.ResultStream
import QuickMpc.DbGate.UniqueKeys
import QuickMpc.DbGate.WriteOutcome
import QuickMpc.FloorGrid
import QuickMpc.Gbdt.SGBM
import QuickMpc.JobIdPool
import QuickMpc.JobResult
import QuickMpc.Math.Exp
import QuickMpc.MeshCode
import QuickMpc.Model.Regression
import QuickMpc.Model.SID3Model
import QuickMpc.Openings
import QuickMpc.PrimeField.SquareRoot
import QuickMpc.PublicDivision
import QuickMpc.Registration.Agreement
import QuickMpc.Registration.Upload
import QuickMpc.ShareIds
import QuickMpc.ShareOrder
import QuickMpc.ShareStream
import QuickMpc.SyncBarrier
import QuickMpc.TransactionQueue
import QuickMpc.ValueTable.JoinTable
import QuickMpc.ValueTable.RowOrder
