import CaNameserver.Accounting
import CaNameserver.OneSearch
import CaNameserver.Integrity
import CaNameserver.Coupling
import CaNameserver.Address
import CaNameserver.Migration
import CaNameserver.Interleaving
import CaNameserver.Comments
import CaNameserver.DenyFrom
import CaNameserver.Reload
import CaNameserver.Rollback
import CaNameserver.PurgePass
import CaNameserver.DenyScope
import CaNameserver.WholeName
import CaNameserver.FieldSuffix
import CaNameserver.FinalNewline
import CaNameserver.ReloadGap
import CaNameserver.IocName
import CaNameserver.ReserveFd
import CaNameserver.MatchVector
import CaNameserver.PvlistBuffers
import CaNameserver.RuleLines
import CaNameserver.DirectoryFile
import CaNameserver.NameBuffers
import CaNameserver.LoaderBuffers
import CaNameserver.RecoveryOrder
import CaNameserver.FixedSite
import CaNameserver.Stability
import CaNameserver.SearchAccounts
import CaNameserver.PendingAge
import CaNameserver.Progress
import CaNameserver.Freshness
import CaNameserver.Restarter
import CaNameserver.LogFile
import CaNameserver.CommandLine
import CaNameserver.Asked
import CaNameserver.GateStore
