import PittCs.Rcdb.PageStore
import PittCs.Rcdb.LockOwnership
import PittCs.Rcdb.SchedulerDeadlock
import PittCs.Rcdb.SchedulerProcesses
import PittCs.Rcdb.SchedulerOrder
import PittCs.Chat.Convergence
import PittCs.Chat.CrashPoints
import PittCs.Rcdb.TableRefines
import PittCs.Ncp.Chunks
import PittCs.Stream.RtRcv
import PittCs.Hefty.Xgcd
import PittCs.Overlay.ShortestPaths
import PittCs.MallocLab.Client
import PittCs.Cs1501.CarsMinima
import PittCs.Cs1699.HuffmanCorrect
import PittCs.Cs1699.CalcAgree
import PittCs.Cs1550.OptAccess
import PittCs.Cs1550.SemaphorePermits
import PittCs.Cs1550.SemaphoreClose
import PittCs.Cs1550.MuseumPairs
import PittCs.Cs1550.MuseumProgress
import PittCs.Cs1520.Chat
import PittCs.Cs1657.Packet
import PittCs.Cs445.Client
import PittCs.Rcdb.SchedulerTermination
import PittCs.Rcdb.BloomHash
import PittCs.Rcdb.ColumnBufferSlots
import PittCs.Rcdb.RoundRobin
import PittCs.Chat.BackupFiles
import PittCs.Chat.ActiveUsers
import PittCs.Ncp.GapExact
import PittCs.Hefty.Equals
import PittCs.Cs1501.BstCopy
import PittCs.CacheLab.SecondAccess
import PittCs.QueueLab.Refines
import PittCs.Ncp.DataPath
import PittCs.Ncp.ConnQueue
import PittCs.Stream.RtSrv
import PittCs.Ncp.Incoming
import PittCs.Overlay.Forwarding
import PittCs.Cs1501.LatencyPath
import PittCs.Cs1501.BstSerialize
import PittCs.Cs2210.LayoutExact
import PittCs.Cs1501.AutoCompleter
import PittCs.Cs1501.Kruskal
import PittCs.Cs1501.TwoVertFail
import PittCs.Cs1699.Bst
import PittCs.Cs1699.Sorting
import PittCs.Cs1699.Wordle
import PittCs.Cs2210.StringTable
import PittCs.Cs1550.MuseumSpurious
import PittCs.Cs445.ListProgram
import PittCs.Cs445.PhraseSearch
import PittCs.Cs445.SortersCorrect
import PittCs.Cs445.SimBankTurns
import PittCs.Cs1501.UnionFindRuns
import PittCs.Ncp.RcvBuffer
