import SlateDB.Types
import SlateDB.Go
import SlateDB.GoPath
import SlateDB.SortedRun
import SlateDB.SortedRunIterator
import SlateDB.SSTable
import SlateDB.TableStore
import SlateDB.FilterCache
import SlateDB.DBState
import SlateDB.Flush
import SlateDB.MemtableFlush
import SlateDB.MemtableFlushTask
import SlateDB.FlushMachine
import SlateDB.SoloFlushers
import SlateDB.ConcurrentFlushers
import SlateDB.WalFlushTask
import SlateDB.RecoveryWatermark
import SlateDB.Manifest
