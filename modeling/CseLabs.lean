import CseLabs.LockCache.Assertions
import CseLabs.LockCache.Spurious
import CseLabs.TwoPhase.Serializable
import CseLabs.TwoPhase.Deadlock
import CseLabs.TwoPhase.Bounds
import CseLabs.TwoPhase.Refusals
import CseLabs.TwoPhase.Search
import CseLabs.Occ.Conflicts
import CseLabs.Ydb.Independence
import CseLabs.Rpc.Forgotten
import CseLabs.Rpc.Acknowledged
import CseLabs.Rpc.Deadlines
import CseLabs.InodeManager.Leaks
import CseLabs.Yfs.NoLostUpdate
import CseLabs.Yfs.UniqueNames
import CseLabs.Wire.Exact
import CseLabs.ExtentService.Transparent
import CseLabs.ExtentService.AllOrNothing
import CseLabs.ExtentService.Exhausted
import CseLabs.Wire.Bounds
import CseLabs.Stream.Bounds
import CseLabs.Stream.Framing
import CseLabs.Directory.Scan
import CseLabs.Yfs.ByteArray
import CseLabs.Yfs.NameMap
import CseLabs.Yfs.Alone
import CseLabs.ThrPool.Destroy
import CseLabs.PollMgr.Pipe
import CseLabs.Connections.Senders
import CseLabs.Rpcs.Lifetimes
import CseLabs.Fuse.Listing
