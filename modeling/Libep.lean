import Libep.Verify.Ep.Hangs
import Libep.Verify.Ep.Log
import Libep.Verify.Ep.Mailbox
import Libep.Verify.Ep.Removed
import Libep.Verify.Ep.Sleep
import Libep.Verify.Ep.Wakes
import Libep.Verify.Kqueue.Filters
import Libep.Verify.ListHead.Run
import Libep.Verify.SinglyList.Splice
import Libep.Verify.SkipList.RangeCut
import Libep.Verify.SkipList.Run
import Libep.Verify.SkipList.Shift
import Libep.Verify.Sock.Io
import Libep.Verify.Sock.Server
import Libep.Verify.TaskQueue.Keep
import Libep.Verify.Timer.Clear
import Libep.Verify.Timer.Early
import Libep.Verify.Timer.Order
import Libep.Verify.Timer.Waittime
