import CrdtRedis.Design.AddwinRefine
import CrdtRedis.Design.RmvwinRpq
import CrdtRedis.Design.RwfList
import CrdtRedis.Design.RwfRpqSec
import CrdtRedis.LeidInt
import CrdtRedis.ListFits
import CrdtRedis.ListFrame
import CrdtRedis.ListWrites
import CrdtRedis.Net.QueueCluster
import CrdtRedis.OZset.Argv
import CrdtRedis.OZset.Selection
import CrdtRedis.P2p.Clocks
import CrdtRedis.P2p.Replicas
import CrdtRedis.QueueWrites
import CrdtRedis.RList.Attributes
import CrdtRedis.RList.Length
import CrdtRedis.RemoveHistory
import CrdtRedis.RemoveWinRuns
import CrdtRedis.Zset.Queue
