import DistributedLabs.Lib.Completeness
import DistributedLabs.Raft.LogShape
import DistributedLabs.Raft.Stability
import DistributedLabs.Raft.Backup
import DistributedLabs.Raft.Acknowledged
import DistributedLabs.Raft.LogMatching
import DistributedLabs.Raft.Replies
import DistributedLabs.Raft.Progress
import DistributedLabs.Raft.Tally
import DistributedLabs.Raft.Terms
import DistributedLabs.Raft.Drivers
import DistributedLabs.Models.Kv
import DistributedLabs.MapReduce.Equivalence
import DistributedLabs.MapReduce.Publication
import DistributedLabs.MapReduce.LateReports
import DistributedLabs.Labrpc.Fencing
import DistributedLabs.Labgob.Capitalization
import DistributedLabs.Lib.EliminationSearch
import DistributedLabs.Porcupine.Histories
import DistributedLabs.Porcupine.Parallel
import DistributedLabs.Porcupine.Operations
import DistributedLabs.Porcupine.Events
import DistributedLabs.Lib.Delivery
import DistributedLabs.MapReduce.Cluster
import DistributedLabs.MapReduce.ClusterOutput
import DistributedLabs.MapReduce.Punctual
import DistributedLabs.MapReduce.Apps
import DistributedLabs.Raft.Applied
import DistributedLabs.Raft.Tester
import DistributedLabs.Raft.OneLeader
import DistributedLabs.Crawler.Serial
import DistributedLabs.Crawler.Channel
