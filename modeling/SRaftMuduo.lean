import SRaftMuduo.Cluster.Writes
import SRaftMuduo.Cluster.Reads
import SRaftMuduo.Cluster.Validity
import SRaftMuduo.Cluster.Failures
import SRaftMuduo.Cluster.Client
import SRaftMuduo.Cluster.LogTerms
import SRaftMuduo.Cluster.Bookkeeping
import SRaftMuduo.Cluster.Counting
import SRaftMuduo.Cluster.Following
import SRaftMuduo.Cluster.Lookups
import SRaftMuduo.Cluster.Overlap
import SRaftMuduo.Cluster.Restriction
import SRaftMuduo.Cluster.Sending
import SRaftMuduo.Raft.Consistency
import SRaftMuduo.Raft.NewerTerm
import SRaftMuduo.Store.Encoding
import SRaftMuduo.Muduo.BufferQueue
import SRaftMuduo.Muduo.EventLoop
import SRaftMuduo.Muduo.Lifecycle
import SRaftMuduo.Muduo.Shutdown
import SRaftMuduo.Muduo.Reserve
import SRaftMuduo.Muduo.ThreadPool
import SRaftMuduo.Muduo.Interest
import SRaftMuduo.Muduo.Notifications
import SRaftMuduo.Muduo.SendBuffer
import SRaftMuduo.Muduo.LoopThread
import SRaftMuduo.Cluster.Answers
import SRaftMuduo.Store.Skvclient
import SRaftMuduo.Raft.Crash
import SRaftMuduo.Store.Receiver
import SRaftMuduo.Muduo.EchoServer
import SRaftMuduo.Muduo.Teardown
import SRaftMuduo.Cluster.Bytes
import SRaftMuduo.Cluster.Recovery
import SRaftMuduo.Cluster.Heartbeats
import SRaftMuduo.Muduo.Thread
import SRaftMuduo.Cluster.Alone
