import Beanstalkd.Engine.Kick
import Beanstalkd.Engine.Tick
import Beanstalkd.Proto.Reply
import Beanstalkd.Raft.Bootstrap
import Beanstalkd.Raft.Removal
import Beanstalkd.Raft.Wire
import Beanstalkd.Raft.LeaderCompleteness
import Beanstalkd.Raft.ExactlyOnce
import Beanstalkd.Raft.GroupCommit
import Beanstalkd.Raft.SnapshotReceive
import Beanstalkd.Raft.SnapshotCommit
import Beanstalkd.Server.Conn
import Beanstalkd.Server.ConnSpace
import Beanstalkd.Server.Accept
import Beanstalkd.Store.Reserve
import Beanstalkd.Server.LossWindow
import Beanstalkd.Raft.LogCrash
