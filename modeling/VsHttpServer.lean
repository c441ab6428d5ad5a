import VsHttpServer.Job.Parse
import VsHttpServer.Job.Text
import VsHttpServer.Job.Line
import VsHttpServer.Job.ProcessRead
import VsHttpServer.Job.Head
import VsHttpServer.Job.Resume
import VsHttpServer.Job.Body
import VsHttpServer.Job.Receive
import VsHttpServer.Job.Frame
import VsHttpServer.Job.Write
import VsHttpServer.Job.Process
import VsHttpServer.Pool.Basic
import VsHttpServer.Pool.Main
import VsHttpServer.Pool.Worker
import VsHttpServer.Server
import VsHttpServer.Dispatch
import VsHttpServer.Job.Session
import VsHttpServer.Job.Linger
import VsHttpServer.Job.Request
import VsHttpServer.Job.Fresh
import VsHttpServer.Job.Framing
import VsHttpServer.Job.Isolation
import VsHttpServer.Job.Pipeline
import VsHttpServer.Job.Mirror
import VsHttpServer.Job.Path
import VsHttpServer.Wakeup
import VsHttpServer.Lifetime
import VsHttpServer.Job.Grammar
import VsHttpServer.Job.Named
import VsHttpServer.DoublyLinked
import VsHttpServer.MysqlPool
import VsHttpServer.Pool.Links
import VsHttpServer.Shutdown
import VsHttpServer.Closing
import VsHttpServer.Job.Completable
import VsHttpServer.Job.Stores
import VsHttpServer.Job.Parsing
import VsHttpServer.Job.Overrun
import VsHttpServer.Pool.Start
import VsHttpServer.Upstream
import VsHttpServer.Balance
import VsHttpServer.MysqlQuery
import VsHttpServer.DoubleChecked
import VsHttpServer.Instances
import VsHttpServer.Job.Evaluations
import VsHttpServer.Job.Pending
import VsHttpServer.Job.Scan
import VsHttpServer.Serial
import VsHttpServer.Serving
import VsHttpServer.Loops
import VsHttpServer.Pool.Leak
import VsHttpServer.Pool.Capacity
import VsHttpServer.Job.Client
import VsHttpServer.Delivery
import VsHttpServer.MysqlClient
import VsHttpServer.Backend
import VsHttpServer.Signals
import VsHttpServer.Sections
import VsHttpServer.PoolWaits
import VsHttpServer.Progress
import VsHttpServer.Hang
