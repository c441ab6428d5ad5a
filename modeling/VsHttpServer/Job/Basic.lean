import VsHttpServer.CString

/-!
# The state of a connection's parser

The fields of `CJob` that the parser and the response writer use. A pointer
into `m_read_buf` (`m_url`, `m_version`, `m_host`) is its offset in the buffer,
`none` being the null pointer. The size of `m_read_buf` is a parameter, which is
`READ_BUFFER_SIZE` where nothing is said. The file system is a fixed function of
the path (`FileSystem`).

* `CJob.init`: what `CJob::init()` resets; it leaves `m_request`,
  `m_file_address` and `m_file_stat` as they are;
* `CJob.holding`: a freshly initialised job with given bytes in its buffer;
* `CJob.append`: bytes received at `m_read_buf + m_read_idx`, the way the
  commented-out `CJob::read` did.
-/

namespace VsHttpServer

open CString

def filenameLen : Nat := 200
def readBufferSize : Nat := 2048
def writeBufferSize : Nat := 1024

inductive Method
  | get | post | head | put | delete | trace | options | connect | patch
  deriving DecidableEq, Inhabited, Repr

inductive CheckState
  | requestLine | header | content
  deriving DecidableEq, Inhabited, Repr

inductive HttpCode
  | noRequest | getRequest | headRequest | postRequest | putRequest | deleteRequest
  | traceRequest | optionsRequest | connectRequest | patchRequest | badRequest
  | noResource | forbiddenRequest | fileRequest | internalError | closedConnection
  deriving DecidableEq, Inhabited, Repr

inductive LineStatus
  | lineOk | lineBad | lineOpen
  deriving DecidableEq, Inhabited, Repr

def docRoot : List UInt8 := ascii "/mnt/hgfs/linux_study"

/-- What `stat` reports: the fields of `struct stat` the server reads. -/
structure FileStat where
  mode : Nat
  size : Int
  deriving DecidableEq, Inhabited, Repr

/-- `S_IROTH`. -/
def FileStat.othersRead (s : FileStat) : Bool := s.mode.testBit 2

/-- `S_ISDIR`. -/
def FileStat.isDir (s : FileStat) : Bool := s.mode &&& 0o170000 = 0o040000

/-- What `m_file_address` points to. -/
inductive FileAddress
  | unset
  | null
  | mapFailed
  | mapped (bytes : List UInt8)
  deriving DecidableEq, Inhabited, Repr

/-- The outcomes of `stat`, `open` and `mmap`, for each path. -/
structure FileSystem where
  stat : List UInt8 → Option FileStat
  /-- The content of the file, when it can be opened for reading. -/
  openRead : List UInt8 → Option (List UInt8)
  /-- The mapping of the descriptor (`none` being `-1`) over the given size. -/
  mmap : Option (List UInt8) → Int → FileAddress
  deriving Inhabited

/-- The fields of `CJob`, with a buffer of `size` bytes. -/
structure CJob (size : Nat := readBufferSize) where
  readBuf : CharArray size
  readIdx : Nat
  checkedIdx : Nat
  startLine : Nat
  writeBuf : CharArray writeBufferSize
  writeIdx : Nat
  checkState : CheckState
  method : Method
  request : HttpCode
  realFile : CharArray filenameLen
  url : Option Nat
  version : Option Nat
  host : Option Nat
  contentLength : Int
  linger : Bool
  fileAddress : FileAddress
  fileStat : FileStat
  deriving Inhabited

namespace CJob

variable {N : Nat}

/-- `CJob::init()`. -/
def init (j : CJob N) : CJob N :=
  { j with
    checkState := .requestLine
    linger := false
    method := .get
    url := none
    version := none
    contentLength := 0
    host := none
    startLine := 0
    checkedIdx := 0
    readIdx := 0
    writeIdx := 0
    readBuf := .zero N
    writeBuf := .zero writeBufferSize
    realFile := .zero filenameLen }

/-- The job after `s` was received at `m_read_buf + m_read_idx`. -/
def append (j : CJob N) (s : List UInt8) : CJob N :=
  { j with
    readBuf := j.readBuf.copy j.readIdx s
    readIdx := j.readIdx + s.length }

/-- A freshly initialised job with `B` in its buffer. -/
def holding (j : CJob N) (B : List UInt8) : CJob N := j.init.append B

/-- The text `m_url` points to. -/
def urlText (j : CJob N) : Option (List UInt8) := j.url.map j.readBuf.str

end CJob

end VsHttpServer
