-- SUMMARY: The hooked functions of Hook.cpp over the table of descriptors, the event table and any meaning of the underlying calls.
import MyCoroutine.FdManager
import MyCoroutine.Hook.DoIo

/-! # The hooked functions

Every function of `Hook.cpp` stands here under its own name. A `Call` is a call
with its arguments; it names the hooked function and the underlying one, `foo` and
`foo_f`, alike. What an underlying call returns and does to the descriptors is a
parameter, `Env.sys`. A function that goes on to wait says so in its reply, with
the timeout it waits for; the wait itself is `DoIo`. `none` is undefined
behaviour, such as an access outside `m_datas`, or a failed assertion. -/

namespace Hook

open IOManager (Trigger)

/-- A pointer, or another argument that a function only passes on. -/
abbrev Word := BitVec 64

/-! ## Calls -/

/-- The commands of `fcntl` that take an `int`, apart from `F_SETFL`. -/
inductive IntCmd where
  | dupfd
  | dupfdCloexec
  | setfd
  | setown
  | setsig
  | setlease
  | notify
  | setpipeSz
  deriving DecidableEq

/-- The commands that take nothing, apart from `F_GETFL`. -/
inductive GetCmd where
  | getfd
  | getown
  | getsig
  | getlease
  | getpipeSz
  deriving DecidableEq

inductive LockCmd where
  | setlk
  | setlkw
  | getlk
  deriving DecidableEq

inductive OwnerCmd where
  | getownEx
  | setownEx
  deriving DecidableEq

/-- A command of `fcntl` with the argument it takes. -/
inductive FcntlCmd where
  | setfl (arg : BitVec 32)
  | getfl
  | int (cmd : IntCmd) (arg : BitVec 32)
  | get (cmd : GetCmd)
  | lock (cmd : LockCmd) (arg : Word)
  | owner (cmd : OwnerCmd) (arg : Word)
  /-- A command that `Hook.cpp` does not name; it may take an argument. -/
  | other (cmd : Int) (arg : Option Word)
  deriving DecidableEq

inductive IoctlRequest where
  /-- `FIONBIO`, with the `int` that the argument points to, if it points to one. -/
  | fionbio (value : Option (BitVec 32))
  | other (request arg : Word)
  deriving DecidableEq

/-- What `optval` points to. -/
inductive OptVal where
  | timeval (sec usec : Int)
  | other (p : Word)
  deriving DecidableEq

inductive Call where
  | sleep (seconds : BitVec 32)
  | socket (domain type protocol : BitVec 32)
  | connect (fd : Int) (addr addrlen : Word)
  | accept (s : Int) (addr addrlen : Word)
  | read (fd : Int) (buf count : Word)
  | readv (fd : Int) (iov iovcnt : Word)
  | recv (sockfd : Int) (buf len flags : Word)
  | recvfrom (sockfd : Int) (buf len flags srcAddr addrlen : Word)
  | recvmsg (sockfd : Int) (msg flags : Word)
  | write (fd : Int) (buf count : Word)
  | writev (fd : Int) (iov iovcnt : Word)
  | send (s : Int) (msg len flags : Word)
  | sendto (s : Int) (msg len flags dest tolen : Word)
  | sendmsg (s : Int) (msg flags : Word)
  | close (fd : Int)
  | fcntl (fd : Int) (cmd : FcntlCmd)
  | ioctl (d : Int) (request : IoctlRequest)
  | getsockopt (sockfd level optname : Int) (optval optlen : Word)
  | setsockopt (sockfd level optname : Int) (optval : OptVal) (optlen : Word)
  deriving DecidableEq

/-! ## State -/

/-- What a call finds around it. -/
structure Env where
  /-- `t_hook_enable` of the thread. -/
  hookEnable : Bool
  /-- `IOManager::GetThis()` is not null. -/
  iom : Bool
  /-- What an underlying call returns, and the descriptors after it. -/
  sys : Call → Kernel → Int × Kernel
  /-- The answer of the kernel to an `epoll_ctl`. -/
  granted : Bool

structure Process where
  fdm : FdManager
  io : IOManager
  /-- The tasks that `cancalAll` pushed. -/
  pushed : List Trigger
  /-- The underlying calls made so far. -/
  trace : List Call

inductive Reply where
  /-- It returns `n`, with `errno` as the underlying call left it. -/
  | returns (n : Int)
  /-- It sets `errno` and returns -1. -/
  | fails (errno : Int)
  /-- It goes on to the calls and waits of `DoIo`. -/
  | loops (kind : DoIo.Kind) (event : IOManager.Event) (timeout : Int)
  /-- It arms a timer that schedules its fiber, yields, and returns 0. -/
  | sleeps (ms : Int)
  deriving DecidableEq

def ebadf : Int := 9

/-- `SOL_SOCKET`. -/
def solSocket : Int := 1

/-- `SO_SENDTIMEO`, as `FdManager.h` defines it. -/
def soSndtimeo : Int := 21

/-- `s_connect_timeout`, in milliseconds. -/
def connectTimeout : Int := 3000

end Hook

/-- `FdCtx::getTimeout`. -/
def FdCtx.getTimeout (c : FdCtx) (type : Int) : Int :=
  if type = soRcvtimeo then c.recvTimeout else c.sendTimeout

namespace Hook

namespace Process

/-- The underlying call `c`. -/
def make (e : Env) (c : Call) (p : Process) : Int × Process :=
  let r := e.sys c p.fdm.kernel
  (r.1, { p with fdm := { p.fdm with kernel := r.2 }, trace := p.trace ++ [c] })

/-- `FdMgr::GetInstance()->get(fd, auto_create)`. -/
def get (fd : Int) (autoCreate : Bool) (p : Process) : Option (Option CtxId × Process) :=
  if fd = -1 then some (none, p)
  else if fd < 0 then
    -- as an index, a negative descriptor is far beyond the end
    if Counting.intOfSize p.fdm.datas.length ≤ fd ∧ autoCreate = false then some (none, p) else none
  else
    let r := p.fdm.get fd.toNat autoCreate none
    if r.2.outOfBounds then none else some (r.1, { p with fdm := r.2 })

/-- What the pointer points to. -/
def ctx (p : Process) (id : CtxId) : Option FdCtx :=
  p.fdm.made[id]?

def update (id : CtxId) (u : FdCtx.Update) (p : Process) : Process :=
  { p with fdm := (p.fdm.call (.update id u)).2 }

end Process

/-- The underlying call alone. -/
def original (e : Env) (c : Call) (p : Process) : Option (Reply × Process) :=
  let r := p.make e c
  some (.returns r.1, r.2)

/-! ## The functions -/

section

variable (e : Env)

/-- `do_io`, up to its loop. -/
def doIo (fd : Int) (fn : Call) (event : IOManager.Event) (timeoutSo : Int) (p : Process) :
    Option (Reply × Process) :=
  if e.hookEnable = false then original e fn p
  else do
    let (ctx, p) ← p.get fd false
    match ctx with
    | none => original e fn p
    | some id =>
      let ctx ← p.ctx id
      if ctx.isClosed then return (.fails ebadf, p)
      else if ctx.isSocket = false ∨ ctx.userNoBlock then original e fn p
      else return (.loops .doIo event (ctx.getTimeout timeoutSo), p)

/-- `sleep`; the product is one of `unsigned int`. -/
def sleep (seconds : BitVec 32) (p : Process) : Option (Reply × Process) :=
  if e.hookEnable = false then original e (.sleep seconds) p
  else some (.sleeps (seconds * 1000).toNat, p)

def socket (domain type protocol : BitVec 32) (p : Process) : Option (Reply × Process) := do
  let (fd, p) := p.make e (.socket domain type protocol)
  if e.hookEnable = false ∨ fd = -1 then return (.returns fd, p)
  else
    let (_, p) ← p.get fd true
    return (.returns fd, p)

/-- `connect_with_timeout`, up to its wait. -/
def connectWithTimeout (fd : Int) (addr addrlen : Word) (timeoutMs : Int) (p : Process) :
    Option (Reply × Process) :=
  if e.hookEnable = false then original e (.connect fd addr addrlen) p
  else do
    let (ctx, p) ← p.get fd false
    match ctx with
    | none => return (.fails ebadf, p)
    | some id =>
      let ctx ← p.ctx id
      if ctx.isClosed then return (.fails ebadf, p)
      else if ctx.isSocket = false ∨ ctx.userNoBlock then original e (.connect fd addr addrlen) p
      else return (.loops .connectWithTimeout .write timeoutMs, p)

def connect (sockfd : Int) (addr addrlen : Word) : Process → Option (Reply × Process) :=
  connectWithTimeout e sockfd addr addrlen connectTimeout

/-- `accept` after `do_io` has returned `fd`. -/
def accepted (fd : Int) (p : Process) : Option (Reply × Process) := do
  if fd ≥ 0 then
    let (_, p) ← p.get fd true
    return (.returns fd, p)
  else return (.returns fd, p)

def accept (s : Int) (addr addrlen : Word) (p : Process) : Option (Reply × Process) := do
  let r ← doIo e s (.accept s addr addrlen) .read FdCtx.soRcvtimeo p
  match r.1 with
  | .returns fd => accepted fd r.2
  | .fails _ | .loops _ _ _ | .sleeps _ => return r

def read (fd : Int) (buf count : Word) : Process → Option (Reply × Process) :=
  doIo e fd (.read fd buf count) .read FdCtx.soRcvtimeo

def readv (fd : Int) (iov iovcnt : Word) : Process → Option (Reply × Process) :=
  doIo e fd (.readv fd iov iovcnt) .read FdCtx.soRcvtimeo

def recv (sockfd : Int) (buf len flags : Word) : Process → Option (Reply × Process) :=
  doIo e sockfd (.recv sockfd buf len flags) .read FdCtx.soRcvtimeo

def recvfrom (sockfd : Int) (buf len flags srcAddr addrlen : Word) :
    Process → Option (Reply × Process) :=
  doIo e sockfd (.recvfrom sockfd buf len flags srcAddr addrlen) .read FdCtx.soRcvtimeo

def recvmsg (sockfd : Int) (msg flags : Word) : Process → Option (Reply × Process) :=
  doIo e sockfd (.recvmsg sockfd msg flags) .read FdCtx.soRcvtimeo

def write (fd : Int) (buf count : Word) : Process → Option (Reply × Process) :=
  doIo e fd (.write fd buf count) .write soSndtimeo

def writev (fd : Int) (iov iovcnt : Word) : Process → Option (Reply × Process) :=
  doIo e fd (.writev fd iov iovcnt) .write soSndtimeo

def send (s : Int) (msg len flags : Word) : Process → Option (Reply × Process) :=
  doIo e s (.send s msg len flags) .write soSndtimeo

def sendto (s : Int) (msg len flags dest tolen : Word) : Process → Option (Reply × Process) :=
  doIo e s (.sendto s msg len flags dest tolen) .write soSndtimeo

def sendmsg (s : Int) (msg flags : Word) : Process → Option (Reply × Process) :=
  doIo e s (.sendmsg s msg flags) .write soSndtimeo

def close (fd : Int) (p : Process) : Option (Reply × Process) :=
  if e.hookEnable = false then original e (.close fd) p
  else do
    let (ctx, p) ← p.get fd false
    match ctx with
    | none => original e (.close fd) p
    | some _ =>
      let p ←
        if e.iom then
          (p.io.cancalAll fd.toNat e.granted).map fun r =>
            { p with io := r.2.2, pushed := p.pushed ++ r.2.1 }
        else some p
      original e (.close fd) { p with fdm := p.fdm.del fd.toNat }

/-- `fcntl`. It does not look at `t_hook_enable`. -/
def fcntl (fd : Int) (cmd : FcntlCmd) (p : Process) : Option (Reply × Process) :=
  match cmd with
  | .setfl arg => do
    let (ctx, p) ← p.get fd false
    match ctx with
    | none => original e (.fcntl fd (.setfl arg)) p
    | some id =>
      let ctx ← p.ctx id
      if ctx.isClosed ∨ ctx.isSocket = false then original e (.fcntl fd (.setfl arg)) p
      else
        let p := p.update id (.setUserNoBlock (arg &&& oNonblock ≠ 0))
        let arg := if ctx.sysNoBlock then arg ||| oNonblock else arg &&& ~~~oNonblock
        original e (.fcntl fd (.setfl arg)) p
  | .getfl => do
    let (n, p) := p.make e (.fcntl fd .getfl)
    let arg := BitVec.ofInt 32 n
    let (ctx, p) ← p.get fd false
    match ctx with
    | none => return (.returns n, p)
    | some id =>
      let ctx ← p.ctx id
      if ctx.isClosed ∨ ctx.isSocket = false then return (.returns n, p)
      else if ctx.userNoBlock then return (.returns (arg ||| oNonblock).toInt, p)
      else return (.returns (arg &&& ~~~oNonblock).toInt, p)
  | .int cmd arg => original e (.fcntl fd (.int cmd arg)) p
  | .get cmd => original e (.fcntl fd (.get cmd)) p
  | .lock cmd arg => original e (.fcntl fd (.lock cmd arg)) p
  | .owner cmd arg => original e (.fcntl fd (.owner cmd arg)) p
  -- `default` passes no argument on
  | .other cmd _ => original e (.fcntl fd (.other cmd none)) p

/-- `ioctl`. It does not look at `t_hook_enable` either. -/
def ioctl (d : Int) (request : IoctlRequest) (p : Process) : Option (Reply × Process) :=
  match request with
  | .fionbio value => do
    let arg ← value
    let userNonblock := decide (arg ≠ 0)
    let (ctx, p) ← p.get d false
    match ctx with
    | none => original e (.ioctl d (.fionbio value)) p
    | some id =>
      let ctx ← p.ctx id
      if ctx.isClosed ∨ ctx.isSocket = false then original e (.ioctl d (.fionbio value)) p
      else original e (.ioctl d (.fionbio value)) (p.update id (.setUserNoBlock userNonblock))
  | .other request arg => original e (.ioctl d (.other request arg)) p

def getsockopt (sockfd level optname : Int) (optval optlen : Word) :
    Process → Option (Reply × Process) :=
  original e (.getsockopt sockfd level optname optval optlen)

def setsockopt (sockfd level optname : Int) (optval : OptVal) (optlen : Word) (p : Process) :
    Option (Reply × Process) :=
  let fn : Call := .setsockopt sockfd level optname optval optlen
  if e.hookEnable = false then original e fn p
  else if level = solSocket ∧ (optname = FdCtx.soRcvtimeo ∨ optname = soSndtimeo) then do
    let (ctx, p) ← p.get sockfd false
    match ctx with
    | none => original e fn p
    | some id =>
      match optval with
      | .timeval sec usec =>
        original e fn (p.update id (.setTimeout optname (sec * 1000 + usec.tdiv 1000)))
      | .other _ => none
  else original e fn p

/-- The call of the hooked function. -/
def invoke : Call → Process → Option (Reply × Process)
  | .sleep seconds => sleep e seconds
  | .socket domain type protocol => socket e domain type protocol
  | .connect fd addr addrlen => connect e fd addr addrlen
  | .accept s addr addrlen => accept e s addr addrlen
  | .read fd buf count => read e fd buf count
  | .readv fd iov iovcnt => readv e fd iov iovcnt
  | .recv sockfd buf len flags => recv e sockfd buf len flags
  | .recvfrom sockfd buf len flags srcAddr addrlen =>
    recvfrom e sockfd buf len flags srcAddr addrlen
  | .recvmsg sockfd msg flags => recvmsg e sockfd msg flags
  | .write fd buf count => write e fd buf count
  | .writev fd iov iovcnt => writev e fd iov iovcnt
  | .send s msg len flags => send e s msg len flags
  | .sendto s msg len flags dest tolen => sendto e s msg len flags dest tolen
  | .sendmsg s msg flags => sendmsg e s msg flags
  | .close fd => close e fd
  | .fcntl fd cmd => fcntl e fd cmd
  | .ioctl d request => ioctl e d request
  | .getsockopt sockfd level optname optval optlen =>
    getsockopt e sockfd level optname optval optlen
  | .setsockopt sockfd level optname optval optlen =>
    setsockopt e sockfd level optname optval optlen

end

/-- Descriptor 6 is a socket in non-blocking mode. -/
def socketKernel : Kernel where
  fstat := fun fd => if fd = 6 then some true else none
  flags := fun fd => if fd = 6 then some oNonblock else none

end Hook
