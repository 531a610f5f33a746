import AsyncRuntime.Lib.Buffer
import AsyncRuntime.Lib.Machine
import Mathlib.Logic.Function.Basic
/-!
# The epoll server

`run_epoll_reactor` of `server_epoll.cpp`: one thread that waits for events and
handles them one after another. Every `accept4`, `recv` and `send` is a step of its
own, whose result the kernel chooses; what the code does between two calls belongs
to the step before.

What stands for the kernel: `epoll_wait` reports descriptors that are registered, each
once, with any events; `accept4` returns a descriptor that is not open; `recv` and `send`
transfer at most what they are asked for; `epoll_ctl` on a descriptor that is open and
registered as the code believes does not fail.
-/

namespace AsyncRuntime.Server.Epoll
open Lib

/-! ## A connection -/

/-- `ConnectionContext`. The history: the bytes received, and the bytes that send has
accepted. -/
structure ConnectionContext (β : Type) where
  buffer : List β
  readBytes : Nat
  writeBytes : Nat
  wantWrite : Bool
  received : List β
  sent : List β
deriving DecidableEq

namespace ConnectionContext
variable {β : Type}

/-- What `conns[fd]` makes of a descriptor that is not in the map. -/
def empty : ConnectionContext β := ⟨[], 0, 0, false, [], []⟩

/-- The context of a connection that `accept4` has returned. -/
def accepted [Inhabited β] : ConnectionContext β := ⟨List.replicate 4096 default, 0, 0, false, [], []⟩

/-- `recv` has put `d` behind what was read before; a full buffer is doubled. -/
def recvd [Inhabited β] (c : ConnectionContext β) (d : List β) : ConnectionContext β :=
  { c with
    buffer := if c.readBytes + d.length = c.buffer.length then
        overwrite c.buffer c.readBytes d ++ List.replicate c.buffer.length default
      else overwrite c.buffer c.readBytes d
    readBytes := c.readBytes + d.length
    received := c.received ++ d }

/-- `send` has accepted `n` bytes. -/
def sentBytes (c : ConnectionContext β) (n : Nat) : ConnectionContext β :=
  { c with writeBytes := c.writeBytes + n, sent := c.sent ++ (c.buffer.drop c.writeBytes).take n }

/-- Both counters are reset. -/
def reset (c : ConnectionContext β) : ConnectionContext β := { c with readBytes := 0, writeBytes := 0 }

end ConnectionContext

/-! ## The reactor -/

/-- `revents` -/
structure Events where
  epollIn : Bool
  epollOut : Bool
  epollErr : Bool
  epollHup : Bool
  epollRdHup : Bool
deriving DecidableEq

/-- `revents & (EPOLLERR | EPOLLHUP | EPOLLRDHUP)` -/
def Events.hangup (ev : Events) : Bool := ev.epollErr || ev.epollHup || ev.epollRdHup

/-- The reactor: in `epoll_wait`, in the loop over the events of which `rest` is left,
or before a call: `accept4`, `recv`, the `send` of the branch for `EPOLLIN` or that of the
branch for `EPOLLOUT`. -/
inductive Pc where
  | wait
  | events (rest : List (Int × Events))
  | accept (rest : List (Int × Events))
  | recv (fd : Int) (ev : Events) (rest : List (Int × Events))
  | sendIn (fd : Int) (ev : Events) (rest : List (Int × Events))
  | sendOut (fd : Int) (rest : List (Int × Events))
  | returned
deriving DecidableEq

/-- `registered` is the interest list of the epoll instance without the listener: the
descriptors in it, and whether for `EPOLLOUT` too. -/
structure State (β : Type) where
  running : Bool
  conns : Int → Option (ConnectionContext β)
  registered : Int → Option Bool
  pc : Pc

/-- The result of `recv`: bytes, the end of the stream, `EAGAIN`, or another error. -/
inductive RecvResult (β : Type) where
  | bytes (d : List β)
  | closed
  | again
  | error

/-- The result of `send`. -/
inductive SendResult where
  | bytes (n : Nat)
  | again
  | error

/-- What the kernel chooses; `halt` is another thread that clears `running`. -/
inductive Act (β : Type) where
  | halt
  | wait (evs : List (Int × Events))
  | step
  | accept (r : Option Int)
  | recv (r : RecvResult β)
  | send (r : SendResult)

variable {β : Type}

namespace State

def put (s : State β) (fd : Int) (c : ConnectionContext β) : State β :=
  { s with conns := Function.update s.conns fd (some c) }

/-- `epoll_ctl`, with `EPOLL_CTL_ADD` or `EPOLL_CTL_MOD`. -/
def register (s : State β) (fd : Int) (out : Bool) : State β :=
  { s with registered := Function.update s.registered fd (some out) }

/-- `EPOLL_CTL_DEL`, `close` and `conns.erase`; then the next event. -/
def close (s : State β) (fd : Int) (rest : List (Int × Events)) : State β :=
  { s with
    conns := Function.update s.conns fd none
    registered := Function.update s.registered fd none
    pc := .events rest }

end State

/-- The end of the branch for `EPOLLOUT`. -/
def finishOut (s : State β) (fd : Int) (c : ConnectionContext β) (rest : List (Int × Events)) : State β :=
  if c.writeBytes = c.readBytes then
    { (s.put fd { c.reset with wantWrite := false }).register fd false with pc := .events rest }
  else { s.put fd c with pc := .events rest }

/-- After the branch for `EPOLLIN`. -/
def afterIn (s : State β) (fd : Int) (c : ConnectionContext β) (ev : Events) (rest : List (Int × Events)) : State β :=
  if ev.epollOut then
    if c.writeBytes < c.readBytes then { s.put fd c with pc := .sendOut fd rest } else finishOut s fd c rest
  else { s.put fd c with pc := .events rest }

/-- After the `send` of the branch for `EPOLLIN`. -/
def afterSend (s : State β) (fd : Int) (c : ConnectionContext β) (ev : Events) (rest : List (Int × Events)) : State β :=
  if c.writeBytes < c.readBytes then
    if c.wantWrite then afterIn s fd c ev rest
    else afterIn (s.register fd true) fd { c with wantWrite := true } ev rest
  -- everything has been sent; `want_write` stays as it is
  else afterIn s fd c.reset ev rest

/-- The next event of the loop. -/
def handle (listenFd : Int) (s : State β) (fd : Int) (ev : Events) (rest : List (Int × Events)) : State β :=
  if fd = listenFd then { s with pc := .accept rest }
  else if ev.hangup then s.close fd rest
  else
    -- `conns[fd]` makes an entry for a descriptor that has none
    let c := (s.conns fd).getD .empty
    if ev.epollIn then { s.put fd c with pc := .recv fd ev rest } else afterIn s fd c ev rest

/-- `recv` returns. -/
def recvStep [Inhabited β] (s : State β) (fd : Int) (c : ConnectionContext β) (ev : Events)
    (rest : List (Int × Events)) : RecvResult β → Option (State β)
  | .bytes d =>
    if 0 < d.length ∧ d.length ≤ c.buffer.length - c.readBytes then
      some { s.put fd (c.recvd d) with pc := .recv fd ev rest }
    else none
  | .closed | .error => some (s.close fd rest)
  | .again =>
    some (if c.writeBytes < c.readBytes then { s with pc := .sendIn fd ev rest } else afterIn s fd c ev rest)

/-- `send` returns; `next` is what follows it. -/
def sendStep (s : State β) (fd : Int) (c : ConnectionContext β) (rest : List (Int × Events))
    (next : ConnectionContext β → State β) : SendResult → Option (State β)
  | .bytes n => if n ≤ c.readBytes - c.writeBytes then some (next (c.sentBytes n)) else none
  | .again => some (next c)
  | .error => some (s.close fd rest)

/-- What `epoll_wait` may report. -/
def State.reports (s : State β) (listenFd : Int) (evs : List (Int × Events)) : Prop :=
  evs.length ≤ 1024 ∧ (evs.map (·.1)).Nodup ∧ ∀ e ∈ evs, e.1 = listenFd ∨ (s.registered e.1).isSome

instance (s : State β) (listenFd : Int) (evs : List (Int × Events)) : Decidable (s.reports listenFd evs) := by
  unfold State.reports; infer_instance

/-- One step of the reactor. -/
def step [Inhabited β] (listenFd : Int) (s : State β) : Act β → Option (State β)
  | .halt => some { s with running := false }
  | .wait evs => match s.pc with
    | .wait => if s.running ∧ s.reports listenFd evs then some { s with pc := .events evs } else none
    | _ => none
  | .step => match s.pc with
    | .wait => if s.running then none else some { s with pc := .returned }
    | .events [] => some { s with pc := .wait }
    | .events ((fd, ev) :: rest) => some (handle listenFd s fd ev rest)
    | _ => none
  | .accept r => match s.pc, r with
    | .accept rest, none => some { s with pc := .events rest }
    | .accept rest, some fd =>
      if fd ≠ listenFd ∧ (s.conns fd).isNone then
        some { (s.put fd .accepted).register fd false with pc := .accept rest }
      else none
    | _, _ => none
  | .recv r => match s.pc with
    | .recv fd ev rest => match s.conns fd with
      | some c => recvStep s fd c ev rest r
      | none => none
    | _ => none
  | .send r => match s.pc with
    | .sendIn fd ev rest => match s.conns fd with
      | some c => sendStep s fd c rest (fun c => afterSend s fd c ev rest) r
      | none => none
    | .sendOut fd rest => match s.conns fd with
      | some c => sendStep s fd c rest (fun c => finishOut s fd c rest) r
      | none => none
    | _ => none

/-- The reactor before its first `epoll_wait`. -/
def init (β : Type) : State β := ⟨true, fun _ => none, fun _ => none, .wait⟩

def machine (β : Type) [Inhabited β] (listenFd : Int) : Machine (State β) (Act β) := ⟨init β, step listenFd⟩

end AsyncRuntime.Server.Epoll
