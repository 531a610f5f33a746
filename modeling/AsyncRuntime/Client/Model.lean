import AsyncRuntime.Lib.Buffer
import AsyncRuntime.Lib.EdgeTriggered
import AsyncRuntime.Lib.Machine
import Mathlib.Algebra.BigOperators.Fin
/-!
# The load generator

`run_client_thread` of `benchmark_client.cpp`: one thread that keeps a request in flight
on each of its connections. A request is the payload, and its response the same number
of bytes; a connection is sending a request or receiving the response to it. The sockets
are edge-triggered. Every `getsockopt`, `send` and `recv` is a step of its own, and so
are the reads of the clock around the end of a request.

The peers are echo servers: they send back what they have received, in any portions and
at any time, also while a request is still being sent. They may refuse a connection, shut
it down or take their time to read.
-/

namespace AsyncRuntime.Client
open Lib

/-! ## A connection -/

/-- `ConnectionState::State` -/
inductive Phase where
  | connecting
  | sending
  | receiving
deriving DecidableEq, Repr

/-- `ConnectionState`. The history: the bytes that `send` has accepted, the bytes received
and the requests completed. -/
structure ConnectionState (β : Type) where
  state : Phase
  buffer : List β
  writeOffset : Nat
  readOffset : Nat
  startTime : Int
  sent : List β
  received : List β
  completed : Nat
deriving DecidableEq

/-- What `connect` has come to. -/
inductive Link where
  | pending
  | refused
  | up
  | broken
deriving DecidableEq, Repr

/-- The events in `revents` that the code looks at. -/
structure Revents where
  epollIn : Bool
  epollOut : Bool
deriving DecidableEq, Repr

/-- A connection and its socket. -/
structure Conn (β : Type) where
  conn : ConnectionState β
  link : Link
  sock : Socket β
deriving DecidableEq

/-! ## The thread -/

/-- `ThreadResult` -/
structure ThreadResult where
  totalRequests : Nat
  latenciesUs : List Nat
deriving DecidableEq, Repr

/-- Where the thread is: in `epoll_wait`, in the loop over the events of which `rest` is
left, before `getsockopt`, before a `send` of the branch for `EPOLLOUT`, before a `recv`, at
the end of a response, or before a `send` of the loop that follows it. -/
inductive Pc (N : Nat) where
  | wait
  | events (rest : List (Fin N × Revents))
  | connecting (c : Fin N) (ev : Revents) (rest : List (Fin N × Revents))
  | send (c : Fin N) (ev : Revents) (rest : List (Fin N × Revents))
  | recv (c : Fin N) (rest : List (Fin N × Revents))
  | complete (c : Fin N) (rest : List (Fin N × Revents))
  | sendAgain (c : Fin N) (rest : List (Fin N × Revents))
  | returned
deriving DecidableEq

structure State (N : Nat) (β : Type) where
  conns : Fin N → Conn β
  result : ThreadResult
  pc : Pc N

/-- What the kernel, the clock and the peers choose. -/
inductive Act (N : Nat) where
  | leave
  | wait (evs : List (Fin N × Revents))
  | forget (c : Fin N)
  | step
  | connected (now : Int)
  | send
  | sendFails
  | recv (n : Nat)
  | recvFails
  | complete (now start : Int)
  | establish (c : Fin N) (space : Nat)
  | refuse (c : Fin N)
  | echo (c : Fin N) (n : Nat)
  | shut (c : Fin N)
  | drain (c : Fin N) (n : Nat)

variable {N : Nat} {β : Type}

namespace State

def set (s : State N β) (c : Fin N) (x : Conn β) : State N β := { s with conns := Function.update s.conns c x }

def setConn (s : State N β) (c : Fin N) (x : ConnectionState β) : State N β := s.set c { s.conns c with conn := x }

def setSock (s : State N β) (c : Fin N) (k : Socket β) : State N β := s.set c { s.conns c with sock := k }

end State

/-- The socket of a `connect` in progress. -/
def freshSocket (β : Type) : Socket β := ⟨[], false, 0, false, false, []⟩

/-- What `epoll_wait` may report of a connection. Until it is connected it is registered
for output only; on a socket in error the kernel sets any events. -/
def Conn.reports (low : Nat) (x : Conn β) (ev : Revents) : Prop :=
  x.sock.ready = true ∧ match x.link with
    | .pending => False
    | .refused | .broken => True
    | .up => ev = ⟨x.sock.readable && x.conn.state ≠ .connecting, x.sock.writable low⟩ ∧
        (ev.epollIn = true ∨ ev.epollOut = true)

instance (low : Nat) (x : Conn β) (ev : Revents) : Decidable (x.reports low ev) := by
  unfold Conn.reports
  cases x.link <;> infer_instance

/-- `duration_cast<microseconds>` of nanoseconds, cast to `uint32_t`. -/
def latencyUs (now start : Int) : Nat := (Int.tdiv (now - start) 1000 % 2 ^ 32).toNat

section
variable (payloadSize low : Nat)

/-! ## The body of the loop over the events -/

/-- After the loop of the branch for `EPOLLIN`. -/
def afterRecv (s : State N β) (c : Fin N) (rest : List (Fin N × Revents)) : State N β :=
  if (s.conns c).conn.readOffset = payloadSize then { s with pc := .complete c rest } else { s with pc := .events rest }

/-- The loop of the branch for `EPOLLIN` at its head. -/
def recvLoop (s : State N β) (c : Fin N) (rest : List (Fin N × Revents)) : State N β :=
  if (s.conns c).conn.readOffset < payloadSize then { s with pc := .recv c rest } else afterRecv payloadSize s c rest

/-- The branch for `EPOLLIN`. -/
def branchIn (s : State N β) (c : Fin N) (ev : Revents) (rest : List (Fin N × Revents)) : State N β :=
  if ev.epollIn = true ∧ (s.conns c).conn.state = .receiving then recvLoop payloadSize s c rest
  else { s with pc := .events rest }

/-- After the loop of a branch that sends. -/
def sentAll (s : State N β) (c : Fin N) : State N β :=
  if (s.conns c).conn.writeOffset = payloadSize then s.setConn c { (s.conns c).conn with state := .receiving } else s

/-- The loop of the branch for `EPOLLOUT` at its head. -/
def sendLoop (s : State N β) (c : Fin N) (ev : Revents) (rest : List (Fin N × Revents)) : State N β :=
  if (s.conns c).conn.writeOffset < payloadSize then { s with pc := .send c ev rest }
  else branchIn payloadSize (sentAll payloadSize s c) c ev rest

/-- The branch for `EPOLLOUT`. -/
def branchOut (s : State N β) (c : Fin N) (ev : Revents) (rest : List (Fin N × Revents)) : State N β :=
  if ev.epollOut = true ∧ (s.conns c).conn.state = .sending then sendLoop payloadSize s c ev rest
  else branchIn payloadSize s c ev rest

/-- The loop that sends the next request at its head. -/
def sendAgainLoop (s : State N β) (c : Fin N) (rest : List (Fin N × Revents)) : State N β :=
  if (s.conns c).conn.writeOffset < payloadSize then { s with pc := .sendAgain c rest }
  else { sentAll payloadSize s c with pc := .events rest }

/-- After `getsockopt`. -/
def afterConnect (s : State N β) (c : Fin N) (ev : Revents) (rest : List (Fin N × Revents)) (now : Int) : State N β :=
  match (s.conns c).link with
  -- the socket is closed, and a new one takes its place
  | .refused | .pending | .broken =>
    { s.set c { s.conns c with link := .pending, sock := freshSocket β } with pc := .events rest }
  | .up =>
    branchOut payloadSize (s.set c
      ⟨{ (s.conns c).conn with state := .sending, startTime := now }, .up, (s.conns c).sock.poll low true⟩) c ev rest

/-- `send` of what is left of the payload: the connection after it, and whether the loop
goes on. -/
def sendOnce (x : Conn β) : Conn β × Bool :=
  let len := payloadSize - x.conn.writeOffset
  let n := min len x.sock.space
  ({ x with
      conn := { x.conn with
        writeOffset := x.conn.writeOffset + n
        sent := x.conn.sent ++ (x.conn.buffer.drop x.conn.writeOffset).take n }
      sock := x.sock.send len },
    decide (0 < x.sock.space))

/-- `recv` of `n` bytes. -/
def recvOnce (x : Conn β) (n : Nat) : Conn β :=
  { x with
    conn := { x.conn with
      buffer := overwrite x.conn.buffer x.conn.readOffset (x.sock.inq.take n)
      readOffset := x.conn.readOffset + n
      received := x.conn.received ++ x.sock.inq.take n }
    sock := x.sock.recv n }

/-- A response is complete: the latency is recorded and the next request begins. -/
def finish (s : State N β) (c : Fin N) (now start : Int) : State N β :=
  { s.setConn c { (s.conns c).conn with
      state := .sending
      readOffset := 0
      writeOffset := 0
      startTime := start
      completed := (s.conns c).conn.completed + 1 } with
    result := ⟨s.result.totalRequests + 1, s.result.latenciesUs ++ [latencyUs now (s.conns c).conn.startTime]⟩ }

/-- One step. -/
def step (s : State N β) : Act N → Option (State N β)
  | .leave => match s.pc with
    | .wait => some { s with pc := .returned }
    | _ => none
  | .wait evs => match s.pc with
    | .wait =>
      if evs.length ≤ 1024 ∧ (evs.map (·.1)).Nodup ∧ ∀ e ∈ evs, (s.conns e.1).reports low e.2 then
        some { s with
          conns := fun c => if c ∈ evs.map (·.1) then { s.conns c with sock := (s.conns c).sock.report } else s.conns c
          pc := .events evs }
      else none
    | _ => none
  -- a socket in the ready list on which `epoll_wait` finds no events
  | .forget c =>
    if s.pc = .wait ∧ ∀ i o, ¬(s.conns c).reports low ⟨i, o⟩ then some (s.setSock c (s.conns c).sock.report) else none
  | .step => match s.pc with
    | .events [] => some { s with pc := .wait }
    | .events ((c, ev) :: rest) =>
      if (s.conns c).conn.state = .connecting then some { s with pc := .connecting c ev rest }
      else some (branchOut payloadSize s c ev rest)
    | _ => none
  | .connected now => match s.pc with
    | .connecting c ev rest => some (afterConnect payloadSize low s c ev rest now)
    | _ => none
  | .send => match s.pc with
    | .send c ev rest =>
      if (s.conns c).link = .up then
        match sendOnce payloadSize (s.conns c) with
        | (x, true) => some (sendLoop payloadSize (s.set c x) c ev rest)
        | (x, false) => some (branchIn payloadSize (sentAll payloadSize (s.set c x) c) c ev rest)
      else none
    | .sendAgain c rest =>
      if (s.conns c).link = .up then
        match sendOnce payloadSize (s.conns c) with
        | (x, true) => some (sendAgainLoop payloadSize (s.set c x) c rest)
        | (x, false) => some { sentAll payloadSize (s.set c x) c with pc := .events rest }
      else none
    | _ => none
  | .sendFails => match s.pc with
    | .send c ev rest =>
      some (branchIn payloadSize (sentAll payloadSize (s.set c { s.conns c with link := .broken }) c) c ev rest)
    | .sendAgain c rest =>
      some { sentAll payloadSize (s.set c { s.conns c with link := .broken }) c with pc := .events rest }
    | _ => none
  | .recv n => match s.pc with
    | .recv c rest =>
      if (s.conns c).link = .up then
        if (s.conns c).sock.inq = [] then some (afterRecv payloadSize s c rest)
        else if 0 < n ∧ n ≤ payloadSize - (s.conns c).conn.readOffset ∧ n ≤ (s.conns c).sock.inq.length then
          some (recvLoop payloadSize (s.set c (recvOnce (s.conns c) n)) c rest)
        else none
      else none
    | _ => none
  | .recvFails => match s.pc with
    | .recv c rest => some (afterRecv payloadSize (s.set c { s.conns c with link := .broken }) c rest)
    | _ => none
  | .complete now start => match s.pc with
    | .complete c rest => some (sendAgainLoop payloadSize (finish s c now start) c rest)
    | _ => none
  | .establish c space =>
    if (s.conns c).link = .pending ∧ low ≤ space then
      some (s.set c { s.conns c with link := .up, sock := { freshSocket β with space := space, ready := true } })
    else none
  | .refuse c =>
    if (s.conns c).link = .pending then
      some (s.set c { s.conns c with link := .refused, sock := { (s.conns c).sock with ready := true } })
    else none
  -- the peer sends back the next `n` bytes of what it was sent
  | .echo c n =>
    if (s.conns c).link = .up ∧ (s.conns c).sock.eof = false ∧ 0 < n ∧
        (s.conns c).sock.arrived.length + n ≤ (s.conns c).conn.sent.length then
      some (s.setSock c ((s.conns c).sock.arrive (((s.conns c).conn.sent.drop (s.conns c).sock.arrived.length).take n)))
    else none
  | .shut c => if (s.conns c).link = .up then some (s.setSock c (s.conns c).sock.shut) else none
  | .drain c n => if (s.conns c).link = .up then some (s.setSock c ((s.conns c).sock.drain low true n)) else none

/-- The thread when `start_flag` has been set: every connection has been begun. -/
def init (a : β) : State N β where
  conns := fun _ => ⟨⟨.connecting, List.replicate payloadSize a, 0, 0, 0, [], [], 0⟩, .pending, freshSocket β⟩
  result := ⟨0, []⟩
  pc := .wait

def machine (N : Nat) (a : β) : Machine (State N β) (Act N) := ⟨init payloadSize a, step payloadSize low⟩

end

end AsyncRuntime.Client
