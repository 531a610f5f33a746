import AsyncRuntime.Lib.Flow
import AsyncRuntime.Client.Requests
import AsyncRuntime.Server.Edges
/-!
# The benchmark

The load generator of `Client`, the epoll server of `Server.Epoll`, and the network between
them. Each runs as it does alone; what the one took for the choices of its peers is now
what the other has done, with the network between them. The network delivers what was sent
in any portions and at any time, and tells a sender in the same way that room was made.
A direction of a connection has room for a fixed number of bytes, sent and not yet
received, however long the requests are.

The server may close a connection on an error; what it has sent and the client has not
received is then lost.
-/

namespace AsyncRuntime.Client

/-- The steps of the thread, which are not those of its peers. -/
def Act.own {N : Nat} : Act N → Bool
  | .establish _ _ | .refuse _ | .echo _ _ | .shut _ | .drain _ _ => false
  | _ => true

end AsyncRuntime.Client

namespace AsyncRuntime.Server.Epoll

/-- The steps of the reactor, which are not those of its peers. -/
def SysAct.own {β : Type} : SysAct β → Bool
  | .connect | .arrive _ _ | .shut _ | .drain _ _ | .accept _ _ _ _ => false
  | .send n => n = 0
  | _ => true

end AsyncRuntime.Server.Epoll

namespace AsyncRuntime.EndToEnd
open Lib Server.Epoll

/-- The size of a request, the room from which on a socket counts as writable, the room of the
two directions of a connection, and the descriptor of the listener. -/
structure Setup where
  payloadSize : Nat
  low : Nat
  requestRoom : Nat
  replyRoom : Nat
  listenFd : Int
  payloadSize_pos : 0 < payloadSize
  low_pos : 0 < low
  low_le_requestRoom : low ≤ requestRoom
  low_le_replyRoom : low ≤ replyRoom

/-- Where a connection of the client is at the server: nowhere, in the backlog of the listener,
or accepted. -/
inductive Route where
  | down
  | backlog
  | served (fd : Int)
deriving DecidableEq, Repr

/-- The descriptor by which the server learns of the connection. -/
def Route.descriptor (listenFd : Int) : Route → Option Int
  | .down => none
  | .backlog => some listenFd
  | .served fd => some fd

/-- The client, the server, and for each connection its route and how many bytes the client
and the server know to be received. -/
structure World (N : Nat) (β : Type) where
  client : Client.State N β
  server : Sys β
  route : Fin N → Route
  acked : Fin N → Nat
  replyAcked : Fin N → Nat

/-- A step of the client or of the server, or one of the network. -/
inductive Act (N : Nat) (β : Type) where
  | client (a : Client.Act N)
  | server (a : SysAct β)
  | establish (c : Fin N)
  | refuse (c : Fin N)
  | accept (c : Fin N) (fd : Int) (n : Nat)
  | deliver (c : Fin N) (n : Nat)
  | reply (c : Fin N) (n : Nat)
  | ack (c : Fin N) (n : Nat)
  | ackReply (c : Fin N) (n : Nat)
  | sendAcked (c : Fin N) (n : Nat)
  | hangup (c : Fin N)
  | shut (c : Fin N)

variable {N : Nat} {β : Type}

namespace World
variable (s : World N β)

/-- The server goes on to `t`; connections that it has closed are down. -/
def serve (t : Sys β) : World N β :=
  { s with
    server := t
    route := fun c => match s.route c with
      | .served fd => if (t.server.conns fd).isSome then .served fd else .down
      | r => r }

/-- The requests of connection `c`, which is `x` at the server. -/
def requests (c : Fin N) (fd : Int) (x : ConnectionContext β) : Flow β :=
  ⟨(s.client.conns c).conn.sent, (s.server.sock fd).arrived, x.received, (s.client.conns c).sock.space, s.acked c⟩

/-- The replies to connection `c`. -/
def replies (c : Fin N) (fd : Int) (x : ConnectionContext β) : Flow β :=
  ⟨x.sent, (s.client.conns c).sock.arrived, (s.client.conns c).conn.received, (s.server.sock fd).space, s.replyAcked c⟩

end World

section
variable [Inhabited β] (u : Setup)

/-- One step. -/
def step (s : World N β) : Act N β → Option (World N β)
  | .client a =>
    if a.own then (Client.step u.payloadSize u.low s.client a).map fun t => { s with client := t } else none
  | .server a => if a.own then (s.server.step u.listenFd u.low a).map s.serve else none
  | .establish c =>
    if s.route c = .down then
      (Client.step u.payloadSize u.low s.client (.establish c u.requestRoom)).map fun t =>
        { s with
          client := t
          server := { s.server with backlog := s.server.backlog + 1 }
          route := Function.update s.route c .backlog
          acked := Function.update s.acked c 0
          replyAcked := Function.update s.replyAcked c 0 }
    else none
  | .refuse c => (Client.step u.payloadSize u.low s.client (.refuse c)).map fun t => { s with client := t }
  -- `n` bytes have arrived before the connection is accepted
  | .accept c fd n =>
    if s.route c = .backlog then
      (s.server.step u.listenFd u.low (.accept fd ((s.client.conns c).conn.sent.take n) false u.replyRoom)).map fun t =>
        { s with server := t, route := Function.update s.route c (.served fd) }
    else none
  | .deliver c n => match s.route c with
    | .served fd =>
      let sent := (s.client.conns c).conn.sent
      let k := (s.server.sock fd).arrived.length
      if (s.client.conns c).link = .up ∧ k + n ≤ sent.length then
        (s.server.step u.listenFd u.low (.arrive fd ((sent.drop k).take n))).map s.serve
      else none
    | _ => none
  | .reply c n => match s.route c with
    | .served fd => match s.server.server.conns fd with
      | some x =>
        let k := (s.client.conns c).sock.arrived.length
        if (s.client.conns c).link = .up ∧ (s.client.conns c).sock.eof = false ∧ 0 < n ∧ k + n ≤ x.sent.length then
          some { s with client := s.client.setSock c ((s.client.conns c).sock.arrive ((x.sent.drop k).take n)) }
        else none
      | none => none
    | _ => none
  | .ack c n => match s.route c with
    | .served fd => match s.server.server.conns fd with
      | some x =>
        if s.acked c + n ≤ x.received.length then
          (Client.step u.payloadSize u.low s.client (.drain c n)).map fun t =>
            { s with client := t, acked := Function.update s.acked c (s.acked c + n) }
        else none
      | none => none
    | _ => none
  | .ackReply c n => match s.route c with
    | .served fd =>
      if s.replyAcked c + n ≤ (s.client.conns c).conn.received.length then
        (s.server.step u.listenFd u.low (.drain fd n)).map fun t =>
          { s.serve t with replyAcked := Function.update s.replyAcked c (s.replyAcked c + n) }
      else none
    | _ => none
  -- the server learns this between its `send` and the `epoll_ctl` after it
  | .sendAcked c n => match s.route c, s.server.server.sending with
    | .served fd, some (d, _) =>
      if fd = d ∧ s.replyAcked c + n ≤ (s.client.conns c).conn.received.length then
        (s.server.step u.listenFd u.low (.send n)).map fun t =>
          { s.serve t with replyAcked := Function.update s.replyAcked c (s.replyAcked c + n) }
      else none
    | _, _ => none
  -- the client learns that the server has closed the connection
  | .hangup c =>
    if s.route c = .down then (Client.step u.payloadSize u.low s.client (.shut c)).map fun t => { s with client := t }
    else none
  -- the server learns that the connection has ended at the client
  | .shut c => match s.route c with
    | .served fd =>
      if s.client.pc = .returned ∨ (s.client.conns c).link ≠ .up then
        (s.server.step u.listenFd u.low (.shut fd)).map s.serve
      else none
    | _ => none

/-- Before the first `epoll_wait` of both. -/
def init (a : β) : World N β where
  client := Client.init u.payloadSize a
  server := Sys.init β
  route := fun _ => .down
  acked := fun _ => 0
  replyAcked := fun _ => 0

def machine (N : Nat) (a : β) : Machine (World N β) (Act N β) := ⟨init u a, step u⟩

end

/-- Something of connection `c` is on the way. -/
def World.InTransit (s : World N β) (c : Fin N) : Prop :=
  match s.route c with
  | .down => (s.client.conns c).alive
  | .backlog => False
  | .served fd => ∃ x, s.server.server.conns fd = some x ∧
      (¬(s.requests c fd x).Settled ∨ ¬(s.replies c fd x).Settled)

end AsyncRuntime.EndToEnd
