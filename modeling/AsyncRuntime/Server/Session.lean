import AsyncRuntime.Lib.Buffer
import AsyncRuntime.Ring.Model
/-!
# The echo sessions

The sessions of the benchmark servers: `Connection` of `server_async_engine.cpp` and
of `server_async_engine_fixed.cpp`, which are callbacks that start the next
operation, and `handle_session` of `server_coroutine.cpp`, which is a loop. Each
receives into one buffer and sends from it until all of it is sent. The buffer has
4096 bytes in the first and the last, and 128 in the second; here it is any span.

A session is suspended while an operation of it is in flight. What is suspended
is a frame: the lambda with its captures, or the coroutine at its `co_await`. The
completion of the operation resumes the frame through the channel that
`make_io_callback` chooses, and the frame starts the next operation or ends.
-/

namespace AsyncRuntime.Ring

/-- The memory a request names; an accept names none. -/
def Request.span : Request → Span
  | .read _ buf _ | .write _ buf _ | .recv _ buf _ | .send _ buf _ | .readFixed _ _ buf _ | .writeFixed _ _ buf _ => buf
  | .accept _ => ⟨0, 0⟩

/-- The two memory regions have no byte in common. -/
def Span.Apart (a b : Span) : Prop := a.data + a.size ≤ b.data ∨ b.data + b.size ≤ a.data

instance (a b : Span) : Decidable (a.Apart b) := by unfold Span.Apart; infer_instance

def Request.isSend : Request → Bool
  | .write _ _ _ | .send _ _ _ | .writeFixed _ _ _ _ => true
  | _ => false

end AsyncRuntime.Ring

namespace AsyncRuntime.Server
open Lib AsyncRuntime.Ring

/-! ## Channels -/

theorem makeIoCallback_of_nonneg {res : IoResult} (h : 0 ≤ res.res) : makeIoCallback res = .value res := by
  have hc : res.res ≠ -ecanceled := by unfold ecanceled; omega
  simp [makeIoCallback, hc, Int.not_lt.2 h]

theorem makeIoCallback_of_neg {res : IoResult} (h : res.res < 0) :
    makeIoCallback res = .stopped ∨ ∃ code, makeIoCallback res = .error code := by
  by_cases hc : res.res = -ecanceled
  · exact .inl (by simp [makeIoCallback, hc])
  · exact .inr ⟨-res.res, by simp [makeIoCallback, hc, h]⟩

/-! ## Callbacks -/

/-- The lambdas `handle_read` and `handle_write` with what they capture. They stand
for the calls too: `read_loop()` starts an operation that resumes `handleRead`, and
`write_loop(total_bytes, bytes_sent)` one that resumes `handleWrite`. -/
inductive Callback where
  | handleRead
  | handleWrite (totalBytes bytesSent : Nat)
deriving DecidableEq, Repr

/-- The body of the lambda: the loop function it calls, if any. -/
def Callback.run : Callback → IoResult → Option Callback
  | .handleRead, res => if res.res ≤ 0 then none else some (.handleWrite res.res.toNat 0)
  | .handleWrite totalBytes bytesSent, res =>
    if res.res ≤ 0 then none
    else if bytesSent + res.res.toNat < totalBytes then some (.handleWrite totalBytes (bytesSent + res.res.toNat))
    else some .handleRead

/-- The completion of the operation. `then` passes a value to the lambda;
`upon_error` and `upon_stopped` do nothing. -/
def Callback.resume (k : Callback) (res : IoResult) : Option Callback :=
  match makeIoCallback res with
  | .value res => k.run res
  | .error _ => none
  | .stopped => none

namespace Engine

/-- `Connection` of `server_async_engine.cpp`. -/
structure Connection where
  fd : Int
  buffer : Span
deriving DecidableEq, Repr

/-- The operations of `read_loop` and `write_loop`. The sizes are those of a send
that is not complete, so the subtraction does not wrap. -/
def Connection.request (c : Connection) : Callback → Request
  | .handleRead => .recv c.fd c.buffer 0
  | .handleWrite totalBytes bytesSent => .send c.fd ⟨c.buffer.data + bytesSent, totalBytes - bytesSent⟩ 0

end Engine

namespace Fixed

/-- `Connection` of `server_async_engine_fixed.cpp`. -/
structure Connection where
  fd : Int
  bufIndex : Option Nat
  buffer : Span
deriving DecidableEq, Repr

/-- The operations of `read_loop` and `write_loop`: on the registered buffer if the
connection has one, otherwise on its own. -/
def Connection.request (c : Connection) : Callback → Request
  | .handleRead => match c.bufIndex with
    | some index => .readFixed c.fd index c.buffer 0
    | none => .recv c.fd c.buffer 0
  | .handleWrite totalBytes bytesSent => match c.bufIndex with
    | some index => .writeFixed c.fd index ⟨c.buffer.data + bytesSent, totalBytes - bytesSent⟩ 0
    | none => .send c.fd ⟨c.buffer.data + bytesSent, totalBytes - bytesSent⟩ 0

end Fixed

/-! ## The coroutine -/

namespace Coroutine

/-- `handle_session` at one of its `co_await`s. -/
inductive Frame where
  | awaitRecv
  | awaitSend (bytesToSend bytesSent : Nat)
deriving DecidableEq, Repr

/-- How the coroutine ends: it closes `client_fd` and returns, an exception leaves
`co_await`, or it is destroyed when the operation is stopped. -/
inductive Exit where
  | coReturn
  | exception
  | stopped
deriving DecidableEq, Repr

/-- The head of the outer loop. -/
def outer (running : Bool) : Frame ⊕ Exit := if running then .inl .awaitRecv else .inr .coReturn

/-- After the inner loop. -/
def afterInner (running : Bool) (bytesToSend bytesSent : Nat) : Frame ⊕ Exit :=
  if bytesSent < bytesToSend then .inr .coReturn else outer running

/-- The head of the inner loop. -/
def inner (running : Bool) (bytesToSend bytesSent : Nat) : Frame ⊕ Exit :=
  if bytesSent < bytesToSend then .inl (.awaitSend bytesToSend bytesSent)
  else afterInner running bytesToSend bytesSent

/-- From one `co_await` to the next. -/
def resume (running : Bool) (f : Frame) (res : IoResult) : Frame ⊕ Exit :=
  match makeIoCallback res with
  | .value res => match f with
    | .awaitRecv => if res.res ≤ 0 then .inr .coReturn else inner running res.res.toNat 0
    | .awaitSend bytesToSend bytesSent =>
      if res.res ≤ 0 then afterInner running bytesToSend bytesSent
      else inner running bytesToSend (bytesSent + res.res.toNat)
  -- `co_await` throws, and no handler is around it
  | .error _ => .inr .exception
  | .stopped => .inr .stopped

/-- The operation that the coroutine awaits. -/
def request (clientFd : Int) (buf : Span) : Frame → Request
  | .awaitRecv => .recv clientFd buf 0
  | .awaitSend bytesToSend bytesSent => .send clientFd ⟨buf.data + bytesSent, bytesToSend - bytesSent⟩ 0

end Coroutine

/-! ## Sessions -/

/-- The code of a session: its frames, the operation each of them waits for, and
what a completion makes of it. -/
structure Program where
  Frame : Type
  buffer : Span
  start : Option Frame
  request : Frame → Request
  resume : Frame → IoResult → Option Frame

/-- The sessions of the servers. -/
inductive Kind where
  | engine
  | registered (index : Nat)
  | fallback
  | coroutine
deriving DecidableEq, Repr

/-- A session on the descriptor `fd` with its buffer; the coroutine runs while
`running_` is true. -/
def program (k : Kind) (fd : Int) (buffer : Span) : Program :=
  match k with
  | .engine => ⟨Callback, buffer, some .handleRead, Engine.Connection.request ⟨fd, buffer⟩, Callback.resume⟩
  | .registered index =>
    ⟨Callback, buffer, some .handleRead, Fixed.Connection.request ⟨fd, some index, buffer⟩, Callback.resume⟩
  | .fallback => ⟨Callback, buffer, some .handleRead, Fixed.Connection.request ⟨fd, none, buffer⟩, Callback.resume⟩
  | .coroutine =>
    ⟨Coroutine.Frame, buffer, (Coroutine.outer true).getLeft?, Coroutine.request fd buffer,
      fun f res => (Coroutine.resume true f res).getLeft?⟩

/-- A session: the bytes of its buffer and the frames whose operation is in flight.
The history: the operations started, the bytes received and the bytes that send
has accepted. -/
structure Session (P : Program) (β : Type) where
  contents : List β
  flight : List P.Frame
  issued : List Request
  received : List β
  sent : List β

/-- The completion of the `index`th operation in flight, with the bytes that a
receive puts into its buffer. -/
structure Completion (β : Type) where
  index : Nat
  result : IoResult
  data : List β
deriving DecidableEq, Repr

variable {P : Program} {β : Type}

/-- What the kernel has done when it completes `q`. -/
def Session.transfer (s : Session P β) (q : Request) (a : Completion β) : Option (Session P β) :=
  let offset := q.span.data - P.buffer.data
  if q.isSend then
    if a.data.length = 0 then
      some { s with sent := s.sent ++ (s.contents.drop offset).take a.result.res.toNat }
    else none
  else if a.data.length = a.result.res.toNat then
    some { s with contents := overwrite s.contents offset a.data, received := s.received ++ a.data }
  else none

/-- The session goes on with the frame `f`, or ends. -/
def Session.goOn (s : Session P β) (i : Nat) (f : Option P.Frame) : Session P β :=
  { s with flight := s.flight.eraseIdx i ++ f.toList, issued := s.issued ++ f.toList.map P.request }

/-- One completion. -/
def Session.step (s : Session P β) (a : Completion β) : Option (Session P β) :=
  match s.flight[a.index]? with
  | none => none
  | some f => (s.transfer (P.request f) a).map (·.goOn a.index (P.resume f a.result))

/-- A session that has just been started. -/
def Session.new (P : Program) (contents : List β) : Session P β where
  contents := contents
  flight := P.start.toList
  issued := P.start.toList.map P.request
  received := []
  sent := []

def session (P : Program) (contents : List β) : Machine (Session P β) (Completion β) := ⟨.new P contents, Session.step⟩

/-- A result is at most the length that was asked for. -/
def Bounded (s : Session P β) (a : Completion β) : Prop :=
  (s.flight[a.index]?).all (fun f => decide (a.result.res ≤ (P.request f).span.size)) = true

instance (s : Session P β) (a : Completion β) : Decidable (Bounded s a) := by unfold Bounded; infer_instance

end AsyncRuntime.Server
