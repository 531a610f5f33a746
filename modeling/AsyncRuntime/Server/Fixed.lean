import AsyncRuntime.Server.Session
/-!
# The server with registered buffers

`server_async_engine_fixed.cpp`: one io thread that accepts connections and runs
their callbacks inside `run()`. `FixedBufferPool` has a fixed number of registered
buffers; a `Connection` acquires one when it is constructed and releases it when it
is destroyed, and uses a buffer of its own when none is free.

A `Connection` lives as long as a `shared_ptr` to it. `useCount` is its use count;
the pointers are the `conn` of the accept handler, the `self` of a loop function
that is running, and the `self` that the callback of each operation in flight has
captured. The thread's program point says which of the first two exist. What may
throw does so or not as the scheduler chooses: constructing the connection and
`start_detached`.
-/

namespace AsyncRuntime.Ring

/-- `a` is a part of `b`. -/
def Span.Within (a b : Span) : Prop := b.data ≤ a.data ∧ a.data + a.size ≤ b.data + b.size

/-- The index of a registered buffer that the request names. -/
def Request.bufIndex : Request → Option Nat
  | .readFixed _ index _ _ | .writeFixed _ index _ _ => some index
  | _ => none

end AsyncRuntime.Ring

namespace AsyncRuntime.Server.Fixed
open Lib AsyncRuntime.Ring

/-! ## FixedBufferPool -/

/-- `BUFFER_SIZE`; a fallback buffer has the same size. -/
def bufferSize : Nat := 128

/-- `NUM_BUFFERS` -/
def numBuffers : Nat := 64

/-- `memory` is the address of `memory_`. -/
structure FixedBufferPool where
  registered : Bool
  memory : Nat
  freeIndices : List Nat

namespace FixedBufferPool

/-- The constructor; `registered` is whether `register_buffers` succeeds. -/
def new (registered : Bool) (memory : Nat) : FixedBufferPool where
  registered := registered
  memory := memory
  freeIndices := if registered then (List.range numBuffers).map (fun i => numBuffers - 1 - i) else []

/-- `acquire` takes the index at the back. -/
def acquire (p : FixedBufferPool) : Option Nat × FixedBufferPool :=
  if !p.registered || p.freeIndices.isEmpty then (none, p)
  else (p.freeIndices.getLast?, { p with freeIndices := p.freeIndices.dropLast })

def release (p : FixedBufferPool) (index : Nat) : FixedBufferPool :=
  if p.registered then { p with freeIndices := p.freeIndices ++ [index] } else p

def getSpan (p : FixedBufferPool) (index : Nat) : Span := ⟨p.memory + index * bufferSize, bufferSize⟩

/-- All of `memory_`. -/
def region (p : FixedBufferPool) : Span := ⟨p.memory, numBuffers * bufferSize⟩

end FixedBufferPool

/-- The constructor of `Connection`, with the pool after it; a fallback buffer is
allocated at `a`. -/
def Connection.new (fd : Int) (pool : FixedBufferPool) (a : Nat) : Connection × FixedBufferPool :=
  match pool.acquire with
  | (some index, pool) => (⟨fd, some index, pool.getSpan index⟩, pool)
  | (none, pool) => (⟨fd, none, ⟨a, bufferSize⟩⟩, pool)

/-! ## The io thread -/

/-- Who has called the loop function: the accept handler, for a connection on `fd`,
or a callback. -/
inductive Caller where
  | accept (fd : Int)
  | callback
deriving DecidableEq

/-- The io thread. `c` is a session, by the number of its accept. A loop function
is about to be called, about to start its operation, returning or, with `threw`,
left by an exception; then its caller is left. -/
inductive Pc where
  | idle
  | construct (c : Nat) (fd : Int)
  | call (k : Caller) (c : Nat) (loop : Callback)
  | launch (k : Caller) (c : Nat) (loop : Callback)
  | leaveLoop (k : Caller) (c : Nat) (threw : Bool)
  | leave (k : Caller) (c : Nat) (threw : Bool)
  | rearm
deriving DecidableEq

/-- An operation in flight, with the callback that has captured `self`. -/
structure Op where
  self : Nat
  request : Request
  callback : Callback

/-- The server. The history: the sessions whose connection was constructed when no
index was free, and the sessions whose descriptor was closed, once for each
`close`. -/
structure State where
  pool : FixedBufferPool
  running : Bool
  conn : Nat → Option Connection
  useCount : Nat → Nat
  accepted : Nat
  accepts : Nat
  flight : List Op
  pc : Pc
  starved : List Nat
  closed : List Nat

namespace State

/-- A `shared_ptr` is copied. -/
def retain (s : State) (c : Nat) : State := { s with useCount := Function.update s.useCount c (s.useCount c + 1) }

/-- `~Connection` -/
def destroy (s : State) (c : Nat) (C : Connection) : State :=
  { s with
    pool := match C.bufIndex with
      | some index => s.pool.release index
      | none => s.pool
    conn := Function.update s.conn c none
    closed := s.closed ++ [c] }

/-- A `shared_ptr` goes away; the last one destroys the connection. -/
def drop (s : State) (c : Nat) : State :=
  let s' := { s with useCount := Function.update s.useCount c (s.useCount c - 1) }
  if s.useCount c = 1 then
    match s.conn c with
    | some C => s'.destroy c C
    | none => s'
  else s'

/-- What the allocator may return for a fallback buffer. -/
def available (s : State) (a : Nat) : Prop :=
  s.pool.region.Apart ⟨a, bufferSize⟩ ∧
    ∀ c < s.accepted, (s.conn c).all (fun C => decide (C.buffer.Apart ⟨a, bufferSize⟩)) = true

instance (s : State) (a : Nat) : Decidable (s.available a) := by unfold available; infer_instance

end State

/-- What the scheduler and the kernel choose: `ok` is whether what may throw returns,
`a` where a fallback buffer is allocated. -/
inductive Act where
  | halt
  | accept (r : IoResult)
  | construct (a : Nat) (ok : Bool)
  | step
  | launch (ok : Bool)
  | complete (i : Nat) (r : IoResult)

/-- The accept operation completes: the body of the lambda of `run_accept_loop`, up
to the construction of the connection. An error does not reach it. -/
def acceptDone (s : State) (r : IoResult) : State :=
  match makeIoCallback r with
  | .value r =>
    if s.running then
      if 0 ≤ r.res then { s with pc := .construct s.accepted r.res, accepted := s.accepted + 1 }
      else { s with pc := .rearm }
    else s
  -- `set_error` bypasses the lambda, and with it the next accept
  | .error _ => s
  | .stopped => s

/-- `make_shared<Connection>`, then `start_session`. An exception is caught by the
handler, which closes the descriptor. -/
def construct (s : State) (c : Nat) (fd : Int) (a : Nat) (ok : Bool) : Option State :=
  if ok then
    -- a fallback buffer is new memory
    if s.pool.acquire.1 = none → s.available a then
      some { s with
        pool := (Connection.new fd s.pool a).2
        conn := Function.update s.conn c (some (Connection.new fd s.pool a).1)
        useCount := Function.update s.useCount c 1
        starved := if s.pool.freeIndices.isEmpty then c :: s.starved else s.starved
        pc := .call (.accept fd) c .handleRead }
    else none
  else some { s with closed := s.closed ++ [c], pc := .rearm }

/-- The caller of a loop function is left. The handler that catches an exception
closes the descriptor, after the connection is gone. -/
def leave (s : State) (k : Caller) (c : Nat) (threw : Bool) : State :=
  match k with
  | .callback => { s.drop c with pc := .idle }
  | .accept _ => { s.drop c with
      closed := if threw then (s.drop c).closed ++ [c] else (s.drop c).closed, pc := .rearm }

/-- `start_detached`: of the operation of a loop function, or of the next accept. -/
def launch (s : State) (ok : Bool) : Option State :=
  match s.pc with
  | .launch k c loop => match s.conn c with
    | some C =>
      if ok then
        some { s.retain c with flight := s.flight ++ [⟨c, C.request loop, loop⟩], pc := .leaveLoop k c false }
      else some { s with pc := .leaveLoop k c true }
    | none => none
  | .rearm => some { s with accepts := if ok then s.accepts + 1 else s.accepts, pc := .idle }
  | _ => none

/-- One step of the server. -/
def step (s : State) : Act → Option State
  | .halt => some { s with running := false }
  | .accept r => match s.pc with
    | .idle => if 0 < s.accepts then some (acceptDone { s with accepts := s.accepts - 1 } r) else none
    | _ => none
  | .construct a ok => match s.pc with
    | .construct c fd => construct s c fd a ok
    | _ => none
  | .step => match s.pc with
    -- the loop function begins with `shared_from_this()`
    | .call k c loop => match s.conn c with
      | some _ => some { s.retain c with pc := .launch k c loop }
      | none => none
    | .leaveLoop k c threw => some { s.drop c with pc := .leave k c threw }
    | .leave k c threw => some (leave s k c threw)
    | _ => none
  | .launch ok => launch s ok
  | .complete i r => match s.pc, s.flight[i]? with
    | .idle, some op =>
      some { s with
        flight := s.flight.eraseIdx i
        pc := match op.callback.resume r with
          | some loop => .call .callback op.self loop
          | none => .leave .callback op.self false }
    | _, _ => none

/-- The server when `run()` begins: one accept is in flight. -/
def init (registered : Bool) (memory : Nat) : State where
  pool := .new registered memory
  running := true
  conn _ := none
  useCount _ := 0
  accepted := 0
  accepts := 1
  flight := []
  pc := .idle
  starved := []
  closed := []

def machine (registered : Bool) (memory : Nat) : Machine State Act := ⟨init registered memory, step⟩

/-- A result is at most the length that was asked for. -/
def Bounded (s : State) : Act → Prop
  | .complete i r => (s.flight[i]?).all (fun op => decide (r.res ≤ op.request.span.size)) = true
  | _ => True

instance (s : State) (a : Act) : Decidable (Bounded s a) := by cases a <;> unfold Bounded <;> infer_instance

end AsyncRuntime.Server.Fixed
