import AsyncRuntime.Pool.Model
import AsyncRuntime.Ring.Destroy
/-!
# The runtime

`runtime` of `runtime.hpp` owns a `thread_pool` and an `io_context`. The pool's
threads are those of `Pool.Model` and the ring is that of `Ring.Model`; here they
run beside each other. A task may use the `io_context` while it runs, and so may
code outside the pool until `~runtime` begins.

The body of `~runtime` is a call of `stop()`. After it the members are destroyed
in the reverse order of their declaration: `io_ctx_`, then `pool_`.
-/

namespace AsyncRuntime.Runtime
open Lib

/-- `~runtime` and the destructors of its members. -/
inductive DtorPc
  | idle
  | stop (j : Nat)                 -- in `io_ctx_.stop()`
  | destroyIo                      -- about to destroy `io_ctx_`
  | queueExit                      -- in `~io_context`
  | destroyPool                    -- in `~thread_pool`
  | finished
deriving DecidableEq

/-- The destruction of `io_ctx_` has begun. -/
def DtorPc.ioGone : DtorPc → Bool
  | .queueExit | .destroyPool | .finished => true
  | _ => false

/-- A call that outside code makes on the `io_context`. -/
inductive Call
  | start (A : Nat)
  | callback (A : Nat)
  | stop (j : Nat)
  | run
deriving DecidableEq

/-- The call has returned. -/
def Call.returned (io : Ring.RingImpl) : Call → Bool
  | .start A => (io.ops A).start.outside
  | .callback A => (io.ops A).onStop = .idle || (io.ops A).onStop = .returned
  | .stop j => io.stops j = .returned
  | .run => io.run = .notStarted || io.run = .returned

/-- The call that an action begins. -/
def callOf : Ring.Act → List Call
  | .begin A _ _ => [.start A]
  | .requestStop A => [.callback A]
  | .stopCall j => [.stop j]
  | .run => [.run]
  | _ => []

/-- An action of a thread, not of the kernel. -/
def ofThread : Ring.Act → Bool
  | .complete _ _ => false
  | _ => true

/-- The members of `runtime` and its destructor, the calls that outside code has
made on the `io_context`, and whether a task has used the `io_context` after its
destruction began, which is undefined. -/
structure State (n m : Nat) (τ : Type) where
  pool : Pool.Impl n m τ
  io : Ring.RingImpl
  dtor : DtorPc
  calls : List Call
  fault : Bool

/-- `pool` is an action of the pool, `outside` and `task` are uses of the
`io_context` by outside code and by the task that worker `w` runs, `complete` is
a completion posted by the kernel. `destroy` enters `~runtime`, and `dtor` is a step
of it, with the choices that its submission leaves open. -/
inductive Act (n m : Nat) (τ : Type) where
  | pool (a : Pool.Act n m τ)
  | outside (a : Ring.Act)
  | task (w : Fin n) (a : Ring.Act)
  | complete (i : Nat) (r : Ring.IoResult)
  | destroy (j : Nat)
  | dtor (k p : Nat)

variable {n m : Nat} {τ : Type}

/-- Outside code is in no call, on the pool or on the `io_context`. -/
def State.quiet (r : State n m τ) : Bool :=
  decide (∀ i, (r.pool.ext i).isIdle = true) && r.calls.all (Call.returned r.io)

/-- The threads of the pool that may act: an external thread begins a call only
before `~runtime`, and `~thread_pool` is not theirs to run. -/
def State.allows (r : State n m τ) : Pool.Act n m τ → Bool
  | .enqueue (.ext _) _ | .wait _ => r.dtor = .idle
  | .step .dtor => false
  | _ => true

/-- One step of the call of `stop()` number `j`. -/
def stopCallStep (io : Ring.RingImpl) (j k p : Nat) : Option Ring.RingImpl :=
  match io.stops j with
  | .storeRunning => Ring.step io (.stop j)
  | .nop => match io.submission with
    | none => Ring.step io (.lock (.stop j))
    | some u => if u.caller = .stop j then Ring.step io (.submission k p) else none
  | _ => none

variable [DecidableEq τ]

/-- One step of `~runtime`. -/
def dtorStep (r : State n m τ) (k p : Nat) : Option (State n m τ) :=
  match r.dtor with
  | .idle => none
  | .stop j =>
    if r.io.stops j = .returned then some { r with dtor := .destroyIo }
    else (stopCallStep r.io j k p).map fun io => { r with io := io }
  -- the members, in reverse order of their declaration
  | .destroyIo => some { r with dtor := .queueExit }
  | .queueExit => some { r with io := { r.io with sq := [], kernel := [], cq := [] }, dtor := .destroyPool }
  | .destroyPool =>
    if r.pool.dtor = .finished then some { r with dtor := .finished }
    else (Pool.step r.pool (.step .dtor)).map fun p => { r with pool := p }
  | .finished => none

/-- One action; nothing happens after undefined behaviour. -/
def step (r : State n m τ) (a : Act n m τ) : Option (State n m τ) :=
  if r.fault then none
  else match a with
    | .pool a => if r.allows a then (Pool.step r.pool a).map fun p => { r with pool := p } else none
    | .outside a =>
      if r.dtor = .idle ∧ ofThread a then
        (Ring.step r.io a).map fun io => { r with io := io, calls := callOf a ++ r.calls }
      else none
    | .task w a => match r.pool.worker w with
      | .running _ none =>
        if ofThread a then
          if r.dtor.ioGone then some { r with fault := true }
          -- a call of `run()` is the task's from now on
          else (Ring.step r.io a).map fun io => { r with io := io, calls := r.calls.filter (· ∉ callOf a) }
        else none
      | _ => none
    | .complete i res =>
      if r.dtor = .destroyPool ∨ r.dtor = .finished then none
      else (Ring.step r.io (.complete i res)).map fun io => { r with io := io }
    | .destroy j =>
      if r.dtor = .idle ∧ r.quiet = true then
        (Ring.step r.io (.stopCall j)).map fun io => { r with io := io, dtor := .stop j }
      else none
    | .dtor k p => dtorStep r k p

/-- `runtime{n, depth}`. -/
def init (n m : Nat) (τ : Type) (depth : Nat) : State n m τ where
  pool := Pool.init n m τ
  io := Ring.init depth
  dtor := .idle
  calls := []
  fault := false

/-- A runtime from its construction to the end of its destructor. -/
def machine (n m : Nat) (τ : Type) [DecidableEq τ] (depth : Nat) : Machine (State n m τ) (Act n m τ) where
  init := init n m τ depth
  step := step

end AsyncRuntime.Runtime
