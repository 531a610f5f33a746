import AsyncRuntime.Lib.Machine
import Mathlib.Algebra.Group.Nat.Defs
import Mathlib.Logic.Function.Basic
/-!
# `io_context`

The ring, the loop of `run()`, `stop()`, the `submit_*` family and the protocol
of `stop_helper` between an operation's `start()` and its stop callback
(`io_uring_ctx.cpp`, `io_context.hpp`).

Every operation's `start()`, every stop callback and every call of `stop()` is a
thread of control of its own, and one thread is in `run()`. A callback that
starts an operation or calls `stop()` does so while `run()` stands inside the
callback, which is one of these interleavings. An action is one access to shared
memory, one liburing call or one event of the outside world: the kernel posts a
completion, somebody requests a stop.

What stands for the kernel: `io_uring_submit` consumes any number of the queued
entries, and each consumed entry gives one completion with its `user_data`, at
any later time and in any order. The allocator returns any address that is not
live.
-/

namespace AsyncRuntime.Ring
open Lib

/-! ## Requests and queue entries -/

/-- A `std::span` of bytes. -/
structure Span where
  data : Nat
  size : Nat
deriving DecidableEq, Repr

/-- What `io_uring_prep_*` writes into a submission queue entry. -/
inductive Prep
  | read (fd : Int) (buf len offset : Nat)
  | write (fd : Int) (buf len offset : Nat)
  | accept (fd : Int)
  | recv (fd : Int) (buf len : Nat) (flags : Int)
  | send (fd : Int) (buf len : Nat) (flags : Int)
  | readFixed (fd : Int) (buf len offset : Nat) (index : Int)
  | writeFixed (fd : Int) (buf len offset : Nat) (index : Int)
  | cancel (target : Option Nat)
  | nop
deriving DecidableEq, Repr

/-- The operations of the context, with the fields their operation states keep. -/
inductive Request
  | read (fd : Int) (buf : Span) (offset : Nat)
  | write (fd : Int) (buf : Span) (offset : Nat)
  | accept (fd : Int)
  | recv (fd : Int) (buf : Span) (flags : Int)
  | send (fd : Int) (buf : Span) (flags : Int)
  | readFixed (fd : Int) (index : Nat) (buf : Span) (offset : Nat)
  | writeFixed (fd : Int) (index : Nat) (buf : Span) (offset : Nat)
deriving DecidableEq, Repr

/-- `static_cast<unsigned>`. -/
def toUnsigned (n : Nat) : Nat := n % 2 ^ 32

/-- `static_cast<int>` of an `unsigned`. -/
def toInt (n : Nat) : Int := (n : Int).bmod (2 ^ 32)

/-- The entry of `submit_read`. -/
def submitRead (fd : Int) (buf : Span) (offset : Nat) : Prep :=
  .read fd buf.data (toUnsigned buf.size) offset

/-- The entry of `submit_write`. -/
def submitWrite (fd : Int) (buf : Span) (offset : Nat) : Prep :=
  .write fd buf.data (toUnsigned buf.size) offset

/-- The entry of `submit_accept`. -/
def submitAccept (fd : Int) : Prep := .accept fd

/-- The entry of `submit_recv`; the length is not cast. -/
def submitRecv (fd : Int) (buf : Span) (flags : Int) : Prep := .recv fd buf.data buf.size flags

/-- The entry of `submit_send`; the length is not cast. -/
def submitSend (fd : Int) (buf : Span) (flags : Int) : Prep := .send fd buf.data buf.size flags

/-- The entry of `submit_read_fixed`. -/
def submitReadFixed (fd : Int) (index : Nat) (buf : Span) (offset : Nat) : Prep :=
  .readFixed fd buf.data (toUnsigned buf.size) offset (toInt index)

/-- The entry of `submit_write_fixed`. -/
def submitWriteFixed (fd : Int) (index : Nat) (buf : Span) (offset : Nat) : Prep :=
  .writeFixed fd buf.data (toUnsigned buf.size) offset (toInt index)

/-- The `submit_*` function that the `start()` of a request calls. -/
def Request.prep : Request → Prep
  | .read fd buf offset => submitRead fd buf offset
  | .write fd buf offset => submitWrite fd buf offset
  | .accept fd => submitAccept fd
  | .recv fd buf flags => submitRecv fd buf flags
  | .send fd buf flags => submitSend fd buf flags
  | .readFixed fd index buf offset => submitReadFixed fd index buf offset
  | .writeFixed fd index buf offset => submitWriteFixed fd index buf offset

/-- Whom an entry was made for. The program does not see it: it sees
`user_data`. -/
inductive Origin
  | op (A : Nat)
  | cancel (A : Nat)
  | nop (j : Nat)
deriving DecidableEq, Repr

/-- A submission queue entry; a null `user_data` is `none`. -/
structure Sqe where
  prep : Prep
  userData : Option Nat
  origin : Origin
deriving DecidableEq, Repr

/-- `io_result`. -/
structure IoResult where
  res : Int
  flags : Nat
deriving DecidableEq, Repr

/-- A completion queue entry. -/
structure Cqe where
  userData : Option Nat
  result : IoResult
  origin : Origin
deriving DecidableEq, Repr

/-- How a receiver is completed. -/
inductive Channel
  | value (result : IoResult)
  | error (code : Int)
  | stopped
deriving DecidableEq, Repr

/-- `ECANCELED`. -/
def ecanceled : Int := 125

/-- `make_io_callback`: the channel on which the callback completes its receiver. -/
def makeIoCallback (r : IoResult) : Channel :=
  if r.res = -ecanceled then .stopped else if r.res < 0 then .error (-r.res) else .value r

/-! ## Program points -/

/-- `stop_helper::start`. -/
inductive StartPc
  | notStarted
  | checkStop
  | register                       -- `stop_possible`, `stop_cb.emplace`
  | emplacing                      -- the callback runs inside `emplace`
  | submit                         -- in the call of `submit()`
  | storeCbPtr (ptr : Option Nat)
  | loadStopCalled (ptr : Option Nat)
  | readCtx (ptr : Option Nat)
  | cancel (ptr : Option Nat)      -- in the call of `submit_cancel`
  | returned
  | stoppedEarly                   -- returned after `set_stopped`
deriving DecidableEq, Repr

/-- `start()` is not running. -/
def StartPc.outside : StartPc → Bool
  | .notStarted | .returned | .stoppedEarly => true
  | _ => false

/-- `stop_callback_fn::operator()`. -/
inductive CallbackPc
  | idle
  | storeStopCalled
  | loadCbPtr
  | readCtx (ptr : Option Nat)
  | cancel (ptr : Option Nat)
  | returned
deriving DecidableEq, Repr

/-- `io_context::stop`. -/
inductive StopPc
  | idle
  | storeRunning
  | nop                            -- from the lock to the end of the call
  | returned
deriving DecidableEq, Repr

/-- `io_context::run`: `head` and `count` are those of the batch, `head`
counted from the first entry of the queue. -/
inductive RunPc
  | notStarted
  | storeRunning
  | loadRunning
  | wait
  | next (head count : Nat)        -- the loop test of `io_uring_for_each_cqe`
  | calling (head count ptr : Nat) -- about to call the callback at `ptr`
  | inCallback (head count ptr : Nat)
  | advance (count : Nat)
  | returned
deriving DecidableEq, Repr

/-- Who enters a critical section of `submission_mutex`. -/
inductive Caller
  | start (A : Nat)
  | callback (A : Nat)
  | stop (j : Nat)
deriving DecidableEq, Repr

/-- What the critical section is for: a `submit_*` of an operation,
`submit_cancel`, or the NOP of `stop()`. -/
inductive Job
  | op (A : Nat) (prep : Prep)
  | cancel (A : Nat) (ptr : Option Nat)
  | nop (j : Nat)
deriving DecidableEq, Repr

/-- Inside the critical section; `ptr` is the pointer the call will return. -/
inductive SubmitPc
  | getSqe
  | submitFull                     -- the `io_uring_submit` of `get_sqe`
  | getSqeAgain
  | prep
  | submit (ptr : Option Nat)
  | unlock (ptr : Option Nat)
deriving DecidableEq, Repr

/-- The holder of `submission_mutex` and where it stands. -/
structure Submission where
  caller : Caller
  job : Job
  pc : SubmitPc
deriving DecidableEq, Repr

/-- Undefined behaviour. -/
inductive Fault
  | nullSqe                        -- a null entry was prepared
  | dangling                       -- a freed callback was called
deriving DecidableEq, Repr

/-! ## The state -/

/-- An operation state with its `stop_helper`, the stop state of its token, and
the program points of its two threads. `callback` (the address of its heap
callback) and `completions` are records for the proofs. -/
structure Operation where
  request : Request
  stopPossible : Bool
  stopRequested : Bool
  registered : Bool
  cbPtr : Option Nat
  stopCalled : Bool
  start : StartPc
  onStop : CallbackPc
  callback : Option Nat
  completions : List Channel
deriving DecidableEq, Repr

/-- An operation that nobody has started. -/
def Operation.fresh : Operation :=
  ⟨.accept 0, false, false, false, none, false, .notStarted, .idle, none, []⟩

/-- `ring_impl` and everything around it. `heap` gives the owner of the callback
at each live address. The records for the proofs: `batch` are the completions
handled since the last `io_uring_cq_advance`, `delivered` the callbacks called
and with which completion, `freed` the callbacks deleted, `stopReturned` whether
a `stop()` has returned after `run()` was invoked. -/
structure RingImpl where
  depth : Nat
  sq : List Sqe
  kernel : List Sqe
  cq : List Cqe
  running : Bool
  submission : Option Submission
  heap : Nat → Option Nat
  ops : Nat → Operation
  stops : Nat → StopPc
  run : RunPc
  batch : List Cqe
  delivered : List (Nat × Cqe)
  freed : List Nat
  stopReturned : Bool
  fault : Option Fault

namespace RingImpl

/-- Replace operation `A`. -/
def setOp (s : RingImpl) (A : Nat) (o : Operation) : RingImpl :=
  { s with ops := Function.update s.ops A o }

/-- Move the holder of the mutex. -/
def setPc (s : RingImpl) (u : Submission) (pc : SubmitPc) : RingImpl :=
  { s with submission := some { u with pc := pc } }

end RingImpl

/-! ## `stop_helper` -/

/-- One step of `stop_helper::start` outside `submit()` and `submit_cancel`. -/
def startStep (s : RingImpl) (A : Nat) : Option RingImpl :=
  let o := s.ops A
  match o.start with
  | .checkStop =>
    if o.stopRequested then
      some (s.setOp A { o with start := .stoppedEarly, completions := o.completions ++ [.stopped] })
    else some (s.setOp A { o with start := .register })
  | .register =>
    if o.stopPossible then
      -- a stop already requested runs the callback inside the constructor
      if o.stopRequested then
        some (s.setOp A { o with registered := true, onStop := .storeStopCalled, start := .emplacing })
      else some (s.setOp A { o with registered := true, start := .submit })
    else some (s.setOp A { o with start := .submit })
  | .emplacing =>
    if o.onStop = .returned then some (s.setOp A { o with start := .submit }) else none
  | .storeCbPtr ptr => some (s.setOp A { o with cbPtr := ptr, start := .loadStopCalled ptr })
  | .loadStopCalled ptr =>
    if o.stopCalled then some (s.setOp A { o with start := .readCtx ptr })
    else some (s.setOp A { o with start := .returned })
  | .readCtx ptr => some (s.setOp A { o with start := .cancel ptr })
  | _ => none

/-- One step of `stop_callback_fn::operator()` outside `submit_cancel`. -/
def callbackStep (s : RingImpl) (A : Nat) : Option RingImpl :=
  let o := s.ops A
  match o.onStop with
  | .storeStopCalled => some (s.setOp A { o with stopCalled := true, onStop := .loadCbPtr })
  | .loadCbPtr =>
    match o.cbPtr with
    | none => some (s.setOp A { o with onStop := .returned })
    | some p => some (s.setOp A { o with onStop := .readCtx (some p) })
  | .readCtx ptr => some (s.setOp A { o with onStop := .cancel ptr })
  | _ => none

/-- `request_stop()` on the token of `A`: the first request runs the callback
that is registered. -/
def requestStop (s : RingImpl) (A : Nat) : Option RingImpl :=
  let o := s.ops A
  if o.stopRequested = false ∧ (o.start = .notStarted ∨ o.stopPossible = true) then
    if o.registered then some (s.setOp A { o with stopRequested := true, onStop := .storeStopCalled })
    else some (s.setOp A { o with stopRequested := true })
  else none

/-- `start()` of operation `A` is called; a token that cannot be stopped has no
stop request. -/
def begin (s : RingImpl) (A : Nat) (r : Request) (possible : Bool) : Option RingImpl :=
  let o := s.ops A
  if o.start = .notStarted ∧ (possible = true ∨ o.stopRequested = false) then
    some (s.setOp A { o with request := r, stopPossible := possible, start := .checkStop })
  else none

/-! ## Submission -/

/-- The submission that a thread is about to make. -/
def RingImpl.job (s : RingImpl) : Caller → Option Job
  | .start A =>
    match (s.ops A).start with
    | .submit => some (.op A (s.ops A).request.prep)
    | .cancel ptr => some (.cancel A ptr)
    | _ => none
  | .callback A =>
    match (s.ops A).onStop with
    | .cancel ptr => some (.cancel A ptr)
    | _ => none
  | .stop j =>
    match s.stops j with
    | .nop => some (.nop j)
    | _ => none

/-- A thread takes `submission_mutex`. -/
def lock (s : RingImpl) (c : Caller) : Option RingImpl :=
  match s.submission, s.job c with
  | none, some job => some { s with submission := some ⟨c, job, .getSqe⟩ }
  | _, _ => none

/-- `io_uring_submit` hands the first `k` queued entries to the kernel. -/
def ioUringSubmit (s : RingImpl) (k : Nat) : RingImpl :=
  { s with sq := s.sq.drop k, kernel := s.kernel ++ s.sq.take k }

/-- The entry is prepared and tagged. For an operation this is the first half of
`submit_with_cb`: the callback is allocated at `p`. -/
def prepare (s : RingImpl) (u : Submission) (p : Nat) : Option RingImpl :=
  match u.job with
  | .op A prep =>
    if s.heap p = none then
      some (RingImpl.setPc { s with
        heap := Function.update s.heap p (some A)
        ops := Function.update s.ops A { s.ops A with callback := some p }
        sq := s.sq ++ [⟨prep, some p, .op A⟩] } u (.submit (some p)))
    else none
  | .cancel A ptr =>
    some (RingImpl.setPc { s with sq := s.sq ++ [⟨.cancel ptr, none, .cancel A⟩] } u (.submit none))
  | .nop j => some (RingImpl.setPc { s with sq := s.sq ++ [⟨.nop, none, .nop j⟩] } u (.submit none))

/-- `io_uring_get_sqe` has returned null twice: only `stop()` looks at it. -/
def nullSqe (s : RingImpl) (u : Submission) : RingImpl :=
  match u.job with
  | .nop _ => s.setPc u (.unlock none)
  | _ => { s with fault := some .nullSqe }

/-- The call returns `ptr` to the thread that made it. -/
def resume (s : RingImpl) (ptr : Option Nat) : Caller → RingImpl
  | .start A =>
    match (s.ops A).start with
    | .submit => s.setOp A { s.ops A with start := .storeCbPtr ptr }
    | _ => s.setOp A { s.ops A with start := .returned }
  | .callback A => s.setOp A { s.ops A with onStop := .returned }
  | .stop j =>
    { s with
      stops := Function.update s.stops j .returned
      stopReturned := s.stopReturned || decide (s.run ≠ .notStarted) }

/-- One step inside the critical section. An `io_uring_submit` consumes `k`
entries; an allocation returns `p`. -/
def submissionStep (s : RingImpl) (k p : Nat) : Option RingImpl :=
  match s.submission with
  | none => none
  | some u =>
    match u.pc with
    -- `get_sqe`: a full queue is submitted once and asked once more
    | .getSqe => some (s.setPc u (if s.sq.length < s.depth then .prep else .submitFull))
    | .submitFull => some ((ioUringSubmit s k).setPc u .getSqeAgain)
    | .getSqeAgain => some (if s.sq.length < s.depth then s.setPc u .prep else nullSqe s u)
    | .prep => prepare s u p
    | .submit ptr => some ((ioUringSubmit s k).setPc u (.unlock ptr))
    | .unlock ptr => some (resume { s with submission := none } ptr u.caller)

/-! ## `run()` and `stop()` -/

/-- One step of `io_context::run`; `wait` is the return of `io_uring_wait_cqe`
with a completion. -/
def runStep (s : RingImpl) : Option RingImpl :=
  match s.run with
  | .storeRunning => some { s with running := true, run := .loadRunning }
  | .loadRunning => some { s with run := if s.running then .wait else .returned }
  | .wait => if s.cq = [] then none else some { s with run := .next 0 0 }
  | .next head count =>
    match s.cq[head]? with
    | none => some { s with run := .advance count }
    | some e =>
      match e.userData with
      -- the entries of `stop()` and `submit_cancel` have no callback
      | none => some { s with run := .next (head + 1) (count + 1), batch := s.batch ++ [e] }
      | some p => some { s with run := .calling head count p }
  | .calling head count p =>
    match s.cq[head]?, s.heap p with
    | some e, some A =>
      some { s with
        run := .inCallback head count p
        delivered := s.delivered ++ [(A, e)]
        ops := Function.update s.ops A
          { s.ops A with completions := (s.ops A).completions ++ [makeIoCallback e.result] } }
    -- the callback at this address has been deleted
    | some _, none => some { s with fault := some .dangling }
    | none, _ => none
  | .inCallback head count p =>
    match s.cq[head]?, s.heap p with
    | some e, some A =>
      some { s with
        run := .next (head + 1) (count + 1)
        heap := Function.update s.heap p none
        freed := s.freed ++ [A]
        batch := s.batch ++ [e] }
    | _, _ => none
  | .advance count => some { s with cq := s.cq.drop count, batch := [], run := .loadRunning }
  | _ => none

/-- `io_uring_wait_cqe` fails: `-EINTR` goes round the loop, any other error
leaves it. -/
def waitError (s : RingImpl) (eintr : Bool) : Option RingImpl :=
  if s.run = .wait then some { s with run := if eintr then .loadRunning else .returned } else none

/-- The store of `io_context::stop`. -/
def stopStep (s : RingImpl) (j : Nat) : Option RingImpl :=
  if s.stops j = .storeRunning then
    some { s with running := false, stops := Function.update s.stops j .nop }
  else none

/-- The kernel completes its `i`th request. -/
def complete (s : RingImpl) (i : Nat) (r : IoResult) : Option RingImpl :=
  match s.kernel[i]? with
  | none => none
  | some e =>
    some { s with kernel := s.kernel.eraseIdx i, cq := s.cq ++ [⟨e.userData, r, e.origin⟩] }

/-! ## The machine -/

/-- What the scheduler, the kernel and the users of the context choose. -/
inductive Act
  | begin (A : Nat) (r : Request) (possible : Bool)
  | requestStop (A : Nat)
  | start (A : Nat)
  | callback (A : Nat)
  | lock (c : Caller)
  | submission (k p : Nat)
  | stopCall (j : Nat)
  | stop (j : Nat)
  | run
  | runStep
  | waitError (eintr : Bool)
  | complete (i : Nat) (r : IoResult)
deriving DecidableEq, Repr

/-- One action; nothing happens after undefined behaviour. -/
def step (s : RingImpl) (a : Act) : Option RingImpl :=
  if s.fault = none then
    match a with
    | .begin A r possible => begin s A r possible
    | .requestStop A => requestStop s A
    | .start A => startStep s A
    | .callback A => callbackStep s A
    | .lock c => lock s c
    | .submission k p => submissionStep s k p
    | .stopCall j =>
      if s.stops j = .idle then some { s with stops := Function.update s.stops j .storeRunning } else none
    | .stop j => stopStep s j
    | .run =>
      if s.run = .notStarted ∨ s.run = .returned then some { s with run := .storeRunning } else none
    | .runStep => runStep s
    | .waitError eintr => waitError s eintr
    | .complete i r => complete s i r
  else none

/-- A context that has just been constructed with queue depth `depth`. -/
def init (depth : Nat) : RingImpl where
  depth := depth
  sq := []
  kernel := []
  cq := []
  running := false
  submission := none
  heap := fun _ => none
  ops := fun _ => .fresh
  stops := fun _ => .idle
  run := .notStarted
  batch := []
  delivered := []
  freed := []
  stopReturned := false
  fault := none

/-- The context, the threads that use it, and the kernel. -/
def machine (depth : Nat) : Machine RingImpl Act := ⟨init depth, step⟩

end AsyncRuntime.Ring
