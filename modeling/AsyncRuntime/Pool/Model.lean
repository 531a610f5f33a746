import AsyncRuntime.Deque.Model
/-!
# The thread pool

`thread_pool::impl` of `src/thread_pool.cpp`: `n` workers in `worker_loop`, `m`
external threads that call `enqueue` and `wait`, and the thread that runs the
destructor. Each thread is a program point and each step makes one access to a
shared variable. The operations of `global_task_queue` are single steps, since
each of them runs under the queue's own mutex from its first to its last line;
the deques are accessed as in `Deque.Model`.

A task is an object allocated by `enqueue`, so its identity is new. What a task
does is open: while it runs it may call `enqueue` any number of times and return
at any moment.
-/

namespace AsyncRuntime.Pool
open Lib Deque

inductive Thread (n m : Nat) where
  | worker (w : Fin n)
  | ext (i : Fin m)
  | dtor
  deriving DecidableEq

/-! ## Program points -/

/-- `enqueue`, once its task is allocated. The mutex is held at `notify` and
`unlock`. -/
inductive EnqPc (τ : Type) where
  | push (p : OwnerPc τ)
  | pushGlobal (x : τ)
  | loadSleeping
  | lock
  | notify
  | unlock

/-- A look at every queue, `!global_queue.empty_relaxed() || has_local_work()`:
the global queue first, then `bottom_` and `top_` of each deque. -/
inductive LookPc (n : Nat) where
  | global
  | bottom (j : Fin n)
  | top (j : Fin n) (b : Int)

/-- The two looks of the sleep section: before the worker counts itself as
sleeping, and in the predicate of `cv.wait`. -/
inductive Site where
  | first
  | pred

/-- `worker_loop`. `stealing` is the loop of `steal_from_others` at iteration `i`
from `start_index = start`, called from the first search (`spin = none`) or from
iteration `k` of the spin loop (`spin = some k`); without a thief's program
point it stands at the loop's head. The mutex is held from `lockedStop` to `wait`
and at `decSleeping` and `unlock`. -/
inductive WorkerPc (n : Nat) (τ : Type) where
  | boot
  | popping (p : OwnerPc τ)
  | popGlobal
  | stealing (spin : Option Nat) (start i : Nat) (q : Option (ThiefPc τ))
  | running (x : τ) (e : Option (EnqPc τ))
  | loadStop
  | spinPop (k : Nat)
  | lock
  | lockedStop
  | look (site : Site) (l : LookPc n)
  | incSleeping
  | predStop
  | wait
  | blocked
  | notified
  | decSleeping
  | unlock (leave : Bool)
  | exited

/-- An external thread: outside the pool, in `enqueue`, or in `wait`. -/
inductive ExtPc (n : Nat) (τ : Type) where
  | idle
  | enqueue (e : EnqPc τ)
  | wait (l : LookPc n)

/-- `~impl`, then the destructors of its members: the deques and the global
queue. -/
inductive DtorPc where
  | idle
  | storeStop
  | lock
  | notifyAll
  | unlock
  | join (k : Nat)
  | destroy (k : Nat)
  | destroyGlobal
  | finished
  deriving DecidableEq

/-- Who deletes a task: the worker that ran it, or the destructor of a queue. -/
inductive Deleter (n : Nat) where
  | worker (w : Fin n)
  | deque (j : Fin n)
  | global
  deriving DecidableEq

/-! ## The state -/

/-- The members of `impl`, the thread-local `rng_state`, each thread's program
point, and a history: the tasks allocated with the thread that enqueued them,
the runs begun with their worker, the tasks run, and the deletions. -/
structure Impl (n m : Nat) (τ : Type) where
  deques : Fin n → WorkStealingDeque τ
  global : List τ
  stop : Bool
  sleeping : Int
  mutex : Option (Thread n m)
  rng : Fin n → Option UInt32
  worker : Fin n → WorkerPc n τ
  ext : Fin m → ExtPc n τ
  dtor : DtorPc
  enqueued : List (Thread n m × τ)
  started : List (Fin n × τ)
  ran : List τ
  deleted : List (Deleter n × τ)

variable {n m : Nat} {τ : Type}

namespace Impl

/-- Worker `w` moves to `pc`. -/
def setWorker (s : Impl n m τ) (w : Fin n) (pc : WorkerPc n τ) : Impl n m τ :=
  { s with worker := Function.update s.worker w pc }

/-- External thread `i` moves to `pc`. -/
def setExt (s : Impl n m τ) (i : Fin m) (pc : ExtPc n τ) : Impl n m τ :=
  { s with ext := Function.update s.ext i pc }

def setDeque (s : Impl n m τ) (j : Fin n) (d : WorkStealingDeque τ) : Impl n m τ :=
  { s with deques := Function.update s.deques j d }

/-- Worker `w` begins to run `x`. -/
def start (s : Impl n m τ) (w : Fin n) (x : τ) : Impl n m τ :=
  { s.setWorker w (.running x none) with started := s.started ++ [(w, x)] }

end Impl

/-- `thread_local local_queue`: null, except in a worker that has entered
`worker_loop`. -/
def localQueue (s : Impl n m τ) : Thread n m → Option (Fin n)
  | .worker w => match s.worker w with
    | .boot => none
    | _ => some w
  | _ => none

def WorkerPc.isExited : WorkerPc n τ → Bool
  | .exited => true
  | _ => false

def WorkerPc.isBlocked : WorkerPc n τ → Bool
  | .blocked => true
  | _ => false

def ExtPc.isIdle : ExtPc n τ → Bool
  | .idle => true
  | _ => false

/-- The thread is inside a call of `enqueue`. -/
def Impl.inEnqueue (s : Impl n m τ) : Thread n m → Bool
  | .worker w => match s.worker w with
    | .running _ (some _) => true
    | _ => false
  | .ext i => match s.ext i with
    | .enqueue _ => true
    | _ => false
  | .dtor => false

/-! ## Looking at the queues -/

/-- The look goes on with deque `j`, or ends with nothing found. -/
def lookFrom (n j : Nat) : LookPc n ⊕ Bool := if h : j < n then .inl (.bottom ⟨j, h⟩) else .inr false

/-- One access of a look: where it goes on, or whether it found work. A deque is
`empty()` if the `bottom_` it loaded first is at most `top_`. -/
def lookStep (s : Impl n m τ) : LookPc n → LookPc n ⊕ Bool
  | .global => if s.global.isEmpty then lookFrom n 0 else .inr true
  | .bottom j => .inl (.top j (s.deques j).bottom)
  | .top j b => if b ≤ (s.deques j).top then lookFrom n (j + 1) else .inr true

/-! ## steal_from_others -/

/-- The update of `rng_state`. -/
def xorshift (r : UInt32) : UInt32 :=
  let r := r ^^^ (r <<< 13)
  let r := r ^^^ (r >>> 17)
  r ^^^ (r <<< 5)

/-- `(start_index + i) % num_workers` -/
def target (w : Fin n) (start i : Nat) : Fin n := ⟨(start + i) % n, Nat.mod_lt _ w.pos⟩

/-- Where the worker goes when `steal_from_others` returns `nullptr`. -/
def stealMiss : Option Nat → WorkerPc n τ
  | none => .loadStop
  | some k => if k + 1 < 32 then .spinPop (k + 1) else .lock

/-- The head of `steal_from_others`. -/
def stealEnter (s : Impl n m τ) (w : Fin n) (spin : Option Nat) : Impl n m τ :=
  if n ≤ 1 then s.setWorker w (stealMiss spin)
  else
    -- `rng_state` is seeded when the worker first gets here
    let r := xorshift ((s.rng w).getD (UInt32.ofNat w + 1))
    { s.setWorker w (.stealing spin (r.toNat % n) 0 none) with rng := Function.update s.rng w (some r) }

/-- The loop of `steal_from_others` at its head. -/
def stealLoop (w : Fin n) (spin : Option Nat) (start i : Nat) : WorkerPc n τ :=
  if i < n then
    if target w start i = w then .stealing spin start (i + 1) none
    else .stealing spin start i (some .loadTop)
  else stealMiss spin

/-! ## enqueue -/

/-- `enqueue` once its task `x` is allocated: which queue it pushes to. -/
def enqueue (localQueue : Option (Fin n)) (x : τ) : EnqPc τ :=
  match localQueue with
  | some _ => .push (.pushLoadBottom x)
  | none => .pushGlobal x

/-- One access of an `enqueue` made by `θ`; `none` as the second component is its
return. The wake-up itself is the action `notify`, whose choice of a waiter is
not the caller's. -/
def enqStep (s : Impl n m τ) (θ : Thread n m) : EnqPc τ → Option (Impl n m τ × Option (EnqPc τ))
  | .push p => match localQueue s θ, p with
    | none, _ => none
    | some _, .pushDone => some (s, some .loadSleeping)
    | some j, p => some (s.setDeque j (ownerStep (s.deques j) p).1, some (.push (ownerStep (s.deques j) p).2))
  | .pushGlobal x => some ({ s with global := s.global ++ [x] }, some .loadSleeping)
  | .loadSleeping => some (s, if 0 < s.sleeping then some .lock else none)
  | .lock => if s.mutex.isNone then some ({ s with mutex := some θ }, some .notify) else none
  | .notify => none
  | .unlock => some ({ s with mutex := none }, none)

/-! ## worker_loop -/

/-- One step of worker `w`. A worker inside a task or blocked in `cv.wait` has no
step of its own. -/
def workerStep (s : Impl n m τ) (w : Fin n) : Option (Impl n m τ) :=
  match s.worker w with
  | .boot => some (s.setWorker w (.popping .popLoadBottom))
  -- its own deque, then the global queue, then the other deques
  | .popping p => match p with
    | .popDone none => some (s.setWorker w .popGlobal)
    | .popDone (some x) => some (s.start w x)
    | p => some ((s.setDeque w (ownerStep (s.deques w) p).1).setWorker w (.popping (ownerStep (s.deques w) p).2))
  | .popGlobal => match s.global with
    | [] => some (stealEnter s w none)
    | x :: g => some ({ s with global := g }.start w x)
  | .stealing spin start i q => match q with
    | none => some (s.setWorker w (stealLoop w spin start i))
    | some (.done none) => some (s.setWorker w (.stealing spin start (i + 1) none))
    | some (.done (some x)) => some (s.start w x)
    | some q =>
      let j := target w start i
      some ((s.setDeque j (thiefStep (s.deques j) q).1).setWorker w
        (.stealing spin start i (some (thiefStep (s.deques j) q).2)))
  | .running x (some e) => (enqStep s (.worker w) e).map fun (s', e') => s'.setWorker w (.running x e')
  | .running _ none => none
  -- nothing found: `stop` is checked without the mutex, and the worker spins
  | .loadStop => some (s.setWorker w (if s.stop then .exited else .spinPop 0))
  | .spinPop k => match s.global with
    | [] => some (stealEnter s w (some k))
    | x :: g => some ({ s with global := g }.start w x)
  | .lock => if s.mutex.isNone then some { s.setWorker w .lockedStop with mutex := some (.worker w) } else none
  | .lockedStop => some (s.setWorker w (if s.stop then .unlock true else .look .first .global))
  | .look site l => match lookStep s l, site with
    | .inl l', _ => some (s.setWorker w (.look site l'))
    | .inr true, .first => some (s.setWorker w (.unlock false))
    | .inr false, .first => some (s.setWorker w .incSleeping)
    | .inr true, .pred => some (s.setWorker w .decSleeping)
    | .inr false, .pred => some (s.setWorker w .wait)
  | .incSleeping => some { s.setWorker w .predStop with sleeping := s.sleeping + 1 }
  -- the predicate of `cv.wait`, which is evaluated before the first wait too
  | .predStop => some (s.setWorker w (if s.stop then .decSleeping else .look .pred .global))
  -- `cv.wait` releases the mutex and blocks in one step
  | .wait => some { s.setWorker w .blocked with mutex := none }
  | .blocked => none
  -- `cv.wait` takes the mutex back before it evaluates the predicate again
  | .notified => if s.mutex.isNone then some { s.setWorker w .predStop with mutex := some (.worker w) } else none
  | .decSleeping => some { s.setWorker w (.unlock false) with sleeping := s.sleeping - 1 }
  | .unlock leave =>
    some { s.setWorker w (if leave then .exited else .popping .popLoadBottom) with mutex := none }
  | .exited => none

/-! ## External threads -/

/-- One step of external thread `i`. A `wait` that finds work yields and looks
again. -/
def extStep (s : Impl n m τ) (i : Fin m) : Option (Impl n m τ) :=
  match s.ext i with
  | .idle => none
  | .enqueue e => (enqStep s (.ext i) e).map fun (s', e') => s'.setExt i (e'.elim .idle .enqueue)
  | .wait l => match lookStep s l with
    | .inl l' => some (s.setExt i (.wait l'))
    | .inr true => some (s.setExt i (.wait .global))
    | .inr false => some (s.setExt i .idle)

/-! ## The destructor -/

/-- Every worker blocked in `cv.wait` is notified. -/
def notifyAll (s : Impl n m τ) : Impl n m τ :=
  { s with worker := fun w => match s.worker w with
    | .blocked => .notified
    | pc => pc }

/-- `~work_stealing_deque` deletes the tasks from `top_` to `bottom_`. -/
def remaining (d : WorkStealingDeque τ) : List τ := window d.cur.load d.top d.bottom

/-- One step of the destructor. It begins when no external call is in progress,
and no external call begins after it. -/
def dtorStep (s : Impl n m τ) : Option (Impl n m τ) :=
  match s.dtor with
  | .idle => if ∀ i, (s.ext i).isIdle then some { s with dtor := .storeStop } else none
  | .storeStop => some { s with stop := true, dtor := .lock }
  | .lock => if s.mutex.isNone then some { s with mutex := some .dtor, dtor := .notifyAll } else none
  | .notifyAll => some { notifyAll s with dtor := .unlock }
  | .unlock => some { s with mutex := none, dtor := .join 0 }
  | .join k =>
    if h : k < n then
      if (s.worker ⟨k, h⟩).isExited then some { s with dtor := .join (k + 1) } else none
    else some { s with dtor := .destroy 0 }
  | .destroy k =>
    if h : k < n then
      some { s with
        deleted := s.deleted ++ (remaining (s.deques ⟨k, h⟩)).map (fun x => (.deque ⟨k, h⟩, x))
        dtor := .destroy (k + 1) }
    else some { s with dtor := .destroyGlobal }
  | .destroyGlobal =>
    some { s with deleted := s.deleted ++ s.global.map (fun x => (.global, x)), dtor := .finished }
  | .finished => none

/-! ## The machine -/

/-- What the scheduler may pick. `enqueue` is a call, by an external thread or by
the task that a worker is running; `notify` is a `cv.notify_one` with the waiter
it wakes; `finish` is the return of a task, which is then deleted. -/
inductive Act (n m : Nat) (τ : Type) where
  | enqueue (θ : Thread n m) (x : τ)
  | wait (i : Fin m)
  | step (θ : Thread n m)
  | notify (θ : Thread n m) (w : Option (Fin n))
  | finish (w : Fin n)
  | spurious (w : Fin n)

variable [DecidableEq τ]

def DtorPc.isIdle : DtorPc → Bool
  | .idle => true
  | _ => false

/-- `cv.notify_one` wakes a blocked worker if there is one. -/
def notifyOne (s : Impl n m τ) : Option (Fin n) → Option (Impl n m τ)
  | some w => if (s.worker w).isBlocked then some (s.setWorker w .notified) else none
  | none => if ∀ w, (s.worker w).isBlocked = false then some s else none

/-- One step of the pool. -/
def step (s : Impl n m τ) : Act n m τ → Option (Impl n m τ)
  | .enqueue θ x =>
    -- every call allocates a task of its own
    if x ∈ s.enqueued.map (·.2) then none
    else
      let s' := { s with enqueued := s.enqueued ++ [(θ, x)] }
      match θ with
      | .worker w => match s.worker w with
        | .running y none => some (s'.setWorker w (.running y (some (enqueue (localQueue s θ) x))))
        | _ => none
      | .ext i =>
        if (s.ext i).isIdle && s.dtor.isIdle then some (s'.setExt i (.enqueue (enqueue (localQueue s θ) x)))
        else none
      | .dtor => none
  | .wait i => if (s.ext i).isIdle && s.dtor.isIdle then some (s.setExt i (.wait .global)) else none
  | .step (.worker w) => workerStep s w
  | .step (.ext i) => extStep s i
  | .step .dtor => dtorStep s
  | .notify (.worker w) v => match s.worker w with
    | .running x (some .notify) => (notifyOne s v).map (·.setWorker w (.running x (some .unlock)))
    | _ => none
  | .notify (.ext i) v => match s.ext i with
    | .enqueue .notify => (notifyOne s v).map (·.setExt i (.enqueue .unlock))
    | _ => none
  | .notify .dtor _ => none
  | .finish w => match s.worker w with
    | .running x none => some { s.setWorker w (.popping .popLoadBottom) with
        ran := s.ran ++ [x], deleted := s.deleted ++ [(.worker w, x)] }
    | _ => none
  | .spurious w => if (s.worker w).isBlocked then some (s.setWorker w .notified) else none

/-- A new pool: every deque has the default capacity. -/
def init (n m : Nat) (τ : Type) : Impl n m τ where
  deques := fun _ => .new 1024 ⟨10, by decide⟩
  global := []
  stop := false
  sleeping := 0
  mutex := none
  rng := fun _ => none
  worker := fun _ => .boot
  ext := fun _ => .idle
  dtor := .idle
  enqueued := []
  started := []
  ran := []
  deleted := []

/-- A pool of `n` workers used by `m` external threads. -/
def machine (n m : Nat) (τ : Type) [DecidableEq τ] : Machine (Impl n m τ) (Act n m τ) where
  init := init n m τ
  step := step

end AsyncRuntime.Pool
