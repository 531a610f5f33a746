import AsyncRuntime.Pool.Model
/-!
# Several thread pools

Any number of `thread_pool` objects, each with its own workers, and external
threads that may call all of them. A pool's own steps are those of `Pool.Model`.
What is new is a call of `enqueue` on one pool by a task of another: `local_queue`
is a thread-local variable, so the task goes to the deque of the worker that
makes the call, while `sleeping_workers`, `mutex` and `cv` are members of the pool
that is called.
-/

namespace AsyncRuntime.Pools
open Lib Deque Pool

/-- The pools, the pool whose `enqueue` each worker called last, the worker of
another pool that holds a pool's mutex, and a history: the tasks with the pool
they were enqueued on. -/
structure State (K m : Nat) (n : Fin K → Nat) (τ : Type) where
  pool : ∀ k, Impl (n k) m τ
  callee : ∀ k, Fin (n k) → Fin K
  guest : Fin K → Option (Σ k, Fin (n k))
  asked : List (Fin K × τ)

/-- `enqueue` is a call of an external thread on pool `k` and `spawn` a call on
pool `k` by the task that worker `w` of pool `q` runs. `notifyOther` is the
`cv.notify_one` of such a call on another pool; the rest are the actions of one
pool. -/
inductive Act (K m : Nat) (n : Fin K → Nat) (τ : Type) where
  | enqueue (i : Fin m) (k : Fin K) (x : τ)
  | spawn (q : Fin K) (w : Fin (n q)) (k : Fin K) (x : τ)
  | wait (i : Fin m) (k : Fin K)
  | step (k : Fin K) (θ : Thread (n k) m)
  | notify (k : Fin K) (θ : Thread (n k) m) (v : Option (Fin (n k)))
  | notifyOther (q : Fin K) (w : Fin (n q)) (k : Fin K) (v : Option (Fin (n k)))
  | finish (k : Fin K) (w : Fin (n k))
  | spurious (k : Fin K) (w : Fin (n k))

variable {K m : Nat} {n : Fin K → Nat} {τ : Type}

namespace State

def setPool (s : State K m n τ) (k : Fin K) (p : Impl (n k) m τ) : State K m n τ :=
  { s with pool := Function.update s.pool k p }

/-- Worker `w` of pool `q` is inside `enqueue` of another pool. -/
def visiting (s : State K m n τ) (q : Fin K) (w : Fin (n q)) : Bool :=
  (s.pool q).inEnqueue (.worker w) && s.callee q w != q

/-- External thread `i` is in no call. -/
def free (s : State K m n τ) (i : Fin m) : Bool := decide (∀ k, ((s.pool k).ext i).isIdle = true)

/-- No worker of another pool is inside a call on pool `k`. -/
def unvisited (s : State K m n τ) (k : Fin K) : Bool :=
  decide (∀ q w, s.visiting q w = true → s.callee q w ≠ k)

end State

variable [DecidableEq τ]

/-- A step of pool `k` on its own. While a worker of another pool holds the mutex
no step takes it. -/
def ownStep (s : State K m n τ) (k : Fin K) (a : Pool.Act (n k) m τ) : Option (State K m n τ) :=
  match Pool.step (s.pool k) a with
  | some p => if (s.guest k).isSome && (s.pool k).mutex.isNone && p.mutex.isSome then none else some (s.setPool k p)
  | none => none

/-- A step of worker `w` of pool `q` inside `enqueue` of pool `k`. The push goes to
the worker's own deque; the counter, the mutex and the condition variable are
those of pool `k`. -/
def visitStep (s : State K m n τ) (q : Fin K) (w : Fin (n q)) (k : Fin K) : Option (State K m n τ) :=
  match (s.pool q).worker w with
  -- `local_queue` is that of the pool which the thread belongs to
  | .running _ (some (.push _)) => ownStep s q (.step (.worker w))
  | .running y (some .loadSleeping) =>
    some (s.setPool q ((s.pool q).setWorker w (.running y (if 0 < (s.pool k).sleeping then some .lock else none))))
  | .running y (some .lock) =>
    if (s.pool k).mutex.isNone && (s.guest k).isNone then
      some { s.setPool q ((s.pool q).setWorker w (.running y (some .notify))) with
        guest := Function.update s.guest k (some ⟨q, w⟩) }
    else none
  | .running y (some .unlock) =>
    some { s.setPool q ((s.pool q).setWorker w (.running y none)) with guest := Function.update s.guest k none }
  | _ => none

/-- One step of the pools. An external thread makes one call at a time. A pool is
called by tasks of other pools only before its destructor begins, which waits for
such calls as for those of the external threads. -/
def step (s : State K m n τ) : Act K m n τ → Option (State K m n τ)
  | .enqueue i k x =>
    if x ∉ s.asked.map (·.2) ∧ s.free i then
      (ownStep s k (.enqueue (.ext i) x)).map fun s' => { s' with asked := s.asked ++ [(k, x)] }
    else none
  | .spawn q w k x =>
    if x ∉ s.asked.map (·.2) ∧ (k = q ∨ (s.pool k).dtor.isIdle) then
      (ownStep s q (.enqueue (.worker w) x)).map fun s' => { s' with
        callee := Function.update s.callee q (Function.update (s.callee q) w k), asked := s.asked ++ [(k, x)] }
    else none
  | .wait i k => if s.free i then ownStep s k (.wait i) else none
  | .step k (.worker w) => if s.visiting k w then visitStep s k w (s.callee k w) else ownStep s k (.step (.worker w))
  | .step k (.ext i) => ownStep s k (.step (.ext i))
  -- the destructor waits for the visitors
  | .step k .dtor => if s.unvisited k then ownStep s k (.step .dtor) else none
  | .notify k (.worker w) v => if s.visiting k w then none else ownStep s k (.notify (.worker w) v)
  | .notify k θ v => ownStep s k (.notify θ v)
  | .notifyOther q w k v =>
    if s.visiting q w ∧ s.callee q w = k then
      match (s.pool q).worker w with
      | .running y (some .notify) => (notifyOne (s.pool k) v).map fun p =>
          (s.setPool k p).setPool q ((s.pool q).setWorker w (.running y (some .unlock)))
      | _ => none
    else none
  | .finish k w => ownStep s k (.finish w)
  | .spurious k w => ownStep s k (.spurious w)

/-- New pools. -/
def init (K m : Nat) (n : Fin K → Nat) (τ : Type) : State K m n τ where
  pool k := Pool.init (n k) m τ
  callee k _ := k
  guest _ := none
  asked := []

/-- `K` pools, pool `k` with `n k` workers, used by `m` external threads. -/
def machine (K m : Nat) (n : Fin K → Nat) (τ : Type) [DecidableEq τ] : Machine (State K m n τ) (Act K m n τ) where
  init := init K m n τ
  step := step

end AsyncRuntime.Pools
