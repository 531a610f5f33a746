import AsyncRuntime.Server.Session
/-!
# The servers without registered buffers

`run_accept_loop` of `server_async_engine.cpp` and `accept_loop` of
`server_coroutine.cpp`: one io thread that accepts connections and resumes their
sessions inside `run()`. What a session receives and sends is in `Session`; here a
session is a number, that of its accept, with the frame whose operation is in flight.

The two servers differ in what their handlers do and in where an exception goes. In
the first the handlers are lambdas, and an exception that leaves one ends in
`upon_error`. In the second they are coroutines that are resumed, and an exception
leaves the coroutine that is running. What may throw does so or not as the scheduler
chooses.
-/

namespace AsyncRuntime.Server
open Lib AsyncRuntime.Ring

/-! ## The io thread -/

/-- Outside every handler, or in the handler of an accept: about to construct the
session `c` on `fd`, to start it, or to start the next accept. -/
inductive ListenPc where
  | idle
  | construct (c : Nat) (fd : Int)
  | start (c : Nat) (fd : Int)
  | rearm
deriving DecidableEq

/-- A server whose sessions have the frames `F`. The history: the sessions whose
descriptor was closed, once for each `close`. -/
structure Listener (F : Type) where
  running : Bool
  accepts : Nat
  accepted : Nat
  flight : List (Nat × F)
  pc : ListenPc
  closed : List Nat

/-- What the scheduler and the kernel choose; `ok` is whether what may throw returns. -/
inductive ListenAct where
  | halt
  | accept (r : IoResult)
  | construct (ok : Bool)
  | start (ok : Bool)
  | rearm (ok : Bool)
  | complete (i : Nat) (r : IoResult) (ok : Bool)

/-- The code of a server: what it does when an accept completes, when a session that
is constructed is started, when the next accept is due, and when an operation of a
session completes. -/
structure Handlers (F : Type) where
  acceptDone : Listener F → IoResult → Listener F
  start : Listener F → Nat → Bool → Listener F
  rearm : Listener F → Bool → Listener F
  complete : Listener F → Nat → F → IoResult → Bool → Listener F

variable {F : Type}

/-- One step of a server. -/
def Listener.step (V : Handlers F) (s : Listener F) : ListenAct → Option (Listener F)
  | .halt => some { s with running := false }
  | .accept r => match s.pc with
    | .idle => if 0 < s.accepts then some (V.acceptDone { s with accepts := s.accepts - 1 } r) else none
    | _ => none
  | .construct ok => match s.pc with
    -- an exception leaves the handler, and with it the accept loop
    | .construct c fd => some { s with pc := if ok then .start c fd else .idle }
    | _ => none
  | .start ok => match s.pc with
    | .start c _ => some (V.start s c ok)
    | _ => none
  | .rearm ok => match s.pc with
    | .rearm => some (V.rearm s ok)
    | _ => none
  | .complete i r ok => match s.pc, s.flight[i]? with
    | .idle, some (c, f) => some (V.complete { s with flight := s.flight.eraseIdx i } c f r ok)
    | _, _ => none

/-- A server when `run()` begins: one accept is in flight. -/
def Listener.init (F : Type) : Listener F where
  running := true
  accepts := 1
  accepted := 0
  flight := []
  pc := .idle
  closed := []

def Handlers.machine (V : Handlers F) : Machine (Listener F) ListenAct := ⟨.init F, Listener.step V⟩

/-- Every step, with the point where the io thread is and the handler it calls. -/
inductive Listener.Effect (V : Handlers F) (s : Listener F) : ListenAct → Listener F → Prop
  | halt : Effect V s .halt { s with running := false }
  | accept (r : IoResult) : s.pc = .idle → 0 < s.accepts →
      Effect V s (.accept r) (V.acceptDone { s with accepts := s.accepts - 1 } r)
  | construct (c : Nat) (fd : Int) (ok : Bool) : s.pc = .construct c fd →
      Effect V s (.construct ok) { s with pc := if ok then .start c fd else .idle }
  | start (c : Nat) (fd : Int) (ok : Bool) : s.pc = .start c fd → Effect V s (.start ok) (V.start s c ok)
  | rearm (ok : Bool) : s.pc = .rearm → Effect V s (.rearm ok) (V.rearm s ok)
  | complete (i : Nat) (r : IoResult) (ok : Bool) (c : Nat) (f : F) : s.pc = .idle → s.flight[i]? = some (c, f) →
      Effect V s (.complete i r ok) (V.complete { s with flight := s.flight.eraseIdx i } c f r ok)

theorem Listener.step_effect {V : Handlers F} {s s' : Listener F} {a : ListenAct} (h : s.step V a = some s') :
    Listener.Effect V s a s' := by
  cases a with
  | halt => cases h; exact .halt
  | accept r =>
    simp only [Listener.step] at h
    split at h
    · next hpc =>
      split at h
      · next ha => cases h; exact .accept r hpc ha
      · cases h
    · cases h
  | construct ok =>
    simp only [Listener.step] at h
    split at h
    · next c fd hpc => cases h; exact .construct c fd ok hpc
    · cases h
  | start ok =>
    simp only [Listener.step] at h
    split at h
    · next c fd hpc => cases h; exact .start c fd ok hpc
    · cases h
  | rearm ok =>
    simp only [Listener.step] at h
    split at h
    · next hpc => cases h; exact .rearm ok hpc
    · cases h
  | complete i r ok =>
    simp only [Listener.step] at h
    split at h
    · next c f hpc hf => cases h; exact .complete i r ok c f hpc hf
    · cases h

/-! ## server_async_engine.cpp -/

namespace Engine

/-- The accept operation completes: the body of the lambda of `run_accept_loop`, up
to `make_shared<Connection>`. An error does not reach it. -/
def acceptDone (s : Listener Callback) (r : IoResult) : Listener Callback :=
  match makeIoCallback r with
  | .value r =>
    if s.running then
      if 0 ≤ r.res then { s with pc := .construct s.accepted r.res, accepted := s.accepted + 1 }
      else { s with pc := .rearm }
    else s
  | .error _ => s
  | .stopped => s

theorem acceptDone_of_neg (s : Listener Callback) {r : IoResult} (h : r.res < 0) : acceptDone s r = s := by
  rcases makeIoCallback_of_neg h with hc | ⟨code, hc⟩ <;> simp only [acceptDone, hc]

theorem acceptDone_of_nonneg {s : Listener Callback} {r : IoResult} (hrun : s.running = true) (h : 0 ≤ r.res) :
    acceptDone s r = { s with pc := .construct s.accepted r.res, accepted := s.accepted + 1 } := by
  simp only [acceptDone, makeIoCallback_of_nonneg h, hrun, h, if_true]

/-- A loop function of `Connection` starts its operation. If that throws, the pointers
of the loop function and of its caller go away, and they are the last ones. -/
def launch (s : Listener Callback) (c : Nat) (loop : Callback) (ok : Bool) : Listener Callback :=
  if ok then { s with flight := s.flight ++ [(c, loop)] } else { s with closed := s.closed ++ [c] }

/-- `start_session`; an exception leaves the lambda. -/
def start (s : Listener Callback) (c : Nat) (ok : Bool) : Listener Callback :=
  { launch s c .handleRead ok with pc := if ok then .rearm else .idle }

/-- `run_accept_loop` is called again. -/
def rearm (s : Listener Callback) (ok : Bool) : Listener Callback :=
  { s with accepts := if ok then s.accepts + 1 else s.accepts, pc := .idle }

/-- The callback runs. When it calls no loop function its capture was the last pointer
to the connection. -/
def complete (s : Listener Callback) (c : Nat) (k : Callback) (r : IoResult) (ok : Bool) : Listener Callback :=
  match k.resume r with
  | some loop => launch s c loop ok
  | none => { s with closed := s.closed ++ [c] }

def handlers : Handlers Callback := ⟨acceptDone, start, rearm, complete⟩

end Engine

/-! ## server_coroutine.cpp -/

namespace Coroutine

/-- `accept_loop` is resumed at its `co_await` and goes on to `handle_session` or to the
head of its loop. -/
def acceptDone (s : Listener Frame) (r : IoResult) : Listener Frame :=
  match makeIoCallback r with
  | .value r =>
    if 0 ≤ r.res then { s with pc := .construct s.accepted r.res, accepted := s.accepted + 1 }
    else if r.res = -ecanceled then s
    else { s with pc := .rearm }
  -- `co_await` throws, and the exception ends the coroutine
  | .error _ => s
  | .stopped => s

theorem acceptDone_of_neg (s : Listener Frame) {r : IoResult} (h : r.res < 0) : acceptDone s r = s := by
  rcases makeIoCallback_of_neg h with hc | ⟨code, hc⟩ <;> simp only [acceptDone, hc]

theorem acceptDone_of_nonneg (s : Listener Frame) {r : IoResult} (h : 0 ≤ r.res) :
    acceptDone s r = { s with pc := .construct s.accepted r.res, accepted := s.accepted + 1 } := by
  simp only [acceptDone, makeIoCallback_of_nonneg h, h, if_true]

/-- `handle_session` has come to its next `co_await`, or has ended. Only the end of its
body closes the descriptor. -/
def goOn (s : Listener Frame) (c : Nat) (next : Frame ⊕ Exit) (ok : Bool) : Listener Frame :=
  match next with
  | .inl f => if ok then { s with flight := s.flight ++ [(c, f)] } else s
  | .inr .coReturn => { s with closed := s.closed ++ [c] }
  | .inr .exception => s
  | .inr .stopped => s

theorem goOn_eq (s : Listener Frame) (c : Nat) (next : Frame ⊕ Exit) (ok : Bool) :
    ∃ flight closed, goOn s c next ok = { s with flight := flight, closed := closed } := by
  unfold goOn
  split
  · split <;> exact ⟨_, _, rfl⟩
  · exact ⟨_, _, rfl⟩
  · exact ⟨_, _, rfl⟩
  · exact ⟨_, _, rfl⟩

theorem goOn_same (s : Listener Frame) (c : Nat) (next : Frame ⊕ Exit) (ok : Bool) :
    (goOn s c next ok).accepted = s.accepted ∧ (goOn s c next ok).pc = s.pc := by
  obtain ⟨flight, closed, heq⟩ := goOn_eq s c next ok
  rw [heq]
  exact ⟨rfl, rfl⟩

/-- `start_detached` runs `handle_session` up to its first `co_await`. An exception in it
ends in its own `upon_error`. -/
def start (s : Listener Frame) (c : Nat) (ok : Bool) : Listener Frame :=
  { goOn s c (outer s.running) ok with pc := .rearm }

/-- The head of the loop of `accept_loop`. -/
def rearm (s : Listener Frame) (ok : Bool) : Listener Frame :=
  { s with accepts := if s.running && ok then s.accepts + 1 else s.accepts, pc := .idle }

def complete (s : Listener Frame) (c : Nat) (f : Frame) (r : IoResult) (ok : Bool) : Listener Frame :=
  goOn s c (resume s.running f r) ok

def handlers : Handlers Frame := ⟨acceptDone, start, rearm, complete⟩

end Coroutine

end AsyncRuntime.Server
