import AsyncRuntime.Lib.Machine
import AsyncRuntime.Lib.StoreBuffer
import AsyncRuntime.Ring.Model
/-!
# `stop_helper` under store buffers

One operation's `start()` and a `request_stop()` on its token, with `cb_ptr` and
`stop_called` in memory with store buffers: what the release stores and acquire
loads of `stop_helper` permit. Operations on the stop token and on
`submission_mutex` wait until the buffer of their thread is empty.

The program points are those of the context's model. What a submission does to
the ring is left out here: the log `submitted` has the entries of this operation
in the order in which they are submitted.
-/

namespace AsyncRuntime.StopHelper
open Lib AsyncRuntime.Ring

/-- The thread that calls `start()`, and another one. -/
inductive Thread
  | starter
  | other
deriving DecidableEq, Repr

/-- The other thread. -/
def Thread.opposite : Thread → Thread
  | .starter => .other
  | .other => .starter

/-- The atomics of `stop_helper`. -/
inductive Loc
  | cbPtr
  | stopCalled
deriving DecidableEq, Repr

/-- Their types. -/
abbrev Loc.Val : Loc → Type
  | .cbPtr => Option Nat
  | .stopCalled => Bool

/-- A submission made for the operation. -/
inductive Entry
  | op (callback : Nat)
  | cancel (target : Option Nat)
deriving DecidableEq, Repr

/-- The operation. `caller` is the thread that runs the stop callback. Records for
the proofs: `early` that the stop was requested before the check of `start()`,
`startMissed` and `callbackMissed` that the one has loaded `stop_called` as false
and the other `cb_ptr` as null. -/
structure State where
  mem : StoreBuffer Thread Loc Loc.Val
  start : StartPc
  onStop : CallbackPc
  caller : Thread
  stopPossible : Bool
  stopRequested : Bool
  registered : Bool
  submitted : List Entry
  completions : List Channel
  early : Bool
  startMissed : Bool
  callbackMissed : Bool

/-- The buffer of thread `t` is empty. -/
def State.drained (s : State) (t : Thread) : Bool := (s.mem.buf t).isEmpty

/-- One step of `stop_helper::start`; `p` is the address `submit()` returns. -/
def startStep (s : State) (p : Nat) : Option State :=
  match s.start with
  | .checkStop =>
    if s.drained .starter then
      if s.stopRequested then
        some { s with start := .stoppedEarly, completions := s.completions ++ [.stopped] }
      else some { s with start := .register }
    else none
  | .register =>
    if s.drained .starter then
      if s.stopPossible then
        if s.stopRequested then
          some { s with registered := true, onStop := .storeStopCalled, caller := .starter, start := .emplacing }
        else some { s with registered := true, start := .submit }
      else some { s with start := .submit }
    else none
  | .emplacing => if s.onStop = .returned then some { s with start := .submit } else none
  | .submit =>
    if s.drained .starter then
      some { s with submitted := s.submitted ++ [.op p], start := .storeCbPtr (some p) }
    else none
  | .storeCbPtr ptr => some { s with mem := s.mem.store .starter .cbPtr ptr, start := .loadStopCalled ptr }
  | .loadStopCalled ptr =>
    if s.mem.view .starter .stopCalled then some { s with start := .readCtx ptr }
    else some { s with start := .returned, startMissed := true }
  | .readCtx ptr => some { s with start := .cancel ptr }
  | .cancel ptr =>
    if s.drained .starter then
      some { s with submitted := s.submitted ++ [.cancel ptr], start := .returned }
    else none
  | _ => none

/-- One step of `stop_callback_fn::operator()`. -/
def callbackStep (s : State) : Option State :=
  match s.onStop with
  | .storeStopCalled => some { s with mem := s.mem.store s.caller .stopCalled true, onStop := .loadCbPtr }
  | .loadCbPtr =>
    match s.mem.view s.caller .cbPtr with
    | none => some { s with onStop := .returned, callbackMissed := true }
    | some q => some { s with onStop := .readCtx (some q) }
  | .readCtx ptr => some { s with onStop := .cancel ptr }
  | .cancel ptr =>
    -- the mutex of `submit_cancel` is a full fence
    if s.drained s.caller then
      some { s with submitted := s.submitted ++ [.cancel ptr], onStop := .returned }
    else none
  | _ => none

/-- `start()` has not made its check. -/
def unchecked : StartPc → Bool
  | .notStarted | .checkStop => true
  | _ => false

/-- `request_stop()` by thread `t`, which may be the one that called `start()`. -/
def requestStop (s : State) (t : Thread) : Option State :=
  if s.stopRequested = false ∧ (s.start = .notStarted ∨ s.stopPossible = true) ∧ s.drained t = true ∧
      (t = .starter → s.start.outside = true) then
    if s.registered then
      some { s with stopRequested := true, onStop := .storeStopCalled, caller := t }
    else some { s with stopRequested := true, early := unchecked s.start }
  else none

/-- What the scheduler chooses. -/
inductive Act
  | begin (possible : Bool)
  | requestStop (t : Thread)
  | start (p : Nat)
  | callback
  | drain (t : Thread)
deriving DecidableEq, Repr

/-- One action. -/
def step (s : State) : Act → Option State
  | .begin possible =>
    if s.start = .notStarted ∧ (possible = true ∨ s.stopRequested = false) then
      some { s with stopPossible := possible, start := .checkStop }
    else none
  | .requestStop t => requestStop s t
  | .start p => startStep s p
  | .callback => callbackStep s
  | .drain t => (s.mem.drain t).map (fun σ => { s with mem := σ })

/-- `cb_ptr` is null and `stop_called` is false. -/
def initMem : StoreBuffer Thread Loc Loc.Val where
  mem
    | .cbPtr => none
    | .stopCalled => false
  buf _ := []

/-- An operation that has not been started. -/
def init : State where
  mem := initMem
  start := .notStarted
  onStop := .idle
  caller := .other
  stopPossible := false
  stopRequested := false
  registered := false
  submitted := []
  completions := []
  early := false
  startMissed := false
  callbackMissed := false

/-- One operation and its stop request. -/
def machine : Machine State Act := ⟨init, step⟩

/-! ## What one step can do -/

/-- Everything a step can do. -/
inductive Effect (s : State) : Act → State → Prop
  | begin {possible} : s.start = .notStarted → (possible = true ∨ s.stopRequested = false) →
      Effect s (.begin possible) { s with stopPossible := possible, start := .checkStop }
  | request {t} : s.stopRequested = false → s.registered = false →
      Effect s (.requestStop t) { s with stopRequested := true, early := unchecked s.start }
  | requestCallback {t} : s.stopRequested = false → s.registered = true →
      Effect s (.requestStop t) { s with stopRequested := true, onStop := .storeStopCalled, caller := t }
  | stopped {p} : s.start = .checkStop → s.stopRequested = true →
      Effect s (.start p) { s with start := .stoppedEarly, completions := s.completions ++ [.stopped] }
  | checked {p} : s.start = .checkStop → s.stopRequested = false → Effect s (.start p) { s with start := .register }
  | emplaceRequested {p} : s.start = .register → s.stopRequested = true →
      Effect s (.start p)
        { s with registered := true, onStop := .storeStopCalled, caller := .starter, start := .emplacing }
  | emplace {p} : s.start = .register → s.stopRequested = false →
      Effect s (.start p) { s with registered := true, start := .submit }
  | unstoppable {p} : s.start = .register → s.stopPossible = false → Effect s (.start p) { s with start := .submit }
  | emplaced {p} : s.start = .emplacing → s.onStop = .returned → Effect s (.start p) { s with start := .submit }
  | submit {p} : s.start = .submit →
      Effect s (.start p) { s with submitted := s.submitted ++ [.op p], start := .storeCbPtr (some p) }
  | storeCbPtr {p ptr} : s.start = .storeCbPtr ptr →
      Effect s (.start p) { s with mem := s.mem.store .starter .cbPtr ptr, start := .loadStopCalled ptr }
  | stopCalled {p ptr} : s.start = .loadStopCalled ptr → s.mem.view .starter .stopCalled = true →
      Effect s (.start p) { s with start := .readCtx ptr }
  | startMissed {p ptr} : s.start = .loadStopCalled ptr → s.mem.view .starter .stopCalled = false →
      Effect s (.start p) { s with start := .returned, startMissed := true }
  | readCtx {p ptr} : s.start = .readCtx ptr → Effect s (.start p) { s with start := .cancel ptr }
  | cancel {p ptr} : s.start = .cancel ptr →
      Effect s (.start p) { s with submitted := s.submitted ++ [.cancel ptr], start := .returned }
  | storeStopCalled : s.onStop = .storeStopCalled →
      Effect s .callback { s with mem := s.mem.store s.caller .stopCalled true, onStop := .loadCbPtr }
  | callbackMissed : s.onStop = .loadCbPtr → s.mem.view s.caller .cbPtr = none →
      Effect s .callback { s with onStop := .returned, callbackMissed := true }
  | loadCbPtr {q} : s.onStop = .loadCbPtr → s.mem.view s.caller .cbPtr = some q →
      Effect s .callback { s with onStop := .readCtx (some q) }
  | callbackCtx {ptr} : s.onStop = .readCtx ptr → Effect s .callback { s with onStop := .cancel ptr }
  | callbackCancel {ptr} : s.onStop = .cancel ptr →
      Effect s .callback { s with submitted := s.submitted ++ [.cancel ptr], onStop := .returned }
  | drain {t σ} : s.mem.drain t = some σ → Effect s (.drain t) { s with mem := σ }

variable {s s' : State}

theorem requestStop_effect {t : Thread} (h : requestStop s t = some s') : Effect s (.requestStop t) s' := by
  unfold requestStop at h
  split at h
  · next hc =>
    split at h
    · next hr => cases h; exact .requestCallback hc.1 hr
    · next hr => cases h; exact .request hc.1 (by simpa using hr)
  · cases h

theorem startStep_effect {p : Nat} (h : startStep s p = some s') : Effect s (.start p) s' := by
  unfold startStep at h
  split at h
  · next hpc =>
    split at h
    · split at h <;> cases h
      · next hr => exact .stopped hpc hr
      · next hr => exact .checked hpc (by simpa using hr)
    · cases h
  · next hpc =>
    split at h
    · split at h
      · split at h <;> cases h
        · next hr => exact .emplaceRequested hpc hr
        · next hr => exact .emplace hpc (by simpa using hr)
      · next hp => cases h; exact .unstoppable hpc (by simpa using hp)
    · cases h
  · next hpc =>
    split at h <;> cases h
    next hr => exact .emplaced hpc hr
  · next hpc => split at h <;> cases h; exact .submit hpc
  · next ptr hpc => cases h; exact .storeCbPtr hpc
  · next ptr hpc =>
    split at h <;> cases h
    · next hv => exact .stopCalled hpc hv
    · next hv => exact .startMissed hpc (by simpa using hv)
  · next ptr hpc => cases h; exact .readCtx hpc
  · next ptr hpc => split at h <;> cases h; exact .cancel hpc
  · cases h

theorem callbackStep_effect (h : callbackStep s = some s') : Effect s .callback s' := by
  unfold callbackStep at h
  split at h
  · next hpc => cases h; exact .storeStopCalled hpc
  · next hpc =>
    split at h <;> cases h
    · next hv => exact .callbackMissed hpc hv
    · next q hv => exact .loadCbPtr hpc hv
  · next ptr hpc => cases h; exact .callbackCtx hpc
  · next ptr hpc => split at h <;> cases h; exact .callbackCancel hpc
  · cases h

theorem step_effect {a : Act} (h : step s a = some s') : Effect s a s' := by
  cases a with
  | begin possible =>
    simp only [step] at h
    split at h <;> cases h
    next hc => exact .begin hc.1 hc.2
  | requestStop t => exact requestStop_effect h
  | start p => exact startStep_effect h
  | callback => exact callbackStep_effect h
  | drain t =>
    obtain ⟨σ, hσ, rfl⟩ := Option.map_eq_some_iff.1 h
    exact .drain hσ

end AsyncRuntime.StopHelper
