import AsyncRuntime.StopHelper.Model
import AsyncRuntime.Ring.Lifecycle
/-!
# The context's model is the case of empty buffers

The model of the context has `cb_ptr` and `stop_called` as plain fields of the
operation state. Here every operation of every run of it is followed in the model
with store buffers, where each store drains at once. So the model with buffers has
all the behaviour of `stop_helper` that the context's model has, and more.
-/

namespace AsyncRuntime.StopHelper
open Lib AsyncRuntime.Ring

/-- The state with buffers that stands for an operation state without. -/
structure Represents (s : State) (o : Operation) : Prop where
  start : s.start = o.start
  onStop : s.onStop = o.onStop
  stopPossible : s.stopPossible = o.stopPossible
  stopRequested : s.stopRequested = o.stopRequested
  registered : s.registered = o.registered
  cbPtr : s.mem.mem .cbPtr = o.cbPtr
  stopCalled : s.mem.mem .stopCalled = o.stopCalled
  empty : ∀ t, s.mem.buf t = []

variable {s s' : State} {o o' : Operation}

theorem Represents.init : Represents init .fresh := ⟨rfl, rfl, rfl, rfl, rfl, rfl, rfl, fun _ => rfl⟩

theorem Represents.drained (h : Represents s o) (t : Thread) : s.drained t = true := by
  unfold State.drained; rw [h.empty t]; rfl

theorem Represents.view (h : Represents s o) (t : Thread) : s.mem.view t = s.mem.mem :=
  StoreBuffer.view_of_empty (h.empty t)

/-- A store by a thread that has nothing buffered, drained at once. -/
theorem drain_store {σ : StoreBuffer Thread Loc Loc.Val} (h : ∀ t, σ.buf t = []) (t : Thread) (l : Loc) (x : l.Val) :
    (σ.store t l x).drain t = some ⟨Function.update σ.mem l x, σ.buf⟩ := by
  have hbuf : (σ.store t l x).buf t = [⟨l, x⟩] := by
    simp only [StoreBuffer.store, Function.update_self, h t, List.nil_append]
  unfold StoreBuffer.drain
  rw [hbuf]
  simp only [StoreBuffer.store, StoreBuffer.write, Function.update_idem, Option.some.injEq, StoreBuffer.mk.injEq,
    true_and]
  rw [← h t]
  exact Function.update_eq_self t σ.buf

/-- Some run of the model with buffers ends in the operation state. -/
def Followed (o : Operation) : Prop := ∃ as s, machine.Run as s ∧ Represents s o

theorem Followed.step {as : List Act} {a : Act} (hrun : machine.Run as s) (hs : StopHelper.step s a = some s')
    (hr : Represents s' o') : Followed o' := ⟨as ++ [a], s', hrun.snoc hs, hr⟩

/-- Every step of `stop_helper` is a step here, followed by a drain if it stores. -/
theorem Followed.op_step (hf : Followed o) (ho : OpStep o o') : Followed o' := by
  obtain ⟨as, s, hrun, h⟩ := hf
  have hd := h.drained
  have hview := h.view
  obtain ⟨request, possible, requested, registered, cbPtr, called, start, onStop, callback, completions⟩ := o
  obtain ⟨rfl, rfl, rfl, rfl, rfl, rfl, rfl, hempty⟩ := h
  have hstart {pc : StartPc} (hs : s.start = pc) (p : Nat) :
      StopHelper.step s (.start p) = startStep { s with start := pc } p := by rw [← hs]; rfl
  have hstop {pc : CallbackPc} (hs : s.onStop = pc) :
      StopHelper.step s .callback = callbackStep { s with onStop := pc } := by rw [← hs]; rfl
  have hother : Thread.other = .starter → s.start.outside = true := by rintro ⟨⟩
  cases ho with
  | @begin r possible hs hp =>
    exact .step (a := .begin possible) hrun (if_pos ⟨hs, hp⟩) ⟨rfl, rfl, rfl, rfl, rfl, rfl, rfl, hempty⟩
  | request hr hg hp =>
    have hstep : StopHelper.step s (.requestStop .other) =
        some { s with stopRequested := true, early := unchecked s.start } := by
      simp only [StopHelper.step, requestStop]
      rw [if_pos ⟨hr, hp, hd .other, hother⟩, if_neg (ne_true_of_eq_false hg)]
    exact .step hrun hstep ⟨rfl, rfl, rfl, rfl, rfl, rfl, rfl, hempty⟩
  | requestCallback hr hg hp =>
    have hstep : StopHelper.step s (.requestStop .other) =
        some { s with stopRequested := true, onStop := .storeStopCalled, caller := .other } := by
      simp only [StopHelper.step, requestStop]
      rw [if_pos ⟨hr, hp, hd .other, hother⟩, if_pos hg]
    exact .step hrun hstep ⟨rfl, rfl, rfl, rfl, rfl, rfl, rfl, hempty⟩
  | stopped hs hr =>
    have hstep : StopHelper.step s (.start 0) =
        some { s with start := .stoppedEarly, completions := s.completions ++ [.stopped] } := by
      rw [hstart hs]
      exact (if_pos (hd .starter)).trans (if_pos hr)
    exact .step hrun hstep ⟨rfl, rfl, rfl, rfl, rfl, rfl, rfl, hempty⟩
  | checked hs hr =>
    have hstep : StopHelper.step s (.start 0) = some { s with start := .register } := by
      rw [hstart hs]
      exact (if_pos (hd .starter)).trans (if_neg (ne_true_of_eq_false hr))
    exact .step hrun hstep ⟨rfl, rfl, rfl, rfl, rfl, rfl, rfl, hempty⟩
  | emplaceRequested hs hr hp =>
    have hstep : StopHelper.step s (.start 0) = some
        { s with registered := true, onStop := .storeStopCalled, caller := .starter, start := .emplacing } := by
      rw [hstart hs]
      exact (if_pos (hd .starter)).trans ((if_pos hp).trans (if_pos hr))
    exact .step hrun hstep ⟨rfl, rfl, rfl, rfl, rfl, rfl, rfl, hempty⟩
  | emplace hs hr hp =>
    have hstep : StopHelper.step s (.start 0) = some { s with registered := true, start := .submit } := by
      rw [hstart hs]
      exact (if_pos (hd .starter)).trans ((if_pos hp).trans (if_neg (ne_true_of_eq_false hr)))
    exact .step hrun hstep ⟨rfl, rfl, rfl, rfl, rfl, rfl, rfl, hempty⟩
  | unstoppable hs hp =>
    have hstep : StopHelper.step s (.start 0) = some { s with start := .submit } := by
      rw [hstart hs]
      exact (if_pos (hd .starter)).trans (if_neg (ne_true_of_eq_false hp))
    exact .step hrun hstep ⟨rfl, rfl, rfl, rfl, rfl, rfl, rfl, hempty⟩
  | emplaced hs hr =>
    have hstep : StopHelper.step s (.start 0) = some { s with start := .submit } := by
      rw [hstart hs]
      exact if_pos hr
    exact .step hrun hstep ⟨rfl, rfl, rfl, rfl, rfl, rfl, rfl, hempty⟩
  | @storeCbPtr ptr hs =>
    have hstep : machine.step s (.start 0) =
        some { s with mem := s.mem.store .starter .cbPtr ptr, start := .loadStopCalled ptr } := hstart hs 0
    have hdrain := drain_store hempty .starter .cbPtr ptr
    refine .step (a := .drain .starter) (hrun.snoc hstep) (congrArg (Option.map _) hdrain) ?_
    exact ⟨rfl, rfl, rfl, rfl, rfl, rfl, rfl, hempty⟩
  | @stopCalled ptr hs hc =>
    have hstep : StopHelper.step s (.start 0) = some { s with start := .readCtx ptr } := by
      rw [hstart hs]
      exact if_pos (by rw [hview]; exact hc)
    exact .step hrun hstep ⟨rfl, rfl, rfl, rfl, rfl, rfl, rfl, hempty⟩
  | notCalled hs hc =>
    have hstep : StopHelper.step s (.start 0) = some { s with start := .returned, startMissed := true } := by
      rw [hstart hs]
      exact if_neg (ne_true_of_eq_false (by rw [hview]; exact hc))
    exact .step hrun hstep ⟨rfl, rfl, rfl, rfl, rfl, rfl, rfl, hempty⟩
  | readCtx hs => exact .step hrun (hstart hs 0) ⟨rfl, rfl, rfl, rfl, rfl, rfl, rfl, hempty⟩
  | storeStopCalled hs =>
    have hstep : machine.step s .callback =
        some { s with mem := s.mem.store s.caller .stopCalled true, onStop := .loadCbPtr } := hstop hs
    have hdrain := drain_store hempty s.caller .stopCalled true
    refine .step (a := .drain s.caller) (hrun.snoc hstep) (congrArg (Option.map _) hdrain) ?_
    exact ⟨rfl, rfl, rfl, rfl, rfl, rfl, rfl, hempty⟩
  | noCbPtr hs hp =>
    have hstep : StopHelper.step s .callback = some { s with onStop := .returned, callbackMissed := true } := by
      rw [hstop hs]
      simp only [callbackStep, hview, show s.mem.mem .cbPtr = none from hp]
    exact .step hrun hstep ⟨rfl, rfl, rfl, rfl, rfl, rfl, rfl, hempty⟩
  | @loadCbPtr q hs hp =>
    have hstep : StopHelper.step s .callback = some { s with onStop := .readCtx (some q) } := by
      rw [hstop hs]
      simp only [callbackStep, hview, show s.mem.mem .cbPtr = some q from hp]
    exact .step hrun hstep ⟨rfl, rfl, rfl, rfl, rfl, rfl, rfl, hempty⟩
  | callbackCtx hs => exact .step hrun (hstop hs) ⟨rfl, rfl, rfl, rfl, rfl, rfl, rfl, hempty⟩

/-- The members that the model with buffers does not have. -/
theorem Followed.of_eq (hf : Followed o) (hstart : o'.start = o.start) (hstop : o'.onStop = o.onStop)
    (hp : o'.stopPossible = o.stopPossible) (hr : o'.stopRequested = o.stopRequested)
    (hg : o'.registered = o.registered) (hc : o'.cbPtr = o.cbPtr) (hs : o'.stopCalled = o.stopCalled) :
    Followed o' := by
  obtain ⟨as, s, hrun, h⟩ := hf
  exact ⟨as, s, hrun, h.start.trans hstart.symm, h.onStop.trans hstop.symm, h.stopPossible.trans hp.symm,
    h.stopRequested.trans hr.symm, h.registered.trans hg.symm, h.cbPtr.trans hc.symm, h.stopCalled.trans hs.symm,
    h.empty⟩

/-- `submit()` and `submit_cancel` are one step here. -/
theorem Followed.returns {r : RingImpl} {u : Submission} {A : Nat} {ptr : Option Nat} (hf : Followed (r.ops A))
    (hi : Issuing r) (hu : r.submission = some u) (hpc : u.pc = .unlock ptr)
    (hr : Returns (r.ops A) A ptr u.caller o') : Followed o' := by
  obtain ⟨as, s, hrun, h⟩ := hf
  have hheld := hi.held u hu
  have hptr := hi.submit_ptr (A := A) hu hpc
  have hd := h.drained
  generalize u.caller = c at hr hheld hptr
  cases hr with
  | submit hs =>
    obtain ⟨p, rfl⟩ := Option.ne_none_iff_exists'.1 (hptr rfl hs).2
    have hstep : StopHelper.step s (.start p) =
        some { s with submitted := s.submitted ++ [.op p], start := .storeCbPtr (some p) } := by
      simp only [StopHelper.step, startStep, h.start.trans hs]
      exact if_pos (hd .starter)
    exact .step hrun hstep
      ⟨rfl, h.onStop, h.stopPossible, h.stopRequested, h.registered, h.cbPtr, h.stopCalled, h.empty⟩
  | cancel hs =>
    obtain hs' | ⟨q, hs'⟩ := job_start hheld
    · exact absurd hs' hs
    · have hstep : StopHelper.step s (.start 0) =
          some { s with submitted := s.submitted ++ [.cancel q], start := .returned } := by
        simp only [StopHelper.step, startStep, h.start.trans hs']
        exact if_pos (hd .starter)
      exact .step hrun hstep
        ⟨rfl, h.onStop, h.stopPossible, h.stopRequested, h.registered, h.cbPtr, h.stopCalled, h.empty⟩
  | callback =>
    obtain ⟨q, hs⟩ := job_callback hheld
    have hstep : StopHelper.step s .callback =
        some { s with submitted := s.submitted ++ [.cancel q], onStop := .returned } := by
      simp only [StopHelper.step, callbackStep, h.onStop.trans hs]
      exact if_pos (hd s.caller)
    exact .step hrun hstep
      ⟨h.start, rfl, h.stopPossible, h.stopRequested, h.registered, h.cbPtr, h.stopCalled, h.empty⟩

/-- Every operation of every run of the context is followed. -/
theorem followed_of_run {depth : Nat} {as : List Ring.Act} {r : RingImpl} (h : (Ring.machine depth).Run as r)
    (A : Nat) : Followed (r.ops A) := by
  refine inv_of_run (I := fun r => ∀ A, Followed (r.ops A)) (fun _ => ⟨[], _, .nil, .init⟩) ?_ h A
  intro r a r' hsafe hf _ he
  have hset {B : Nat} {o : Operation} (ho : Followed o) : ∀ A, Followed (Function.update r.ops B o A) :=
    (Function.forall_update_iff _ _).2 ⟨ho, fun A _ => hf A⟩
  cases he with
  | op ho => exact hset ((hf _).op_step ho)
  | unlock hu hpc hr => exact hset ((hf _).returns hsafe.issuing hu hpc hr)
  | issue | call => exact hset ((hf _).of_eq rfl rfl rfl rfl rfl rfl rfl)
  | lock | move | submit | untagged | nullSqe | stopReturns | stopCall | stopStore | invoke | run | runStore
  | skip | dangling | free | advance | complete => exact hf

end AsyncRuntime.StopHelper
