import AsyncRuntime.Ring.Completion
/-!
# The tail of `start()`

When `submit()` returns, the entry is with the kernel, and `start()` still stores
`cb_ptr`, loads `stop_called` and may read `ctx`. Nothing keeps the thread in
`run()` from delivering the completion before that. The receiver's owner may
destroy the operation state as soon as the receiver is completed, so `start()`
is safe only if the call of the callback finds it past these accesses.
-/

namespace AsyncRuntime.Ring
open Lib

/-- The members of the operation state. -/
inductive Field
  | receiver
  | stopCb
  | cbPtr
  | stopCalled
  | ctx
deriving DecidableEq

/-- The member that the next step of `start()` reads or writes. The arguments of
`submit()` are read before the mutex is taken, and the critical section uses none
of them. -/
def StartPc.accesses : StartPc → Option Field
  | .checkStop => some .receiver
  | .register | .emplacing => some .stopCb
  | .storeCbPtr _ => some .cbPtr
  | .loadStopCalled _ => some .stopCalled
  | .readCtx _ => some .ctx
  | .notStarted | .submit | .cancel _ | .returned | .stoppedEarly => none

/-- `start()` has returned, or is inside its last call. -/
def StartPc.finished : StartPc → Bool
  | .cancel _ | .returned | .stoppedEarly => true
  | _ => false

/-- `run()` calls the callback of an operation only when its `start()` has
returned or is inside `submit_cancel`. -/
def RingImpl.startedFirst (s : RingImpl) : Act → Bool
  | .runStep =>
    match s.run with
    | .calling _ _ p => (s.heap p).all (fun A => (s.ops A).start.finished)
    | _ => true
  | _ => true

variable {s s' : RingImpl} {a : Act} {A : Nat} {o o' : Operation}

/-- A completed operation is past `start()`. -/
def Finished (o : Operation) : Prop := o.completions ≠ [] → o.start.finished = true

theorem StartPc.accesses_of_finished {pc : StartPc} (h : pc.finished = true) : pc.accesses = none := by
  cases pc <;> first | rfl | cases h

theorem Finished.step (h : Finished o) (ho : OpStep o o') : Finished o' := by
  have hne {pc : StartPc} (hpc : o.start = pc) (hf : pc.finished = false) : o.completions = [] := by
    by_contra hc
    have := h hc
    rw [hpc, hf] at this
    cases this
  cases ho with
  | request | requestCallback | storeStopCalled | noCbPtr | loadCbPtr | callbackCtx => exact h
  | stopped | readCtx | notCalled => exact fun _ => rfl
  | begin hs | checked hs | emplaceRequested hs | emplace hs | unstoppable hs | emplaced hs | storeCbPtr hs
  | stopCalled hs => exact fun hc => absurd (hne hs rfl) hc

theorem Finished.returns (h : Finished o) {ptr c} (hr : Returns o A ptr c o') : Finished o' := by
  cases hr with
  | submit hs =>
    intro hc
    have := h hc
    rw [hs] at this
    cases this
  | cancel => exact fun _ => rfl
  | callback => exact h

theorem finished_effect (h : ∀ B, Finished (s.ops B)) (hg : s.startedFirst a) (he : Effect s a s') :
    ∀ B, Finished (s'.ops B) := by
  have hset {A : Nat} {o : Operation} (ho : Finished o) : ∀ B, Finished (Function.update s.ops A o B) :=
    (Function.forall_update_iff _ _).2 ⟨ho, fun B _ => h B⟩
  cases he with
  | op ho => exact hset ((h _).step ho)
  | unlock _ _ hr => exact hset ((h _).returns hr)
  | issue => exact hset (h _)
  | call hr _ hp =>
    refine hset (fun _ => ?_)
    simpa only [RingImpl.startedFirst, hr, hp, Option.all_some] using hg
  | lock | move | submit | untagged | nullSqe | stopReturns | stopCall | stopStore | invoke | run | runStore
  | skip | dangling | free | advance | complete => exact h

/-- If every callback is called after the `start()` of its operation has made its
last access, then no step of `start()` touches the operation state once the
receiver has been completed. -/
theorem start_untouched_after_completion {depth : Nat} {as : List Act}
    (h : (machine depth).RunIn (fun s a => s.startedFirst a) as s) (A : Nat)
    (hc : (s.ops A).completions ≠ []) : (s.ops A).start.accesses = none := by
  have hfin : ∀ B, Finished (s.ops B) :=
    inv_of_run (I := fun s => ∀ B, Finished (s.ops B)) (fun _ hn => absurd rfl hn)
      (fun _ _ _ _ hi hg he => finished_effect hi hg he) h
  exact StartPc.accesses_of_finished (hfin A hc)

theorem start_untouched_after_completion_delivered :
    ∃ s, (machine 8).RunIn (fun s a => s.startedFirst a) batchOfThree s ∧
      (s.ops 0).completions = [.value ⟨5, 0⟩] ∧ (s.ops 0).start.accesses = none := by
  have hexec : ((machine 8).execIn (fun s a => s.startedFirst a) (init 8) batchOfThree).any
      (fun s => decide ((s.ops 0).completions = [.value ⟨5, 0⟩])) = true := by decide +kernel
  obtain ⟨s, hrun, hc⟩ := Machine.exists_runIn_of_exec (fun _ _ => id) .nil hexec
  exact ⟨s, hrun, hc, start_untouched_after_completion hrun 0 (by rw [hc]; nofun)⟩

/-- `submit()` returns to `start()`, and before its next step the kernel completes
the operation and `run()` delivers it. -/
def deliveredFirst : List Act := List.flatten
  [[.run, .runStep, .runStep], (startAt 0 10).take 8, [.complete 0 ⟨5, 0⟩], List.replicate 4 .runStep]

/-- The receiver has its value and the callback is freed, and `start()` goes on to
write `cb_ptr` and to read `stop_called`. -/
theorem start_touches_completed_operation :
    ∃ s, (machine 8).Run deliveredFirst s ∧
      (s.ops 0).completions = [.value ⟨5, 0⟩] ∧ s.freed = [0] ∧ (s.ops 0).start.accesses = some .cbPtr ∧
      ∃ s', step s (.start 0) = some s' ∧ (s'.ops 0).cbPtr = some 10 ∧
        (s'.ops 0).start.accesses = some .stopCalled := by
  have hexec : ((machine 8).exec deliveredFirst).any (fun s => decide
      ((s.ops 0).completions = [.value ⟨5, 0⟩] ∧ s.freed = [0] ∧ (s.ops 0).start.accesses = some .cbPtr ∧
        (step s (.start 0)).any (fun s' => decide ((s'.ops 0).cbPtr = some 10 ∧
          (s'.ops 0).start.accesses = some .stopCalled)) = true)) = true := by decide +kernel
  obtain ⟨s, hrun, hc, hf, ha, hstep⟩ := Machine.exists_run_of_exec hexec
  exact ⟨s, hrun, hc, hf, ha, Machine.exists_of_any hstep⟩

end AsyncRuntime.Ring
