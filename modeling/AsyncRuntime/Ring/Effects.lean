import AsyncRuntime.Ring.Model
/-!
# What one step of the context can do

`step_effect` goes through the program once. `OpStep` are the steps that touch
nothing but one operation state, `RunMove` those that only move the thread in
`run()`, and `Effect` has everything. The invariants of the context are case
analyses over these and never look at the code again.
-/

namespace AsyncRuntime.Ring
open Lib

/-- A step of `stop_helper::start`, of the stop callback, or of the world around
one operation. -/
inductive OpStep (o : Operation) : Operation → Prop
  | begin {r possible} : o.start = .notStarted → (possible = true ∨ o.stopRequested = false) →
      OpStep o { o with request := r, stopPossible := possible, start := .checkStop }
  | request : o.stopRequested = false → o.registered = false → (o.start = .notStarted ∨ o.stopPossible = true) →
      OpStep o { o with stopRequested := true }
  | requestCallback : o.stopRequested = false → o.registered = true →
      (o.start = .notStarted ∨ o.stopPossible = true) →
      OpStep o { o with stopRequested := true, onStop := .storeStopCalled }
  | stopped : o.start = .checkStop → o.stopRequested = true →
      OpStep o { o with start := .stoppedEarly, completions := o.completions ++ [.stopped] }
  | checked : o.start = .checkStop → o.stopRequested = false → OpStep o { o with start := .register }
  | emplaceRequested : o.start = .register → o.stopRequested = true → o.stopPossible = true →
      OpStep o { o with registered := true, onStop := .storeStopCalled, start := .emplacing }
  | emplace : o.start = .register → o.stopRequested = false → o.stopPossible = true →
      OpStep o { o with registered := true, start := .submit }
  | unstoppable : o.start = .register → o.stopPossible = false → OpStep o { o with start := .submit }
  | emplaced : o.start = .emplacing → o.onStop = .returned → OpStep o { o with start := .submit }
  | storeCbPtr {ptr} : o.start = .storeCbPtr ptr →
      OpStep o { o with cbPtr := ptr, start := .loadStopCalled ptr }
  | stopCalled {ptr} : o.start = .loadStopCalled ptr → o.stopCalled = true →
      OpStep o { o with start := .readCtx ptr }
  | notCalled {ptr} : o.start = .loadStopCalled ptr → o.stopCalled = false →
      OpStep o { o with start := .returned }
  | readCtx {ptr} : o.start = .readCtx ptr → OpStep o { o with start := .cancel ptr }
  | storeStopCalled : o.onStop = .storeStopCalled →
      OpStep o { o with stopCalled := true, onStop := .loadCbPtr }
  | noCbPtr : o.onStop = .loadCbPtr → o.cbPtr = none → OpStep o { o with onStop := .returned }
  | loadCbPtr {p} : o.onStop = .loadCbPtr → o.cbPtr = some p → OpStep o { o with onStop := .readCtx (some p) }
  | callbackCtx {ptr} : o.onStop = .readCtx ptr → OpStep o { o with onStop := .cancel ptr }

/-- The holder of the mutex moves and nothing else changes. -/
inductive SubmitMove (s : RingImpl) : Job → SubmitPc → SubmitPc → Prop
  | room {job} : s.sq.length < s.depth → SubmitMove s job .getSqe .prep
  | full {job} : s.depth ≤ s.sq.length → SubmitMove s job .getSqe .submitFull
  | roomAgain {job} : s.sq.length < s.depth → SubmitMove s job .getSqeAgain .prep
  | noNop {j} : s.depth ≤ s.sq.length → SubmitMove s (.nop j) .getSqeAgain (.unlock none)

/-- The holder of the mutex calls `io_uring_submit`. -/
inductive Submits : SubmitPc → SubmitPc → Prop
  | full : Submits .submitFull .getSqeAgain
  | entry {ptr} : Submits (.submit ptr) (.unlock ptr)

/-- The job queues an entry with a null `user_data`. -/
inductive Untagged : Job → Prep → Origin → Prop
  | cancel {A ptr} : Untagged (.cancel A ptr) (.cancel ptr) (.cancel A)
  | nop {j} : Untagged (.nop j) .nop (.nop j)

/-- The call of a submission function returns to an operation. -/
inductive Returns (o : Operation) (A : Nat) (ptr : Option Nat) : Caller → Operation → Prop
  | submit : o.start = .submit → Returns o A ptr (.start A) { o with start := .storeCbPtr ptr }
  | cancel : o.start ≠ .submit → Returns o A ptr (.start A) { o with start := .returned }
  | callback : Returns o A ptr (.callback A) { o with onStop := .returned }

/-- The thread in `run()` moves and nothing else changes. -/
inductive RunMove (s : RingImpl) : RunPc → RunPc → Prop
  | again : s.running = true → RunMove s .loadRunning .wait
  | leave : s.running = false → RunMove s .loadRunning .returned
  | woken : s.cq ≠ [] → RunMove s .wait (.next 0 0)
  | found {head count e p} : s.cq[head]? = some e → e.userData = some p →
      RunMove s (.next head count) (.calling head count p)
  | batchEnd {head count} : s.cq[head]? = none → RunMove s (.next head count) (.advance count)
  | interrupted : RunMove s .wait .loadRunning
  | failed : RunMove s .wait .returned

/-- Everything a step can do. -/
inductive Effect (s : RingImpl) : Act → RingImpl → Prop
  | op {a A o} : OpStep (s.ops A) o → Effect s a (s.setOp A o)
  | lock {c job} : s.submission = none → s.job c = some job →
      Effect s (.lock c) { s with submission := some ⟨c, job, .getSqe⟩ }
  | move {k p u pc} : s.submission = some u → SubmitMove s u.job u.pc pc →
      Effect s (.submission k p) (s.setPc u pc)
  | submit {k p u pc} : s.submission = some u → Submits u.pc pc →
      Effect s (.submission k p) ((ioUringSubmit s k).setPc u pc)
  | issue {k p u A prep} : s.submission = some u → u.pc = .prep → u.job = .op A prep → s.heap p = none →
      Effect s (.submission k p) (RingImpl.setPc { s with
        heap := Function.update s.heap p (some A)
        ops := Function.update s.ops A { s.ops A with callback := some p }
        sq := s.sq ++ [⟨prep, some p, .op A⟩] } u (.submit (some p)))
  | untagged {k p u prep origin} : s.submission = some u → u.pc = .prep → Untagged u.job prep origin →
      Effect s (.submission k p)
        (RingImpl.setPc { s with sq := s.sq ++ [⟨prep, none, origin⟩] } u (.submit none))
  | nullSqe {k p u} : s.submission = some u → u.pc = .getSqeAgain → s.depth ≤ s.sq.length →
      (∀ j, u.job ≠ .nop j) → Effect s (.submission k p) { s with fault := some .nullSqe }
  | unlock {k p u ptr A o} : s.submission = some u → u.pc = .unlock ptr →
      Returns (s.ops A) A ptr u.caller o →
      Effect s (.submission k p) (RingImpl.setOp { s with submission := none } A o)
  | stopReturns {k p u ptr j} : s.submission = some u → u.pc = .unlock ptr → u.caller = .stop j →
      Effect s (.submission k p) { s with
        submission := none
        stops := Function.update s.stops j .returned
        stopReturned := s.stopReturned || decide (s.run ≠ .notStarted) }
  | stopCall {j} : s.stops j = .idle →
      Effect s (.stopCall j) { s with stops := Function.update s.stops j .storeRunning }
  | stopStore {j} : s.stops j = .storeRunning →
      Effect s (.stop j) { s with running := false, stops := Function.update s.stops j .nop }
  | invoke : s.run = .notStarted ∨ s.run = .returned → Effect s .run { s with run := .storeRunning }
  | run {a pc} : RunMove s s.run pc → Effect s a { s with run := pc }
  | runStore : s.run = .storeRunning → Effect s .runStep { s with running := true, run := .loadRunning }
  | skip {head count e} : s.run = .next head count → s.cq[head]? = some e → e.userData = none →
      Effect s .runStep { s with run := .next (head + 1) (count + 1), batch := s.batch ++ [e] }
  | call {head count p e A} : s.run = .calling head count p → s.cq[head]? = some e → s.heap p = some A →
      Effect s .runStep { s with
        run := .inCallback head count p
        delivered := s.delivered ++ [(A, e)]
        ops := Function.update s.ops A
          { s.ops A with completions := (s.ops A).completions ++ [makeIoCallback e.result] } }
  | dangling {head count p} : s.run = .calling head count p → s.heap p = none →
      Effect s .runStep { s with fault := some .dangling }
  | free {head count p e A} : s.run = .inCallback head count p → s.cq[head]? = some e → s.heap p = some A →
      Effect s .runStep { s with
        run := .next (head + 1) (count + 1)
        heap := Function.update s.heap p none
        freed := s.freed ++ [A]
        batch := s.batch ++ [e] }
  | advance {count} : s.run = .advance count →
      Effect s .runStep { s with cq := s.cq.drop count, batch := [], run := .loadRunning }
  | complete {i r e} : s.kernel[i]? = some e →
      Effect s (.complete i r)
        { s with kernel := s.kernel.eraseIdx i, cq := s.cq ++ [⟨e.userData, r, e.origin⟩] }

variable {s s' : RingImpl} {A : Nat}

theorem setOp_self (s : RingImpl) (A : Nat) (o : Operation) : (s.setOp A o).ops A = o := Function.update_self ..

theorem setOp_ne {B : Nat} (h : B ≠ A) (s : RingImpl) (o : Operation) : (s.setOp A o).ops B = s.ops B :=
  Function.update_of_ne h ..

/-! ## Every step is one of these -/

theorem begin_effect {r possible} (h : begin s A r possible = some s') :
    ∃ o, OpStep (s.ops A) o ∧ s' = s.setOp A o := by
  unfold begin at h
  dsimp only at h
  split at h
  · next hc => cases h; exact ⟨_, .begin hc.1 hc.2, rfl⟩
  · cases h

theorem requestStop_effect (h : requestStop s A = some s') :
    ∃ o, OpStep (s.ops A) o ∧ s' = s.setOp A o := by
  unfold requestStop at h
  dsimp only at h
  split at h
  · next hc =>
    split at h
    · next hr => cases h; exact ⟨_, .requestCallback hc.1 hr hc.2, rfl⟩
    · next hr => cases h; exact ⟨_, .request hc.1 (by simpa using hr) hc.2, rfl⟩
  · cases h

theorem startStep_effect (h : startStep s A = some s') :
    ∃ o, OpStep (s.ops A) o ∧ s' = s.setOp A o := by
  unfold startStep at h
  dsimp only at h
  cases hpc : (s.ops A).start with
  | checkStop =>
    simp only [hpc] at h
    split at h <;> cases h
    · next hr => exact ⟨_, .stopped hpc hr, rfl⟩
    · next hr => exact ⟨_, .checked hpc (by simpa using hr), rfl⟩
  | register =>
    simp only [hpc] at h
    split at h
    · next hp =>
      split at h <;> cases h
      · next hr => exact ⟨_, .emplaceRequested hpc hr hp, rfl⟩
      · next hr => exact ⟨_, .emplace hpc (by simpa using hr) hp, rfl⟩
    · next hp => cases h; exact ⟨_, .unstoppable hpc (by simpa using hp), rfl⟩
  | emplacing =>
    simp only [hpc] at h
    split at h <;> cases h
    next hr => exact ⟨_, .emplaced hpc hr, rfl⟩
  | storeCbPtr ptr => simp only [hpc] at h; cases h; exact ⟨_, .storeCbPtr hpc, rfl⟩
  | loadStopCalled ptr =>
    simp only [hpc] at h
    split at h <;> cases h
    · next hc => exact ⟨_, .stopCalled hpc hc, rfl⟩
    · next hc => exact ⟨_, .notCalled hpc (by simpa using hc), rfl⟩
  | readCtx ptr => simp only [hpc] at h; cases h; exact ⟨_, .readCtx hpc, rfl⟩
  | notStarted | submit | cancel _ | returned | stoppedEarly => simp only [hpc] at h; cases h

theorem callbackStep_effect (h : callbackStep s A = some s') :
    ∃ o, OpStep (s.ops A) o ∧ s' = s.setOp A o := by
  unfold callbackStep at h
  dsimp only at h
  cases hpc : (s.ops A).onStop with
  | storeStopCalled => simp only [hpc] at h; cases h; exact ⟨_, .storeStopCalled hpc, rfl⟩
  | loadCbPtr =>
    simp only [hpc] at h
    split at h <;> cases h
    · next hp => exact ⟨_, .noCbPtr hpc hp, rfl⟩
    · next hp => exact ⟨_, .loadCbPtr hpc hp, rfl⟩
  | readCtx ptr => simp only [hpc] at h; cases h; exact ⟨_, .callbackCtx hpc, rfl⟩
  | idle | cancel _ | returned => simp only [hpc] at h; cases h

theorem lock_effect {c : Caller} (h : lock s c = some s') : Effect s (.lock c) s' := by
  unfold lock at h
  split at h
  · next job hs hj => cases h; exact .lock hs hj
  · cases h

theorem resume_effect {k p : Nat} {u : Submission} {ptr : Option Nat} (hs : s.submission = some u)
    (hpc : u.pc = .unlock ptr) :
    Effect s (.submission k p) (resume { s with submission := none } ptr u.caller) := by
  unfold resume
  split
  · next A hc =>
    split
    · next hsub => exact .unlock hs hpc (hc ▸ .submit hsub)
    · next hsub => exact .unlock hs hpc (hc ▸ .cancel hsub)
  · next A hc => exact .unlock hs hpc (hc ▸ .callback)
  · next j hc => exact .stopReturns hs hpc hc

theorem prepare_effect {k p : Nat} {u : Submission} (hs : s.submission = some u) (hpc : u.pc = .prep)
    (h : prepare s u p = some s') : Effect s (.submission k p) s' := by
  unfold prepare at h
  split at h
  · next A prep hj =>
    split at h
    · next hp => cases h; exact .issue hs hpc hj hp
    · cases h
  · next A ptr hj => cases h; exact .untagged hs hpc (hj ▸ .cancel)
  · next j hj => cases h; exact .untagged hs hpc (hj ▸ .nop)

theorem getSqeAgain_effect {k p : Nat} {u : Submission} (hs : s.submission = some u)
    (hpc : u.pc = .getSqeAgain) :
    Effect s (.submission k p) (if s.sq.length < s.depth then s.setPc u .prep else nullSqe s u) := by
  split
  · next hr => exact .move hs (hpc ▸ .roomAgain hr)
  · next hr =>
    unfold nullSqe
    split
    · next j hj => exact .move hs (by rw [hpc, hj]; exact .noNop (Nat.le_of_not_lt hr))
    · next hj => exact .nullSqe hs hpc (Nat.le_of_not_lt hr) hj

theorem submissionStep_effect {k p : Nat} (h : submissionStep s k p = some s') :
    Effect s (.submission k p) s' := by
  unfold submissionStep at h
  cases hs : s.submission with
  | none => simp only [hs] at h; cases h
  | some u =>
    simp only [hs] at h
    cases hpc : u.pc with
    | getSqe =>
      simp only [hpc] at h
      cases h
      split
      · next hr => exact .move hs (hpc ▸ .room hr)
      · next hr => exact .move hs (hpc ▸ .full (Nat.le_of_not_lt hr))
    | submitFull => simp only [hpc] at h; cases h; exact .submit hs (hpc ▸ .full)
    | getSqeAgain => simp only [hpc] at h; cases h; exact getSqeAgain_effect hs hpc
    | prep => simp only [hpc] at h; exact prepare_effect hs hpc h
    | submit ptr => simp only [hpc] at h; cases h; exact .submit hs (hpc ▸ .entry)
    | unlock ptr => simp only [hpc] at h; cases h; exact resume_effect hs hpc

theorem runStep_effect (h : runStep s = some s') : Effect s .runStep s' := by
  unfold runStep at h
  cases hpc : s.run with
  | storeRunning => simp only [hpc] at h; cases h; exact .runStore hpc
  | loadRunning =>
    simp only [hpc] at h
    cases h
    split
    · next hr => exact .run (hpc ▸ .again hr)
    · next hr => exact .run (hpc ▸ .leave (by simpa using hr))
  | wait =>
    simp only [hpc] at h
    split at h <;> cases h
    next hq => exact .run (hpc ▸ .woken hq)
  | next head count =>
    simp only [hpc] at h
    split at h
    · next he => cases h; exact .run (hpc ▸ .batchEnd he)
    · next e he =>
      split at h <;> cases h
      · next hu => exact .skip hpc he hu
      · next p hu => exact .run (hpc ▸ .found he hu)
  | calling head count p =>
    simp only [hpc] at h
    split at h <;> cases h
    · next e A he hp => exact .call hpc he hp
    · next e he hp => simpa only [hpc] using Effect.dangling hpc hp
  | inCallback head count p =>
    simp only [hpc] at h
    split at h <;> cases h
    next e A he hp => exact .free hpc he hp
  | advance count => simp only [hpc] at h; cases h; exact .advance hpc
  | notStarted | returned => simp only [hpc] at h; cases h

theorem waitError_effect {eintr : Bool} (h : waitError s eintr = some s') :
    Effect s (.waitError eintr) s' := by
  unfold waitError at h
  split at h
  · next hpc =>
    cases h
    cases eintr with
    | true => exact .run (hpc ▸ .interrupted)
    | false => exact .run (hpc ▸ .failed)
  · cases h

theorem complete_effect {i : Nat} {r : IoResult} (h : complete s i r = some s') :
    Effect s (.complete i r) s' := by
  unfold complete at h
  split at h
  · cases h
  · next e he => cases h; exact .complete he

theorem step_effect {a : Act} (h : step s a = some s') : s.fault = none ∧ Effect s a s' := by
  unfold step at h
  split at h
  case isFalse => cases h
  case isTrue hf =>
    refine ⟨hf, ?_⟩
    cases a with
    | begin A r possible => obtain ⟨o, ho, rfl⟩ := begin_effect h; exact .op ho
    | requestStop A => obtain ⟨o, ho, rfl⟩ := requestStop_effect h; exact .op ho
    | start A => obtain ⟨o, ho, rfl⟩ := startStep_effect h; exact .op ho
    | callback A => obtain ⟨o, ho, rfl⟩ := callbackStep_effect h; exact .op ho
    | lock c => exact lock_effect h
    | submission k p => exact submissionStep_effect h
    | stopCall j =>
      dsimp only at h
      split at h <;> cases h
      next hj => exact .stopCall hj
    | stop j =>
      dsimp only [stopStep] at h
      split at h <;> cases h
      next hj => exact .stopStore hj
    | run =>
      dsimp only at h
      split at h <;> cases h
      next hr => exact .invoke hr
    | runStep => exact runStep_effect h
    | waitError eintr => exact waitError_effect h
    | complete i r => exact complete_effect h

end AsyncRuntime.Ring
