import AsyncRuntime.Ring.Effects
/-!
# One operation between its two threads

`OpInv` is what the fields of an operation state always satisfy: a pointer that
`start()` or the stop callback holds is the address of the operation's own heap
callback. `Issuing` ties an operation in the middle of `submit()` to the critical
section: its callback exists exactly from the moment its entry is tagged.
-/

namespace AsyncRuntime.Ring
open Lib

/-! ## Classes of program points -/

/-- `start()` has not come to `submit()`, or never will. -/
def StartPc.unissued : StartPc → Bool
  | .notStarted | .checkStop | .register | .emplacing | .stoppedEarly => true
  | _ => false

/-- `submit()` has returned. -/
def StartPc.issued : StartPc → Bool
  | .storeCbPtr _ | .loadStopCalled _ | .readCtx _ | .cancel _ | .returned => true
  | _ => false

/-- `stop_cb` is still empty. -/
def StartPc.unregistered : StartPc → Bool
  | .notStarted | .checkStop | .register | .stoppedEarly => true
  | _ => false

/-- The pointer that `start()` holds. -/
def StartPc.ptr : StartPc → Option (Option Nat)
  | .storeCbPtr ptr | .loadStopCalled ptr | .readCtx ptr | .cancel ptr => some ptr
  | _ => none

/-- The pointer that the stop callback holds. -/
def CallbackPc.ptr : CallbackPc → Option (Option Nat)
  | .readCtx ptr | .cancel ptr => some ptr
  | _ => none

/-- The pointer that a submission will return. -/
def SubmitPc.ptr : SubmitPc → Option Nat
  | .submit ptr | .unlock ptr => ptr
  | _ => none

/-- The entry of the submission is in the queue. -/
def SubmitPc.tagged : SubmitPc → Bool
  | .submit _ | .unlock _ => true
  | _ => false

/-! ## The fields of an operation state -/

/-- What the fields of an operation state always satisfy. -/
structure OpInv (o : Operation) : Prop where
  unissued : o.start.unissued = true → o.callback = none
  issued : o.start.issued = true → o.callback ≠ none
  startPtr : ∀ ptr, o.start.ptr = some ptr → ptr = o.callback
  cbPtr : o.cbPtr = none ∨ o.cbPtr = o.callback
  stopPtr : ∀ ptr, o.onStop.ptr = some ptr → ptr = o.callback ∧ o.callback ≠ none
  requested : o.onStop ≠ .idle → o.stopRequested = true
  unregistered : o.start.unregistered = true → o.registered = false
  idle : o.registered = false → o.onStop = .idle

theorem OpInv.fresh : OpInv .fresh where
  unissued _ := rfl
  issued := nofun
  startPtr := nofun
  cbPtr := .inl rfl
  stopPtr := nofun
  requested h := absurd rfl h
  unregistered _ := rfl
  idle _ := rfl

variable {o o' : Operation} {s s' : RingImpl} {a : Act} {A : Nat}

theorem OpInv.step (h : OpInv o) (ho : OpStep o o') : OpInv o' := by
  have hpc {pc : StartPc} (hs : o.start = pc) (hu : pc.unissued = true) : o.callback = none :=
    h.unissued (hs ▸ hu)
  have hreg {pc : StartPc} (hs : o.start = pc) (hu : pc.unregistered = true) : o.registered = false :=
    h.unregistered (hs ▸ hu)
  have hptr {pc : StartPc} {ptr} (hs : o.start = pc) (hq : pc.ptr = some ptr) : ptr = o.callback :=
    h.startPtr ptr (hs ▸ hq)
  have hiss {pc : StartPc} (hs : o.start = pc) (hq : pc.issued = true) : o.callback ≠ none :=
    h.issued (hs ▸ hq)
  cases ho with
  | begin hs | stopped hs | checked hs =>
    exact { h with
      unissued := fun _ => hpc hs rfl, issued := nofun, startPtr := nofun
      unregistered := fun _ => hreg hs rfl }
  | request => exact { h with requested := fun _ => rfl }
  | requestCallback _ hg =>
    exact { h with stopPtr := nofun, requested := fun _ => rfl, idle := fun hn => absurd (hg.symm.trans hn) nofun }
  | emplaceRequested hs hr =>
    exact { h with
      unissued := fun _ => hpc hs rfl, issued := nofun, startPtr := nofun, stopPtr := nofun
      requested := fun _ => hr, unregistered := nofun, idle := nofun }
  | emplace =>
    exact { h with
      unissued := nofun, issued := nofun, startPtr := nofun, unregistered := nofun, idle := nofun }
  | unstoppable | emplaced =>
    exact { h with unissued := nofun, issued := nofun, startPtr := nofun, unregistered := nofun }
  | storeCbPtr hs =>
    exact { h with
      unissued := nofun, issued := fun _ => hiss hs rfl
      startPtr := fun q hq => hptr hs (by cases hq; rfl)
      cbPtr := .inr (hptr hs rfl), unregistered := nofun }
  | stopCalled hs | readCtx hs =>
    exact { h with
      unissued := nofun, issued := fun _ => hiss hs rfl
      startPtr := fun q hq => hptr hs (by cases hq; rfl), unregistered := nofun }
  | notCalled hs =>
    exact { h with
      unissued := nofun, issued := fun _ => hiss hs rfl, startPtr := nofun, unregistered := nofun }
  | storeStopCalled hs | noCbPtr hs =>
    exact { h with
      stopPtr := nofun, requested := fun _ => h.requested (by rw [hs]; nofun)
      idle := fun hn => absurd (hs.symm.trans (h.idle hn)) nofun }
  | @loadCbPtr p hs hp =>
    have hc : o.callback = some p := by
      rcases h.cbPtr with hn | hc
      · rw [hp] at hn; cases hn
      · rw [← hc, hp]
    exact { h with
      stopPtr := fun q hq => by cases hq; exact ⟨hc.symm, by rw [hc]; nofun⟩
      requested := fun _ => h.requested (by rw [hs]; nofun)
      idle := fun hn => absurd (hs.symm.trans (h.idle hn)) nofun }
  | callbackCtx hs =>
    exact { h with
      stopPtr := fun q hq => by cases hq; exact h.stopPtr _ (by rw [hs]; rfl)
      requested := fun _ => h.requested (by rw [hs]; nofun)
      idle := fun hn => absurd (hs.symm.trans (h.idle hn)) nofun }

/-- A thread inside a submission does not take a step of its own. -/
theorem OpStep.start_eq (ho : OpStep o o') (hs : o.start = .submit ∨ ∃ ptr, o.start = .cancel ptr) :
    o'.start = o.start ∧ o'.request = o.request := by
  have hne {pc : StartPc} (hpc : o.start = pc) (h1 : pc ≠ .submit) (h2 : ∀ ptr, pc ≠ .cancel ptr) : False := by
    rcases hs with hs | ⟨ptr, hs⟩
    · exact h1 (hpc.symm.trans hs)
    · exact h2 ptr (hpc.symm.trans hs)
  cases ho with
  | begin hpc | stopped hpc | checked hpc | emplaceRequested hpc | emplace hpc | unstoppable hpc
  | emplaced hpc | storeCbPtr hpc | stopCalled hpc | notCalled hpc | readCtx hpc =>
    exact (hne hpc nofun nofun).elim
  | request | requestCallback | storeStopCalled | noCbPtr | loadCbPtr | callbackCtx => exact ⟨rfl, rfl⟩

/-- A stop callback inside `submit_cancel` does not take a step of its own. -/
theorem OpStep.onStop_eq (h : OpInv o) (ho : OpStep o o') {ptr} (hs : o.onStop = .cancel ptr) :
    o'.onStop = o.onStop := by
  have hreq : o.stopRequested = true := h.requested (by rw [hs]; nofun)
  have hne {pc : CallbackPc} (hpc : o.onStop = pc) (h1 : ∀ ptr, pc ≠ .cancel ptr) : False :=
    h1 ptr (hpc.symm.trans hs)
  cases ho with
  | requestCallback hr => rw [hreq] at hr; cases hr
  | emplaceRequested hpc =>
    exact (hne (h.idle (h.unregistered (by rw [hpc]; rfl))) nofun).elim
  | storeStopCalled hpc | noCbPtr hpc | loadCbPtr hpc | callbackCtx hpc => exact (hne hpc nofun).elim
  | begin | request | stopped | checked | emplace | unstoppable | emplaced | storeCbPtr | stopCalled
  | notCalled | readCtx => rfl

/-- `submit()` is called when the operation has no callback. -/
theorem OpStep.unissued_of_submit (ho : OpStep o o') (hn : o.start ≠ .submit) (hs : o'.start = .submit) :
    o.start.unissued = true := by
  cases ho with
  | emplace hpc | unstoppable hpc | emplaced hpc => rw [hpc]; rfl
  | request | requestCallback | storeStopCalled | noCbPtr | loadCbPtr | callbackCtx => exact absurd hs hn
  | begin | stopped | checked | emplaceRequested | storeCbPtr | stopCalled | notCalled | readCtx => cases hs

theorem OpStep.callback_eq (ho : OpStep o o') : o'.callback = o.callback := by
  cases ho <;> rfl

/-! ## The critical section -/

theorem job_op {c : Caller} {prep : Prep} (h : s.job c = some (.op A prep)) :
    c = .start A ∧ (s.ops A).start = .submit := by
  cases c with
  | start B =>
    simp only [RingImpl.job] at h
    split at h
    case h_1 hs => cases h; exact ⟨rfl, hs⟩
    all_goals cases h
  | callback B => simp only [RingImpl.job] at h; split at h <;> cases h
  | stop j => simp only [RingImpl.job] at h; split at h <;> cases h

theorem job_cancel {c : Caller} {ptr} (h : s.job c = some (.cancel A ptr)) :
    c = .start A ∧ (s.ops A).start = .cancel ptr ∨ c = .callback A ∧ (s.ops A).onStop = .cancel ptr := by
  cases c with
  | start B =>
    simp only [RingImpl.job] at h
    split at h
    case h_2 hs => cases h; exact .inl ⟨rfl, hs⟩
    all_goals cases h
  | callback B =>
    simp only [RingImpl.job] at h
    split at h
    case h_1 hs => cases h; exact .inr ⟨rfl, hs⟩
    all_goals cases h
  | stop j => simp only [RingImpl.job] at h; split at h <;> cases h

theorem job_nop {c : Caller} {j : Nat} (h : s.job c = some (.nop j)) : s.stops j = .nop := by
  cases c with
  | start B => simp only [RingImpl.job] at h; split at h <;> cases h
  | callback B => simp only [RingImpl.job] at h; split at h <;> cases h
  | stop i =>
    simp only [RingImpl.job] at h
    split at h
    case h_1 hs => cases h; exact hs
    case h_2 => cases h

theorem job_start {job : Job} (h : s.job (.start A) = some job) :
    (s.ops A).start = .submit ∨ ∃ ptr, (s.ops A).start = .cancel ptr := by
  simp only [RingImpl.job] at h
  split at h
  case h_1 hs => exact .inl hs
  case h_2 ptr hs => exact .inr ⟨ptr, hs⟩
  case h_3 => cases h

theorem job_callback {job : Job} (h : s.job (.callback A) = some job) :
    ∃ ptr, (s.ops A).onStop = .cancel ptr := by
  simp only [RingImpl.job] at h
  split at h
  case h_1 ptr hs => exact ⟨ptr, hs⟩
  case h_2 => cases h

theorem job_stop {j : Nat} {job : Job} (h : s.job (.stop j) = some job) :
    s.stops j = .nop ∧ job = .nop j := by
  simp only [RingImpl.job] at h
  split at h
  case h_1 hs => cases h; exact ⟨hs, rfl⟩
  case h_2 => cases h

/-- A change of one operation that leaves its threads where they submit leaves
every submission as it is. -/
theorem job_update {c : Caller} {job : Job} (h : s.job c = some job)
    (hops : s'.ops = Function.update s.ops A o) (hstops : s'.stops = s.stops)
    (hstart : ((s.ops A).start = .submit ∨ ∃ ptr, (s.ops A).start = .cancel ptr) →
      o.start = (s.ops A).start ∧ o.request = (s.ops A).request)
    (hstop : ∀ ptr, (s.ops A).onStop = .cancel ptr → o.onStop = (s.ops A).onStop) : s'.job c = some job := by
  cases c with
  | start B =>
    by_cases hB : B = A
    · subst hB
      obtain ⟨h1, h2⟩ := hstart (job_start h)
      rw [← h]
      simp only [RingImpl.job]
      rw [hops, Function.update_self, h1, h2]
    · rw [← h]
      simp only [RingImpl.job]
      rw [hops, Function.update_of_ne hB]
  | callback B =>
    by_cases hB : B = A
    · subst hB
      obtain ⟨ptr, hptr⟩ := job_callback h
      rw [← h]
      simp only [RingImpl.job]
      rw [hops, Function.update_self, hstop ptr hptr]
    · rw [← h]
      simp only [RingImpl.job]
      rw [hops, Function.update_of_ne hB]
  | stop j =>
    rw [← h]
    simp only [RingImpl.job]
    rw [hstops]

/-- A step of another call of `stop()` leaves every submission as it is. -/
theorem job_updateStop {c : Caller} {job : Job} {j : Nat} {pc : StopPc} (h : s.job c = some job)
    (hops : s'.ops = s.ops) (hstops : s'.stops = Function.update s.stops j pc) (hj : s.stops j ≠ .nop) :
    s'.job c = some job := by
  rw [← h]
  cases c with
  | start B => simp only [RingImpl.job]; rw [hops]
  | callback B => simp only [RingImpl.job]; rw [hops]
  | stop i =>
    have hij : i ≠ j := by rintro rfl; exact hj (job_stop h).1
    simp only [RingImpl.job]
    rw [hstops, Function.update_of_ne hij]

/-- The address that the `submit()` of `A` in the critical section has for its
callback. -/
def RingImpl.issuedPtr (s : RingImpl) (A : Nat) : Option Nat :=
  match s.submission with
  | none => none
  | some u => if u.caller = .start A then u.pc.ptr else none

theorem issuedPtr_none (h : s.submission = none) : s.issuedPtr A = none := by
  unfold RingImpl.issuedPtr; rw [h]

theorem issuedPtr_some {u : Submission} (h : s.submission = some u) :
    s.issuedPtr A = if u.caller = .start A then u.pc.ptr else none := by
  unfold RingImpl.issuedPtr; rw [h]

/-- What ties the operations to the holder of the mutex. -/
structure Issuing (s : RingImpl) : Prop where
  op : ∀ A, OpInv (s.ops A)
  held : ∀ u, s.submission = some u → s.job u.caller = some u.job
  callback : ∀ A, (s.ops A).start = .submit → (s.ops A).callback = s.issuedPtr A
  tagged : ∀ u A prep, s.submission = some u → u.job = .op A prep → u.pc.tagged = true → u.pc.ptr ≠ none

theorem Issuing.init (depth : Nat) : Issuing (init depth) where
  op _ := .fresh
  held _ h := absurd h.symm (Option.some_ne_none _)
  callback _ h := StartPc.noConfusion h
  tagged _ _ _ h := absurd h.symm (Option.some_ne_none _)

/-- The operation whose entry is being prepared has no callback yet. -/
theorem Issuing.callback_eq_none (h : Issuing s) {u : Submission} {prep : Prep} (hu : s.submission = some u)
    (hpc : u.pc = .prep) (hj : u.job = .op A prep) : (s.ops A).callback = none := by
  obtain ⟨hc, hs⟩ := job_op (hj ▸ h.held u hu)
  rw [h.callback A hs, issuedPtr_some hu, if_pos hc, hpc]
  rfl

/-- The pointer in a cancellation is the address of its own operation's
callback. -/
theorem Issuing.cancel_ptr (h : Issuing s) {u : Submission} {ptr} (hu : s.submission = some u)
    (hj : u.job = .cancel A ptr) : ptr = (s.ops A).callback ∧ (s.ops A).callback ≠ none := by
  rcases job_cancel (hj ▸ h.held u hu) with ⟨-, hs⟩ | ⟨-, hs⟩
  · exact ⟨(h.op A).startPtr ptr (by rw [hs]; rfl), (h.op A).issued (by rw [hs]; rfl)⟩
  · exact (h.op A).stopPtr ptr (by rw [hs]; rfl)

/-- Changes elsewhere. -/
theorem Issuing.of_eq (h : Issuing s) (hops : s'.ops = s.ops) (hstops : s'.stops = s.stops)
    (hsub : s'.submission = s.submission) : Issuing s' := by
  have hjob (c : Caller) : s'.job c = s.job c := by cases c <;> simp only [RingImpl.job, hops, hstops]
  have hptr (A : Nat) : s'.issuedPtr A = s.issuedPtr A := by simp only [RingImpl.issuedPtr, hsub]
  refine ⟨?_, ?_, ?_, ?_⟩
  · rw [hops]; exact h.op
  · intro u hu; rw [hjob]; exact h.held u (hsub ▸ hu)
  · intro A hs; rw [hptr, hops]; exact h.callback A (hops ▸ hs)
  · intro u A prep hu; exact h.tagged u A prep (hsub ▸ hu)

/-- The holder of the mutex moves, and does not tag the entry of an operation. -/
theorem Issuing.setPc (h : Issuing s) {u : Submission} {pc : SubmitPc} (hu : s.submission = some u)
    (hops : s'.ops = s.ops) (hstops : s'.stops = s.stops) (hsub : s'.submission = some { u with pc := pc })
    (hptr : pc.ptr = u.pc.ptr) (htag : pc.tagged = true → u.pc.tagged = true ∨ ∀ A prep, u.job ≠ .op A prep) :
    Issuing s' := by
  have hjob (c : Caller) : s'.job c = s.job c := by cases c <;> simp only [RingImpl.job, hops, hstops]
  refine ⟨?_, ?_, ?_, ?_⟩
  · rw [hops]; exact h.op
  · intro v hv
    rw [hsub] at hv
    cases hv
    rw [hjob]
    exact h.held u hu
  · intro A hs
    rw [hops] at hs ⊢
    rw [h.callback A hs, issuedPtr_some hu, issuedPtr_some hsub, hptr]
  · intro v A prep hv hj ht
    rw [hsub] at hv
    cases hv
    rcases htag ht with ht | hn
    · rw [hptr]; exact h.tagged u A prep hu hj ht
    · exact absurd hj (hn A prep)

theorem Issuing.op_step (h : Issuing s) (ho : OpStep (s.ops A) o) : Issuing (s.setOp A o) := by
  refine ⟨(Function.forall_update_iff _ _).2 ⟨(h.op A).step ho, fun B _ => h.op B⟩, ?_, ?_, h.tagged⟩
  · intro u hu
    exact job_update (h.held u hu) rfl rfl ho.start_eq (fun ptr => ho.onStop_eq (h.op A))
  · intro B hs
    by_cases hB : B = A
    · subst hB
      rw [setOp_self] at hs ⊢
      rw [ho.callback_eq]
      by_cases hsub : (s.ops B).start = .submit
      · exact h.callback B hsub
      · have hun : (s.ops B).callback = none :=
          (h.op B).unissued (ho.unissued_of_submit hsub hs)
        have hno : s.issuedPtr B = none := by
          cases hu : s.submission with
          | none => exact issuedPtr_none hu
          | some u =>
            rw [issuedPtr_some hu, if_neg]
            intro hc
            rcases job_start (hc ▸ h.held u hu) with hs' | ⟨ptr, hs'⟩
            · exact hsub hs'
            · rw [(ho.start_eq (.inr ⟨ptr, hs'⟩)).1, hs'] at hs; cases hs
        exact hun.trans hno.symm
    · rw [setOp_ne hB] at hs ⊢
      exact h.callback B hs

theorem OpInv.issue (h : OpInv o) (hs : o.start = .submit) (hc : o.callback = none) (p : Nat) :
    OpInv { o with callback := some p } :=
  { h with
    unissued := by rw [hs]; nofun
    issued := fun _ => nofun
    startPtr := by rw [hs]; nofun
    cbPtr := .inl (h.cbPtr.elim id (fun he => he.trans hc))
    stopPtr := fun ptr hp => absurd hc (h.stopPtr ptr hp).2 }

theorem Issuing.issue (h : Issuing s) {u : Submission} {p : Nat} {prep : Prep} (hu : s.submission = some u)
    (hpc : u.pc = .prep) (hj : u.job = .op A prep)
    (hops : s'.ops = Function.update s.ops A { s.ops A with callback := some p }) (hstops : s'.stops = s.stops)
    (hsub : s'.submission = some { u with pc := .submit (some p) }) : Issuing s' := by
  obtain ⟨hc, hs⟩ := job_op (hj ▸ h.held u hu)
  refine ⟨?_, ?_, ?_, ?_⟩
  · rw [hops]
    have hA := (h.op A).issue hs (h.callback_eq_none hu hpc hj) p
    exact (Function.forall_update_iff _ _).2 ⟨hA, fun B _ => h.op B⟩
  · intro v hv
    rw [hsub] at hv
    cases hv
    exact job_update (h.held u hu) hops hstops (fun _ => ⟨rfl, rfl⟩) (fun _ _ => rfl)
  · intro B hB
    rw [issuedPtr_some hsub, hc]
    rw [hops] at hB ⊢
    by_cases hAB : B = A
    · subst hAB; rw [Function.update_self, if_pos rfl]; rfl
    · rw [Function.update_of_ne hAB] at hB ⊢
      rw [h.callback B hB, issuedPtr_some hu, hc, if_neg, if_neg] <;> (rintro ⟨⟩; exact hAB rfl)
  · intro v B prep' hv _ _
    rw [hsub] at hv
    cases hv
    nofun

/-- What the `submit()` of `A` returns is the address of its callback. -/
theorem Issuing.submit_ptr (h : Issuing s) {u : Submission} {ptr : Option Nat} (hu : s.submission = some u)
    (hpc : u.pc = .unlock ptr) (hc : u.caller = .start A) (hs : (s.ops A).start = .submit) :
    (s.ops A).callback = ptr ∧ ptr ≠ none := by
  have hheld := h.held u hu
  simp only [hc, RingImpl.job, hs, Option.some.injEq] at hheld
  have hne := h.tagged u A _ hu hheld.symm (by rw [hpc]; rfl)
  rw [hpc] at hne
  refine ⟨?_, hne⟩
  rw [h.callback A hs, issuedPtr_some hu, if_pos hc, hpc]
  rfl

theorem Issuing.returns (h : Issuing s) {u : Submission} {ptr : Option Nat} (hu : s.submission = some u)
    (hpc : u.pc = .unlock ptr) (hr : Returns (s.ops A) A ptr u.caller o) : OpInv o := by
  have hheld := h.held u hu
  have hsub := h.submit_ptr (A := A) hu hpc
  generalize u.caller = c at hr hheld hsub
  cases hr with
  | submit hs =>
    obtain ⟨hptr, hne⟩ := hsub rfl hs
    exact { h.op A with
      unissued := nofun, issued := fun _ => hptr ▸ hne
      startPtr := fun q hq => by cases hq; exact hptr.symm
      unregistered := nofun }
  | cancel hs =>
    obtain hs' | ⟨q, hs'⟩ := job_start hheld
    · exact absurd hs' hs
    · exact { h.op A with
        unissued := nofun, issued := fun _ => (h.op A).issued (by rw [hs']; rfl)
        startPtr := nofun, unregistered := nofun }
  | callback =>
    obtain ⟨q, hs⟩ := job_callback hheld
    exact { h.op A with
      stopPtr := nofun, requested := fun _ => (h.op A).requested (by rw [hs]; nofun)
      idle := fun hn => absurd (hs.symm.trans ((h.op A).idle hn)) nofun }

theorem Returns.callback_eq {ptr c} (h : Returns o A ptr c o') : o'.callback = o.callback := by
  cases h <;> rfl

theorem Issuing.unlock (h : Issuing s) {u : Submission} {ptr : Option Nat} (hu : s.submission = some u)
    (hpc : u.pc = .unlock ptr) (hr : Returns (s.ops A) A ptr u.caller o) :
    Issuing (RingImpl.setOp { s with submission := none } A o) := by
  have ho := h.returns hu hpc hr
  have hnone {u} : (RingImpl.setOp { s with submission := none } A o).submission ≠ some u :=
    (Option.some_ne_none _).symm
  refine ⟨(Function.forall_update_iff _ _).2 ⟨ho, fun B _ => h.op B⟩, fun _ hv => absurd hv hnone, ?_,
    fun _ _ _ hv => absurd hv hnone⟩
  · intro B hs
    -- the mutex is free: whoever is about to submit has no callback
    have hcaller : u.caller ≠ .start B → (s.ops B).start = .submit → (s.ops B).callback = none := by
      intro hc hB
      rw [h.callback B hB, issuedPtr_some hu, if_neg hc]
    by_cases hB : B = A
    · subst hB
      rw [setOp_self] at hs ⊢
      generalize hcal : u.caller = c at hr hcaller
      cases hr with
      | submit | cancel => cases hs
      | callback => exact hcaller nofun hs
    · rw [setOp_ne hB] at hs ⊢
      refine hcaller ?_ hs
      intro hc
      rw [hc] at hr
      cases hr <;> exact hB rfl

theorem SubmitMove.ptr_eq {job pc pc'} (h : SubmitMove s job pc pc') : pc'.ptr = pc.ptr := by
  cases h <;> rfl

theorem SubmitMove.tagged {job pc pc'} (h : SubmitMove s job pc pc') (ht : pc'.tagged = true) :
    pc.tagged = true ∨ ∀ A prep, job ≠ .op A prep := by
  cases h with
  | room | full | roomAgain => cases ht
  | noNop => exact .inr nofun

theorem Submits.ptr_eq {pc pc'} (h : Submits pc pc') : pc'.ptr = pc.ptr := by
  cases h <;> rfl

theorem Submits.tagged {pc pc'} (h : Submits pc pc') (ht : pc'.tagged = true) : pc.tagged = true := by
  cases h with
  | full => cases ht
  | entry => rfl

theorem Untagged.not_op {job prep origin} (h : Untagged job prep origin) (A : Nat) (q : Prep) :
    job ≠ .op A q := by
  cases h <;> nofun

theorem Issuing.effect (h : Issuing s) (he : Effect s a s') : Issuing s' := by
  cases he with
  | op ho => exact h.op_step ho
  | lock hn hj =>
    refine ⟨h.op, ?_, ?_, ?_⟩
    · intro u hu; cases hu; exact hj
    · intro A hs
      rw [h.callback A hs, issuedPtr_none hn, issuedPtr_some rfl]
      split <;> rfl
    · intro u A prep hu _ ht; cases hu; cases ht
  | move hu hm => exact h.setPc hu rfl rfl rfl hm.ptr_eq hm.tagged
  | submit hu hm => exact h.setPc hu rfl rfl rfl hm.ptr_eq (fun ht => .inl (hm.tagged ht))
  | issue hu hpc hj _ => exact h.issue hu hpc hj rfl rfl rfl
  | untagged hu hpc hj => exact h.setPc hu rfl rfl rfl (by rw [hpc]; rfl) (fun _ => .inr hj.not_op)
  | unlock hu hpc hr => exact h.unlock hu hpc hr
  | stopReturns hu hpc hc =>
    refine ⟨h.op, fun _ hv => absurd hv.symm (Option.some_ne_none _), ?_,
      fun _ _ _ hv => absurd hv.symm (Option.some_ne_none _)⟩
    intro A hs
    rw [h.callback A hs, issuedPtr_some hu, issuedPtr_none rfl, if_neg (by rw [hc]; nofun)]
  | stopCall hj =>
    exact ⟨h.op, fun u hu => job_updateStop (h.held u hu) rfl rfl (by rw [hj]; nofun), h.callback, h.tagged⟩
  | stopStore hj =>
    exact ⟨h.op, fun u hu => job_updateStop (h.held u hu) rfl rfl (by rw [hj]; nofun), h.callback, h.tagged⟩
  | @call _ _ _ _ A =>
    exact ⟨(Function.forall_update_iff _ _).2 ⟨{ h.op A with }, fun B _ => h.op B⟩,
      fun u hu => job_update (h.held u hu) rfl rfl (fun _ => ⟨rfl, rfl⟩) (fun _ _ => rfl),
      (Function.forall_update_iff s.ops fun B o => o.start = .submit → o.callback = s.issuedPtr B).2
        ⟨h.callback A, fun B _ => h.callback B⟩, h.tagged⟩
  | nullSqe | invoke | run | runStore | skip | dangling | free | advance | complete =>
    exact h.of_eq rfl rfl rfl

end AsyncRuntime.Ring
