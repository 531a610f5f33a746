import AsyncRuntime.StopHelper.Model
import AsyncRuntime.Ring.Operations
/-!
# Whether a stop request reaches the operation

`start()` stores `cb_ptr` and then loads `stop_called`; the stop callback stores
`stop_called` and then loads `cb_ptr`. Whoever loads second should see the other's
store and submit the cancellation. With store buffers both may load before either
store has left its buffer, and then neither does.

`Proto` is what the fields satisfy, `Seen` what the two threads see of the two
atomics, and `Covered` the conclusion: a thread that is done has cancelled or has
missed the other one, and not both have missed.
-/

namespace AsyncRuntime.StopHelper
open Lib AsyncRuntime.Ring

variable {s s' : State} {a : Act}

/-- The address of the operation's callback, once its entry is submitted. -/
def callbackOf : List Entry → Option Nat
  | .op p :: _ => some p
  | _ => none

def State.callback (s : State) : Option Nat := callbackOf s.submitted

/-- A cancellation of the operation was submitted after its entry. -/
def cancelledIn (l : List Entry) : Prop := .cancel (callbackOf l) ∈ l.tail

def State.cancelled (s : State) : Prop := cancelledIn s.submitted

theorem callbackOf_append {l : List Entry} (h : callbackOf l ≠ none) (e : Entry) :
    callbackOf (l ++ [e]) = callbackOf l := by
  match l with
  | .op p :: l => rfl
  | .cancel ptr :: l => exact absurd rfl h
  | [] => exact absurd rfl h

/-- A cancellation stays in the log. -/
theorem cancelledIn_keep {l : List Entry} (h : cancelledIn l) (e : Entry) : cancelledIn (l ++ [e]) := by
  match l with
  | .op p :: l => exact List.mem_append_left _ h
  | .cancel ptr :: l => exact List.mem_append_left _ h
  | [] => exact absurd h List.not_mem_nil

theorem cancelledIn_new {l : List Entry} (h : callbackOf l ≠ none) : cancelledIn (l ++ [.cancel (callbackOf l)]) := by
  match l with
  | .op p :: l => exact List.mem_append_right _ (List.mem_singleton_self _)
  | .cancel ptr :: l => exact absurd rfl h
  | [] => exact absurd rfl h

/-! ## The fields -/

/-- What the fields always satisfy. -/
structure Proto (s : State) : Prop where
  unissued : s.start.unissued = true ∨ s.start = .submit → s.submitted = []
  issued : s.start.issued = true → s.callback ≠ none
  startPtr : ∀ ptr, s.start.ptr = some ptr → ptr = s.callback
  stopPtr : ∀ ptr, s.onStop.ptr = some ptr → ptr = s.callback ∧ s.callback ≠ none
  requested : s.onStop ≠ .idle → s.stopRequested = true
  unregistered : s.start.unregistered = true → s.registered = false
  idle : s.registered = false → s.onStop = .idle
  ptrs : s.mem.Stores .cbPtr (fun q => q = s.callback ∧ s.callback ≠ none)
  flags : s.mem.Stores .stopCalled (· = true)
  memPtr : s.mem.mem .cbPtr ≠ none → s.mem.mem .cbPtr = s.callback

theorem Proto.init : Proto init where
  unissued _ := rfl
  issued h := Bool.noConfusion h
  startPtr _ h := absurd h.symm (Option.some_ne_none _)
  stopPtr _ h := absurd h.symm (Option.some_ne_none _)
  requested h := absurd rfl h
  unregistered _ := rfl
  idle _ := rfl
  ptrs _ _ h := absurd h List.not_mem_nil
  flags _ _ h := absurd h List.not_mem_nil
  memPtr h := absurd rfl h

/-- A cancellation is added to the log. -/
theorem Proto.append (h : Proto s) (hc : s.callback ≠ none) (e : Entry) :
    Proto { s with submitted := s.submitted ++ [e] } := by
  have hcb : State.callback { s with submitted := s.submitted ++ [e] } = s.callback := callbackOf_append hc e
  refine { h with unissued := ?_, issued := ?_, startPtr := ?_, stopPtr := ?_, ptrs := ?_, memPtr := ?_ }
  · intro hs
    have hnil := h.unissued hs
    unfold State.callback at hc
    rw [hnil] at hc
    exact absurd rfl hc
  all_goals rw [hcb]
  · exact h.issued
  · exact h.startPtr
  · exact h.stopPtr
  · exact h.ptrs
  · exact h.memPtr

/-- What a load of `cb_ptr` can return. -/
theorem Proto.view_ptr (h : Proto s) (t : Thread) : s.mem.view t .cbPtr ≠ none → s.mem.view t .cbPtr = s.callback :=
  StoreBuffer.view_of_mem (P := fun q => q ≠ none → q = s.callback) (fun t q hq _ => (h.ptrs t q hq).1) h.memPtr t

theorem Proto.effect (h : Proto s) (he : Effect s a s') : Proto s' := by
  have hun {pc : StartPc} (hs : s.start = pc) (hu : pc.unissued = true) : s.submitted = [] :=
    h.unissued (.inl (hs ▸ hu))
  have hreg {pc : StartPc} (hs : s.start = pc) (hu : pc.unregistered = true) : s.registered = false :=
    h.unregistered (hs ▸ hu)
  have hptr {pc : StartPc} {ptr} (hs : s.start = pc) (hq : pc.ptr = some ptr) : ptr = s.callback :=
    h.startPtr ptr (hs ▸ hq)
  have hiss {pc : StartPc} (hs : s.start = pc) (hq : pc.issued = true) : s.callback ≠ none := h.issued (hs ▸ hq)
  have hreq {pc : CallbackPc} (hs : s.onStop = pc) (hne : pc ≠ .idle) : s.stopRequested = true :=
    h.requested (hs ▸ hne)
  have hidle {pc : CallbackPc} (hs : s.onStop = pc) (hne : pc ≠ .idle) (hr : s.registered = false) : False :=
    hne (hs.symm.trans (h.idle hr))
  cases he with
  | begin hs | stopped hs | checked hs =>
    exact { h with
      unissued := fun _ => hun hs rfl, issued := nofun, startPtr := nofun
      unregistered := fun _ => hreg hs rfl }
  | request => exact { h with requested := fun _ => rfl }
  | requestCallback _ hg =>
    exact { h with stopPtr := nofun, requested := fun _ => rfl, idle := fun hn => absurd (hg.symm.trans hn) nofun }
  | emplaceRequested hs hr =>
    exact { h with
      unissued := fun _ => hun hs rfl, issued := nofun, startPtr := nofun, stopPtr := nofun
      requested := fun _ => hr, unregistered := nofun, idle := nofun }
  | emplace hs =>
    exact { h with
      unissued := fun _ => hun hs rfl, issued := nofun, startPtr := nofun, unregistered := nofun, idle := nofun }
  | unstoppable hs | emplaced hs =>
    exact { h with
      unissued := fun _ => hun hs rfl, issued := nofun, startPtr := nofun, unregistered := nofun }
  | @submit p hs =>
    have hnil : s.submitted = [] := h.unissued (.inr hs)
    have hnone : s.callback = none := by unfold State.callback; rw [hnil]; rfl
    have hcb : State.callback { s with submitted := s.submitted ++ [.op p], start := .storeCbPtr (some p) } =
        some p := by
      unfold State.callback; dsimp only; rw [hnil]; rfl
    exact { h with
      unissued := nofun
      issued := fun _ => by rw [hcb]; nofun
      startPtr := fun q hq => by rw [hcb]; cases hq; rfl
      stopPtr := fun q hq => absurd hnone (h.stopPtr q hq).2
      unregistered := nofun
      ptrs := fun t q hq => absurd hnone (h.ptrs t q hq).2
      memPtr := fun hm => absurd ((h.memPtr hm).trans hnone) hm }
  | storeCbPtr hs =>
    exact { h with
      unissued := nofun, issued := fun _ => hiss hs rfl
      startPtr := fun q hq => hptr hs (by cases hq; rfl), unregistered := nofun
      ptrs := h.ptrs.store (fun _ => ⟨hptr hs rfl, hiss hs rfl⟩)
      flags := h.flags.store nofun }
  | stopCalled hs | readCtx hs =>
    exact { h with
      unissued := nofun, issued := fun _ => hiss hs rfl
      startPtr := fun q hq => hptr hs (by cases hq; rfl), unregistered := nofun }
  | startMissed hs =>
    exact { h with unissued := nofun, issued := fun _ => hiss hs rfl, startPtr := nofun, unregistered := nofun }
  | @cancel _ ptr hs =>
    have hne := hiss hs rfl
    have happ := h.append hne (.cancel ptr)
    exact { happ with
      unissued := nofun, issued := fun _ => happ.issued (by rw [hs]; rfl), startPtr := nofun, unregistered := nofun }
  | storeStopCalled hs =>
    exact { h with
      stopPtr := nofun, requested := fun _ => hreq hs nofun, idle := fun hr => (hidle hs nofun hr).elim
      ptrs := h.ptrs.store nofun, flags := h.flags.store (fun _ => rfl) }
  | callbackMissed hs =>
    exact { h with
      stopPtr := nofun, requested := fun _ => hreq hs nofun, idle := fun hr => (hidle hs nofun hr).elim }
  | @loadCbPtr q hs hv =>
    have hcb : some q = s.callback := hv ▸ h.view_ptr s.caller (by rw [hv]; nofun)
    exact { h with
      stopPtr := fun ptr hp => by cases hp; exact ⟨hcb, hcb ▸ nofun⟩
      requested := fun _ => hreq hs nofun, idle := fun hr => (hidle hs nofun hr).elim }
  | callbackCtx hs =>
    exact { h with
      stopPtr := fun ptr hp => h.stopPtr ptr (by rw [hs]; cases hp; rfl)
      requested := fun _ => hreq hs nofun, idle := fun hr => (hidle hs nofun hr).elim }
  | @callbackCancel ptr hs =>
    have happ := h.append (h.stopPtr ptr (by rw [hs]; rfl)).2 (.cancel ptr)
    exact { happ with
      stopPtr := nofun, requested := fun _ => hreq hs nofun, idle := fun hr => (hidle hs nofun hr).elim }
  | drain hd =>
    exact { h with
      ptrs := h.ptrs.drain hd, flags := h.flags.drain hd
      memPtr := StoreBuffer.mem_drain (P := fun q => q ≠ none → q = s.callback)
        (fun t q hq _ => (h.ptrs t q hq).1) hd h.memPtr }

/-! ## What the threads see -/

/-- `start()` has stored `cb_ptr`. -/
def startStored : StartPc → Bool
  | .loadStopCalled _ | .readCtx _ | .cancel _ | .returned => true
  | _ => false

/-- The stop callback has stored `stop_called`. -/
def callbackStored : CallbackPc → Bool
  | .loadCbPtr | .readCtx _ | .cancel _ | .returned => true
  | _ => false

/-- Each thread sees its own store. -/
structure Seen (s : State) : Prop where
  ptr : startStored s.start = true → s.mem.view .starter .cbPtr = s.callback
  stop : callbackStored s.onStop = true → s.mem.view s.caller .stopCalled = true

theorem issued_of_stored {pc : StartPc} (h : startStored pc = true) : pc.issued = true := by
  cases pc <;> first | rfl | cases h

theorem Seen.effect (h : Seen s) (hp : Proto s) (he : Effect s a s') : Seen s' := by
  have hptr {pc : StartPc} (hs : s.start = pc) (hst : startStored pc = true) :
      s.mem.view .starter .cbPtr = s.callback := h.ptr (hs ▸ hst)
  have hstop {pc : CallbackPc} (hs : s.onStop = pc) (hst : callbackStored pc = true) :
      s.mem.view s.caller .stopCalled = true := h.stop (hs ▸ hst)
  have hne : Loc.cbPtr ≠ .stopCalled := nofun
  cases he with
  | request => exact ⟨h.ptr, h.stop⟩
  | requestCallback => exact ⟨h.ptr, nofun⟩
  | begin | stopped | checked | emplace | unstoppable | emplaced => exact ⟨nofun, h.stop⟩
  | emplaceRequested => exact ⟨nofun, nofun⟩
  | submit hs => exact ⟨nofun, h.stop⟩
  | storeCbPtr hs =>
    refine ⟨fun _ => ?_, fun hst => ?_⟩
    · dsimp only
      rw [StoreBuffer.view_store_self, Function.update_self]
      exact hp.startPtr _ (by rw [hs]; rfl)
    · exact (StoreBuffer.view_store_other hne.symm ..).trans (h.stop hst)
  | stopCalled hs | startMissed hs | readCtx hs => exact ⟨fun _ => hptr hs rfl, h.stop⟩
  | cancel hs =>
    refine ⟨fun _ => ?_, h.stop⟩
    exact (hptr hs rfl).trans (callbackOf_append (hp.issued (by rw [hs]; rfl)) _).symm
  | storeStopCalled hs =>
    refine ⟨fun hst => ?_, fun _ => ?_⟩
    · exact (StoreBuffer.view_store_other hne ..).trans (h.ptr hst)
    · dsimp only
      rw [StoreBuffer.view_store_self, Function.update_self]
  | callbackMissed hs | loadCbPtr hs | callbackCtx hs => exact ⟨h.ptr, fun _ => hstop hs rfl⟩
  | callbackCancel hs =>
    refine ⟨fun hst => ?_, fun _ => hstop hs rfl⟩
    exact (h.ptr hst).trans (callbackOf_append (hp.issued (issued_of_stored hst)) _).symm
  | drain hd =>
    refine ⟨fun hst => ?_, fun hst => ?_⟩
    · exact StoreBuffer.view_drain (P := (· = s.callback)) (fun t q hq => (hp.ptrs t q hq).1) hd (h.ptr hst)
    · exact StoreBuffer.view_drain hp.flags hd (h.stop hst)

/-! ## Whoever loads second -/

/-- When the second of the two loads is made, and the first has seen nothing, the
store of the thread that made the first has reached memory. -/
def State.visible (s : State) : Act → Bool
  | .start _ =>
    match s.start with
    | .loadStopCalled _ => !s.callbackMissed || s.drained .other
    | _ => true
  | .callback =>
    match s.onStop with
    | .loadCbPtr => !s.startMissed || s.drained s.caller.opposite
    | _ => true
  | _ => true

/-- A thread that is done has cancelled or has missed the other. -/
structure Covered (s : State) : Prop where
  start : s.start = .returned → s.startMissed = true ∨ s.cancelled
  stop : s.onStop = .returned → s.callbackMissed = true ∨ s.cancelled
  startMissed : s.startMissed = true → s.start = .returned
  callbackMissed : s.callbackMissed = true → s.onStop = .returned
  notBoth : ¬ (s.startMissed = true ∧ s.callbackMissed = true)

theorem buf_of_drained {t : Thread} (h : s.drained t = true) : s.mem.buf t = [] := List.isEmpty_iff.1 h

/-- `start()` sees the store of a callback that has finished, if it has drained. -/
theorem Seen.stop_visible (h : Seen s) (hp : Proto s) (hs : callbackStored s.onStop = true)
    (hd : s.drained .other = true) : s.mem.view .starter .stopCalled = true := by
  have hv := h.stop hs
  cases hc : s.caller with
  | starter => rw [hc] at hv; exact hv
  | other =>
    rw [hc, StoreBuffer.view_of_empty (buf_of_drained hd)] at hv
    exact StoreBuffer.view_of_mem hp.flags hv .starter

/-- The callback sees the store of a `start()` that has returned, if it has
drained. -/
theorem Seen.ptr_visible (h : Seen s) (hp : Proto s) (hs : startStored s.start = true)
    (hd : s.drained s.caller.opposite = true) : s.mem.view s.caller .cbPtr = s.callback := by
  have hv := h.ptr hs
  cases hc : s.caller with
  | starter => exact hv
  | other =>
    have hd : s.drained .starter = true := by rw [hc] at hd; exact hd
    rw [StoreBuffer.view_of_empty (buf_of_drained hd)] at hv
    exact StoreBuffer.view_of_mem (P := (· = s.callback)) (fun t q hq => (hp.ptrs t q hq).1) hv .other

theorem Covered.effect (h : Covered s) (hp : Proto s) (hv : Seen s) (hg : s.visible a) (he : Effect s a s') :
    Covered s' := by
  have hstart {pc : StartPc} (hs : s.start = pc) (hne : pc ≠ .returned) : s.startMissed = false := by
    by_contra hm
    exact hne (hs.symm.trans (h.startMissed (by simpa using hm)))
  have hstop {pc : CallbackPc} (hs : s.onStop = pc) (hne : pc ≠ .returned) : s.callbackMissed = false := by
    by_contra hm
    exact hne (hs.symm.trans (h.callbackMissed (by simpa using hm)))
  have hfalse {b : Bool} (hb : b = false) : ¬ b = true := by rw [hb]; nofun
  cases he with
  | request => exact ⟨h.start, h.stop, h.startMissed, h.callbackMissed, h.notBoth⟩
  | requestCallback hr =>
    have hidle : s.onStop = .idle := by
      by_contra hne
      rw [hp.requested hne] at hr
      cases hr
    exact ⟨h.start, nofun, h.startMissed, fun hm => absurd hm (hfalse (hstop hidle nofun)), h.notBoth⟩
  | begin hs | stopped hs | checked hs | emplace hs | unstoppable hs | emplaced hs | storeCbPtr hs
  | stopCalled hs | readCtx hs =>
    exact ⟨nofun, h.stop, fun hm => absurd hm (hfalse (hstart hs nofun)), h.callbackMissed, h.notBoth⟩
  | emplaceRequested hs =>
    have hidle : s.onStop = .idle := hp.idle (hp.unregistered (by rw [hs]; rfl))
    exact ⟨nofun, nofun, fun hm => absurd hm (hfalse (hstart hs nofun)),
      fun hm => absurd hm (hfalse (hstop hidle nofun)), h.notBoth⟩
  | submit hs =>
    refine ⟨nofun, fun hr => ?_, fun hm => absurd hm (hfalse (hstart hs nofun)), h.callbackMissed, h.notBoth⟩
    exact (h.stop hr).imp_right (fun hc => cancelledIn_keep hc _)
  | @startMissed _ ptr hs hload =>
    refine ⟨fun _ => .inl rfl, h.stop, fun _ => rfl, h.callbackMissed, fun hm => ?_⟩
    -- the callback has missed `cb_ptr`, so it has stored `stop_called`
    have hm : s.callbackMissed = true := hm.2
    have hd : s.drained .other = true := by
      simpa only [State.visible, hs, hm, Bool.not_true, Bool.false_or] using hg
    rw [hv.stop_visible hp (by rw [h.callbackMissed hm]; rfl) hd] at hload
    cases hload
  | @cancel _ ptr hs =>
    obtain rfl : ptr = s.callback := hp.startPtr ptr (by rw [hs]; rfl)
    have hnew := cancelledIn_new (hp.issued (by rw [hs]; rfl))
    exact ⟨fun _ => .inr hnew, fun _ => .inr hnew, fun _ => rfl, h.callbackMissed, h.notBoth⟩
  | storeStopCalled hs | loadCbPtr hs | callbackCtx hs =>
    exact ⟨h.start, nofun, h.startMissed, fun hm => absurd hm (hfalse (hstop hs nofun)), h.notBoth⟩
  | callbackMissed hs hload =>
    refine ⟨h.start, fun _ => .inl rfl, h.startMissed, fun _ => rfl, fun hm => ?_⟩
    -- `start()` has missed `stop_called`, so it has stored `cb_ptr`
    have hm : s.startMissed = true := hm.1
    have hd : s.drained s.caller.opposite = true := by
      simpa only [State.visible, hs, hm, Bool.not_true, Bool.false_or] using hg
    have hret := h.startMissed hm
    rw [hv.ptr_visible hp (by rw [hret]; rfl) hd] at hload
    exact hp.issued (by rw [hret]; rfl) hload
  | @callbackCancel ptr hs =>
    obtain ⟨rfl, hne⟩ := hp.stopPtr ptr (by rw [hs]; rfl)
    have hnew := cancelledIn_new hne
    exact ⟨fun _ => .inr hnew, fun _ => .inr hnew, h.startMissed, fun _ => rfl, h.notBoth⟩
  | drain => exact ⟨h.start, h.stop, h.startMissed, h.callbackMissed, h.notBoth⟩

/-! ## A stop requested before the check -/

/-- How `start()` completes the receiver itself. -/
structure Early (s : State) : Prop where
  completions : s.completions = if s.start = .stoppedEarly then [.stopped] else []
  requested : s.early = true → unchecked s.start = true → s.stopRequested = true
  stopped : s.early = true → unchecked s.start = false → s.start = .stoppedEarly

theorem Early.effect (h : Early s) (he : Effect s a s') : Early s' := by
  have hcomp {pc : StartPc} (hs : s.start = pc) (hne : pc ≠ .stoppedEarly) : s.completions = [] := by
    rw [h.completions, hs, if_neg hne]
  -- past its check without a completion, `start()` has found no request
  have hlate {pc : StartPc} (hs : s.start = pc) (hu : unchecked pc = false) (hne : pc ≠ .stoppedEarly) :
      s.early = true → False := fun he => hne (hs.symm.trans (h.stopped he (hs ▸ hu)))
  cases he with
  | begin hs =>
    exact ⟨hcomp hs nofun, fun he _ => h.requested he (by rw [hs]; rfl), nofun⟩
  | request hr =>
    refine ⟨h.completions, fun _ _ => rfl, fun he hu => ?_⟩
    exact absurd (he.symm.trans hu) nofun
  | requestCallback => exact ⟨h.completions, fun _ _ => rfl, h.stopped⟩
  | stopped hs =>
    refine ⟨?_, nofun, fun _ _ => rfl⟩
    dsimp only
    rw [hcomp hs nofun, if_pos rfl]
    rfl
  | checked hs hr =>
    refine ⟨hcomp hs nofun, nofun, fun he _ => ?_⟩
    rw [h.requested he (by rw [hs]; rfl)] at hr
    cases hr
  | emplaceRequested hs | emplace hs | unstoppable hs | emplaced hs | submit hs | storeCbPtr hs | stopCalled hs
  | startMissed hs | readCtx hs | cancel hs =>
    exact ⟨hcomp hs nofun, nofun, fun he _ => (hlate hs rfl nofun he).elim⟩
  | storeStopCalled | callbackMissed | loadCbPtr | callbackCtx | callbackCancel | drain =>
    exact ⟨h.completions, h.requested, h.stopped⟩

/-! ## Every run -/

/-- If the second of the two loads always finds the other thread's store in
memory, then an operation that was submitted and stopped has been cancelled once
`start()` and the stop callback are done: its entry is followed by a cancellation
with its callback's address. If the stop was requested before the check of
`start()`, then once the check is made nothing is submitted and the receiver has
`set_stopped`. -/
theorem stop_request_not_lost {as : List Act} (h : machine.RunIn (fun s a => s.visible a) as s) :
    (s.start = .returned → s.onStop = .returned →
      ∃ p rest, s.submitted = .op p :: rest ∧ .cancel (some p) ∈ rest) ∧
    (s.early = true → unchecked s.start = false →
      s.start = .stoppedEarly ∧ s.submitted = [] ∧ s.completions = [.stopped]) := by
  obtain ⟨hp, hv, hc, hearly⟩ : Proto s ∧ Seen s ∧ Covered s ∧ Early s := by
    refine Machine.RunIn.inv (fun s => Proto s ∧ Seen s ∧ Covered s ∧ Early s) ?_ ?_ h
    · exact ⟨.init, ⟨nofun, nofun⟩, ⟨nofun, nofun, nofun, nofun, nofun⟩, ⟨rfl, nofun, nofun⟩⟩
    · rintro s a s' ⟨hp, hv, hc, hearly⟩ hg hs
      have he := step_effect hs
      exact ⟨hp.effect he, hv.effect hp he, hc.effect hp hv hg he, hearly.effect he⟩
  constructor
  · intro hstart hstop
    have hcancelled : s.cancelled := by
      rcases hc.start hstart with hm | hcan
      · rcases hc.stop hstop with hm' | hcan
        · exact absurd ⟨hm, hm'⟩ hc.notBoth
        · exact hcan
      · exact hcan
    have hissued : s.callback ≠ none := hp.issued (by rw [hstart]; rfl)
    unfold State.cancelled cancelledIn at hcancelled
    unfold State.callback at hissued
    match hsub : s.submitted with
    | .op p :: rest => rw [hsub] at hcancelled; exact ⟨p, rest, rfl, hcancelled⟩
    | .cancel ptr :: rest => rw [hsub] at hissued; exact absurd rfl hissued
    | [] => rw [hsub] at hissued; exact absurd rfl hissued
  · intro he hu
    have hs := hearly.stopped he hu
    refine ⟨hs, hp.unissued (.inl (by rw [hs]; rfl)), ?_⟩
    rw [hearly.completions, if_pos hs]

/-- `start()` up to the return of `submit()`, with the callback at address 10. -/
def submittedAt : List Act := [.begin true, .start 10, .start 10, .start 10]

/-- The stop is requested, and both threads store before either loads. The stores
leave the buffers first. -/
def storesDrained : List Act :=
  submittedAt ++ [.requestStop .other, .start 10, .callback, .drain .starter, .drain .other,
    .start 10, .callback, .start 10, .start 10, .callback, .callback]

theorem stop_request_not_lost_drained :
    ∃ s, machine.RunIn (fun s a => s.visible a) storesDrained s ∧ s.start = .returned ∧ s.onStop = .returned ∧
      ∃ p rest, s.submitted = .op p :: rest ∧ .cancel (some p) ∈ rest := by
  have hexec : (machine.execIn (fun s a => s.visible a) init storesDrained).any
      (fun s => decide (s.start = .returned ∧ s.onStop = .returned)) = true := by decide +kernel
  obtain ⟨s, hrun, hstart, hstop⟩ := Machine.exists_runIn_of_exec (fun _ _ => id) .nil hexec
  exact ⟨s, hrun, hstart, hstop, (stop_request_not_lost hrun).1 hstart hstop⟩

/-- Both threads store and load while the stores are in the buffers, which drain
afterwards. -/
def storesBuffered : List Act :=
  submittedAt ++ [.requestStop .other, .start 10, .callback, .start 10, .callback, .drain .starter, .drain .other]

/-- `start()` and the stop callback are done, the operation is with the kernel, and
nobody has cancelled it. -/
theorem stop_request_lost_in_buffers :
    ∃ s, machine.Run storesBuffered s ∧ s.start = .returned ∧ s.onStop = .returned ∧
      s.stopRequested = true ∧ s.submitted = [.op 10] := by
  have hexec : (machine.exec storesBuffered).any (fun s => decide (s.start = .returned ∧ s.onStop = .returned ∧
      s.stopRequested = true ∧ s.submitted = [.op 10])) = true := by decide +kernel
  exact Machine.exists_run_of_exec hexec

end AsyncRuntime.StopHelper
