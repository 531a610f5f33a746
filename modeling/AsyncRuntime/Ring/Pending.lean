import AsyncRuntime.Ring.Full
/-!
# An operation seen by the code that awaits it

Between its `start()` and its callback an operation is a request, and from some moment
on a result. Nothing but the completion of its own entry gives it the result, nothing
but its own callback takes it, and no step changes the request of an operation that has
been started.
-/

namespace AsyncRuntime.Ring
open Lib

/-- The result of operation `A` that waits in the CQ. -/
def RingImpl.result (s : RingImpl) (A : Nat) : Option IoResult :=
  (s.pending.find? fun e => e.origin = .op A).map (·.result)

variable {s s' : RingImpl} {a : Act} {A B : Nat} {e : Sqe}

/-! ## The result -/

theorem result_congr (h : s'.pending = s.pending) : s'.result B = s.result B := by
  unfold RingImpl.result; rw [h]

theorem result_cons {c : Cqe} (h : s.pending = c :: s'.pending) (hc : c.origin ≠ .op B) : s'.result B = s.result B := by
  unfold RingImpl.result; rw [h, List.find?_cons_of_neg (by simpa using hc)]

theorem result_head {c : Cqe} {rest : List Cqe} (h : s.pending = c :: rest) (hc : c.origin = .op B) :
    s.result B = some c.result := by
  unfold RingImpl.result; rw [h, List.find?_cons_of_pos (by simpa using hc)]; rfl

theorem result_snoc {c : Cqe} (h : s'.pending = s.pending ++ [c]) :
    s'.result B = (s.result B).or (if c.origin = .op B then some c.result else none) := by
  unfold RingImpl.result
  rw [h, List.find?_append, List.find?_singleton]
  cases s.pending.find? fun e => e.origin = .op B with
  | some d => rfl
  | none => by_cases hc : c.origin = .op B <;> simp [hc]

theorem result_eq_none_iff : s.result B = none ↔ ∀ c ∈ s.pending, c.origin ≠ .op B := by
  simp [RingImpl.result]

theorem result_eq_none_of_flying (h : s.flying B = 0) : s.result B = none := by
  rw [result_eq_none_iff]
  intro c hc ho
  exact absurd h (Nat.ne_of_gt (flying_pos (List.mem_append_right _ (List.mem_map_of_mem hc)) ho))

/-- An entry in the SQ or with the kernel is the only trace of its operation. -/
theorem Lifecycle.result_of_entry (h : Lifecycle s) (he : e ∈ s.sq ++ s.kernel) (ho : e.origin = .op B) :
    s.result B = none ∧ s.calls B = 0 := by
  have hcount := h.count B
  have hle := (s.ops B).issues_le
  have hpos : 0 < ((s.sq ++ s.kernel).map Sqe.tag).countP (fun t => t.origin = .op B) :=
    List.countP_pos_iff.2 ⟨e.tag, List.mem_map_of_mem he, decide_eq_true ho⟩
  have hsum : s.flying B = ((s.sq ++ s.kernel).map Sqe.tag).countP (fun t => t.origin = .op B) +
      (s.pending.map Cqe.tag).countP (fun t => t.origin = .op B) := by
    rw [RingImpl.flying, RingImpl.tags, ← List.map_append, List.countP_append]
  refine ⟨?_, by omega⟩
  rw [result_eq_none_iff]
  intro c hc hco
  have hpend : 0 < (s.pending.map Cqe.tag).countP (fun t => t.origin = .op B) :=
    List.countP_pos_iff.2 ⟨c.tag, List.mem_map_of_mem hc, decide_eq_true hco⟩
  omega

/-- An operation that has not been started has no result. -/
theorem Safe.result_of_notStarted (h : Safe s) (hB : (s.ops B).start = .notStarted) :
    s.result B = none ∧ s.calls B = 0 := by
  have hcount := h.lifecycle.count B
  rw [Operation.issues_eq_zero ((h.issuing.op B).unissued (by rw [hB]; rfl))] at hcount
  exact ⟨result_eq_none_of_flying (by omega), by omega⟩

/-! ## The completions that are pending -/

theorem RunMove.passed_eq {pc : RunPc} (hb : Batch s) (hm : RunMove s s.run pc) : pc.passed = s.run.passed := by
  have hcount := hb.count
  generalize s.run = old at hm hcount
  cases hm with
  | batchEnd => exact hcount
  | _ => rfl

/-- What a step does to the completions that are pending. -/
inductive Pends (s : RingImpl) : Act → RingImpl → Prop
  | same {b t} : t.pending = s.pending → t.delivered = s.delivered → Pends s b t
  | skip {c t} : s.pending = c :: t.pending → c.userData = none → t.delivered = s.delivered → Pends s .runStep t
  | call {head count p c C t} : s.run = .calling head count p → s.cq[head]? = some c → s.heap p = some C →
      s.pending = c :: t.pending → t.delivered = s.delivered ++ [(C, c)] → Pends s .runStep t
  | complete {i r d t} : s.kernel[i]? = some d → t.pending = s.pending ++ [⟨d.userData, r, d.origin⟩] →
      t.delivered = s.delivered → Pends s (.complete i r) t

theorem Effect.pends (hb : Batch s) (he : Effect s a s') : Pends s a s' := by
  cases he with
  | op | lock | move | submit | issue | untagged | nullSqe | unlock | stopReturns | stopCall | stopStore | dangling =>
    exact .same rfl rfl
  | run hm => exact .same (by simp only [RingImpl.pending, hm.passed_eq hb]) rfl
  | invoke hr =>
    refine .same ?_ rfl
    rcases hr with hr | hr <;> simp only [RingImpl.pending, hr, RunPc.passed, RunPc.head]
  | runStore hr => exact .same (by simp only [RingImpl.pending, hr, RunPc.passed, RunPc.head]) rfl
  | skip hr he hu => exact .skip (pending_eq_cons (by rw [hr]; rfl) he rfl rfl) hu rfl
  | call hr he hp => exact .call hr he hp (pending_eq_cons (by rw [hr]; rfl) he rfl rfl) rfl
  | free hr => exact .same (by simp only [RingImpl.pending, hr, RunPc.passed, RunPc.head]) rfl
  | advance hr => exact .same (by simp only [RingImpl.pending, hr, RunPc.passed, RunPc.head, List.drop_zero]) rfl
  | complete he => exact .complete he (List.drop_append_of_le_length hb.passed_le) rfl

theorem Lifecycle.skip_origin (h : Lifecycle s) {c : Cqe} (hc : c ∈ s.pending) (hu : c.userData = none) :
    c.origin ≠ .op B := by
  intro ho
  obtain ⟨p, hp, -⟩ := (h.tag c.tag (List.mem_append_right _ (List.mem_map_of_mem hc))).op ho
  cases hu.symm.trans hp

/-- Only the call of its own callback counts as a call of an operation. -/
theorem Pends.calls_eq (h : Pends s a s')
    (hcall : a = .runStep → ∀ head count p, s.run = .calling head count p → s.heap p ≠ some B) :
    s'.calls B = s.calls B := by
  cases h with
  | same _ hd | skip _ _ hd | complete _ _ hd => exact calls_congr hd B
  | @call head count p c C _ hr _ hC _ hd =>
    have hCB : C ≠ B := fun h => hcall rfl _ _ _ hr (h ▸ hC)
    rw [calls_append hd, if_neg hCB, Nat.add_zero]

theorem Pends.calls_le (h : Pends s a s') : s.calls B ≤ s'.calls B := by
  cases h with
  | same _ hd | skip _ _ hd | complete _ _ hd => exact Nat.le_of_eq (calls_congr hd B).symm
  | call _ _ _ _ hd => rw [calls_append hd]; exact Nat.le_add_right _ _

/-- The result of an operation stays, unless its entry is completed or its callback is
called. -/
theorem Pends.result_eq (hl : Lifecycle s) (hb : Batch s) (h : Pends s a s') (hcomplete : ∀ i r, a ≠ .complete i r)
    (hcalls : s'.calls B = s.calls B) : s'.result B = s.result B := by
  cases h with
  | same hp => exact result_congr hp
  | skip hp hu => exact result_cons hp (hl.skip_origin (by rw [hp]; exact List.mem_cons_self) hu)
  | @call head count p c C _ hr he hC hp hd =>
    obtain ⟨C', ho, hC'⟩ := hl.origin_at hb hr he
    obtain rfl : C = C' := Option.some.inj (hC.symm.trans hC')
    have hCB : C ≠ B := by
      rintro rfl
      rw [calls_append hd, if_pos rfl] at hcalls
      omega
    exact result_cons hp (by rw [ho]; simpa using hCB)
  | complete => exact absurd rfl (hcomplete _ _)

/-! ## The request -/

theorem OpStep.of_started {o o' : Operation} (h : OpStep o o') (hs : o.start ≠ .notStarted) :
    o'.request = o.request ∧ o'.start ≠ .notStarted ∧ (o.start = .stoppedEarly → o'.start = .stoppedEarly) := by
  cases h with
  | begin hpc => exact absurd hpc hs
  | stopped hpc | checked hpc | emplaceRequested hpc | emplace hpc | unstoppable hpc | emplaced hpc | storeCbPtr hpc
  | stopCalled hpc | notCalled hpc | readCtx hpc =>
    exact ⟨rfl, nofun, fun he => absurd (hpc.symm.trans he) nofun⟩
  | request | requestCallback | storeStopCalled | noCbPtr | loadCbPtr | callbackCtx => exact ⟨rfl, hs, id⟩

/-- An operation that has been started keeps its request. -/
theorem Effect.of_started (hi : Issuing s) (he : Effect s a s') (hB : (s.ops B).start ≠ .notStarted) :
    (s'.ops B).request = (s.ops B).request ∧ (s'.ops B).start ≠ .notStarted ∧
      ((s.ops B).start = .stoppedEarly → (s'.ops B).start = .stoppedEarly) := by
  have hsame (h : s'.ops B = s.ops B) : (s'.ops B).request = (s.ops B).request ∧ (s'.ops B).start ≠ .notStarted ∧
      ((s.ops B).start = .stoppedEarly → (s'.ops B).start = .stoppedEarly) := by rw [h]; exact ⟨rfl, hB, id⟩
  have hupdate {A o} (hops : s'.ops = Function.update s.ops A o)
      (ho : A = B → o.request = (s.ops B).request ∧ o.start ≠ .notStarted ∧
        ((s.ops B).start = .stoppedEarly → o.start = .stoppedEarly)) :
      (s'.ops B).request = (s.ops B).request ∧ (s'.ops B).start ≠ .notStarted ∧
        ((s.ops B).start = .stoppedEarly → (s'.ops B).start = .stoppedEarly) := by
    by_cases hAB : A = B
    · rw [hops, hAB, Function.update_self]; exact ho hAB
    · exact hsame (by rw [hops, Function.update_of_ne (Ne.symm hAB)])
  cases he with
  | op ho => exact hupdate rfl fun hAB => by subst hAB; exact ho.of_started hB
  | issue => exact hupdate rfl fun hAB => by subst hAB; exact ⟨rfl, hB, id⟩
  | call => exact hupdate rfl fun hAB => by subst hAB; exact ⟨rfl, hB, id⟩
  | @unlock k p u ptr A o hu hpc hr =>
    refine hupdate rfl fun hAB => ?_
    subst hAB
    have hheld := hi.held u hu
    generalize u.caller = c at hr hheld
    cases hr with
    | submit hs => exact ⟨rfl, nofun, fun h => absurd (hs.symm.trans h) nofun⟩
    | cancel =>
      refine ⟨rfl, nofun, fun h => ?_⟩
      rcases job_start hheld with hs | ⟨q, hs⟩ <;> rw [hs] at h <;> cases h
    | callback => exact ⟨rfl, hB, id⟩
  | lock | move | submit | untagged | nullSqe | stopReturns | stopCall | stopStore | invoke | run | runStore | skip
  | dangling | free | advance | complete => exact hsame rfl

section
variable (hB : (s.ops B).start = .notStarted)
include hB

/-- A change of one operation that leaves it not started if it is `B`. -/
theorem notStarted_update {o : Operation} (ho : A = B → o.start = .notStarted) :
    (Function.update s.ops A o B).start = .notStarted := by
  by_cases hAB : A = B
  · subst hAB; rw [Function.update_self]; exact ho rfl
  · rw [Function.update_of_ne (Ne.symm hAB)]; exact hB

theorem runStep_notStarted (h : runStep s = some s') : (s'.ops B).start = .notStarted := by
  unfold runStep at h
  cases hpc : s.run with
  | storeRunning | loadRunning | advance => simp only [hpc] at h; cases h; exact hB
  | wait => simp only [hpc] at h; split at h <;> cases h; exact hB
  | next =>
    simp only [hpc] at h
    split at h
    · cases h; exact hB
    · split at h <;> cases h <;> exact hB
  | calling =>
    simp only [hpc] at h
    split at h <;> cases h
    · exact notStarted_update hB fun hAB => hAB ▸ hB
    · exact hB
  | inCallback => simp only [hpc] at h; split at h <;> cases h; exact hB
  | notStarted | returned => simp only [hpc] at h; cases h

theorem submissionStep_notStarted (hi : Issuing s) {k p : Nat} (h : submissionStep s k p = some s') :
    (s'.ops B).start = .notStarted := by
  unfold submissionStep at h
  cases hu : s.submission with
  | none => simp only [hu] at h; cases h
  | some u =>
    simp only [hu] at h
    have hheld := hi.held u hu
    cases hpc : u.pc with
    | getSqe | submitFull | submit => simp only [hpc] at h; cases h; exact hB
    | getSqeAgain =>
      simp only [hpc, nullSqe] at h
      cases h
      split
      · exact hB
      · split <;> exact hB
    | prep =>
      simp only [hpc, prepare] at h
      split at h
      · split at h <;> cases h
        exact notStarted_update hB fun hAB => hAB ▸ hB
      · cases h; exact hB
      · cases h; exact hB
    | unlock =>
      simp only [hpc, resume] at h
      have hne {C} (hc : u.caller = .start C) : C ≠ B := by
        rintro rfl
        rcases job_start (hc ▸ hheld) with hs | ⟨ptr, hs⟩ <;> rw [hB] at hs <;> cases hs
      split at h
      · next C hc => split at h <;> cases h <;> exact notStarted_update hB fun hCB => absurd hCB (hne hc)
      · cases h; exact notStarted_update hB fun hAB => hAB ▸ hB
      · cases h; exact hB

/-- Only `start()` starts an operation. -/
theorem step_notStarted (hi : Issuing s) (h : step s a = some s') (ha : ∀ r possible, a ≠ .begin B r possible) :
    (s'.ops B).start = .notStarted := by
  unfold step at h
  split at h
  case isFalse => cases h
  case isTrue =>
    cases a with
    | begin A r possible =>
      simp only [begin] at h
      split at h <;> cases h
      exact notStarted_update hB fun hAB => absurd (hAB ▸ rfl) (ha r possible)
    | requestStop A =>
      simp only [requestStop] at h
      split at h
      · split at h <;> cases h <;> exact notStarted_update hB fun hAB => hAB ▸ hB
      · cases h
    | start A =>
      obtain ⟨o, ho, rfl⟩ := startStep_effect h
      refine notStarted_update hB fun hAB => ?_
      subst hAB
      simp only [startStep, hB] at h
      cases h
    | callback A =>
      obtain ⟨o, ho, rfl⟩ := callbackStep_effect h
      refine notStarted_update hB fun hAB => ?_
      subst hAB
      have hidle := (hi.op A).idle ((hi.op A).unregistered (by rw [hB]; rfl))
      simp only [callbackStep, hidle] at h
      cases h
    | lock c => simp only [lock] at h; split at h <;> cases h; exact hB
    | submission k p => exact submissionStep_notStarted hB hi h
    | stopCall j => dsimp only at h; split at h <;> cases h; exact hB
    | stop j => dsimp only [stopStep] at h; split at h <;> cases h; exact hB
    | run => dsimp only at h; split at h <;> cases h; exact hB
    | runStep => exact runStep_notStarted hB h
    | waitError eintr => dsimp only [waitError] at h; split at h <;> cases h; exact hB
    | complete i r => dsimp only [complete] at h; split at h <;> cases h; exact hB

end

/-! ## Entries without a callback -/

/-- The entries that are not those of operations cancel something or do nothing. -/
def Bare (s : RingImpl) : Prop :=
  ∀ e ∈ s.sq ++ s.kernel, (∀ A, e.origin ≠ .op A) → (∃ ptr, e.prep = .cancel ptr) ∨ e.prep = .nop

theorem Bare.effect (h : Bare s) (he : Effect s a s') : Bare s' := by
  cases he with
  | @submit k =>
    intro e he
    have he : e ∈ s.sq.drop k ++ (s.kernel ++ s.sq.take k) := he
    apply h e
    simp only [List.mem_append] at he ⊢
    rcases he with he | he | he
    · exact .inl (List.mem_of_mem_drop he)
    · exact .inr he
    · exact .inl (List.mem_of_mem_take he)
  | @issue k p u A prep hu hpc hj hp =>
    intro e he hno
    have he : e ∈ (s.sq ++ [⟨prep, some p, .op A⟩]) ++ s.kernel := he
    rw [List.append_assoc, List.mem_append, List.mem_append, List.mem_singleton] at he
    rcases he with he | rfl | he
    · exact h e (List.mem_append_left _ he) hno
    · exact absurd rfl (hno A)
    · exact h e (List.mem_append_right _ he) hno
  | @untagged k p u prep origin hu hpc hj =>
    intro e he hno
    have he : e ∈ (s.sq ++ [⟨prep, none, origin⟩]) ++ s.kernel := he
    rw [List.append_assoc, List.mem_append, List.mem_append, List.mem_singleton] at he
    rcases he with he | rfl | he
    · exact h e (List.mem_append_left _ he) hno
    · generalize u.job = job at hj
      cases hj with
      | cancel => exact .inl ⟨_, rfl⟩
      | nop => exact .inr rfl
    · exact h e (List.mem_append_right _ he) hno
  | @complete i r e he =>
    intro e he
    have he : e ∈ s.sq ++ s.kernel.eraseIdx i := he
    apply h e
    rw [List.mem_append] at he ⊢
    exact he.imp_right List.mem_of_mem_eraseIdx
  | op | lock | move | nullSqe | unlock | stopReturns | stopCall | stopStore | invoke | run | runStore | skip | call
  | dangling | free | advance => exact h

end AsyncRuntime.Ring
