import AsyncRuntime.Pool.Wakeup
import AsyncRuntime.Pool.Waking
/-!
# The pool comes to rest only when its work is done

A pool is at rest when no thread of it can take a step: what could happen next is a new
call from outside, the destructor, or a wake-up without a cause. No thread is then in
the middle of anything. The holder of the mutex could go on, so nobody holds it; then
nobody waits for it; a worker that is not blocked could go on, so all are blocked or have
left. While the destructor runs this would leave it waiting for a blocked worker, but it
has woken them all. Otherwise all workers sleep, and they do not sleep while there is
work.
-/

namespace AsyncRuntime.Pool
open Lib Deque
variable {n m : Nat} {τ : Type} {s s' : Impl n m τ}

/-- Actions that are not steps of the pool's threads: a call of `enqueue`, `wait` or the
destructor, and a spurious wake-up. -/
def Act.isCall (s : Impl n m τ) : Act n m τ → Bool
  | .enqueue _ _ | .wait _ | .spurious _ => true
  | .step .dtor => s.dtor.isIdle
  | _ => false

/-- No thread of the pool can take a step. -/
def AtRest [DecidableEq τ] (s : Impl n m τ) : Prop := ∀ a, a.isCall s = false → step s a = none

/-! ## External threads -/

/-- An external thread has no deque to push to. -/
def ExtPc.pushes : ExtPc n τ → Bool
  | .enqueue (.push _) => true
  | _ => false

theorem Effect.pushes {a : Act n m τ} (e : Effect s a s') (h : ∀ i, (s.ext i).pushes = false) (i : Fin m) :
    (s'.ext i).pushes = false := by
  have hset {j : Fin m} {pc : ExtPc n τ} (hpc : pc.pushes = false) : (Function.update s.ext j pc i).pushes = false := by
    by_cases hij : i = j
    · subst hij; rw [Function.update_self]; exact hpc
    · rw [Function.update_of_ne hij]; exact h i
  cases e with
  | call | publish | extLock | extUnlock | extNotify | extNotifyNone => exact hset rfl
  | extMove j pc _ _ hm =>
    apply hset
    generalize s.ext j = old at hm
    cases hm <;> rfl
  | _ => exact h i

theorem pushes_of_run [DecidableEq τ] {acts : List (Act n m τ)} (h : (machine n m τ).Run acts s) :
    ∀ i, (s.ext i).pushes = false :=
  inv_of_run (P := fun s => ∀ i, (s.ext i).pushes = false) (fun _ => rfl) (fun _ e hp => e.pushes hp) h

/-! ## Nobody is in the middle of anything -/

/-- `cv.notify_one` always returns. -/
theorem notifyOne_returns (s : Impl n m τ) : ∃ v s', notifyOne s v = some s' := by
  by_cases h : ∃ w, s.worker w = .blocked
  · obtain ⟨w, hw⟩ := h
    exact ⟨some w, _, if_pos (isBlocked_iff.2 hw)⟩
  · refine ⟨none, s, if_pos fun w => ?_⟩
    cases hb : (s.worker w).isBlocked with
    | false => rfl
    | true => exact absurd ⟨w, isBlocked_iff.1 hb⟩ h

/-- Without a holder of the mutex an `enqueue` goes on. -/
theorem enqStep_returns (hm : s.mutex = none) {θ : Thread n m} {e : EnqPc τ} (hn : e ≠ .notify)
    (hpush : ∀ p, e = .push p → ∃ w, localQueue s θ = some w) : ∃ r, enqStep s θ e = some r := by
  cases e with
  | push p =>
    obtain ⟨w, hw⟩ := hpush p rfl
    simp only [enqStep, hw]
    cases p <;> exact ⟨_, rfl⟩
  | lock => exact ⟨_, by simp only [enqStep, hm]; rfl⟩
  | notify => exact absurd rfl hn
  | pushGlobal | loadSleeping | unlock => exact ⟨_, rfl⟩

section
variable [DecidableEq τ] {acts : List (Act n m τ)}

/-- A thread in its critical section can go on. -/
theorem AtRest.not_holds (h : AtRest s) (θ : Thread n m) : s.holds θ = false := by
  by_contra hne
  have hholds : s.holds θ = true := by simpa using hne
  obtain ⟨v, t, hv⟩ := notifyOne_returns s
  cases θ with
  | worker w =>
    have hholds : (s.worker w).holds = true := hholds
    have hstep := h (.step (.worker w)) rfl
    have hnotify := h (.notify (.worker w) v) rfl
    cases hpc : s.worker w with
    | running x e =>
      rw [hpc] at hholds
      cases e with
      | none => cases hholds
      | some e =>
        cases e with
        | notify => simp [step, hpc, hv] at hnotify
        | unlock => simp [step, workerStep, hpc, enqStep] at hstep
        | _ => cases hholds
    | lockedStop | incSleeping | predStop | wait | decSleeping | unlock => simp [step, workerStep, hpc] at hstep
    | look site l =>
      simp only [step, workerStep, hpc] at hstep
      split at hstep <;> cases hstep
    | _ => rw [hpc] at hholds; cases hholds
  | ext i =>
    have hholds : (s.ext i).holds = true := hholds
    have hstep := h (.step (.ext i)) rfl
    have hnotify := h (.notify (.ext i) v) rfl
    cases hpc : s.ext i with
    | enqueue e =>
      rw [hpc] at hholds
      cases e with
      | notify => simp [step, hpc, hv] at hnotify
      | unlock => simp [step, extStep, hpc, enqStep] at hstep
      | _ => cases hholds
    | _ => rw [hpc] at hholds; cases hholds
  | dtor =>
    have hholds : s.dtor.holds = true := hholds
    cases hpc : s.dtor with
    | notifyAll | unlock =>
      have hstep := h (.step .dtor) (by simp [Act.isCall, hpc, DtorPc.isIdle])
      simp [step, dtorStep, hpc] at hstep
    | _ => rw [hpc] at hholds; cases hholds

theorem AtRest.mutex (h : AtRest s) (hrun : (machine n m τ).Run acts s) : s.mutex = none := by
  cases hm : s.mutex with
  | none => rfl
  | some θ => exact absurd ((h.not_holds θ).symm.trans (held_of_run hrun θ hm)) nofun

theorem AtRest.worker (h : AtRest s) (hm : s.mutex = none) (w : Fin n) :
    s.worker w = .blocked ∨ s.worker w = .exited := by
  have hstep := h (.step (.worker w)) rfl
  cases hpc : s.worker w with
  | blocked => exact .inl rfl
  | exited => exact .inr rfl
  | running x e =>
    exfalso
    cases e with
    | none =>
      have hfinish := h (.finish w) rfl
      simp [step, hpc] at hfinish
    | some e =>
      have hn : e ≠ .notify := by
        rintro rfl
        exact absurd (h.not_holds (.worker w)) (by simp [Impl.holds, hpc, WorkerPc.holds])
      obtain ⟨r, hr⟩ := enqStep_returns (θ := .worker w) hm hn fun p _ => ⟨w, by simp [localQueue, hpc]⟩
      simp [step, workerStep, hpc, hr] at hstep
  | popping p =>
    simp only [step, workerStep, hpc] at hstep
    split at hstep <;> cases hstep
  | popGlobal | spinPop =>
    simp only [step, workerStep, hpc] at hstep
    split at hstep <;> cases hstep
  | stealing spin start i q =>
    simp only [step, workerStep, hpc] at hstep
    split at hstep <;> cases hstep
  | look site l =>
    simp only [step, workerStep, hpc] at hstep
    split at hstep <;> cases hstep
  | boot | loadStop | lockedStop | incSleeping | predStop | wait | decSleeping | unlock =>
    simp [step, workerStep, hpc] at hstep
  | lock | notified => simp [step, workerStep, hpc, hm] at hstep

theorem AtRest.ext (h : AtRest s) (hrun : (machine n m τ).Run acts s) (i : Fin m) : s.ext i = .idle := by
  have hm := h.mutex hrun
  have hstep := h (.step (.ext i)) rfl
  cases hpc : s.ext i with
  | idle => rfl
  | enqueue e =>
    exfalso
    have hn : e ≠ .notify := by
      rintro rfl
      exact absurd (h.not_holds (.ext i)) (by simp [Impl.holds, hpc, ExtPc.holds])
    have hpush := pushes_of_run hrun i
    obtain ⟨r, hr⟩ := enqStep_returns (θ := .ext i) hm hn fun p hp => by
      rw [hpc, hp] at hpush
      cases hpush
    simp [step, extStep, hpc, hr] at hstep
  | wait l =>
    simp only [step, extStep, hpc] at hstep
    split at hstep <;> cases hstep

/-- The destructor is over, or has not begun: it does not wait for a worker that
sleeps. -/
theorem AtRest.dtor (h : AtRest s) (hrun : (machine n m τ).Run acts s) : s.dtor = .idle ∨ s.dtor = .finished := by
  have hm := h.mutex hrun
  have hstep (hd : s.dtor ≠ .idle) : dtorStep s = none := by
    refine h (.step .dtor) ?_
    simp only [Act.isCall]
    cases hpc : s.dtor <;> first | rfl | exact absurd hpc hd
  cases hpc : s.dtor with
  | idle => exact .inl rfl
  | finished => exact .inr rfl
  | join k =>
    exfalso
    have hstep := hstep (by simp [hpc])
    simp only [dtorStep, hpc] at hstep
    split at hstep
    · next hk =>
      split at hstep
      · cases hstep
      · next hx =>
        rcases h.worker hm ⟨k, hk⟩ with hw | hw
        · exact (shut_of_run hrun (by rw [hpc]; rfl)).not_blocked _ hw
        · exact hx (isExited_iff.2 hw)
    · cases hstep
  | destroy k =>
    exfalso
    have hstep := hstep (by simp [hpc])
    simp only [dtorStep, hpc] at hstep
    split at hstep <;> cases hstep
  | storeStop | lock | notifyAll | unlock | destroyGlobal =>
    exfalso
    have hstep := hstep (by simp [hpc])
    simp [dtorStep, hpc, hm] at hstep

/-! ## Nothing is left to do -/

/-- When every worker sleeps and nobody is in a call, the queues are empty. -/
theorem queues_empty (hrun : (machine n m τ).Run acts s) (hn : 0 < n) (hstop : s.stop = false)
    (hw : ∀ w, s.worker w = .blocked) (hi : ∀ i, s.ext i = .idle) :
    s.global = [] ∧ ∀ j, tasksAt s (.deque j) = [] := by
  have hsupply := conserved_of_run hrun hstop ⟨0, hn⟩ (hw _)
  have hspare (w : Fin n) : spare (s.deques w) (s.worker w) = -((tasksAt s (.deque w)).length : Int) := by
    simp only [spare, size, tasksAt, hw w, free, WorkerPc.awake, WorkerPc.published, Bool.false_and, ind_false]
    omega
  have hpub (i : Fin m) : ind (s.ext i).published = 0 := by rw [hi i]; rfl
  simp only [supply, hspare, hpub, Finset.sum_neg_distrib, Finset.sum_const_zero] at hsupply
  rw [← Nat.cast_sum] at hsupply
  have hsum : ∑ w, (tasksAt s (.deque w)).length = 0 := by omega
  refine ⟨List.length_eq_zero_iff.1 (by omega), fun j => List.length_eq_zero_iff.1 ?_⟩
  exact Finset.sum_eq_zero_iff.1 hsum j (Finset.mem_univ j)

/-- A pool that sleeps is at rest. -/
theorem atRest_of_asleep (hw : ∀ w, s.worker w = .blocked) (hi : ∀ i, s.ext i = .idle) (hd : s.dtor = .idle) :
    AtRest s := by
  intro a ha
  cases a with
  | enqueue | wait | spurious => cases ha
  | finish w => simp [step, hw w]
  | step θ =>
    cases θ with
    | worker w => simp [step, workerStep, hw w]
    | ext i => simp [step, extStep, hi i]
    | dtor => rw [Act.isCall, hd] at ha; cases ha
  | notify θ v =>
    cases θ with
    | worker w => simp [step, hw w]
    | ext i => simp [step, hi i]
    | dtor => rfl

/-- **The pool comes to rest only when its work is done.** When no thread of the pool can
take a step, no call from outside is in progress, and either every worker sleeps, the
queues are empty and every task that was ever enqueued has been run exactly once, or the
destructor has returned and every worker has left. -/
theorem rest_is_quiescence (hn : 0 < n) (hrun : (machine n m τ).Run acts s) (hrest : AtRest s) :
    s.mutex = none ∧ (∀ i, s.ext i = .idle) ∧
    (s.dtor = .idle ∧ (∀ w, s.worker w = .blocked) ∧ s.global = [] ∧ (∀ j, tasksAt s (.deque j) = []) ∧
        (∀ θ x, (θ, x) ∈ s.enqueued → s.ran.count x = 1) ∨
      s.dtor = .finished ∧ ∀ w, s.worker w = .exited) := by
  have hm := hrest.mutex hrun
  have hi := hrest.ext hrun
  refine ⟨hm, hi, ?_⟩
  rcases hrest.dtor hrun with hd | hd
  · refine .inl ⟨hd, ?_⟩
    have hst := stopping_of_run hrun
    have hstop : s.stop = false := by
      cases hs : s.stop with
      | false => rfl
      | true => exact absurd hd (hst.stop hs)
    have hw : ∀ w, s.worker w = .blocked := by
      intro w
      refine (hrest.worker hm w).resolve_right fun hx => ?_
      rw [hst.left w (by rw [hx]; rfl)] at hstop
      cases hstop
    obtain ⟨hg, hdeques⟩ := queues_empty hrun hn hstop hw hi
    refine ⟨hw, hg, hdeques, fun θ x hx => ?_⟩
    obtain ⟨p, hp, -⟩ := (accounts_of_run hrun).owned.place (List.mem_map.2 ⟨(θ, x), hx, rfl⟩)
    cases p with
    | freed => exact hp
    | spawning w => simp [tasksAt, hw w, WorkerPc.spawning] at hp
    | calling i => simp [tasksAt, hi i, ExtPc.calling] at hp
    | global => simp [tasksAt, hg] at hp
    | deque j => simp [hdeques j] at hp
    | held w => simp [tasksAt, hw w, held] at hp
  · refine .inr ⟨hd, fun w => ?_⟩
    exact (hrest.worker hm w).resolve_left ((shut_of_run hrun (by rw [hd]; rfl)).not_blocked w)

end

/-- An external thread enqueues one task; the only worker runs it, searches and spins in
vain, and blocks. -/
def oneTask (i w : Fin 1) : List (Act 1 1 Nat) := List.flatten
  [[.enqueue (.ext i) 7], List.replicate 2 (.step (.ext i)), List.replicate 8 (.step (.worker w)), [.finish w],
   List.replicate 51 (.step (.worker w))]

theorem rest_is_quiescence_one_task : ∃ s, (machine 1 1 Nat).Run (oneTask 0 0) s ∧ AtRest s ∧ (.ext 0, 7) ∈ s.enqueued ∧
    s.ran.count 7 = 1 := by
  have hexec : ((machine 1 1 Nat).exec (oneTask 0 0)).any (fun s => decide ((∀ w, (s.worker w).isBlocked = true) ∧
      (∀ i, (s.ext i).isIdle = true) ∧ s.dtor = .idle ∧ (.ext 0, 7) ∈ s.enqueued)) = true := by decide +kernel
  obtain ⟨s, hrun, hw, hi, hd, hmem⟩ := Machine.exists_run_of_exec hexec
  have hrest : AtRest s := atRest_of_asleep (fun w => isBlocked_iff.1 (hw w)) (fun i => isIdle_iff.1 (hi i)) hd
  obtain ⟨-, -, ⟨-, -, -, -, hran⟩ | ⟨hfin, -⟩⟩ := rest_is_quiescence (by decide) hrun hrest
  · exact ⟨s, hrun, hrest, hmem, hran _ _ hmem⟩
  · rw [hd] at hfin; cases hfin

end AsyncRuntime.Pool
