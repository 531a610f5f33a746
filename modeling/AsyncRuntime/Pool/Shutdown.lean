import AsyncRuntime.Pool.Runs
/-!
# Which tasks are run before the pool is gone

A worker leaves `worker_loop` at one of its two loads of `stop`, and at both it
is past its own deque, which it has found empty. So the tasks that tasks enqueue
are all run. The global queue is looked at before the load of `stop` and not
after it: a task that an external thread puts there in between stays there when
the last worker leaves.
-/

namespace AsyncRuntime.Pool
open Lib Deque
variable {n m : Nat} {τ : Type} {s s' : Impl n m τ} {a : Act n m τ}

/-! ## Leaving -/

/-- The worker has loaded `stop` and leaves. -/
def WorkerPc.left : WorkerPc n τ → Bool
  | .exited | .unlock true => true
  | _ => false

theorem left_of_searching {pc : WorkerPc n τ} (h : pc.searching = true) : pc.left = false := by
  cases pc <;> first | rfl | cases h

theorem left_of_atWork {pc : WorkerPc n τ} (h : pc.atWork = true) : pc.left = false := by
  cases pc <;> first | rfl | cases h

theorem Move.left {w : Fin n} {pc pc' : WorkerPc n τ} (h : Move s w pc pc') (hl : pc'.left = true) :
    s.stop = true ∧ (pc = .loadStop ∨ pc = .lockedStop) := by
  cases h with
  | exit hs => exact ⟨hs, .inl rfl⟩
  | leave hs => exact ⟨hs, .inr rfl⟩
  | search _ h₂ => rw [left_of_searching h₂] at hl; cases hl
  | _ => cases hl

theorem Move.not_left {w : Fin n} {pc pc' : WorkerPc n τ} (h : Move s w pc pc') : pc.left = false := by
  cases h with
  | search h₁ => exact left_of_searching h₁
  | _ => rfl

theorem Locks.left {pc pc' : WorkerPc n τ} (h : Locks pc pc') : pc'.left = false := by
  cases h <;> rfl

theorem Unlocks.left {pc pc' : WorkerPc n τ} (h : Unlocks pc pc') (hl : pc'.left = true) : pc.left = true := by
  cases h <;> first | rfl | cases hl

theorem Locks.not_left {pc pc' : WorkerPc n τ} (h : Locks pc pc') : pc.left = false := by
  cases h <;> rfl

theorem Unlocks.left_mono {pc pc' : WorkerPc n τ} (h : Unlocks pc pc') (hl : pc.left = true) : pc'.left = true := by
  cases h <;> first | rfl | cases hl

/-- A worker leaves at one of the two loads of `stop`. -/
theorem Effect.left (e : Effect s a s') {w : Fin n} (h : (s'.worker w).left = true) :
    (s.worker w).left = true ∨ a = .step (.worker w) ∧ s.stop = true ∧
      (s.worker w = .loadStop ∨ s.worker w = .lockedStop) ∧ s'.global = s.global := by
  cases e.worker w with
  | stays hw => exact .inl (hw ▸ h)
  | woken _ hw => rw [hw] at h; cases h
  | works _ _ hw => rw [left_of_atWork hw] at h; cases h
  | moves ha hm hs =>
    obtain ⟨hstop, hw⟩ := hm.left (hs.worker_self ▸ h)
    exact .inr ⟨ha, hstop, hw, hs.global⟩
  | locks _ _ hl hs => rw [hs.worker_self, hl.left] at h; cases h
  | unlocks _ hl hs => exact .inl (hl.left (hs.worker_self ▸ h))
  | incSleeping _ _ hs | decSleeping _ _ hs => rw [hs.worker_self] at h; cases h

/-- A worker that leaves goes on leaving. -/
theorem Effect.left_mono (e : Effect s a s') {w : Fin n} (h : (s.worker w).left = true) :
    (s'.worker w).left = true := by
  cases e.worker w with
  | stays hw => rw [hw]; exact h
  | works _ hw => rw [left_of_atWork hw] at h; cases h
  | moves _ hm => rw [hm.not_left] at h; cases h
  | locks _ _ hl => rw [hl.not_left] at h; cases h
  | unlocks _ hl hs => rw [hs.worker_self]; exact hl.left_mono h
  | woken hw | incSleeping _ hw | decSleeping _ hw => rw [hw] at h; cases h

/-- Only the destructor sets `stop`, and a worker leaves only then. -/
structure Stopping (s : Impl n m τ) : Prop where
  stop : s.stop = true → s.dtor ≠ .idle
  left : ∀ w, (s.worker w).left = true → s.stop = true

theorem stopping_init : Stopping (init n m τ) := ⟨nofun, nofun⟩

theorem Effect.stop_mono (e : Effect s a s') (h : s.stop = true) : s'.stop = true := by
  cases e <;> first | exact h | rfl

theorem Stopping.effect (h : Stopping s) (e : Effect s a s') : Stopping s' := by
  constructor
  · intro hs
    by_cases hs' : s.stop = true
    · exact e.dtor_ne_idle (h.stop hs')
    · cases e with
      | storeStop => nofun
      | _ => exact absurd hs hs'
  · intro w hw
    rcases e.left hw with hw | ⟨-, hs, -⟩
    · exact e.stop_mono (h.left w hw)
    · exact e.stop_mono hs

/-! ## Where the tasks of the global queue come from -/

/-- The global queue holds what external threads have enqueued. -/
structure Origin (s : Impl n m τ) : Prop where
  calling : ∀ i x, (s.ext i).calling = some x → (.ext i, x) ∈ s.enqueued
  global : ∀ x ∈ s.global, ∃ i, (.ext i, x) ∈ s.enqueued

theorem origin_init : Origin (init n m τ) := ⟨nofun, nofun⟩

theorem Effect.enqueued_mono (e : Effect s a s') {r : Thread n m × τ} (h : r ∈ s.enqueued) : r ∈ s'.enqueued := by
  cases e with
  | spawn | call => exact List.mem_append_left _ h
  | _ => exact h

/-- A step that puts nothing into the global queue and begins no external call. -/
theorem Origin.keep (h : Origin s) (e : Effect s a s')
    (hc : ∀ i x, (s'.ext i).calling = some x → (s.ext i).calling = some x) (hg : ∀ x ∈ s'.global, x ∈ s.global) :
    Origin s' :=
  ⟨fun i x hx => e.enqueued_mono (h.calling i x (hc i x hx)),
   fun x hx => (h.global x (hg x hx)).imp fun _ => e.enqueued_mono⟩

theorem Origin.effect (h : Origin s) (e : Effect s a s') : Origin s' := by
  have keep := h.keep e
  have moved : ∀ {i : Fin m} {pc : ExtPc n τ}, pc.calling = none ∨ pc.calling = (s.ext i).calling →
      ∀ j x, (Function.update s.ext i pc j).calling = some x → (s.ext j).calling = some x := by
    intro i pc hpc j x hx
    by_cases e : j = i
    · subst e
      rw [Function.update_self] at hx
      rcases hpc with hpc | hpc
      · rw [hpc] at hx; cases hx
      · rw [← hpc]; exact hx
    · rw [Function.update_of_ne e] at hx; exact hx
  cases e with
  | take w x g _ hg => exact keep (fun _ _ hx => hx) fun y hy => by rw [hg]; exact List.mem_cons_of_mem _ hy
  | call i x hi =>
    refine ⟨fun j y hy => ?_, fun y hy => (h.global y hy).imp fun _ => List.mem_append_left _⟩
    by_cases e : j = i
    · subst e
      rw [show ({ s.setExt j (.enqueue (.pushGlobal x)) with enqueued := _ } : Impl n m τ).ext j =
        .enqueue (.pushGlobal x) from Function.update_self ..] at hy
      cases hy
      exact List.mem_append_right _ (List.mem_singleton.2 rfl)
    · exact List.mem_append_left _ (h.calling j y (by simpa [Impl.setExt, e] using hy))
  | publish i x hi =>
    refine ⟨fun j y hy => h.calling j y (moved (.inl rfl) j y hy), fun y hy => ?_⟩
    rcases List.mem_append.1 hy with hy | hy
    · exact h.global y hy
    · rw [List.mem_singleton.1 hy]
      exact ⟨i, h.calling i x (by rw [hi]; rfl)⟩
  | extMove i pc _ _ hm => exact keep (moved (.inr hm.calling_eq)) fun _ hx => hx
  | extLock | extUnlock | extNotifyNone => exact keep (moved (.inl rfl)) fun _ hx => hx
  | extNotify i v => exact keep (moved (.inl rfl)) fun _ hx => hx
  | _ => exact keep (fun _ _ hx => hx) fun _ hx => hx

/-! ## Tasks of tasks -/

theorem owner_of_drained {pc : WorkerPc n τ} (h : pc.drained = true) : pc.owner = .idle := by
  cases pc <;> first | rfl | cases h

/-- A worker past its deque has none left in it. -/
theorem Safe.deque_empty (h : Safe s) {w : Fin n} (hw : (s.worker w).drained = true) : tasksAt s (.deque w) = [] := by
  simp only [tasksAt, owner_of_drained hw]
  exact window_nil _ (h.drained w hw).ge

theorem drained_of_left {pc : WorkerPc n τ} (h : pc.left = true) : pc.drained = true := by
  cases pc <;> first | rfl | cases h

variable [DecidableEq τ]

theorem origin_of_run {acts : List (Act n m τ)} (h : (machine n m τ).Run acts s) : Origin s :=
  inv_of_run origin_init (fun _ e ho => ho.effect e) h

theorem stopping_of_run {acts : List (Act n m τ)} (h : (machine n m τ).Run acts s) : Stopping s :=
  inv_of_run stopping_init (fun _ e hs => hs.effect e) h

omit [DecidableEq τ] in
/-- A task is enqueued by one thread. -/
theorem enqueuer_unique (h : (allocated s).Nodup) {θ θ' : Thread n m} {x : τ} (hx : (θ, x) ∈ s.enqueued)
    (hx' : (θ', x) ∈ s.enqueued) : θ = θ' := by
  have := List.inj_on_of_nodup_map h hx hx' rfl
  exact congrArg Prod.fst this

/-- With every worker gone, a task is in the global queue or run. -/
theorem global_or_ran (hs : Safe s) (ho : Owned s) (hor : Origin s) (hx : ∀ w, s.worker w = .exited) {θ : Thread n m}
    {x : τ} (h : (θ, x) ∈ s.enqueued) (hθ : (∃ w, θ = .worker w) ∨ ∀ i, s.ext i = .idle) :
    x ∈ s.global ∨ s.ran.count x = 1 := by
  obtain ⟨p, hp, -⟩ := ho.place (List.mem_map.2 ⟨(θ, x), h, rfl⟩)
  have hmem : x ∈ tasksAt s p := by
    rw [← List.count_pos_iff, hp]; exact Nat.one_pos
  cases p with
  | spawning w => simp [tasksAt, hx w, WorkerPc.spawning] at hmem
  | calling i =>
    have hc : (s.ext i).calling = some x := by simpa [tasksAt] using hmem
    rcases hθ with ⟨w, rfl⟩ | hi
    · cases enqueuer_unique ho.fresh h (hor.calling i x hc)
    · rw [hi i] at hc; cases hc
  | global => exact .inl hmem
  | deque j =>
    rw [hs.deque_empty (by rw [hx j]; rfl)] at hmem; cases hmem
  | held w => simp [tasksAt, hx w, held] at hmem
  | freed => exact .inr hp

/-- A worker leaves `worker_loop` only with its own deque empty, and since it does
not come back, the deque stays empty. When every worker has left, every deque is empty and every task that a
running task enqueued has been run exactly once. -/
theorem spawned_tasks_drained {acts : List (Act n m τ)} (h : (machine n m τ).Run acts s) :
    (∀ w, (s.worker w).left = true → tasksAt s (.deque w) = []) ∧
    (∀ a s', step s a = some s' → ∀ w, (s.worker w).left = true → (s'.worker w).left = true) ∧
    ((∀ w, s.worker w = .exited) → (∀ j, tasksAt s (.deque j) = []) ∧
      ∀ w x, (.worker w, x) ∈ s.enqueued → s.ran.count x = 1 ∧ (s.started.map (·.2)).count x = 1) := by
  have hs := safe_of_run h
  have ha := accounts_of_run h
  have hor := origin_of_run h
  refine ⟨fun w hw => hs.deque_empty (drained_of_left hw), fun a s' hstep w hw => ?_,
    fun hx => ⟨fun j => ?_, fun w x hin => ?_⟩⟩
  · exact (step_effect hstep hs.not_pushGlobal).left_mono hw
  · exact hs.deque_empty (by rw [hx j]; rfl)
  · rcases global_or_ran hs ha.owned hor hx hin (.inl ⟨w, rfl⟩) with hg | hr
    · obtain ⟨i, hi⟩ := hor.global x hg
      cases enqueuer_unique ha.owned.fresh hin hi
    · obtain ⟨v, hv⟩ := ha.log.ran x (by rw [← List.count_pos_iff, hr]; exact Nat.one_pos)
      exact ⟨hr, List.count_eq_one_of_mem ha.log.once (List.mem_map.2 ⟨_, hv, rfl⟩)⟩

/-- `stop` is set while worker `w` runs a task. The task spawns another one, worker
`v` steals and runs it, and both workers leave. -/
def stolenDuringDrain {n m : Nat} (i : Fin m) (w v : Fin n) : List (Act n m Nat) := List.flatten
  [[.enqueue (.ext i) 7], List.replicate 2 (.step (.ext i)), List.replicate 8 (.step (.worker w)),
   List.replicate 2 (.step .dtor), [.enqueue (.worker w) 8], List.replicate 7 (.step (.worker w)),
   List.replicate 15 (.step (.worker v)), [.finish w], List.replicate 14 (.step (.worker w)), [.finish v],
   List.replicate 14 (.step (.worker v))]

theorem spawned_tasks_drained_stolen : ∃ s, (machine 2 1 Nat).Run (stolenDuringDrain 0 0 1) s ∧
    (1, 8) ∈ s.started ∧ (∀ j, tasksAt s (.deque j) = []) ∧ s.ran.count 8 = 1 := by
  have hexec : ((machine 2 1 Nat).exec (stolenDuringDrain 0 0 1)).any (fun s => decide ((.worker 0, 8) ∈ s.enqueued ∧
      (1, 8) ∈ s.started ∧ ∀ w, (s.worker w).isExited = true)) = true := by decide +kernel
  obtain ⟨s, hrun, henq, hstarted, hout⟩ := Machine.exists_run_of_exec hexec
  obtain ⟨hempty, hran⟩ := (spawned_tasks_drained hrun).2.2 fun w => isExited_iff.1 (hout w)
  exact ⟨s, hrun, hstarted, hempty, (hran 0 8 henq).1⟩

/-! ## Tasks from outside -/

/-- The step does not take the last worker out of its loop on `stop` while the
global queue holds a task. -/
def DrainedExit (s : Impl n m τ) (a : Act n m τ) : Prop :=
  ∀ w, a = .step (.worker w) → s.stop = true → s.worker w = .loadStop ∨ s.worker w = .lockedStop →
    (∀ v, v ≠ w → (s.worker v).left = true) → s.global = []

/-- Every worker has left. -/
def Deserted (s : Impl n m τ) : Prop := ∀ w, (s.worker w).left = true

omit [DecidableEq τ] in
/-- In a deserted pool the global queue stays as it is. -/
theorem Effect.global_of_deserted (e : Effect s a s') (h : Deserted s) (hi : ∀ i, s.ext i = .idle) :
    s'.global = s.global := by
  cases e with
  | take w x g hpg =>
    have hw := h w
    rw [left_of_searching (searching_of_popsGlobal hpg)] at hw; cases hw
  | publish i x hx => rw [hi i] at hx; cases hx
  | _ => rfl

omit [DecidableEq τ] in
theorem Stopping.ext_idle (h : Stopping s) (ht : Teardown s) (hn : 0 < n) (hd : Deserted s) (i : Fin m) :
    s.ext i = .idle := ht.ext_idle (h.stop (h.left ⟨0, hn⟩ (hd _))) i

omit [DecidableEq τ] in
/-- A pool becomes deserted by the exit of its last worker. -/
theorem Effect.last_exit (e : Effect s a s') (hs : ¬Deserted s) (hs' : Deserted s') :
    ∃ w, a = .step (.worker w) ∧ s.stop = true ∧ (s.worker w = .loadStop ∨ s.worker w = .lockedStop) ∧
      (∀ v, v ≠ w → (s.worker v).left = true) ∧ s'.global = s.global := by
  obtain ⟨w, hw⟩ := not_forall.1 hs
  obtain ⟨rfl, hstop, hpc, hg⟩ := (e.left (hs' w)).resolve_left hw
  refine ⟨w, rfl, hstop, hpc, fun v hv => ?_, hg⟩
  rcases e.left (hs' v) with hv' | ⟨ha, -⟩
  · exact hv'
  · cases ha; exact absurd rfl hv

/-- Along runs whose exits are all drained, a deserted pool has an empty global
queue. -/
theorem global_empty_of_drained (hn : 0 < n) {acts : List (Act n m τ)}
    (h : (machine n m τ).RunIn DrainedExit acts s) : Deserted s → s.global = [] := by
  induction h with
  | nil => intro _; rfl
  | @snoc acts s s' a hr hp hstep ih =>
    intro hs'
    have hrun := hr.run
    have e := step_effect hstep (safe_of_run hrun).not_pushGlobal
    by_cases hs : Deserted s
    · rw [e.global_of_deserted hs ((stopping_of_run hrun).ext_idle (teardown_of_run hrun) hn hs)]
      exact ih hs
    · obtain ⟨w, ha, hstop, hpc, hv, hg⟩ := e.last_exit hs hs'
      rw [hg]; exact hp w ha hstop hpc hv

/-- At the loads of `stop`, a worker that finds it set leaves. -/
theorem exit_of_stop {w : Fin n} (h : step s (.step (.worker w)) = some s') (hstop : s.stop = true)
    (hpc : s.worker w = .loadStop ∨ s.worker w = .lockedStop) :
    (s'.worker w).left = true ∧ s'.global = s.global := by
  unfold step workerStep at h
  rcases hpc with hpc | hpc <;> simp only [hpc, hstop, if_true, Option.some.injEq] at h <;> subst h
  · exact ⟨by simp [Impl.setWorker, WorkerPc.left], rfl⟩
  · exact ⟨by simp [Impl.setWorker, WorkerPc.left], rfl⟩

/-- A run that is not drained has deserted a task. -/
theorem drained_or_deserted (hn : 0 < n) {acts : List (Act n m τ)} (h : (machine n m τ).Run acts s) :
    (machine n m τ).RunIn DrainedExit acts s ∨ Deserted s ∧ s.global ≠ [] := by
  induction h with
  | nil => exact .inl .nil
  | @snoc acts s s' a hr _ hstep ih =>
    have e := step_effect hstep (safe_of_run hr).not_pushGlobal
    rcases ih with hin | ⟨hs, hg⟩
    · by_cases hp : DrainedExit s a
      · exact .inl (.snoc hin hp hstep)
      · right
        simp only [DrainedExit, not_forall] at hp
        obtain ⟨w, rfl, hstop, hpc, hv, hg⟩ := hp
        obtain ⟨hw, hg'⟩ := exit_of_stop hstep hstop hpc
        refine ⟨fun v => ?_, by rw [hg']; exact hg⟩
        by_cases e' : v = w
        · rw [e']; exact hw
        · exact e.left_mono (hv v e')
    · right
      rw [e.global_of_deserted hs ((stopping_of_run hr).ext_idle (teardown_of_run hr) hn hs)]
      exact ⟨fun w => e.left_mono (hs w), hg⟩

/-- When every worker has left, all tasks from outside have been run and the
global queue is empty exactly if the last worker to leave on `stop` found the
global queue empty at that moment. -/
theorem external_tasks_run_iff (hn : 0 < n) {acts : List (Act n m τ)} (h : (machine n m τ).Run acts s)
    (hx : ∀ w, s.worker w = .exited) :
    ((∀ i x, (.ext i, x) ∈ s.enqueued → x ∈ s.ran) ∧ s.global = []) ↔
      (machine n m τ).RunIn DrainedExit acts s := by
  have ha := accounts_of_run h
  have hdes : Deserted s := fun w => by rw [hx w]; rfl
  constructor
  · rintro ⟨-, hg⟩
    exact (drained_or_deserted hn h).resolve_right fun hd => hd.2 hg
  · intro hin
    have hg := global_empty_of_drained hn hin hdes
    have hidle := (stopping_of_run h).ext_idle ha.teardown hn hdes
    refine ⟨fun i x hi => ?_, hg⟩
    rcases global_or_ran (safe_of_run h) ha.owned (origin_of_run h) hx hi (.inr hidle) with hx | hx
    · rw [hg] at hx; cases hx
    · rw [← List.count_pos_iff, hx]; exact Nat.one_pos

/-- The task is run, and the worker leaves when it has found nothing more. -/
def runThenDestroyed {n m : Nat} (i : Fin m) (w : Fin n) : List (Act n m Nat) := List.flatten
  [[.enqueue (.ext i) 7], List.replicate 2 (.step (.ext i)), List.replicate 8 (.step (.worker w)), [.finish w],
   List.replicate 7 (.step (.worker w)), List.replicate 5 (.step .dtor), [.step (.worker w)]]

theorem external_tasks_run_iff_drained :
    ∃ s, (machine 1 1 Nat).RunIn DrainedExit (runThenDestroyed 0 0) s ∧ s.ran = [7] := by
  have hexec : ((machine 1 1 Nat).exec (runThenDestroyed 0 0)).any (fun s => decide (
      (∀ w, (s.worker w).isExited = true) ∧
      s.enqueued = [(.ext 0, 7)] ∧ s.ran = [7] ∧ s.global = [])) = true := by decide +kernel
  obtain ⟨s, hrun, hw, henq, hran, hg⟩ := Machine.exists_run_of_exec hexec
  refine ⟨s, (external_tasks_run_iff Nat.one_pos hrun fun w => isExited_iff.1 (hw w)).1 ⟨?_, hg⟩, hran⟩
  intro i x hx
  rw [henq] at hx
  rw [hran]
  cases List.mem_singleton.1 hx
  exact List.mem_singleton.2 rfl

/-- The only worker looks at the global queue and finds nothing. Then an external
thread enqueues a task, and its call returns. -/
def enqueueReturned {n m : Nat} (i : Fin m) (w : Fin n) : List (Act n m Nat) := List.flatten
  [List.replicate 8 (.step (.worker w)), [.enqueue (.ext i) 7], List.replicate 2 (.step (.ext i))]

/-- The pool is destroyed: the worker's next step is its load of `stop`. -/
def destroyedAfter {n m : Nat} (w : Fin n) : List (Act n m Nat) := List.flatten
  [List.replicate 5 (.step .dtor), [.step (.worker w)], List.replicate 5 (.step .dtor)]

/-- The task was enqueued before the destructor began, every worker has left, and
the task has not been run: the destructor of the global queue deletes it. -/
theorem late_enqueue_dropped :
    (∃ s, (machine 1 1 Nat).Run (enqueueReturned 0 0) s ∧
      s.enqueued = [(.ext 0, 7)] ∧ s.ext 0 = .idle ∧ s.dtor = .idle) ∧
    ∃ s, (machine 1 1 Nat).Run (enqueueReturned 0 0 ++ destroyedAfter 0) s ∧
      (∀ w, s.worker w = .exited) ∧ s.dtor = .finished ∧ s.enqueued = [(.ext 0, 7)] ∧ s.ran = [] ∧
      s.deleted = [(.global, 7)] := by
  constructor
  · have hexec : ((machine 1 1 Nat).exec (enqueueReturned 0 0)).any (fun s => decide (s.enqueued = [(.ext 0, 7)] ∧
        (s.ext 0).isIdle = true ∧ s.dtor = .idle)) = true := by decide +kernel
    obtain ⟨s, hrun, henq, hidle, hd⟩ := Machine.exists_run_of_exec hexec
    exact ⟨s, hrun, henq, isIdle_iff.1 hidle, hd⟩
  · have hexec : ((machine 1 1 Nat).exec (enqueueReturned 0 0 ++ destroyedAfter 0)).any
        (fun s => decide ((∀ w, (s.worker w).isExited = true) ∧ s.dtor = .finished ∧ s.enqueued = [(.ext 0, 7)] ∧
          s.ran = [] ∧ s.deleted = [(.global, 7)])) = true := by decide +kernel
    obtain ⟨s, hrun, hw, hobs⟩ := Machine.exists_run_of_exec hexec
    exact ⟨s, hrun, fun w => isExited_iff.1 (hw w), hobs⟩

end AsyncRuntime.Pool
