import AsyncRuntime.Pool.Runs
import AsyncRuntime.Runtime.Model
/-!
# Tasks and the destruction of the `io_context`

`~runtime` stops the `io_context` and destroys it, and only then destroys the pool,
whose workers go on taking tasks until they have left. When every task had been
run before the destruction of `io_ctx_` began, no task makes a step after it. A
task that is queued or running at that moment does, and it may use a context that
is gone.
-/

namespace AsyncRuntime.Runtime
open Lib
variable {n m : Nat} {τ : Type}

/-- The task that makes this step: it is running, or its worker begins it. -/
def stepping (r : State n m τ) (a : Act n m τ) (r' : State n m τ) : Option τ :=
  match a with
  | .pool (.step (.worker w)) => (r.pool.worker w).task.or (r'.pool.worker w).task
  | .pool (.enqueue (.worker w) _) | .pool (.notify (.worker w) _) | .pool (.finish w) => (r.pool.worker w).task
  | .task w _ => (r.pool.worker w).task
  | _ => none

/-- Every task enqueued so far has been run. -/
def Done (p : Pool.Impl n m τ) : Prop := ∀ x ∈ Pool.allocated p, x ∈ p.ran

/-- The destruction of `io_ctx_` begins when every task has been run. -/
def Waits (r : State n m τ) : Act n m τ → Prop
  | .dtor _ _ => r.dtor = .destroyIo → Done r.pool
  | _ => True

variable [DecidableEq τ]

instance (p : Pool.Impl n m τ) : Decidable (Done p) := by unfold Done; infer_instance

instance (r : State n m τ) (a : Act n m τ) : Decidable (Waits r a) := by
  cases a <;> unfold Waits <;> infer_instance

/-! ## What a step does to the pool -/

/-- The pool makes a step, which is no new call from outside once `~runtime` has
begun, or it stays as it is. -/
inductive Effect (r : State n m τ) (a : Act n m τ) (r' : State n m τ) : Prop
  | pool (b : Pool.Act n m τ) : Pool.step r.pool b = some r'.pool → r'.dtor = r.dtor →
      (∀ i x, b = .enqueue (.ext i) x → r.dtor = .idle) → Effect r a r'
  | stay : r'.pool = r.pool →
      (r'.dtor.ioGone = true → r.dtor.ioGone = true ∨ r.dtor = .destroyIo ∧ ∃ k p, a = .dtor k p) →
      Effect r a r'

theorem dtorStep_effect {r r' : State n m τ} {k p : Nat} (h : dtorStep r k p = some r') : Effect r (.dtor k p) r' := by
  simp only [dtorStep] at h
  split at h
  · cases h
  · next j hj =>
    split at h
    · cases h
      exact .stay rfl nofun
    · obtain ⟨io, -, rfl⟩ := Option.map_eq_some_iff.1 h
      exact .stay rfl .inl
  · next hd =>
    cases h
    exact .stay rfl fun _ => .inr ⟨hd, k, p, rfl⟩
  · next hd =>
    cases h
    exact .stay rfl fun _ => .inl (by rw [hd]; rfl)
  · next hd =>
    split at h
    · cases h
      exact .stay rfl fun _ => .inl (by rw [hd]; rfl)
    · obtain ⟨p, hp, rfl⟩ := Option.map_eq_some_iff.1 h
      exact .pool _ hp rfl nofun
  · cases h

theorem step_effect {r r' : State n m τ} {a : Act n m τ} (h : step r a = some r') : Effect r a r' := by
  unfold step at h
  split at h
  · cases h
  · cases a with
    | pool b =>
      dsimp only at h
      split at h
      · next hb =>
        obtain ⟨p, hp, rfl⟩ := Option.map_eq_some_iff.1 h
        refine .pool b hp rfl fun i x hbx => ?_
        subst hbx
        exact of_decide_eq_true hb
      · cases h
    | outside b =>
      dsimp only at h
      split at h
      · obtain ⟨io, -, rfl⟩ := Option.map_eq_some_iff.1 h
        exact .stay rfl .inl
      · cases h
    | task w b =>
      -- whether the use is allowed or not, no task is begun or moved
      dsimp only at h
      split at h
      · split at h
        · split at h
          · cases h
            exact .stay rfl .inl
          · obtain ⟨io, -, rfl⟩ := Option.map_eq_some_iff.1 h
            exact .stay rfl .inl
        · cases h
      · cases h
    | complete i res =>
      dsimp only at h
      split at h
      · cases h
      · obtain ⟨io, -, rfl⟩ := Option.map_eq_some_iff.1 h
        exact .stay rfl .inl
    | destroy j =>
      dsimp only at h
      split at h
      · obtain ⟨io, -, rfl⟩ := Option.map_eq_some_iff.1 h
        exact .stay rfl nofun
      · cases h
    | dtor k p => exact dtorStep_effect h

/-- The pool of a runtime makes runs of its own. -/
theorem pool_of_run {depth : Nat} {P : State n m τ → Act n m τ → Prop} {acts : List (Act n m τ)} {r : State n m τ}
    (h : (machine n m τ depth).RunIn P acts r) : ∃ bs, (Pool.machine n m τ).Run bs r.pool := by
  refine h.project (M := machine n m τ depth) (N := Pool.machine n m τ) (fun r => r.pool) rfl ?_
  intro _ r a r' _ _ hs
  cases step_effect hs with
  | pool b hb => exact .inr ⟨b, hb⟩
  | stay hp => exact .inl hp

/-! ## Nothing left to run -/

/-- With every task run, no worker has one. -/
theorem Done.not_held {p : Pool.Impl n m τ} (h : Done p) (ho : Pool.Owned p) {l : Pool.Place n m} (hl : l ≠ .freed)
    {x : τ} : x ∉ Pool.tasksAt p l := by
  intro hx
  exact hl (ho.place_unique (p := .freed) (h x (ho.mem_allocated hx)) hx)

theorem Done.no_task {p : Pool.Impl n m τ} (h : Done p) (ho : Pool.Owned p) (w : Fin n) : (p.worker w).task = none := by
  by_contra hne
  obtain ⟨x, hx⟩ := Option.ne_none_iff_exists'.1 hne
  refine h.not_held ho (l := .held w) nofun (x := x) ?_
  simp [Pool.tasksAt, Pool.held_of_task hx]

/-- With every task run and no call from outside, nothing is enqueued. -/
theorem Done.effect {p p' : Pool.Impl n m τ} {b : Pool.Act n m τ} (h : Done p) (ho : Pool.Owned p)
    (e : Pool.Effect p b p') (hext : ∀ i x, b ≠ .enqueue (.ext i) x) : Done p' := by
  have hb : ∀ θ x, b ≠ .enqueue θ x := by
    rintro θ x rfl
    cases e with
    | spawn w y x hw =>
      have := h.no_task ho w
      rw [hw] at this
      cases this
    | call i x => exact hext i x rfl
    | extMove i pc _ ha => rcases ha with ha | ha <;> cases ha
  intro x hx
  rw [Pool.allocated, e.enqueued_eq hb] at hx
  exact e.ran_mono (h x hx)

variable {depth : Nat} {acts : List (Act n m τ)} {r r' : State n m τ} {a : Act n m τ}

/-- After the destruction of `io_ctx_` has begun no step brings a new task. -/
theorem Done.runtime_step (hdone : Done r.pool) (h : (machine n m τ depth).Run acts r) (hgone : r.dtor.ioGone = true)
    (hs : step r a = some r') : Done r'.pool := by
  cases step_effect hs with
  | pool b hb _ hext =>
    obtain ⟨bs, hbs⟩ := pool_of_run h
    refine hdone.effect (Pool.accounts_of_run hbs).owned (Pool.step_effect hb (Pool.safe_of_run hbs).not_pushGlobal) ?_
    intro i x hbx
    rw [hext i x hbx] at hgone
    cases hgone
  | stay hp => rwa [hp]

theorem done_of_run (h : (machine n m τ depth).RunIn Waits acts r) (hgone : r.dtor.ioGone = true) : Done r.pool := by
  induction h with
  | nil => cases hgone
  | @snoc as r r' a hr hw hs ih =>
    by_cases hg : r.dtor.ioGone = true
    · exact (ih hg).runtime_step hr.run hg hs
    · cases step_effect hs with
      | pool b hb hd =>
        rw [hd] at hgone
        exact absurd hgone hg
      | stay hp hd =>
        rcases hd hgone with hg' | ⟨hio, k, p, rfl⟩
        · exact absurd hg' hg
        · rw [hp]
          exact hw hio

theorem no_task_of_run (h : (machine n m τ depth).Run acts r) (hdone : Done r.pool) (w : Fin n) :
    (r.pool.worker w).task = none := by
  obtain ⟨bs, hbs⟩ := pool_of_run h
  exact hdone.no_task (Pool.accounts_of_run hbs).owned w

/-- **No task runs after `io_ctx_` is gone, if none was left when its destruction
began.** -/
theorem no_task_after_io (h : (machine n m τ depth).RunIn Waits acts r) (hgone : r.dtor.ioGone = true)
    (hs : step r a = some r') : stepping r a r' = none := by
  have hdone := done_of_run h hgone
  have hnone := no_task_of_run h.run hdone
  have hnone' := no_task_of_run (h.run.snoc hs) (hdone.runtime_step h.run hgone hs)
  unfold stepping
  split
  · rw [hnone, hnone']; rfl
  · exact hnone _
  · exact hnone _
  · exact hnone _
  · exact hnone _
  · rfl

/-- A runtime with one worker. Task 7 is enqueued from outside and the call
returns. -/
def oneTask (i : Fin 1) : List (Act 1 1 Nat) :=
  [.pool (.enqueue (.ext i) 7), .pool (.step (.ext i)), .pool (.step (.ext i))]

/-- `~runtime` up to the beginning of `~io_context`: the call of `stop()` and the
destruction of the first member. -/
def untilIo : List (Act 1 1 Nat) := .destroy 0 :: List.replicate 8 (.dtor 1 0)

theorem no_task_after_io_finished : ∃ acts r r', (machine 1 1 Nat 8).RunIn Waits acts r ∧ r.dtor = .queueExit ∧
    r.pool.ran = [7] ∧ step r (.pool (.step (.worker 0))) = some r' ∧
    stepping r (.pool (.step (.worker 0))) r' = none := by
  have hexec : ((machine 1 1 Nat 8).execIn Waits (init 1 1 Nat 8)
      (oneTask 0 ++ (List.replicate 8 (.pool (.step (.worker 0))) ++ .pool (.finish 0) :: untilIo))).any
      (fun r => decide (r.dtor = .queueExit ∧ r.pool.ran = [7] ∧
        (step r (.pool (.step (.worker 0)))).isSome = true)) = true := by decide +kernel
  obtain ⟨r, hrun, hd, hran, hsome⟩ := Machine.exists_runIn_of_exec (fun _ _ => id) .nil hexec
  obtain ⟨r', hr'⟩ := Option.isSome_iff_exists.1 hsome
  exact ⟨_, r, r', hrun, hd, hran, hr', no_task_after_io hrun (by rw [hd]; rfl) hr'⟩

/-- Task 7 is still queued when `~runtime` begins. After the `io_context` is
destroyed a worker begins it, and the task starts an operation on the context. -/
theorem task_after_io :
    (∃ r, (machine 1 1 Nat 8).Run
        (oneTask 0 ++ untilIo ++ .dtor 0 0 :: List.replicate 7 (.pool (.step (.worker 0)))) r ∧
      r.dtor = .destroyPool ∧
      (step r (.pool (.step (.worker 0)))).any
        (fun r' => stepping r (.pool (.step (.worker 0))) r' = some 7) = true) ∧
    ∃ r, (machine 1 1 Nat 8).Run
        (oneTask 0 ++ untilIo ++ .dtor 0 0 :: List.replicate 8 (.pool (.step (.worker 0))) ++
          [.task 0 (.begin 0 (.accept 3) false)]) r ∧ r.fault = true := by
  constructor
  · exact Machine.exists_run_of_exec (by decide +kernel)
  · exact Machine.exists_run_of_exec (by decide +kernel)

end AsyncRuntime.Runtime
