import AsyncRuntime.Pool.Deques
/-!
# The destructor

A worker that has left `worker_loop` does nothing more, and once the destructor
has begun no external thread is inside the pool. So when the destructor has
joined the workers, it is alone: the queues no longer change while it deletes
what is left in them.
-/

namespace AsyncRuntime.Pool
open Lib Deque
variable {n m : Nat} {τ : Type} {s s' : Impl n m τ} {a : Act n m τ}

/-! ## Threads that are out -/

theorem Move.not_exited {w : Fin n} {pc pc' : WorkerPc n τ} (h : Move s w pc pc') : pc ≠ .exited := by
  rintro rfl
  cases h with
  | search h => cases h

/-- A worker stays outside `worker_loop`. -/
theorem Effect.exited (e : Effect s a s') {j : Fin n} (hj : s.worker j = .exited) : s'.worker j = .exited := by
  cases e.worker j with
  | stays h => rw [h, hj]
  | moves _ hm => exact absurd hj hm.not_exited
  | locks _ _ hl => rw [hj] at hl; cases hl
  | unlocks _ hl => rw [hj] at hl; cases hl
  | woken h | works _ h | incSleeping _ h | decSleeping _ h => rw [hj] at h; cases h

/-- While the destructor runs, an external thread stays outside the pool. -/
theorem Effect.ext_idle (e : Effect s a s') (hd : s.dtor ≠ .idle) (hi : ∀ i, s.ext i = .idle) (i : Fin m) :
    s'.ext i = .idle := by
  cases e with
  | call j x _ hd' => exact absurd hd' hd
  | publish j x hj | extLock j _ hj | extUnlock j hj | extNotify j v hj | extNotifyNone j hj =>
    rw [hi j] at hj; cases hj
  | extMove j pc _ _ hm =>
    rw [hi j] at hm
    cases hm with
    | wait hd' => exact absurd hd' hd
  | _ => exact hi i

theorem DtorMove.ne_idle {pc pc' : DtorPc} (h : DtorMove s pc pc') : pc' ≠ .idle := by
  cases h <;> nofun

theorem Effect.dtor_ne_idle (e : Effect s a s') (hd : s.dtor ≠ .idle) : s'.dtor ≠ .idle := by
  cases e with
  | dtorMove pc hm => exact hm.ne_idle
  | storeStop | dtorLock | notifyAll | dtorUnlock | destroy | destroyGlobal => nofun
  | _ => exact hd

/-! ## Joined -/

/-- The destructor has joined every worker. -/
def DtorPc.alone : DtorPc → Bool
  | .destroy _ | .destroyGlobal | .finished => true
  | _ => false

/-- Who is still in the pool while the destructor runs. -/
structure Teardown (s : Impl n m τ) : Prop where
  ext_idle : s.dtor ≠ .idle → ∀ i, s.ext i = .idle
  joined : ∀ k, s.dtor = .join k → ∀ j : Fin n, j.val < k → s.worker j = .exited
  alone : s.dtor.alone = true → ∀ j, s.worker j = .exited

theorem teardown_init : Teardown (init n m τ) := ⟨fun h => absurd rfl h, nofun, nofun⟩

theorem Teardown.effect (h : Teardown s) (e : Effect s a s') : Teardown s' := by
  have stay : s'.dtor = s.dtor → Teardown s' := by
    intro hd
    refine ⟨fun hi i => ?_, fun k hk j hj => ?_, fun ha j => ?_⟩
    · rw [hd] at hi; exact e.ext_idle hi (h.ext_idle hi) i
    · rw [hd] at hk; exact e.exited (h.joined k hk j hj)
    · rw [hd] at ha; exact e.exited (h.alone ha j)
  cases e with
  | dtorMove pc hm =>
    generalize hpc : s.dtor = old at hm
    cases hm with
    | begin hi => exact ⟨fun _ => hi, nofun, nofun⟩
    | @join k hk hx =>
      refine ⟨fun _ => h.ext_idle (by rw [hpc]; nofun), ?_, nofun⟩
      rintro k' ⟨⟩ j hj
      rcases Nat.lt_succ_iff_lt_or_eq.1 hj with hj | hj
      · exact h.joined k hpc j hj
      · subst hj; exact hx
    | @joined k hk =>
      exact ⟨fun _ => h.ext_idle (by rw [hpc]; nofun), nofun,
        fun _ j => h.joined k hpc j (lt_of_lt_of_le j.isLt hk)⟩
    | destroyed => exact ⟨fun _ => h.ext_idle (by rw [hpc]; nofun), nofun, fun _ => h.alone (by rw [hpc]; rfl)⟩
  | storeStop hd | dtorLock _ hd => exact ⟨fun _ => h.ext_idle (by rw [hd]; nofun), nofun, nofun⟩
  | notifyAll hd => exact ⟨fun _ => h.ext_idle (by rw [hd]; nofun), nofun, nofun⟩
  | dtorUnlock hd =>
    refine ⟨fun _ => h.ext_idle (by rw [hd]; nofun), ?_, nofun⟩
    rintro k ⟨⟩ j hj
    exact absurd hj (Nat.not_lt_zero _)
  | destroy j hd | destroyGlobal hd =>
    exact ⟨fun _ => h.ext_idle (by rw [hd]; nofun), nofun, fun _ => h.alone (by rw [hd]; rfl)⟩
  | _ => exact stay rfl

theorem teardown_of_run [DecidableEq τ] {acts : List (Act n m τ)} (h : (machine n m τ).Run acts s) : Teardown s :=
  inv_of_run teardown_init (fun _ e ht => ht.effect e) h

/-- Once every worker has left and no external thread is inside, only the
destructor moves. -/
structure Frozen (s s' : Impl n m τ) : Prop where
  deques : s'.deques = s.deques
  worker : s'.worker = s.worker
  ext : s'.ext = s.ext
  global : s'.global = s.global
  enqueued : s'.enqueued = s.enqueued
  started : s'.started = s.started
  ran : s'.ran = s.ran

theorem Effect.frozen (e : Effect s a s') (hd : s.dtor ≠ .idle) (hi : ∀ i, s.ext i = .idle)
    (hx : ∀ w, s.worker w = .exited) : Frozen s s' := by
  cases e with
  | pop w p hw | push w x p hw | steal w spin start i q hw | incSleeping w hw | decSleeping w hw | finish w x hw
  | spawn w y x hw | notify w x v hw | notifyNone w x hw | spurious w hw => rw [hx w] at hw; cases hw
  | start w x hgot | take w x g hgot => rw [hx w] at hgot; cases hgot
  | move w pc rng hm => exact absurd (hx w) hm.not_exited
  | lock w pc _ hl => rw [hx w] at hl; cases hl
  | unlock w pc hl => rw [hx w] at hl; cases hl
  | call j x _ hd' => exact absurd hd' hd
  | publish j x hj | extLock j _ hj | extUnlock j hj | extNotify j v hj | extNotifyNone j hj =>
    rw [hi j] at hj; cases hj
  | extMove j pc _ _ hm =>
    rw [hi j] at hm
    cases hm with
    | wait hd' => exact absurd hd' hd
  | notifyAll =>
    refine ⟨rfl, ?_, rfl, rfl, rfl, rfl, rfl⟩
    funext w
    rcases notifyAll_worker s w with hw | ⟨hw, -⟩
    · exact hw
    · rw [hx w] at hw; cases hw
  | dtorMove | storeStop | dtorLock | dtorUnlock | destroy | destroyGlobal =>
    exact ⟨rfl, rfl, rfl, rfl, rfl, rfl, rfl⟩

end AsyncRuntime.Pool
