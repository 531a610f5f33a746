import AsyncRuntime.Pool.Wakeup
import Mathlib.Logic.Relation
/-!
# What a return of `wait()` means

`wait()` returns when one pass over the queues finds all of them empty. A task
that a worker has taken is in no queue, so a return says nothing about it, nor
about what it will still enqueue. If no worker has a task in its hands during the
last pass, then `wait()` is a barrier: every task whose `enqueue` returned before
the call, and every task that such a task enqueued, has finished.
-/

namespace AsyncRuntime.Pool
open Lib Deque
variable {n m : Nat} {τ : Type} {s s' : Impl n m τ} {a : Act n m τ}

/-! ## The history of a run -/

/-- Worker `w` has a task in its hands: it holds or runs one, or its pop has
lowered `bottom_` over one. -/
def busy (s : Impl n m τ) (w : Fin n) : Bool :=
  (held (s.deques w) (s.worker w)).isSome ||
    undecided (s.deques w) (s.worker w) && !(contents (s.deques w) (s.worker w).owner).isEmpty

/-- No worker has a task in its hands. -/
def Impl.calm (s : Impl n m τ) : Bool := decide (∀ w, busy s w = false)

/-- The external thread is in `wait()`. -/
def ExtPc.isWait : ExtPc n τ → Bool
  | .wait _ => true
  | _ => false

/-- A `wait()` that is about to begin a pass over the queues. -/
def ExtPc.beginsPass : ExtPc n τ → Bool
  | .wait .global => true
  | _ => false

/-- What is remembered of a run. `call` is the task of the `enqueue` that a thread
is in, `spawned` are the tasks that tasks enqueued, with the task that did. For
each external thread, `before` are the tasks whose `enqueue` had returned when it
last called `wait()`, and `calm` whether no worker has had a task in its hands
since its pass over the queues began. -/
structure Chronicle (n m : Nat) (τ : Type) where
  call : Thread n m → Option τ
  spawned : List (τ × τ)
  before : Fin m → List τ
  calm : Fin m → Bool

variable [DecidableEq τ]

/-- The tasks whose `enqueue` has returned. -/
def Chronicle.returned (k : Chronicle n m τ) (s : Impl n m τ) : List τ :=
  (s.enqueued.filter fun p => decide (k.call p.1 ≠ some p.2)).map (·.2)

/-- The task that thread `θ` calls `enqueue` with. -/
def Act.enqueues (θ : Thread n m) : Act n m τ → Option τ
  | .enqueue θ' x => if θ' = θ then some x else none
  | _ => none

/-- The task that enqueues, and the task that it enqueues. -/
def Impl.spawns (s : Impl n m τ) : Act n m τ → List (τ × τ)
  | .enqueue (.worker w) x => (s.worker w).task.toList.map fun y => (y, x)
  | _ => []

/-- The history after an action. -/
def Chronicle.next (s : Impl n m τ) (a : Act n m τ) (s' : Impl n m τ) (k : Chronicle n m τ) : Chronicle n m τ where
  call θ := if s'.inEnqueue θ then (a.enqueues θ).or (k.call θ) else none
  spawned := s.spawns a ++ k.spawned
  before := match a with
    | .wait i => Function.update k.before i (k.returned s)
    | _ => k.before
  calm i := s'.calm && ((s'.ext i).beginsPass || k.calm i)

/-- The pool with its history. -/
def recorded (n m : Nat) (τ : Type) [DecidableEq τ] : Machine (Impl n m τ × Chronicle n m τ) (Act n m τ) :=
  (machine n m τ).withHistory ⟨fun _ => none, [], fun _ => [], fun _ => false⟩ Chronicle.next

/-- What the last `wait()` of thread `i` is to wait for: the tasks whose `enqueue`
returned before it, and all that these enqueued in turn. -/
def Due (k : Chronicle n m τ) (i : Fin m) (x : τ) : Prop :=
  ∃ r ∈ k.before i, Relation.ReflTransGen (fun y z => (y, z) ∈ k.spawned) r x

/-! ## Calm states -/

omit [DecidableEq τ] in
theorem calm_held (h : s.calm = true) (w : Fin n) : held (s.deques w) (s.worker w) = none := by
  have := of_decide_eq_true h w
  simp only [busy, Bool.or_eq_false_iff, Option.isSome_eq_false_iff, Option.isNone_iff_eq_none] at this
  exact this.1

omit [DecidableEq τ] in
theorem calm_not_running (h : s.calm = true) (w : Fin n) (x : τ) (e : Option (EnqPc τ)) :
    s.worker w ≠ .running x e := by
  intro hw
  have := calm_held h w
  rw [hw] at this; cases this

omit [DecidableEq τ] in
/-- In a calm state a look does not miss a task. -/
theorem Checked.empty (h : s.calm = true) {j : Fin n} (hc : Checked s j) : tasksAt s (.deque j) = [] := by
  have hpub : (s.worker j).published = false := by
    cases hw : s.worker j with
    | running x e => exact absurd hw (calm_not_running h j x e)
    | _ => rfl
  have hbusy := of_decide_eq_true h j
  simp only [busy, Bool.or_eq_false_iff, Bool.and_eq_false_iff, Bool.not_eq_eq_eq_not, Bool.not_false,
    List.isEmpty_iff] at hbusy
  rcases hbusy.2 with hund | hnil
  · simp only [Checked, cover, hpub, hund, size] at hc
    simpa [tasksAt] using hc
  · exact hnil

/-! ## Steps -/

omit [DecidableEq τ] in
/-- An external thread comes to call `enqueue` with a new task only. -/
theorem Effect.calling (e : Effect s a s') {i : Fin m} {x : τ} (h : (s'.ext i).calling = some x) :
    (s.ext i).calling = some x ∨ a = .enqueue (.ext i) x ∧ x ∉ allocated s := by
  have moved : ∀ {j : Fin m} {pc : ExtPc n τ}, pc.calling = none ∨ pc.calling = (s.ext j).calling →
      (Function.update s.ext j pc i).calling = some x → (s.ext i).calling = some x := by
    intro j pc hpc hx
    by_cases e : i = j
    · subst e
      rw [Function.update_self] at hx
      rcases hpc with hpc | hpc
      · rw [hpc] at hx; cases hx
      · rw [← hpc]; exact hx
    · rw [Function.update_of_ne e] at hx; exact hx
  cases e with
  | call j y hj _ hy =>
    by_cases e : i = j
    · subst e
      simp only [Impl.setExt, Function.update_self, ExtPc.calling, EnqPc.task, Option.some.injEq] at h
      subst h
      exact .inr ⟨rfl, hy⟩
    · exact .inl (by simpa [Impl.setExt, e] using h)
  | publish | extLock | extUnlock | extNotifyNone => exact .inl (moved (.inl rfl) h)
  | extNotify j v => exact .inl (moved (.inl rfl) h)
  | extMove j pc _ _ hm => exact .inl (moved (.inr hm.calling_eq) h)
  | _ => exact .inl h

omit [DecidableEq τ] in
/-- A task enters the global queue from an external call. -/
theorem Effect.to_global (e : Effect s a s') {x : τ} (h : x ∈ s'.global) :
    x ∈ s.global ∨ ∃ i, (s.ext i).calling = some x := by
  cases e with
  | publish i y hi =>
    rcases List.mem_append.1 h with h | h
    · exact .inl h
    · rw [List.mem_singleton.1 h]
      exact .inr ⟨i, by rw [hi]; rfl⟩
  | take w y g _ hg => exact .inl (by rw [hg]; exact List.mem_cons_of_mem _ h)
  | _ => exact .inl h

omit [DecidableEq τ] in
theorem extStep_look {i : Fin m} {l : LookPc n} (h : extStep s i = some s') (hl : s'.ext i = .wait l)
    (hne : l ≠ .global) : ∃ l₀, s.ext i = .wait l₀ ∧ lookStep s l₀ = .inl l ∧ s' = s.setExt i (.wait l) := by
  unfold extStep at h
  split at h
  · cases h
  · obtain ⟨⟨s₁, e⟩, -, rfl⟩ := Option.map_eq_some_iff.1 h
    simp only [Impl.setExt, Function.update_self] at hl
    cases e <;> cases hl
  · next l₀ hpc =>
    split at h <;> cases h <;> simp only [Impl.setExt, Function.update_self, ExtPc.wait.injEq, reduceCtorEq] at hl
    · next hlook =>
      subst hl
      exact ⟨l₀, hpc, hlook, rfl⟩
    · exact absurd hl.symm hne

/-- A pass over the queues goes on by the steps of its thread. -/
theorem look_of_step (e : Effect s a s') (h : step s a = some s') {i : Fin m} {l : LookPc n} (hl : s'.ext i = .wait l)
    (hne : l ≠ .global) : a ≠ .wait i ∧ (s'.ext i = s.ext i ∨
      ∃ l₀, s.ext i = .wait l₀ ∧ lookStep s l₀ = .inl l ∧ s' = s.setExt i (.wait l)) := by
  have hwait : a ≠ .wait i := by
    rintro rfl
    simp only [step] at h
    split at h <;> cases h
    simp only [Impl.setExt, Function.update_self, ExtPc.wait.injEq] at hl
    exact hne hl.symm
  refine ⟨hwait, ?_⟩
  have other : ∀ {j : Fin m} {pc : ExtPc n τ}, pc ≠ .wait l → Function.update s.ext j pc i = .wait l →
      Function.update s.ext j pc i = s.ext i := by
    intro j pc hpc hi
    by_cases e : i = j
    · subst e; rw [Function.update_self] at hi; exact absurd hi hpc
    · exact Function.update_of_ne e ..
  cases e with
  | call | publish | extLock | extUnlock | extNotifyNone => exact .inl (other (by rintro ⟨⟩) hl)
  | extNotify j v => exact .inl (other (by rintro ⟨⟩) hl)
  | extMove j pc _ ha hm =>
    by_cases e : i = j
    · subst e
      rcases ha with rfl | rfl
      · exact .inr (extStep_look h hl hne)
      · exact absurd rfl hwait
    · exact .inl (Function.update_of_ne e ..)
  | _ => exact .inl rfl

/-! ## The invariant -/

/-- What the history says about the state. -/
structure Watched (s : Impl n m τ) (k : Chronicle n m τ) : Prop where
  call : ∀ i x, (s.ext i).calling = some x → k.call (.ext i) = some x
  spawned : ∀ y x, (y, x) ∈ k.spawned → ∃ w, (.worker w, x) ∈ s.enqueued
  before : ∀ i, ∀ x ∈ k.before i, x ∈ allocated s ∧ ∀ j, (s.ext j).calling ≠ some x
  calm : ∀ i, k.calm i = true → s.calm = true
  pass : ∀ i l, s.ext i = .wait l → k.calm i = true →
    Scanned s l ∧ (l ≠ .global → ∀ x ∈ s.global, x ∉ k.before i)

omit [DecidableEq τ] in
theorem Effect.allocated_mono (e : Effect s a s') {x : τ} (h : x ∈ allocated s) : x ∈ allocated s' := by
  obtain ⟨p, hp, rfl⟩ := List.mem_map.1 h
  exact List.mem_map.2 ⟨p, e.enqueued_mono hp, rfl⟩

omit [DecidableEq τ] in
theorem Effect.enqueued_of_spawns (e : Effect s a s') {y x : τ} (h : (y, x) ∈ s.spawns a) :
    ∃ w, (.worker w, x) ∈ s'.enqueued := by
  cases e with
  | spawn w z u hw =>
    simp only [Impl.spawns, hw, WorkerPc.task, Option.toList_some, List.map_cons, List.map_nil, List.mem_singleton,
      Prod.mk.injEq] at h
    obtain ⟨rfl, rfl⟩ := h
    exact ⟨w, List.mem_append_right _ (List.mem_singleton.2 rfl)⟩
  | extMove i pc _ ha => rcases ha with rfl | rfl <;> cases h
  | _ => cases h

omit [DecidableEq τ] in
theorem Effect.idle_of_enqueues (e : Effect s a s') {i : Fin m} {y : τ} (h : a.enqueues (.ext i) = some y) :
    s.ext i = .idle := by
  cases e with
  | call j z hj =>
    simp only [Act.enqueues] at h
    split at h
    · next e => cases e; exact hj
    · cases h
  | extMove j pc _ ha => rcases ha with rfl | rfl <;> cases h
  | _ => cases h

namespace Watched
variable {k : Chronicle n m τ}

theorem next_call (h : Watched s k) (e : Effect s a s') (i : Fin m) (x : τ) (hx : (s'.ext i).calling = some x) :
    (k.next s a s').call (.ext i) = some x := by
  have hin : s'.inEnqueue (.ext i) = true := by
    simp only [Impl.inEnqueue]
    cases hi : s'.ext i with
    | enqueue e => rfl
    | _ => rw [hi] at hx; cases hx
  simp only [Chronicle.next, hin, if_true]
  rcases e.calling hx with hx | ⟨rfl, -⟩
  · have hnone : a.enqueues (.ext i) = none := by
      by_contra hsome
      obtain ⟨y, hy⟩ := Option.ne_none_iff_exists'.1 hsome
      rw [e.idle_of_enqueues hy] at hx; cases hx
    rw [hnone]
    exact h.call i x hx
  · simp [Act.enqueues]

theorem next_spawned (h : Watched s k) (e : Effect s a s') (y x : τ) (hx : (y, x) ∈ (k.next s a s').spawned) :
    ∃ w, (.worker w, x) ∈ s'.enqueued := by
  rcases List.mem_append.1 hx with hnew | hold
  · exact e.enqueued_of_spawns hnew
  · exact (h.spawned y x hold).imp fun _ => e.enqueued_mono

/-- A task whose `enqueue` has returned is past it. -/
theorem returned (h : Watched s k) (ho : Owned s) (hor : Origin s) {x : τ} (hx : x ∈ k.returned s) :
    x ∈ allocated s ∧ ∀ j, (s.ext j).calling ≠ some x := by
  obtain ⟨⟨θ, y⟩, hp, rfl⟩ := List.mem_map.1 hx
  obtain ⟨hin, hcall⟩ := List.mem_filter.1 hp
  refine ⟨List.mem_map.2 ⟨_, hin, rfl⟩, fun j hj => ?_⟩
  obtain rfl := enqueuer_unique ho.fresh hin (hor.calling j y hj)
  exact of_decide_eq_true hcall (h.call j y hj)

theorem next_before (h : Watched s k) (ho : Owned s) (hor : Origin s) (e : Effect s a s') (i : Fin m) (x : τ)
    (hx : x ∈ (k.next s a s').before i) : x ∈ allocated s' ∧ ∀ j, (s'.ext j).calling ≠ some x := by
  have hbefore : x ∈ allocated s ∧ ∀ j, (s.ext j).calling ≠ some x := by
    simp only [Chronicle.next] at hx
    split at hx
    · next j =>
      by_cases e : i = j
      · subst e
        rw [Function.update_self] at hx
        exact h.returned ho hor hx
      · rw [Function.update_of_ne e] at hx
        exact h.before i x hx
    · exact h.before i x hx
  refine ⟨e.allocated_mono hbefore.1, fun j hj => ?_⟩
  rcases e.calling hj with hj | ⟨-, hfresh⟩
  · exact hbefore.2 j hj
  · exact hfresh hbefore.1

theorem next_pass (h : Watched s k) (hs : Safe s) (e : Effect s a s') (hstep : Pool.step s a = some s') {i : Fin m}
    {l : LookPc n} (hl : s'.ext i = .wait l) (hcalm : (k.next s a s').calm i = true) :
    Scanned s' l ∧ (l ≠ .global → ∀ x ∈ s'.global, x ∉ (k.next s a s').before i) := by
  by_cases hne : l = .global
  · subst hne; exact ⟨trivial, fun h => absurd rfl h⟩
  · obtain ⟨hwait, hmove⟩ := look_of_step e hstep hl hne
    have hbefore : (k.next s a s').before i = k.before i := by
      simp only [Chronicle.next]
      split
      · exact Function.update_of_ne (fun e => hwait (by rw [e])) ..
      · rfl
    have hk : k.calm i = true := by
      have hpass : (s'.ext i).beginsPass = false := by
        rw [hl]
        cases l with
        | global => exact absurd rfl hne
        | _ => rfl
      simp only [Chronicle.next, hpass, Bool.false_or, Bool.and_eq_true] at hcalm
      exact hcalm.2
    have hs₀ := h.calm i hk
    rw [hbefore]
    rcases hmove with hsame | ⟨l₀, hl₀, hlook, rfl⟩
    · -- the others leave the scanned deques empty, and what they put into the global queue is new
      rw [hsame] at hl
      obtain ⟨hscan, hglobal⟩ := h.pass i l hl hk
      refine ⟨hscan.mono (e.allEase hs ?_ ?_), fun _ x hx hin => ?_⟩
      · exact fun v x hv => absurd hv (calm_not_running hs₀ v x _)
      · exact fun v x => calm_not_running hs₀ v x _
      · rcases e.to_global hx with hx | ⟨j, hj⟩
        · exact hglobal hne x hx hin
        · exact (h.before i x hin).2 j hj
    · obtain ⟨hscan, hglobal⟩ := h.pass i l₀ hl₀ hk
      refine ⟨(hscan.step hs).1 l hlook, fun _ x hx => ?_⟩
      by_cases hg : l₀ = .global
      · subst hg
        simp only [lookStep] at hlook
        split at hlook
        · next he =>
          have hx : x ∈ s.global := hx
          rw [List.isEmpty_iff.1 he] at hx; cases hx
        · cases hlook
      · exact hglobal hg x hx

theorem next (h : Watched s k) (hs : Safe s) (ho : Owned s) (hor : Origin s) (hstep : Pool.step s a = some s') :
    Watched s' (k.next s a s') := by
  have e := step_effect hstep hs.not_pushGlobal
  refine ⟨h.next_call e, h.next_spawned e, h.next_before ho hor e, fun i hi => ?_, fun i l => h.next_pass hs e hstep⟩
  simp only [Chronicle.next, Bool.and_eq_true] at hi
  exact hi.1

end Watched

theorem watched_of_run {acts : List (Act n m τ)} {u : Impl n m τ × Chronicle n m τ}
    (h : (recorded n m τ).Run acts u) : Watched u.1 u.2 := by
  refine Machine.RunIn.inv_withHistory Watched ?_ (fun as s a s' k hrun hk hs => ?_) h
  · exact ⟨nofun, nofun, nofun, nofun, nofun⟩
  · exact hk.next (safe_of_run hrun) (accounts_of_run hrun).owned (origin_of_run hrun) hs

omit [DecidableEq τ] in
theorem exists_of_isWait {pc : ExtPc n τ} (h : pc.isWait = true) : ∃ l, pc = .wait l := by
  cases pc with
  | wait l => exact ⟨l, rfl⟩
  | _ => cases h

/-- The step in which a `wait()` returns finds the last deque empty. -/
theorem wait_returns {i : Fin m} {l : LookPc n} (hw : s.ext i = .wait l) (hs : step s (.step (.ext i)) = some s')
    (hret : s'.ext i = .idle) : lookStep s l = .inr false ∧ s'.ran = s.ran := by
  simp only [step, extStep, hw] at hs
  split at hs <;> cases hs
  · simp [Impl.setExt] at hret
  · simp [Impl.setExt] at hret
  · next hl => exact ⟨hl, rfl⟩

/-- If no worker has a task in its hands during the last pass of a `wait()` over
the queues, then when it returns every task that it is to wait for has run. -/
theorem wait_is_barrier {acts : List (Act n m τ)} {k : Chronicle n m τ} {i : Fin m}
    (h : (recorded n m τ).Run acts (s, k)) (hw : (s.ext i).isWait = true) (hs : step s (.step (.ext i)) = some s')
    (hret : (s'.ext i).isIdle = true) (hcalm : k.calm i = true) {x : τ} (hx : Due k i x) : x ∈ s'.ran := by
  have hrun : (machine n m τ).Run acts s := h.of_withHistory
  have hk := watched_of_run h
  have ho := (accounts_of_run hrun).owned
  have hor := origin_of_run hrun
  obtain ⟨l, hw⟩ := exists_of_isWait hw
  obtain ⟨hlook, hran⟩ := wait_returns hw hs (isIdle_iff.1 hret)
  obtain ⟨hscan, hglobal⟩ := hk.pass i l hw hcalm
  have hcalm' := hk.calm i hcalm
  -- a task to wait for was enqueued by a task, or its `enqueue` returned before the call
  have hkind : (∃ w, (.worker w, x) ∈ s.enqueued) ∨ x ∈ k.before i := by
    obtain ⟨r, hr, hpath⟩ := hx
    cases hpath with
    | refl => exact .inr hr
    | tail _ hlast => exact .inl (hk.spawned _ _ hlast)
  have hall : x ∈ allocated s := by
    rcases hkind with ⟨w, hin⟩ | hin
    · exact List.mem_map.2 ⟨_, hin, rfl⟩
    · exact (hk.before i x hin).1
  obtain ⟨p, hp, -⟩ := ho.place hall
  have hmem : x ∈ tasksAt s p := by
    rw [← List.count_pos_iff, hp]; exact Nat.one_pos
  rw [hran]
  cases p with
  -- the task is at one place; each of them but the last contradicts the calm pass
  | spawning w =>
    cases hpc : s.worker w with
    | running y e => exact absurd hpc (calm_not_running hcalm' w y e)
    | _ => simp [tasksAt, hpc, WorkerPc.spawning] at hmem
  | calling j =>
    have hc : (s.ext j).calling = some x := by simpa [tasksAt] using hmem
    rcases hkind with ⟨w, hin⟩ | hin
    · cases enqueuer_unique ho.fresh hin (hor.calling j x hc)
    · exact absurd hc ((hk.before i x hin).2 j)
  | global =>
    have hg : x ∈ s.global := hmem
    rcases hkind with ⟨w, hin⟩ | hin
    · obtain ⟨j, hj⟩ := hor.global x hg
      cases enqueuer_unique ho.fresh hin hj
    · by_cases hne : l = .global
      · subst hne
        simp only [lookStep] at hlook
        split at hlook
        · next he => rw [List.isEmpty_iff.1 he] at hg; cases hg
        · cases hlook
      · exact absurd hin (hglobal hne x hg)
  | deque j =>
    rw [((hscan.step (safe_of_run hrun)).2 hlook j).empty hcalm'] at hmem; cases hmem
  | held w => simp [tasksAt, calm_held hcalm' w] at hmem
  | freed => exact hmem

/-- `wait()` is called when task 7 is in the global queue, and its first pass finds
it there. The worker runs it and task 8, which it spawns, and then comes the last
pass. -/
def waitedForBoth {n m : Nat} (i : Fin m) (w : Fin n) : List (Act n m Nat) := List.flatten
  [[.enqueue (.ext i) 7], List.replicate 2 (.step (.ext i)), [.wait i, .step (.ext i)],
   List.replicate 8 (.step (.worker w)), [.enqueue (.worker w) 8], List.replicate 7 (.step (.worker w)), [.finish w],
   List.replicate 8 (.step (.worker w)), [.finish w], List.replicate 2 (.step (.ext i))]

theorem wait_is_barrier_both : ∃ s k s', (recorded 1 1 Nat).Run (waitedForBoth 0 0) (s, k) ∧ (s.ext 0).isWait = true ∧
    step s (.step (.ext 0)) = some s' ∧ (s'.ext 0).isIdle = true ∧ k.before 0 = [7] ∧ k.spawned = [(7, 8)] ∧
    7 ∈ s'.ran ∧ 8 ∈ s'.ran := by
  have hexec : ((recorded 1 1 Nat).exec (waitedForBoth 0 0)).any (fun u => decide ((u.1.ext 0).isWait = true ∧
      u.2.calm 0 = true ∧ u.2.before 0 = [7] ∧ u.2.spawned = [(7, 8)] ∧
      (step u.1 (.step (.ext 0))).any (fun s' => (s'.ext 0).isIdle) = true)) = true := by decide +kernel
  obtain ⟨⟨s, k⟩, hrun, hwait, hcalm, hbefore, hspawned, hnext⟩ := Machine.exists_run_of_exec hexec
  obtain ⟨s', hs, hret⟩ := (Option.any_eq_true _ _).1 hnext
  have h7 : Due k 0 7 := ⟨7, by rw [show k.before 0 = [7] from hbefore]; simp, .refl⟩
  have h8 : Due k 0 8 := by
    refine ⟨7, by rw [show k.before 0 = [7] from hbefore]; simp, .single ?_⟩
    rw [show k.spawned = [(7, 8)] from hspawned]; simp
  exact ⟨s, k, s', hrun, hwait, hs, hret, hbefore, hspawned, wait_is_barrier hrun hwait hs hret hcalm h7,
    wait_is_barrier hrun hwait hs hret hcalm h8⟩

/-- The worker has begun to run task 7 when `wait()` is called and makes its only
pass. -/
def waitedWhileRunning {n m : Nat} (i : Fin m) (w : Fin n) : List (Act n m Nat) := List.flatten
  [[.enqueue (.ext i) 7], List.replicate 2 (.step (.ext i)), List.replicate 8 (.step (.worker w)), [.wait i],
   List.replicate 2 (.step (.ext i))]

/-- `wait()` returns and the task is still running. -/
theorem wait_returns_early :
    ∃ s k s', (recorded 1 1 Nat).Run (waitedWhileRunning 0 0) (s, k) ∧ (s.ext 0).isWait = true ∧
    step s (.step (.ext 0)) = some s' ∧ (s'.ext 0).isIdle = true ∧ Due k 0 7 ∧ 7 ∉ s'.ran ∧
    (s'.worker 0).task = some 7 := by
  have hexec : ((recorded 1 1 Nat).exec (waitedWhileRunning 0 0)).any (fun u => decide ((u.1.ext 0).isWait = true ∧
      u.2.before 0 = [7] ∧ (step u.1 (.step (.ext 0))).any (fun s' => decide ((s'.ext 0).isIdle = true ∧
        7 ∉ s'.ran ∧ (s'.worker 0).task = some 7)) = true)) = true := by decide +kernel
  obtain ⟨⟨s, k⟩, hrun, hwait, hbefore, hnext⟩ := Machine.exists_run_of_exec hexec
  obtain ⟨s', hs, hret, hran, htask⟩ := Machine.exists_of_any hnext
  have h7 : Due k 0 7 := ⟨7, by rw [show k.before 0 = [7] from hbefore]; simp, .refl⟩
  exact ⟨s, k, s', hrun, hwait, hs, hret, h7, hran, htask⟩

end AsyncRuntime.Pool
