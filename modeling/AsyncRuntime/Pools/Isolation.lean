import AsyncRuntime.Pool.Counting
import AsyncRuntime.Pools.Model
/-!
# Pools are isolated while tasks stay at home

While every task enqueues on its own pool only, each pool moves as it would
alone, so that what is proved about the runs of one pool holds of every pool of
the family: `pool_of_run`. A task is then in the pool it was enqueued on, and a
`wait()` on this pool does not return without it, unless a worker has it in its hands
during the last pass over the queues.

A task that calls `enqueue` of another pool breaks this. `local_queue` is not a
member of the pool but a variable of the thread, so the new task goes to the
caller's own deque and is run by the caller's pool, while the pool it was
enqueued on neither holds it nor counts it.
-/

namespace AsyncRuntime.Pools
open Lib Deque Pool
variable {K m : Nat} {n : Fin K → Nat} {τ : Type}

variable [DecidableEq τ]

/-! ## One pool of the family -/

/-- A task enqueues on the pool that runs it. -/
def AtHome : Act K m n τ → Prop
  | .spawn q _ k _ => k = q
  | _ => True

instance (a : Act K m n τ) : Decidable (AtHome a) := by
  cases a <;> unfold AtHome <;> infer_instance

/-- What a step does to the pools while no call leaves its pool: one of them
makes a step of its own, and what that step allocates was enqueued on it. -/
inductive Effect (s : State K m n τ) (s' : State K m n τ) : Prop
  | call (k : Fin K) (θ : Thread (n k) m) (x : τ) (p : Impl (n k) m τ) : x ∉ s.asked.map (·.2) →
      Pool.step (s.pool k) (.enqueue θ x) = some p → s'.pool = Function.update s.pool k p →
      s'.asked = s.asked ++ [(k, x)] → Effect s s'
  | own (k : Fin K) (a : Pool.Act (n k) m τ) (p : Impl (n k) m τ) : (∀ θ x, a ≠ .enqueue θ x) →
      Pool.step (s.pool k) a = some p → s'.pool = Function.update s.pool k p → s'.asked = s.asked → Effect s s'

theorem ownStep_eq {s s' : State K m n τ} {k : Fin K} {a : Pool.Act (n k) m τ} (h : ownStep s k a = some s') :
    ∃ p, Pool.step (s.pool k) a = some p ∧ s' = s.setPool k p := by
  simp only [ownStep] at h
  split at h
  · next p hp =>
    split at h
    · cases h
    · exact ⟨p, hp, (Option.some.inj h).symm⟩
  · cases h

theorem ownStep_effect {s s' : State K m n τ} {k : Fin K} {a : Pool.Act (n k) m τ} (h : ownStep s k a = some s')
    (ha : ∀ θ x, a ≠ .enqueue θ x) : Effect s s' ∧ s'.callee = s.callee := by
  obtain ⟨p, hp, rfl⟩ := ownStep_eq h
  exact ⟨.own k a p ha hp rfl rfl, rfl⟩

theorem step_effect {s s' : State K m n τ} {a : Act K m n τ} (hc : ∀ q w, s.callee q w = q) (ha : AtHome a)
    (h : step s a = some s') : Effect s s' ∧ ∀ q w, s'.callee q w = q := by
  have hhome : ∀ q w, s.visiting q w = false := by
    intro q w
    simp [State.visiting, hc]
  have keep : Effect s s' ∧ s'.callee = s.callee → Effect s s' ∧ ∀ q w, s'.callee q w = q := by
    rintro ⟨e, hcallee⟩
    exact ⟨e, fun q w => by rw [hcallee, hc]⟩
  cases a with
  | enqueue i k x =>
    simp only [step] at h
    split at h
    · next hg =>
      obtain ⟨s₁, h₁, rfl⟩ := Option.map_eq_some_iff.1 h
      obtain ⟨p, hp, rfl⟩ := ownStep_eq h₁
      exact ⟨.call k _ x p hg.1 hp rfl rfl, hc⟩
    · cases h
  | spawn q w k x =>
    -- at home, the deque that `local_queue` names is one of the pool called
    obtain rfl : k = q := ha
    simp only [step] at h
    split at h
    · next hg =>
      obtain ⟨s₁, h₁, rfl⟩ := Option.map_eq_some_iff.1 h
      obtain ⟨p, hp, rfl⟩ := ownStep_eq h₁
      refine ⟨.call k _ x p hg.1 hp rfl rfl, fun q v => ?_⟩
      by_cases hq : q = k
      · subst hq
        simp only [Function.update_self]
        by_cases hv : v = w
        · rw [hv, Function.update_self]
        · rw [Function.update_of_ne hv, hc]
      · simp only [Function.update_of_ne hq, hc]
    · cases h
  | wait i k =>
    simp only [step] at h
    split at h
    · exact keep (ownStep_effect h nofun)
    · cases h
  | step k θ =>
    cases θ with
    | worker w =>
      simp only [step, hhome, Bool.false_eq_true, if_false] at h
      exact keep (ownStep_effect h nofun)
    | ext i => exact keep (ownStep_effect h nofun)
    | dtor =>
      simp only [step] at h
      split at h
      · exact keep (ownStep_effect h nofun)
      · cases h
  | notify k θ v =>
    cases θ with
    | worker w =>
      simp only [step, hhome, Bool.false_eq_true, if_false] at h
      exact keep (ownStep_effect h nofun)
    | ext i => exact keep (ownStep_effect (a := .notify (.ext i) v) h nofun)
    | dtor => exact keep (ownStep_effect (a := .notify .dtor v) h nofun)
  | notifyOther q w k v => simp [step, hhome] at h
  | finish k w => exact keep (ownStep_effect h nofun)
  | spurious k w => exact keep (ownStep_effect h nofun)

/-- A run on which no call leaves its pool. -/
abbrev HomeRun (acts : List (Act K m n τ)) (s : State K m n τ) : Prop :=
  (machine K m n τ).RunIn (fun _ a => AtHome a) acts s

variable {acts : List (Act K m n τ)} {s s' : State K m n τ}

theorem callee_of_run (h : HomeRun acts s) (q : Fin K) (w : Fin (n q)) : s.callee q w = q :=
  Machine.RunIn.inv (M := machine K m n τ) (fun s => ∀ q w, s.callee q w = q) (fun _ _ => rfl)
    (fun _ _ _ hc ha hs => (step_effect hc ha hs).2) h q w

/-- A pool stays as it is or makes a step of its own. -/
theorem pool_moves (h : HomeRun acts s) {a : Act K m n τ} (ha : AtHome a) (hs : step s a = some s') (k : Fin K) :
    s'.pool k = s.pool k ∨ ∃ b, Pool.step (s.pool k) b = some (s'.pool k) := by
  have moved (j : Fin K) (b : Pool.Act (n j) m τ) (p) (hp : Pool.step (s.pool j) b = some p)
      (hpool : s'.pool = Function.update s.pool j p) :
      s'.pool k = s.pool k ∨ ∃ b, Pool.step (s.pool k) b = some (s'.pool k) := by
    rw [hpool]
    by_cases hj : k = j
    · subst hj
      exact .inr ⟨b, by rw [Function.update_self]; exact hp⟩
    · exact .inl (Function.update_of_ne hj _ _)
  cases (step_effect (callee_of_run h) ha hs).1 with
  | call j θ x p _ hp hpool => exact moved j _ p hp hpool
  | own j b p _ hp hpool => exact moved j b p hp hpool

/-- Every pool has made a run of its own. -/
theorem pool_of_run (h : HomeRun acts s) (k : Fin K) :
    ∃ bs, (Pool.machine (n k) m τ).Run bs (s.pool k) :=
  h.project (M := machine K m n τ) (N := Pool.machine (n k) m τ) (fun s => s.pool k) rfl
    fun _ _ _ _ hr ha hs => pool_moves hr ha hs k

/-! ## Which pool a task is in -/

/-- What was enqueued on a pool is what the pool has allocated, and nothing was
enqueued twice. -/
structure Registered (s : State K m n τ) : Prop where
  allocated : ∀ k x, (k, x) ∈ s.asked ↔ x ∈ Pool.allocated (s.pool k)
  fresh : (s.asked.map (·.2)).Nodup

theorem registered_of_run (h : HomeRun acts s) : Registered s := by
  induction h with
  | nil => exact ⟨fun k x => by simp [machine, init, Pool.init, allocated], List.nodup_nil⟩
  | @snoc as s s' a hr ha hs ih =>
    have hsafe : ∀ k, Pool.Safe (s.pool k) := fun k => (pool_of_run hr k).elim fun _ => Pool.safe_of_run
    cases (step_effect (callee_of_run hr) ha hs).1 with
    | call k θ x p hx hp hpool hasked =>
      have he : Pool.allocated p = Pool.allocated (s.pool k) ++ [x] := by
        simp only [Pool.allocated, (Pool.step_effect hp (hsafe k).not_pushGlobal).enqueued_enqueue, List.map_append,
          List.map_cons, List.map_nil]
      refine ⟨fun j y => ?_, ?_⟩
      · rw [hasked, hpool, List.mem_append, List.mem_singleton, Prod.mk.injEq, ih.allocated j y]
        by_cases hj : j = k
        · subst hj; simp [he]
        · simp [hj]
      · rw [hasked, List.map_append, List.map_singleton, ← List.concat_eq_append]
        exact ih.fresh.concat hx
    | own k b p hb hp hpool hasked =>
      have he : p.enqueued = (s.pool k).enqueued := (Pool.step_effect hp (hsafe k).not_pushGlobal).enqueued_eq hb
      refine ⟨fun j y => ?_, by rw [hasked]; exact ih.fresh⟩
      rw [hasked, hpool, ih.allocated j y]
      by_cases hj : j = k
      · subst hj; simp [Pool.allocated, he]
      · simp [hj]

omit [DecidableEq τ] in
theorem Registered.pool_unique (h : Registered s) {j k : Fin K} {x : τ} (hj : (j, x) ∈ s.asked)
    (hk : (k, x) ∈ s.asked) : j = k :=
  congrArg Prod.fst (List.inj_on_of_nodup_map h.fresh hj hk rfl)

/-! ## What a `wait()` has counted -/

/-- For every pool and external thread, the tasks that were past their `enqueue` when the
thread's pass over the queues of the pool began, and that no worker has had in its hands
since. -/
abbrev Untouched (K m : Nat) (τ : Type) := Fin K → Fin m → List τ

def Untouched.next (u : Untouched K m τ) (s : State K m n τ) : Untouched K m τ := fun k i =>
  (if ((s.pool k).ext i).beginsPass then (allocated (s.pool k)).filter (s.pool k).placed else u k i).filter
    fun x => !(s.pool k).inHands x

/-- The pools with this history. -/
def recorded (K m : Nat) (n : Fin K → Nat) (τ : Type) [DecidableEq τ] :
    Machine (State K m n τ × Untouched K m τ) (Act K m n τ) :=
  (machine K m n τ).withHistory (fun _ _ => []) fun _ _ s' u => u.next s'

/-- A run with its history on which no call leaves its pool. -/
abbrev HomeRecord (acts : List (Act K m n τ)) (s : State K m n τ) (u : Untouched K m τ) : Prop :=
  (recorded K m n τ).RunIn (fun _ a => AtHome a) acts (s, u)

variable {u : Untouched K m τ}

/-- What a pass is to find is still ahead of it. -/
def Awaited (s : State K m n τ) (u : Untouched K m τ) : Prop :=
  ∀ k i l, (s.pool k).ext i = .wait l → ∀ x ∈ u k i, (s.pool k).inHands x = false ∧ Ahead (s.pool k) l x

theorem Awaited.step (h : Awaited s u) (hrun : HomeRun acts s) {a : Act K m n τ} (ha : AtHome a)
    (hs : step s a = some s') : Awaited s' (u.next s') := by
  intro k i l hl x hx
  obtain ⟨hx, hfree⟩ := List.mem_filter.1 hx
  have hfree : (s'.pool k).inHands x = false := by simpa using hfree
  refine ⟨hfree, ?_⟩
  by_cases hne : l = .global
  · subst hne
    obtain ⟨bs, hbs⟩ := pool_of_run (hrun.snoc ha hs) k
    rw [hl] at hx
    obtain ⟨hmem, hplaced⟩ := List.mem_filter.1 hx
    exact (accounts_of_run hbs).owned.ahead hmem hplaced hfree
  have hpass : ((s'.pool k).ext i).beginsPass = false := by
    rw [hl]
    cases l with
    | global => exact absurd rfl hne
    | _ => rfl
  rw [hpass] at hx
  obtain ⟨bs, hbs⟩ := pool_of_run hrun k
  have hsafe := safe_of_run hbs
  rcases pool_moves hrun ha hs k with hsame | ⟨b, hb⟩
  · rw [hsame] at hl ⊢
    exact (h k i l hl x hx).2
  · have e := Pool.step_effect hb hsafe.not_pushGlobal
    rcases (look_of_step e hb hl hne).2 with hsame | ⟨l₀, hl₀, hlook, -⟩
    · exact (h k i l (hsame ▸ hl) x hx).2.effect e hsafe hfree
    · obtain ⟨hfree₀, hahead⟩ := h k i l₀ hl₀ x hx
      exact ((hahead.look hsafe hfree₀).1 l hlook).effect e hsafe hfree

theorem home_of_record {w : State K m n τ × Untouched K m τ}
    (h : (recorded K m n τ).RunIn (fun _ a => AtHome a) acts w) : HomeRun acts w.1 :=
  Machine.RunIn.guard_of_withHistory (P := fun _ a => AtHome a) h

theorem awaited_of_run {w : State K m n τ × Untouched K m τ}
    (h : (recorded K m n τ).RunIn (fun _ a => AtHome a) acts w) : Awaited w.1 w.2 := by
  induction h with
  | nil => exact fun _ _ _ hl => by cases hl
  | snoc hr ha hs ih =>
    obtain ⟨hs, hu⟩ := Machine.withHistory_step.1 hs
    rw [hu]
    exact ih.step (home_of_record hr) ha hs

/-- When a `wait()` on pool `k` returns, the tasks that its last pass was to find have run. -/
theorem ran_of_return (h : HomeRecord acts s u) {k : Fin K} {i : Fin m} (hw : ((s.pool k).ext i).isWait = true)
    (hs : step s (.step k (.ext i)) = some s') (hret : ((s'.pool k).ext i).isIdle = true) {x : τ} (hx : x ∈ u k i) :
    x ∈ (s'.pool k).ran := by
  obtain ⟨bs, hbs⟩ := pool_of_run (home_of_record h) k
  obtain ⟨p, hp, rfl⟩ := ownStep_eq hs
  simp only [State.setPool, Function.update_self] at hret ⊢
  obtain ⟨l, hl⟩ := exists_of_isWait hw
  obtain ⟨hlook, hran⟩ := wait_returns hl hp (isIdle_iff.1 hret)
  obtain ⟨hfree, hahead⟩ := awaited_of_run h k i l hl x hx
  rw [hran]
  exact (hahead.look (safe_of_run hbs) hfree).2 hlook

/-- **Pools are isolated while no task calls `enqueue` of another pool.** A task
enqueued on pool `k` is at one place of pool `k`, and no other pool holds it; only
workers of pool `k` begin to run it; and `wait()` on pool `k` counts it: when the call
returns, the task has run, if it was past its `enqueue` when the last pass over the queues
began and no worker has had it in its hands since. -/
theorem pools_isolated (h : HomeRecord acts s u) {k : Fin K} {x : τ} (hx : (k, x) ∈ s.asked) :
    (∃ l, (tasksAt (s.pool k) l).count x = 1 ∧ ∀ l', l' ≠ l → x ∉ tasksAt (s.pool k) l') ∧
    (∀ q l, x ∈ tasksAt (s.pool q) l → q = k) ∧
    (∀ q w, (w, x) ∈ (s.pool q).started → q = k) ∧
    ∀ i s', ((s.pool k).ext i).isWait = true → step s (.step k (.ext i)) = some s' →
      ((s'.pool k).ext i).isIdle = true → x ∈ u k i → x ∈ (s'.pool k).ran := by
  have hrun : HomeRun acts s := home_of_record h
  have hreg := registered_of_run hrun
  have hacc : ∀ q, Accounts (s.pool q) := fun q => (pool_of_run hrun q).elim fun _ => accounts_of_run
  have hhome : ∀ q, x ∈ allocated (s.pool q) → q = k := fun q hq => hreg.pool_unique ((hreg.allocated q x).2 hq) hx
  refine ⟨(hacc k).owned.place ((hreg.allocated k x).1 hx), ?_, ?_, ?_⟩
  · intro q l hl
    exact hhome q ((hacc q).owned.mem_allocated hl)
  · intro q w hw
    exact hhome q ((hacc q).mem_allocated hw)
  · intro i s' hw hs hret hxu
    exact ran_of_return h hw hs hret hxu

/-- Pools of one worker. An external thread enqueues task 7 on pool `q`, and while it runs it
enqueues task 8 on pool `k`. -/
def spawnOn (i w : Fin 1) (q k : Fin 2) : List (Act 2 1 (fun _ => 1) Nat) := List.flatten
  [[.enqueue i q 7], List.replicate 2 (.step q (.ext i)), List.replicate 8 (.step q (.worker w)), [.spawn q w k 8],
   List.replicate 7 (.step q (.worker w))]

/-- The tasks are run, and the external thread waits for pool `q`, up to the load of `top_`. -/
def thenWait (i w : Fin 1) (q : Fin 2) : List (Act 2 1 (fun _ => 1) Nat) := List.flatten
  [[.finish q w], List.replicate 8 (.step q (.worker w)), [.finish q w], [.wait i q],
   List.replicate 2 (.step q (.ext i))]

theorem pools_isolated_own_spawn : ∃ s u s', HomeRecord (spawnOn 0 0 1 1 ++ thenWait 0 0 1) s u ∧ (1, 8) ∈ s.asked ∧
    ((s.pool 1).ext 0).isWait = true ∧ step s (.step 1 (.ext 0)) = some s' ∧ ((s'.pool 1).ext 0).isIdle = true ∧
    8 ∈ (s'.pool 1).ran ∧
    (∃ l, (tasksAt (s.pool 1) l).count 8 = 1 ∧ ∀ l', l' ≠ l → 8 ∉ tasksAt (s.pool 1) l') ∧
    (∀ q l, 8 ∈ tasksAt (s.pool q) l → q = 1) ∧ ∀ q w, (w, 8) ∈ (s.pool q).started → q = 1 := by
  have hexec : ((recorded 2 1 (fun _ => 1) Nat).execIn (fun _ a => AtHome a) (init 2 1 (fun _ => 1) Nat, fun _ _ => [])
      (spawnOn 0 0 1 1 ++ thenWait 0 0 1)).any (fun w => decide ((1, 8) ∈ w.1.asked ∧
        ((w.1.pool 1).ext 0).isWait = true ∧
        8 ∈ w.2 1 0 ∧ (step w.1 (.step 1 (.ext 0))).any (fun s' => ((s'.pool 1).ext 0).isIdle) = true)) = true := by
    decide +kernel
  obtain ⟨⟨s, u⟩, hrun, hasked, hwait, hmem, hnext⟩ := Machine.exists_runIn_of_exec (fun _ _ => id) .nil hexec
  obtain ⟨s', hs, hret⟩ := (Option.any_eq_true _ _).1 hnext
  obtain ⟨hplace, hother, hstarted, hcount⟩ := pools_isolated hrun hasked
  exact ⟨s, u, s', hrun, hasked, hwait, hs, hret, hcount 0 s' hwait hs hret hmem, hplace, hother, hstarted⟩

/-- Task 8 is enqueued on pool 0 by a task of pool 1. It is in a deque of pool 1 while a
`wait()` on pool 0, called after the `enqueue`, returns; and then a worker of pool 1 runs it.
Also at home a `wait()` returns without a task that a worker has taken. -/
theorem pools_not_isolated :
    (∃ s s', (machine 2 1 (fun _ => 1) Nat).Run
        (spawnOn 0 0 1 0 ++ .wait 0 0 :: List.replicate 2 (.step 0 (.ext 0))) s ∧
      (0, 8) ∈ s.asked ∧ ((s.pool 0).ext 0).isWait = true ∧ step s (.step 0 (.ext 0)) = some s' ∧
      ((s'.pool 0).ext 0).isIdle = true ∧ 8 ∈ tasksAt (s'.pool 1) (.deque (0 : Fin 1))) ∧
    (∃ s, (machine 2 1 (fun _ => 1) Nat).Run
        (spawnOn 0 0 1 0 ++ .finish 1 (0 : Fin 1) :: List.replicate 8 (.step 1 (.worker (0 : Fin 1)))) s ∧
      (0, 8) ∈ s.asked ∧ ((0 : Fin 1), 8) ∈ (s.pool 1).started) ∧
    ∃ s s', HomeRun ((spawnOn 0 0 1 1).take 11 ++ .wait 0 1 :: List.replicate 2 (.step 1 (.ext 0))) s ∧
      (1, 7) ∈ s.asked ∧ ((s.pool 1).ext 0).isWait = true ∧ step s (.step 1 (.ext 0)) = some s' ∧
      ((s'.pool 1).ext 0).isIdle = true ∧ 7 ∈ tasksAt (s'.pool 1) (.held (0 : Fin 1)) := by
  refine ⟨?_, Machine.exists_run_of_exec (by decide +kernel), ?_⟩
  · have hexec : ((machine 2 1 (fun _ => 1) Nat).exec
        (spawnOn 0 0 1 0 ++ .wait 0 0 :: List.replicate 2 (.step 0 (.ext 0)))).any (fun s => decide ((0, 8) ∈ s.asked ∧
          ((s.pool 0).ext 0).isWait = true ∧ (step s (.step 0 (.ext 0))).any (fun s' => decide
            (((s'.pool 0).ext 0).isIdle = true ∧ 8 ∈ tasksAt (s'.pool 1) (.deque (0 : Fin 1)))) = true)) = true := by
      decide +kernel
    obtain ⟨s, hrun, hasked, hwait, hnext⟩ := Machine.exists_run_of_exec hexec
    obtain ⟨s', hs, hret, hmem⟩ := Machine.exists_of_any hnext
    exact ⟨s, s', hrun, hasked, hwait, hs, hret, hmem⟩
  · have hexec : ((machine 2 1 (fun _ => 1) Nat).execIn (fun _ a => AtHome a) (init 2 1 (fun _ => 1) Nat)
        ((spawnOn 0 0 1 1).take 11 ++ .wait 0 1 :: List.replicate 2 (.step 1 (.ext 0)))).any (fun s => decide
          ((1, 7) ∈ s.asked ∧ ((s.pool 1).ext 0).isWait = true ∧ (step s (.step 1 (.ext 0))).any (fun s' => decide
            (((s'.pool 1).ext 0).isIdle = true ∧ 7 ∈ tasksAt (s'.pool 1) (.held (0 : Fin 1)))) = true)) = true := by
      decide +kernel
    obtain ⟨s, hrun, hasked, hwait, hnext⟩ := Machine.exists_runIn_of_exec (fun _ _ => id) .nil hexec
    obtain ⟨s', hs, hret, hmem⟩ := Machine.exists_of_any hnext
    exact ⟨s, s', hrun, hasked, hwait, hs, hret, hmem⟩

end AsyncRuntime.Pools
