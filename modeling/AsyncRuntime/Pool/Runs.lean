import AsyncRuntime.Pool.Ownership
/-!
# Runs and deletions

A task is begun at most once, because it is at one place and the tasks begun are
with the worker that runs them or freed. It is deleted by the worker that ran it,
or by the destructor of the queue that still holds it when the pool is destroyed.
-/

namespace AsyncRuntime.Pool
open Lib Deque
variable {n m : Nat} {τ : Type} {s s' : Impl n m τ} {a : Act n m τ}

/-! ## What a step does to the record of runs -/

/-- The task that a worker is running. -/
def WorkerPc.task : WorkerPc n τ → Option τ
  | .running x _ => some x
  | _ => none

/-- What a step does to the record of runs: nothing, begin to run a task that the
worker has taken or takes from the global queue, or finish one. -/
inductive RunEffect (s s' : Impl n m τ) : Prop
  | keep : (∀ w, (s'.worker w).task = (s.worker w).task) → s'.started = s.started → s'.ran = s.ran → RunEffect s s'
  | begin (w x) : (s.worker w).task = none → x ∈ tasksAt s (.held w) ∨ x ∈ tasksAt s .global →
      s'.worker = Function.update s.worker w (.running x none) → s'.started = s.started ++ [(w, x)] →
      s'.ran = s.ran → RunEffect s s'
  | finish (w x) : (s.worker w).task = some x →
      s'.worker = Function.update s.worker w (.popping .popLoadBottom) → s'.started = s.started →
      s'.ran = s.ran ++ [x] → RunEffect s s'

theorem task_of_searching {pc : WorkerPc n τ} (h : pc.searching = true) : pc.task = none := by
  cases pc <;> first | rfl | cases h

theorem Move.task_eq {w : Fin n} {pc pc' : WorkerPc n τ} (h : Move s w pc pc') : pc'.task = pc.task := by
  cases h with
  | search h₁ h₂ => rw [task_of_searching h₁, task_of_searching h₂]
  | _ => rfl

theorem Locks.task_eq {pc pc' : WorkerPc n τ} (h : Locks pc pc') : pc'.task = pc.task := by
  cases h <;> rfl

theorem Unlocks.task_eq {pc pc' : WorkerPc n τ} (h : Unlocks pc pc') : pc'.task = pc.task := by
  cases h <;> rfl

theorem held_of_got {pc : WorkerPc n τ} {x : τ} (h : pc.got = some x) (d : WorkStealingDeque τ) :
    pc.task = none ∧ held d pc = some x := by
  cases pc with
  | popping p => cases p <;> cases h; exact ⟨rfl, rfl⟩
  | stealing spin start i q =>
    cases q with
    | none => cases h
    | some q => cases q <;> cases h; exact ⟨rfl, rfl⟩
  | _ => cases h

theorem Effect.run (e : Effect s a s') : RunEffect s s' := by
  cases e with
  | start w x hgot =>
    obtain ⟨htask, hheld⟩ := held_of_got hgot (s.deques w)
    exact .begin w x htask (.inl (by simp [tasksAt, hheld])) rfl rfl rfl
  | take w x g hpg hg =>
    exact .begin w x (task_of_searching (searching_of_popsGlobal hpg)) (.inr (by simp [tasksAt, hg])) rfl rfl rfl
  | finish w x hw => exact .finish w x (by rw [hw]; rfl) rfl rfl rfl
  | pop w p hw | push w x p hw | steal w spin start i q hw | incSleeping w hw | decSleeping w hw
  | spawn w y x hw | notifyNone w x hw | spurious w hw =>
    exact .keep (observe_update WorkerPc.task (g := s.worker) (by rw [hw]; rfl)) rfl rfl
  | extNotify i w hi hw => exact .keep (observe_update WorkerPc.task (by rw [hw]; rfl)) rfl rfl
  | move w pc rng hm => exact .keep (observe_update WorkerPc.task hm.task_eq) rfl rfl
  | lock w pc _ hl => exact .keep (observe_update WorkerPc.task hl.task_eq) rfl rfl
  | unlock w pc hl => exact .keep (observe_update WorkerPc.task hl.task_eq) rfl rfl
  | notify w x v hw hv =>
    exact .keep (observe_update₂ WorkerPc.task (by rw [hw]; rfl) (by rw [hv]; rfl)) rfl rfl
  | notifyAll => exact .keep (observe_notifyAll WorkerPc.task rfl) rfl rfl
  | call | publish | extMove | extLock | extUnlock | extNotifyNone | dtorMove | storeStop | dtorLock | dtorUnlock
  | destroy | destroyGlobal => exact .keep (fun _ => rfl) rfl rfl

/-! ## A task is begun once -/

/-- The record of runs: a worker's task is begun, and what was begun is finished
or still with the worker that began it. -/
structure Log (s : Impl n m τ) : Prop where
  begun : ∀ w x, (s.worker w).task = some x → (w, x) ∈ s.started
  running : ∀ w x, (w, x) ∈ s.started → x ∈ s.ran ∨ (s.worker w).task = some x
  ran : ∀ x ∈ s.ran, ∃ w, (w, x) ∈ s.started
  once : (s.started.map (·.2)).Nodup

theorem log_init : Log (init n m τ) := ⟨nofun, nofun, nofun, List.nodup_nil⟩

theorem held_of_task {pc : WorkerPc n τ} {x : τ} (h : pc.task = some x) (d : WorkStealingDeque τ) :
    held d pc = some x := by
  cases pc <;> first | exact h | cases h

/-- A task about to be run has not been begun: it would be with another worker or
freed, and it is at one place only. -/
theorem Log.fresh [DecidableEq τ] (h : Log s) (ho : Owned s) {w : Fin n} {x : τ} (htask : (s.worker w).task = none)
    (hx : x ∈ tasksAt s (.held w) ∨ x ∈ tasksAt s .global) : x ∉ s.started.map (·.2) := by
  intro hmem
  obtain ⟨⟨v, y⟩, hv, rfl⟩ := List.mem_map.1 hmem
  have hplace : ∃ p, y ∈ tasksAt s p ∧ p ≠ .held w ∧ p ≠ .global := by
    rcases h.running v y hv with hr | hr
    · exact ⟨.freed, hr, nofun, nofun⟩
    · refine ⟨.held v, by simp [tasksAt, held_of_task hr], ?_, nofun⟩
      rintro ⟨⟩
      rw [htask] at hr; cases hr
  obtain ⟨p, hp, hne, hne'⟩ := hplace
  rcases hx with hx | hx
  · exact hne (ho.place_unique hx hp)
  · exact hne' (ho.place_unique hx hp)

theorem Log.effect [DecidableEq τ] (h : Log s) (ho : Owned s) (e : Effect s a s') : Log s' := by
  cases e.run with
  | keep ht hs hr =>
    refine ⟨fun w x hw => ?_, fun w x hw => ?_, ?_, ?_⟩
    · rw [ht] at hw; rw [hs]; exact h.begun w x hw
    · rw [hs] at hw; rw [hr, ht]; exact h.running w x hw
    · rw [hs, hr]; exact h.ran
    · rw [hs]; exact h.once
  | begin w x htask hx hw hs hr =>
    -- the task is new in the record, as it was nowhere but with the worker or in the global queue
    have hnew := h.fresh ho htask hx
    refine ⟨fun v y hv => ?_, fun v y hv => ?_, fun y hy => ?_, ?_⟩
    · rw [hs]
      by_cases e : v = w
      · subst e
        rw [hw, Function.update_self] at hv
        cases hv
        exact List.mem_append_right _ (List.mem_singleton.2 rfl)
      · rw [hw, Function.update_of_ne e] at hv
        exact List.mem_append_left _ (h.begun v y hv)
    · rw [hs] at hv
      rcases List.mem_append.1 hv with hv | hv
      · rw [hr]
        refine (h.running v y hv).imp id fun hv' => ?_
        have e : v ≠ w := by
          rintro rfl
          rw [htask] at hv'; cases hv'
        rw [hw, Function.update_of_ne e]; exact hv'
      · cases List.mem_singleton.1 hv
        right; rw [hw, Function.update_self]; rfl
    · rw [hr] at hy
      obtain ⟨v, hv⟩ := h.ran y hy
      exact ⟨v, by rw [hs]; exact List.mem_append_left _ hv⟩
    · rw [hs, List.map_append, List.map_singleton, ← List.concat_eq_append]
      exact h.once.concat hnew
  | finish w x htask hw hs hr =>
    refine ⟨fun v y hv => ?_, fun v y hv => ?_, fun y hy => ?_, by rw [hs]; exact h.once⟩
    · rw [hs]
      by_cases e : v = w
      · subst e
        rw [hw, Function.update_self] at hv; cases hv
      · rw [hw, Function.update_of_ne e] at hv
        exact h.begun v y hv
    · rw [hs] at hv
      rw [hr]
      by_cases e : v = w
      · subst e
        left
        rcases h.running v y hv with hv | hv
        · exact List.mem_append_left _ hv
        · rw [htask] at hv; cases hv
          exact List.mem_append_right _ (List.mem_singleton.2 rfl)
      · rw [hw, Function.update_of_ne e]
        exact (h.running v y hv).imp (List.mem_append_left _) id
    · rw [hs]
      rw [hr] at hy
      rcases List.mem_append.1 hy with hy | hy
      · exact h.ran y hy
      · rw [List.mem_singleton.1 hy]; exact ⟨w, h.begun w x htask⟩

theorem Effect.ran_mono (e : Effect s a s') {x : τ} (h : x ∈ s.ran) : x ∈ s'.ran := by
  cases e with
  | finish => exact List.mem_append_left _ h
  | _ => exact h

theorem Effect.started_mono (e : Effect s a s') {r : Fin n × τ} (h : r ∈ s.started) : r ∈ s'.started := by
  cases e.run with
  | keep _ hs | finish w x _ _ hs => rw [hs]; exact h
  | begin w x _ _ _ hs => rw [hs]; exact List.mem_append_left _ h

/-! ## Deletions -/

variable [DecidableEq τ]

/-- How often the destructors of the queues have deleted `x` so far. -/
def destroyed (s : Impl n m τ) (x : τ) : Nat :=
  match s.dtor with
  | .destroy k => ∑ j : Fin n, if j.val < k then (remaining (s.deques j)).count x else 0
  | .destroyGlobal => ∑ j, (remaining (s.deques j)).count x
  | .finished => ∑ j, (remaining (s.deques j)).count x + s.global.count x
  | _ => 0

theorem destroyed_of_not_alone (h : s.dtor.alone = false) (x : τ) : destroyed s x = 0 := by
  unfold destroyed
  split <;> first | rfl | (rename_i hd; rw [hd] at h; cases h)

theorem destroyed_congr (hd : s'.dtor = s.dtor) (hf : s.dtor.alone = true → Frozen s s') (x : τ) :
    destroyed s' x = destroyed s x := by
  cases ha : s.dtor.alone with
  | false => rw [destroyed_of_not_alone ha, destroyed_of_not_alone (hd ▸ ha)]
  | true => simp only [destroyed, hd, (hf ha).deques, (hf ha).global]

/-- The deletions: one for each run, and one for each task that a destroyed queue
still held. -/
structure Deletions (s : Impl n m τ) : Prop where
  count : ∀ x, (s.deleted.map (·.2)).count x = s.ran.count x + destroyed s x
  worker : ∀ w x, (.worker w, x) ∈ s.deleted → (w, x) ∈ s.started ∧ x ∈ s.ran
  freed : ∀ x ∈ s.ran, ∃ w, (.worker w, x) ∈ s.deleted
  deque : ∀ j x, (.deque j, x) ∈ s.deleted → s.dtor.alone = true ∧ x ∈ remaining (s.deques j)
  global : ∀ x, (.global, x) ∈ s.deleted → s.dtor.alone = true ∧ x ∈ s.global

theorem deletions_init : Deletions (init n m τ) := ⟨fun _ => rfl, nofun, nofun, nofun, nofun⟩

/-- A step that deletes nothing and does not move the destructor. -/
theorem Deletions.stay (h : Deletions s) (e : Effect s a s') (hf : s.dtor.alone = true → Frozen s s')
    (hdel : s'.deleted = s.deleted) (hd : s'.dtor = s.dtor) (hr : s'.ran = s.ran) : Deletions s' := by
  refine ⟨fun x => ?_, fun w x hx => ?_, by rw [hdel, hr]; exact h.freed, fun j x hx => ?_, fun x hx => ?_⟩
  · rw [hdel, hr, destroyed_congr hd hf]; exact h.count x
  · rw [hdel] at hx; rw [hr]; exact (h.worker w x hx).imp e.started_mono id
  · rw [hdel] at hx
    obtain ⟨ha, hx⟩ := h.deque j x hx
    rw [hd, (hf ha).deques]; exact ⟨ha, hx⟩
  · rw [hdel] at hx
    obtain ⟨ha, hx⟩ := h.global x hx
    rw [hd, (hf ha).global]; exact ⟨ha, hx⟩

/-- A step before the deletions begin that deletes nothing. -/
theorem Deletions.before (h : Deletions s) (e : Effect s a s') (ha : s.dtor.alone = false)
    (hdel : s'.deleted = s.deleted) (hr : s'.ran = s.ran) (hz : ∀ x, destroyed s' x = 0) : Deletions s' := by
  refine ⟨fun x => ?_, fun w x hx => ?_, by rw [hdel, hr]; exact h.freed, fun j x hx => ?_, fun x hx => ?_⟩
  · rw [hdel, hr, h.count x, hz x, destroyed_of_not_alone ha]
  · rw [hdel] at hx; rw [hr]; exact (h.worker w x hx).imp e.started_mono id
  · rw [hdel] at hx
    exact absurd ((h.deque j x hx).1.symm.trans ha) nofun
  · rw [hdel] at hx
    exact absurd ((h.global x hx).1.symm.trans ha) nofun

theorem Deletions.finish (h : Deletions s) (hl : Log s) (ht : Teardown s) {w : Fin n} {x : τ}
    (hw : s.worker w = .running x none) :
    Deletions { s.setWorker w (.popping .popLoadBottom) with
      ran := s.ran ++ [x], deleted := s.deleted ++ [(.worker w, x)] } := by
  have ha : s.dtor.alone = false := by
    by_contra ha
    have := ht.alone (by simpa using ha) w
    rw [hw] at this; cases this
  refine ⟨fun y => ?_, fun v y hy => ?_, fun y hy => ?_, fun j y hy => ?_, fun y hy => ?_⟩
  · have hy := h.count y
    have hz : destroyed { s.setWorker w (.popping .popLoadBottom) with
      ran := s.ran ++ [x], deleted := s.deleted ++ [(.worker w, x)] } y = 0 := destroyed_of_not_alone ha y
    rw [destroyed_of_not_alone ha] at hy
    rw [hz, List.map_append, List.count_append, List.count_append, hy]
    rfl
  · rcases List.mem_append.1 hy with hy | hy
    · exact (h.worker v y hy).imp id (List.mem_append_left _)
    · cases List.mem_singleton.1 hy
      exact ⟨hl.begun _ _ (by rw [hw]; rfl), List.mem_append_right _ (List.mem_singleton.2 rfl)⟩
  · rcases List.mem_append.1 hy with hy | hy
    · exact (h.freed y hy).imp fun _ => List.mem_append_left _
    · rw [List.mem_singleton.1 hy]
      exact ⟨w, List.mem_append_right _ (List.mem_singleton.2 rfl)⟩
  · rcases List.mem_append.1 hy with hy | hy
    · exact h.deque j y hy
    · cases List.mem_singleton.1 hy
  · rcases List.mem_append.1 hy with hy | hy
    · exact h.global y hy
    · cases List.mem_singleton.1 hy

/-- `~work_stealing_deque` of deque `j`. -/
theorem Deletions.destroy (h : Deletions s) {j : Fin n} (hd : s.dtor = .destroy j) :
    Deletions { s with
      deleted := s.deleted ++ (remaining (s.deques j)).map (fun x => (.deque j, x)), dtor := .destroy (j + 1) } := by
  have ha : s.dtor.alone = true := by rw [hd]; rfl
  refine ⟨fun y => ?_, fun v y hy => ?_, fun y hy => ?_, fun i y hy => ?_, fun y hy => ?_⟩
  · have hy := h.count y
    have hsum := sum_change (f := fun i : Fin n => if i.val < j + 1 then (remaining (s.deques i)).count y else 0)
      (g := fun i : Fin n => if i.val < j then (remaining (s.deques i)).count y else 0) j fun i hi => by
        have : i.val ≠ j.val := fun e => hi (Fin.ext e)
        have hiff : i.val < j.val + 1 ↔ i.val < j.val := by omega
        simp only [hiff]
    simp only [lt_irrefl, if_false, Nat.lt_succ_self, if_true] at hsum
    simp only [destroyed, hd] at hy ⊢
    simp only [List.map_append, List.count_append, List.map_map, Function.comp_def, List.map_id']
    omega
  · rcases List.mem_append.1 hy with hy | hy
    · exact h.worker v y hy
    · obtain ⟨_, _, ⟨⟩⟩ := List.mem_map.1 hy
  · exact (h.freed y hy).imp fun _ => List.mem_append_left _
  · refine ⟨rfl, ?_⟩
    rcases List.mem_append.1 hy with hy | hy
    · exact (h.deque i y hy).2
    · obtain ⟨_, hz, ⟨⟩⟩ := List.mem_map.1 hy
      exact hz
  · rcases List.mem_append.1 hy with hy | hy
    · exact ⟨rfl, (h.global y hy).2⟩
    · obtain ⟨_, _, ⟨⟩⟩ := List.mem_map.1 hy

/-- `~global_task_queue`. -/
theorem Deletions.destroyGlobal (h : Deletions s) (hd : s.dtor = .destroyGlobal) :
    Deletions { s with deleted := s.deleted ++ s.global.map (fun x => (.global, x)), dtor := .finished } := by
  refine ⟨fun y => ?_, fun v y hy => ?_, fun y hy => ?_, fun i y hy => ?_, fun y hy => ?_⟩
  · have hy := h.count y
    simp only [destroyed, hd] at hy ⊢
    simp only [List.map_append, List.count_append, List.map_map, Function.comp_def, List.map_id']
    omega
  · rcases List.mem_append.1 hy with hy | hy
    · exact h.worker v y hy
    · obtain ⟨_, _, ⟨⟩⟩ := List.mem_map.1 hy
  · exact (h.freed y hy).imp fun _ => List.mem_append_left _
  · rcases List.mem_append.1 hy with hy | hy
    · exact ⟨rfl, (h.deque i y hy).2⟩
    · obtain ⟨_, _, ⟨⟩⟩ := List.mem_map.1 hy
  · refine ⟨rfl, ?_⟩
    rcases List.mem_append.1 hy with hy | hy
    · exact (h.global y hy).2
    · obtain ⟨_, hz, ⟨⟩⟩ := List.mem_map.1 hy
      exact hz

theorem Deletions.effect (h : Deletions s) (hl : Log s) (ht : Teardown s) (e : Effect s a s') : Deletions s' := by
  have stay := h.stay e fun ha =>
    have hd : s.dtor ≠ .idle := by intro hd; rw [hd] at ha; cases ha
    e.frozen hd (ht.ext_idle hd) (ht.alone ha)
  have before := h.before e
  cases e with
  | finish w x hw => exact h.finish hl ht hw
  | dtorMove pc hm =>
    generalize hpc : s.dtor = old at hm before
    cases hm with
    | begin | join => exact before rfl rfl rfl fun _ => rfl
    | joined => exact before rfl rfl rfl fun _ => by simp [destroyed]
    | @destroyed k hk =>
      refine ⟨fun x => ?_, h.worker, h.freed, fun j x hx => ⟨rfl, (h.deque j x hx).2⟩,
        fun x hx => ⟨rfl, (h.global x hx).2⟩⟩
      have hx := h.count x
      have hall : ∀ j : Fin n, j.val < k := fun j => lt_of_lt_of_le j.isLt hk
      simpa only [Pool.destroyed, hpc, hall, if_true] using hx
  | storeStop hd => exact before (by rw [hd]; rfl) rfl rfl fun _ => rfl
  | dtorLock _ hd => exact before (by rw [hd]; rfl) rfl rfl fun _ => rfl
  | notifyAll hd => exact before (by rw [hd]; rfl) rfl rfl fun _ => rfl
  | dtorUnlock hd => exact before (by rw [hd]; rfl) rfl rfl fun _ => rfl
  | destroy j hd => exact h.destroy hd
  | destroyGlobal hd => exact h.destroyGlobal hd
  | _ => exact stay rfl rfl rfl

/-! ## The pool's accounts -/

/-- What is known of the tasks of a pool. -/
structure Accounts (s : Impl n m τ) : Prop where
  owned : Owned s
  log : Log s
  teardown : Teardown s
  deletions : Deletions s

theorem accounts_of_run {acts : List (Act n m τ)} (h : (machine n m τ).Run acts s) : Accounts s := by
  refine inv_of_run ⟨owned_init, log_init, teardown_init, deletions_init⟩ ?_ h
  intro as s a s' hr e ha
  exact ⟨ha.owned.effect (safe_of_run hr) e, ha.log.effect ha.owned e, ha.teardown.effect e,
    ha.deletions.effect ha.log ha.teardown e⟩

/-- Only allocated tasks are run. -/
theorem Accounts.mem_allocated (h : Accounts s) {w : Fin n} {x : τ} (hx : (w, x) ∈ s.started) : x ∈ allocated s := by
  rcases h.log.running w x hx with hr | hr
  · exact h.owned.mem_allocated (p := .freed) hr
  · exact h.owned.mem_allocated (p := .held w) (by simp [tasksAt, held_of_task hr])

/-- With every thread out of the pool, the tasks are in the queues or run. -/
theorem total_of_exited (hi : ∀ i, s.ext i = .idle) (hx : ∀ w, s.worker w = .exited) (x : τ) :
    total s x = ∑ j, (remaining (s.deques j)).count x + s.global.count x + s.ran.count x := by
  have hcell : ∀ w, cell (s.deques w) (s.worker w) x = (remaining (s.deques w)).count x := by
    intro w; rw [hx w]; rfl
  have hcall : ∀ i, (s.ext i).calling.toList.count x = 0 := by
    intro i; rw [hi i]; rfl
  simp only [total, hcell, hcall, Finset.sum_const_zero, Nat.add_zero]

/-- The deleter of a task is the worker that ran it, or the queue that still
holds it. -/
def Deleter.Justified (s : Impl n m τ) (x : τ) : Deleter n → Prop
  | .worker w => (w, x) ∈ s.started ∧ x ∈ s.ran
  | .deque j => x ∈ tasksAt s (.deque j)
  | .global => x ∈ tasksAt s .global

theorem Accounts.deleted_once (h : Accounts s) (hd : s.dtor = .finished) {x : τ} (hx : x ∈ allocated s) :
    (s.deleted.map (·.2)).count x = 1 ∧ ∃ D : Deleter n, (D, x) ∈ s.deleted ∧ D.Justified s x := by
  have hout := h.teardown.alone (by rw [hd]; rfl)
  have hidle := h.teardown.ext_idle (by rw [hd]; nofun)
  have hone : (s.deleted.map (·.2)).count x = 1 := by
    have hdel := h.deletions.count x
    have htot := total_of_exited hidle hout x
    have hcount := h.owned.count x
    rw [List.count_eq_one_of_mem h.owned.fresh hx] at hcount
    simp only [destroyed, hd] at hdel
    omega
  refine ⟨hone, ?_⟩
  obtain ⟨⟨D, y⟩, hmem, rfl⟩ := List.mem_map.1 (List.count_pos_iff.1 (hone.symm ▸ Nat.one_pos))
  refine ⟨D, hmem, ?_⟩
  cases D with
  | worker w => exact h.deletions.worker w y hmem
  | deque j =>
    have hin := (h.deletions.deque j y hmem).2
    simp only [Deleter.Justified, tasksAt, hout j]
    exact hin
  | global => exact (h.deletions.global y hmem).2

/-- In every state a pool reaches, each task ever enqueued is at exactly one
place: in an unfinished `enqueue`, in the global queue, in one deque, in the
hands of one worker, or run and freed. No task is begun twice. When the
destructor has finished, each task has been deleted exactly once, by the worker
that ran it or by the destructor of the queue that still held it. -/
theorem tasks_owned_once {acts : List (Act n m τ)} (h : (machine n m τ).Run acts s) :
    (∀ x ∈ allocated s, ∃ p, (tasksAt s p).count x = 1 ∧ ∀ p', p' ≠ p → x ∉ tasksAt s p') ∧
    (s.started.map (·.2)).Nodup ∧
    (∀ x, x ∈ s.ran ↔ ∃ w, (.worker w, x) ∈ s.deleted) ∧
    (s.dtor = .finished → ∀ x ∈ allocated s,
      (s.deleted.map (·.2)).count x = 1 ∧ ∃ D : Deleter n, (D, x) ∈ s.deleted ∧ D.Justified s x) := by
  have ha := accounts_of_run h
  refine ⟨fun x hx => ha.owned.place hx, ha.log.once, fun x => ⟨ha.deletions.freed x, ?_⟩,
    fun hd x hx => ha.deleted_once hd hx⟩
  rintro ⟨w, hw⟩
  exact (ha.deletions.worker w x hw).2

/-- One worker runs a task from outside and the task that this one spawns, goes
on to find nothing, and leaves when the destructor has set `stop`; a third task
enters the global queue in between and is deleted there. -/
def threeTasks {n m : Nat} (i : Fin m) (w : Fin n) : List (Act n m Nat) := List.flatten
  [[.enqueue (.ext i) 7], List.replicate 2 (.step (.ext i)), List.replicate 8 (.step (.worker w)),
   [.enqueue (.worker w) 8], List.replicate 7 (.step (.worker w)), [.finish w],
   List.replicate 8 (.step (.worker w)), [.finish w], List.replicate 7 (.step (.worker w)),
   [.enqueue (.ext i) 9], List.replicate 2 (.step (.ext i)), List.replicate 5 (.step .dtor),
   [.step (.worker w)], List.replicate 5 (.step .dtor)]

theorem tasks_owned_once_three_tasks : ∃ s, (machine 1 1 Nat).Run (threeTasks 0 0) s ∧
    s.deleted = [(.worker 0, 7), (.worker 0, 8), (.global, 9)] ∧
    (∀ x ∈ [7, 8, 9], ∃ p, (tasksAt s p).count x = 1 ∧ ∀ p', p' ≠ p → x ∉ tasksAt s p') ∧
    (s.started.map (·.2)).Nodup ∧
    ∀ x ∈ [7, 8, 9], (s.deleted.map (·.2)).count x = 1 ∧ ∃ D : Deleter 1, (D, x) ∈ s.deleted ∧ D.Justified s x := by
  have hexec : ((machine 1 1 Nat).exec (threeTasks 0 0)).any (fun s => decide (allocated s = [7, 8, 9] ∧
      s.dtor = .finished ∧ s.deleted = [(.worker 0, 7), (.worker 0, 8), (.global, 9)])) = true := by decide +kernel
  obtain ⟨s, hrun, halloc, hdtor, hdel⟩ := Machine.exists_run_of_exec hexec
  obtain ⟨hplace, honce, -, hdeleted⟩ := tasks_owned_once hrun
  rw [halloc] at hplace hdeleted
  exact ⟨s, hrun, hdel, hplace, honce, hdeleted hdtor⟩

end AsyncRuntime.Pool
