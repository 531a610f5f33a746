import AsyncRuntime.Lib.Forest
import AsyncRuntime.Pool.Wakeup
/-!
# The order of a one-worker pool

The only worker takes its own newest task first and goes to the global queue when
its deque is empty. So the deque is the stack of a depth-first walk: the tasks
begun so far, followed by the visits of what is on the stack and then of what is
in the global queue, are the visits of the roots that have been enqueued.
-/

namespace AsyncRuntime.Pool
open Lib Deque
variable {n m : Nat} {τ : Type}

/-- The number of workers of `thread_pool(thread_count)`. -/
def workerCount (threadCount : Nat) : Nat := if threadCount = 0 then 1 else threadCount

/-! ## Runs that follow a forest -/

/-- The tasks that tasks have enqueued. -/
def Impl.spawnedTasks (s : Impl n m τ) : List τ :=
  s.enqueued.filterMap fun p => match p.1 with
    | .worker _ => some p.2
    | _ => none

variable [DecidableEq τ]

/-- The task has been enqueued from outside and is past the push to the global
queue. -/
def Impl.pushed (s : Impl n m τ) (x : τ) : Bool :=
  decide ((∃ i, (.ext i, x) ∈ s.enqueued) ∧ ∀ i, (s.ext i).calling ≠ some x)

/-- The children of `y` that have not been enqueued yet. -/
def unspawned (F : List (RoseTree τ)) (spawned : List τ) (y : τ) : List τ :=
  (kids F y).filter fun z => decide (z ∉ spawned)

/-- The roots that have not been enqueued yet. -/
def unpushed (F : List (RoseTree τ)) (s : Impl n m τ) : List τ := (roots F).filter fun r => !s.pushed r

/-- The action keeps to the forest: external threads enqueue its roots, which
enter the global queue in their order, and each task enqueues its children in
their order and finishes when it has enqueued all of them. -/
def Follows (F : List (RoseTree τ)) (s : Impl n m τ) : Act n m τ → Bool
  | .enqueue (.ext _) x => decide (x ∈ roots F)
  | .enqueue (.worker w) x => (s.worker w).task.all fun y => (unspawned F s.spawnedTasks y).head? = some x
  | .finish w => (s.worker w).task.all fun y => (unspawned F s.spawnedTasks y).isEmpty
  | .step (.ext i) => (s.ext i).calling.all fun x => (unpushed F s).head? = some x
  | _ => true

/-! ## What is left to run -/

/-- The stack of the walk, newest last: the tasks in the deque, then the task that
a pop has taken, or the children of the running task that are not in the deque
yet. -/
def stack (F : List (RoseTree τ)) (spawned : List τ) (d : WorkStealingDeque τ) (pc : WorkerPc n τ) : List τ :=
  contents d pc.owner ++ match pc with
    | .popping p => (taken d p).toList
    | .running y _ => pc.spawning.toList ++ unspawned F spawned y
    | _ => []

/-- The tasks to come, in their order, with what has been pushed so far. -/
def rest (F : List (RoseTree τ)) (s : Impl 1 m τ) : List τ :=
  (stack F s.spawnedTasks (s.deques 0) (s.worker 0)).reverse.flatMap (order F) ++ s.global.flatMap (order F)

section Stack
variable {F : List (RoseTree τ)} {spawned : List τ} {d d' : WorkStealingDeque τ} {s : Impl n m τ}

theorem stack_of_searching {pc : WorkerPc n τ} (h : pc.searching = true) :
    stack F spawned d pc = window d.cur.load d.top d.bottom := by
  unfold stack
  rw [owner_of_searching h]
  cases pc <;> first | exact List.append_nil _ | cases h

theorem Move.stack_eq {w : Fin n} {pc pc' : WorkerPc n τ} (h : Move s w pc pc') :
    stack F spawned d pc' = stack F spawned d pc := by
  cases h with
  | search h₁ h₂ => rw [stack_of_searching h₁, stack_of_searching h₂]
  | _ => rfl

theorem Locks.stack_eq {pc pc' : WorkerPc n τ} (h : Locks pc pc') : stack F spawned d pc' = stack F spawned d pc := by
  cases h <;> rfl

theorem Unlocks.stack_eq {pc pc' : WorkerPc n τ} (h : Unlocks pc pc') :
    stack F spawned d pc' = stack F spawned d pc := by
  cases h <;> rfl

theorem stack_pop {p p' : OwnerPc τ} (h : OwnerEffect d p d' p') (hp : p.isPop = true) :
    stack F spawned d' (.popping p' : WorkerPc n τ) = stack F spawned d (.popping p : WorkerPc n τ) := by
  simp only [stack, WorkerPc.owner]
  cases h with
  | quiet hc _ ht => rw [hc, ht]
  | push y _ hy => rw [input_of_isPop hp] at hy; cases hy
  | pop y hc _ _ ht ht' => rw [hc, ht, ht']; simp

theorem stack_push {p p' : OwnerPc τ} (h : OwnerEffect d p d' p') (hp' : p'.isPush = true) (y : τ) :
    stack F spawned d' (.running y (some (.push p')) : WorkerPc n τ) =
      stack F spawned d (.running y (some (.push p)) : WorkerPc n τ) := by
  simp only [stack, WorkerPc.owner, WorkerPc.spawning, EnqPc.task]
  cases h with
  | quiet hc hi _ => rw [hc, hi]
  | push z hc hi hi' => rw [hc, hi, hi']; simp
  | pop z _ _ _ _ ht => rw [taken_of_isPush hp'] at ht; cases ht

/-- A task with none of its children enqueued. -/
theorem unspawned_eq_kids {x : τ} (h : ∀ z ∈ kids F x, z ∉ spawned) : unspawned F spawned x = kids F x :=
  List.filter_eq_self.2 fun z hz => decide_eq_true (h z hz)

/-- The first element that passes a test is dropped. -/
theorem filter_eq_cons {l : List τ} (hl : l.Nodup) {p q : τ → Bool} {x : τ} (h : (l.filter p).head? = some x)
    (hq : ∀ z ∈ l, q z = (decide (z ≠ x) && p z)) : l.filter p = x :: l.filter q := by
  obtain ⟨tl, htl⟩ : ∃ tl, l.filter p = x :: tl := by
    cases hu : l.filter p with
    | nil => rw [hu] at h; cases h
    | cons z tl =>
      rw [hu] at h; cases h
      exact ⟨tl, rfl⟩
  have hnodup : (x :: tl).Nodup := by
    rw [← htl]; exact hl.filter _
  rw [List.filter_congr hq, ← List.filter_filter, htl, List.filter_cons_of_neg (by simp), List.filter_eq_self.2]
  intro z hz
  refine decide_eq_true ?_
  rintro rfl
  exact (List.nodup_cons.1 hnodup).1 hz

/-- The next child is enqueued. -/
theorem unspawned_spawn (hF : (labels F).Nodup) {x y : τ} (h : (unspawned F spawned y).head? = some x) :
    unspawned F spawned y = x :: unspawned F (spawned ++ [x]) y := by
  refine filter_eq_cons (kids_nodup hF y) h fun z _ => ?_
  simp only [List.mem_append, List.mem_singleton, not_or, Bool.decide_and]
  exact Bool.and_comm _ _

/-- A task is begun: it gives way to its children. -/
theorem visit_begin (hF : (labels F).Nodup) {x : τ} (hx : x ∈ labels F) (D : List τ) :
    x :: (D ++ kids F x).reverse.flatMap (order F) = (D ++ [x]).reverse.flatMap (order F) := by
  simp only [List.reverse_append, List.flatMap_append, List.reverse_cons, List.reverse_nil, List.nil_append,
    List.flatMap_cons, order_eq hF hx, List.cons_append]

end Stack

/-! ## One step of the walk -/

section OneWorker
variable {F : List (RoseTree τ)} {s s' : Impl 1 m τ} {a : Act 1 m τ}

/-- The root that the action puts into the global queue. -/
def Impl.pushes (s : Impl n m τ) : Act n m τ → Option τ
  | .step (.ext i) => (s.ext i).calling
  | _ => none

omit [DecidableEq τ] in
/-- The only worker has nobody to steal from. -/
theorem Safe.not_stealing (h : Safe s) (w : Fin 1) (spin : Option Nat) (start i : Nat) (q : ThiefPc τ) :
    s.worker w ≠ .stealing spin start i (some q) := by
  intro hw
  exact (h.stealing hw).1 (Subsingleton.elim _ _)

omit [DecidableEq τ] in
theorem Safe.popDone_of_got (h : Safe s) {w : Fin 1} {x : τ} (hgot : (s.worker w).got = some x) :
    s.worker w = .popping (.popDone (some x)) := by
  cases hpc : s.worker w with
  | popping p => rw [hpc] at hgot; cases p <;> cases hgot; rfl
  | stealing spin start i q =>
    cases q with
    | none => rw [hpc] at hgot; cases hgot
    | some q => exact absurd hpc (h.not_stealing w spin start i q)
  | _ => rw [hpc] at hgot; cases hgot

/-- What is known along a run that follows `F`: only its tasks are enqueued,
children only by their parents, and the tasks begun and the tasks to come are the
visits of the roots pushed so far. -/
structure Walk (F : List (RoseTree τ)) (s : Impl 1 m τ) : Prop where
  labels : ∀ x ∈ allocated s, x ∈ labels F
  parent : ∀ z ∈ s.spawnedTasks, ∃ y ∈ s.started.map (·.2), z ∈ kids F y
  walked : ∃ pre, roots F = pre ++ unpushed F s ∧ s.started.map (·.2) ++ rest F s = pre.flatMap (order F)

/-- A task that has not been begun has none of its children enqueued. -/
theorem Walk.unspawned_kids (h : Walk F s) (hF : (Lib.labels F).Nodup) {x : τ} (hx : x ∉ s.started.map (·.2)) :
    unspawned F s.spawnedTasks x = kids F x := by
  refine unspawned_eq_kids fun z hz hsp => ?_
  obtain ⟨y, hy, hzy⟩ := h.parent z hsp
  rw [parent_unique hF hz hzy] at hx
  exact hx hy

omit [DecidableEq τ] in
theorem spawnedTasks_append (θ : Thread n m) (x : τ) (s : Impl n m τ) (t : Impl n m τ)
    (h : t.enqueued = s.enqueued ++ [(θ, x)]) :
    t.spawnedTasks = s.spawnedTasks ++ match θ with
      | .worker _ => [x]
      | _ => [] := by
  simp only [Impl.spawnedTasks, h, List.filterMap_append]
  cases θ <;> rfl

theorem rest_congr (hsp : s'.spawnedTasks = s.spawnedTasks) (hg : s'.global = s.global)
    (hst : stack F s.spawnedTasks (s'.deques 0) (s'.worker 0) = stack F s.spawnedTasks (s.deques 0) (s.worker 0)) :
    rest F s' = rest F s := by
  unfold rest
  rw [hsp, hg, hst]

omit [DecidableEq τ] in
theorem ExtMove.not_calling {s : Impl n m τ} {pc pc' : ExtPc n τ} (h : ExtMove s pc pc') : pc.calling = none := by
  cases h <;> rfl

/-- The worker moves, and the stack stays as it is. -/
theorem rest_moved {w : Fin 1} {pc : WorkerPc 1 τ} (hsp : s'.spawnedTasks = s.spawnedTasks) (hg : s'.global = s.global)
    (hd : s'.deques = s.deques) (hw : s'.worker = Function.update s.worker w pc)
    (hst : stack F s.spawnedTasks (s.deques w) pc = stack F s.spawnedTasks (s.deques w) (s.worker w)) :
    rest F s' = rest F s := by
  obtain rfl : w = 0 := Subsingleton.elim _ _
  refine rest_congr hsp hg ?_
  rw [hd, hw, Function.update_self]
  exact hst

/-- The running task enqueues its next child. -/
theorem rest_spawn (hF : (Lib.labels F).Nodup) {w : Fin 1} {x y : τ} (hw : s.worker w = .running y none)
    (hnext : (unspawned F s.spawnedTasks y).head? = some x) (hq : s'.enqueued = s.enqueued ++ [(.worker w, x)])
    (hg : s'.global = s.global) (hd : s'.deques = s.deques)
    (hw' : s'.worker = Function.update s.worker w (.running y (some (.push (.pushLoadBottom x))))) :
    rest F s' = rest F s := by
  obtain rfl : w = 0 := Subsingleton.elim _ _
  have hsp : s'.spawnedTasks = s.spawnedTasks ++ [x] := spawnedTasks_append (.worker 0) x s s' hq
  simp only [rest, hsp, hg, hd, hw', Function.update_self, hw, stack, unspawned_spawn hF hnext]
  rfl

/-- The worker begins a task that it has popped from its deque. -/
theorem Walk.start (h : Walk F s) (hF : (Lib.labels F).Nodup) (hs : Safe s) (ha : Accounts s) {w : Fin 1} {x : τ}
    (hgot : (s.worker w).got = some x) :
    (s.start w x).started.map (·.2) ++ rest F (s.start w x) = s.started.map (·.2) ++ rest F s := by
  obtain rfl : w = 0 := Subsingleton.elim _ _
  obtain ⟨htask, hheld⟩ := held_of_got hgot (s.deques 0)
  have hmem : x ∈ tasksAt s (.held 0) := by simp [tasksAt, hheld]
  have hun := h.unspawned_kids hF (ha.log.fresh ha.owned htask (.inl hmem))
  have hvisit := visit_begin hF (h.labels x (ha.owned.mem_allocated hmem))
    (window (s.deques 0).cur.load (s.deques 0).top (s.deques 0).bottom)
  have hpc := hs.popDone_of_got hgot
  have hstack : stack F s.spawnedTasks (s.deques 0) (s.worker 0) =
      window (s.deques 0).cur.load (s.deques 0).top (s.deques 0).bottom ++ [x] := by rw [hpc]; rfl
  have hstack' : stack F s.spawnedTasks (s.deques 0) (.running x none : WorkerPc 1 τ) =
      window (s.deques 0).cur.load (s.deques 0).top (s.deques 0).bottom ++ kids F x := by rw [← hun]; rfl
  have hsp : (s.start 0 x).spawnedTasks = s.spawnedTasks := rfl
  simp only [rest, hsp, hstack, ← hvisit]
  simp only [Impl.start, Impl.setWorker, Function.update_self, hstack', List.map_append, List.map_cons, List.map_nil,
    List.append_assoc, List.cons_append, List.nil_append]

/-- The worker begins a task from the global queue, with its deque empty. -/
theorem Walk.take (h : Walk F s) (hF : (Lib.labels F).Nodup) (hs : Safe s) (ha : Accounts s) {w : Fin 1} {x : τ}
    {g : List τ} (hpg : (s.worker w).popsGlobal = true) (hg : s.global = x :: g) :
    (({ s with global := g } : Impl 1 m τ).start w x).started.map (·.2) ++
      rest F (({ s with global := g } : Impl 1 m τ).start w x) = s.started.map (·.2) ++ rest F s := by
  obtain rfl : w = 0 := Subsingleton.elim _ _
  have hsch := searching_of_popsGlobal hpg
  have hmem : x ∈ tasksAt s .global := by simp [tasksAt, hg]
  have hun := h.unspawned_kids hF (ha.log.fresh ha.owned (task_of_searching hsch) (.inr hmem))
  have hempty : window (s.deques 0).cur.load (s.deques 0).top (s.deques 0).bottom = [] :=
    window_nil _ (hs.drained 0 (drained_of_searching hsch)).ge
  have hstack : stack F s.spawnedTasks (s.deques 0) (s.worker 0) = [] := by rw [stack_of_searching hsch, hempty]
  have hstack' : stack F s.spawnedTasks (s.deques 0) (.running x none : WorkerPc 1 τ) = kids F x := by
    rw [← hun]
    exact congrArg (· ++ unspawned F s.spawnedTasks x) hempty
  have hsp : (({ s with global := g } : Impl 1 m τ).start 0 x).spawnedTasks = s.spawnedTasks := rfl
  have hkids : x :: (kids F x).reverse.flatMap (order F) = order F x := (order_eq hF (h.labels x
    (ha.owned.mem_allocated hmem))).symm
  simp only [rest, hsp, hstack, hg, List.reverse_nil, List.flatMap_nil, List.nil_append, List.flatMap_cons, ← hkids]
  simp only [Impl.start, Impl.setWorker, Function.update_self, hstack', List.map_append, List.map_cons, List.map_nil,
    List.append_assoc, List.cons_append, List.nil_append]

/-- A step begins the task whose turn it is, or begins none and changes nothing in
what is to come, except for the root that it pushes. -/
theorem Walk.visits_step (h : Walk F s) (hF : (Lib.labels F).Nodup) (hs : Safe s) (ha : Accounts s)
    (e : Effect s a s') (hf : Follows F s a = true) :
    s'.started.map (·.2) ++ rest F s' =
      s.started.map (·.2) ++ rest F s ++ (s.pushes a).toList.flatMap (order F) := by
  have keep : s'.started = s.started → s.pushes a = none → rest F s' = rest F s →
      s'.started.map (·.2) ++ rest F s' =
        s.started.map (·.2) ++ rest F s ++ (s.pushes a).toList.flatMap (order F) := by
    intro hst hp hr
    rw [hst, hr, hp, Option.toList_none, List.flatMap_nil, List.append_nil]
  cases e with
  | pop w p hw =>
    obtain rfl : w = 0 := Subsingleton.elim _ _
    obtain ⟨hi, hc⟩ := hs.popping hw
    refine keep rfl rfl (rest_congr rfl rfl ?_)
    simp only [Impl.setWorker, Impl.setDeque, Function.update_self, hw]
    exact stack_pop (ownerStep_ok hi).effect hc
  | push w x p hw =>
    obtain rfl : w = 0 := Subsingleton.elim _ _
    obtain ⟨hi, hc⟩ := hs.pushing hw
    refine keep rfl rfl (rest_congr rfl rfl ?_)
    simp only [Impl.setWorker, Impl.setDeque, Function.update_self, hw]
    exact stack_push (ownerStep_ok hi).effect (isPush_ownerStep hc) x
  | steal w spin start i q hw => exact absurd hw (hs.not_stealing w spin start i q)
  | start w x hgot =>
    rw [h.start hF hs ha hgot]
    exact (List.append_nil _).symm
  | take w x g hpg hg =>
    rw [h.take hF hs ha hpg hg]
    exact (List.append_nil _).symm
  | move w pc rng hm => exact keep rfl rfl (rest_moved rfl rfl rfl rfl hm.stack_eq)
  | lock w pc _ hl => exact keep rfl rfl (rest_moved rfl rfl rfl rfl hl.stack_eq)
  | unlock w pc hl => exact keep rfl rfl (rest_moved rfl rfl rfl rfl hl.stack_eq)
  | incSleeping w hw | decSleeping w hw | notifyNone w x hw | spurious w hw =>
    exact keep rfl rfl (rest_moved rfl rfl rfl rfl (by rw [hw]; rfl))
  | extNotify i w hi hw => exact keep rfl rfl (rest_moved rfl rfl rfl rfl (by rw [hw]; rfl))
  -- a task returns only when it has enqueued all its children
  | finish w x hw =>
    refine keep rfl rfl (rest_moved rfl rfl rfl rfl ?_)
    have hnil : unspawned F s.spawnedTasks x = [] := by
      simpa only [Follows, hw, WorkerPc.task, Option.all_some, List.isEmpty_iff] using hf
    rw [hw]
    simp only [stack, WorkerPc.spawning, hnil]
    rfl
  | spawn w y x hw hx =>
    have hnext : (unspawned F s.spawnedTasks y).head? = some x := by
      simpa only [Follows, hw, WorkerPc.task, Option.all_some, decide_eq_true_eq] using hf
    exact keep rfl rfl (rest_spawn hF hw hnext rfl rfl rfl rfl)
  | call i x hi =>
    refine keep rfl rfl (rest_congr ?_ rfl rfl)
    rw [spawnedTasks_append (.ext i) x s _ rfl, List.append_nil]
  | publish i x hi =>
    have hp : s.pushes (.step (.ext i)) = some x := by simp only [Impl.pushes, hi]; rfl
    rw [hp]
    simp only [rest, Impl.setExt, List.flatMap_append, Option.toList_some, List.append_assoc]
    rfl
  | extMove i pc _ hact hm =>
    refine keep rfl ?_ rfl
    rcases hact with rfl | rfl
    · exact hm.not_calling
    · rfl
  | extLock i _ hi | extUnlock i hi => exact keep rfl (by simp only [Impl.pushes, hi]; rfl) rfl
  | notify w x v hw hv =>
    obtain rfl : v = w := Subsingleton.elim _ _
    rw [hv] at hw; cases hw
  | extNotifyNone => exact keep rfl rfl rfl
  | notifyAll =>
    refine keep rfl rfl (rest_congr rfl rfl ?_)
    exact observe_notifyAll (fun pc => stack F s.spawnedTasks (s.deques 0) pc) rfl 0
  | dtorMove | storeStop | dtorLock | dtorUnlock | destroy | destroyGlobal => exact keep rfl rfl rfl

/-! ## The roots that are still to come -/

theorem pushed_congr {s s' : Impl n m τ} (hq : ∀ i x, (.ext i, x) ∈ s'.enqueued ↔ (.ext i, x) ∈ s.enqueued)
    (hc : ∀ i, (s'.ext i).calling = (s.ext i).calling) : s'.pushed = s.pushed := by
  funext x
  simp only [Impl.pushed, hq, hc]

/-- A new call from outside has not pushed its task. -/
theorem pushed_call {i : Fin m} {x : τ} {s s' : Impl n m τ} (hx : x ∉ allocated s) (hi : s.ext i = .idle)
    (hq : s'.enqueued = s.enqueued ++ [(.ext i, x)])
    (he : s'.ext = Function.update s.ext i (.enqueue (.pushGlobal x))) : s'.pushed = s.pushed := by
  funext r
  simp only [Impl.pushed, hq, he, List.mem_append, List.mem_singleton, Prod.mk.injEq]
  by_cases e : r = x
  · subst e
    have hcall : ¬ ∀ j, (Function.update s.ext i (.enqueue (.pushGlobal r) : ExtPc n τ) j).calling ≠ some r := by
      intro h
      exact h i (by rw [Function.update_self]; rfl)
    have hnew : ¬ ∃ j, (Thread.ext j, r) ∈ s.enqueued := by
      rintro ⟨j, hj⟩
      exact hx (List.mem_map.2 ⟨_, hj, rfl⟩)
    simp only [hcall, hnew, and_false, false_and]
  · have hcall : (∀ j, (Function.update s.ext i (.enqueue (.pushGlobal x) : ExtPc n τ) j).calling ≠ some r) ↔
        ∀ j, (s.ext j).calling ≠ some r := by
      refine forall_congr' fun j => ?_
      by_cases ej : j = i
      · subst ej
        rw [Function.update_self, hi]
        simp [ExtPc.calling, EnqPc.task, Ne.symm e]
      · rw [Function.update_of_ne ej]
    simp only [e, and_false, or_false, hcall]

/-- A call from outside pushes its task. -/
theorem pushed_publish {i : Fin m} {x : τ} {s s' : Impl n m τ} (ho : Owned s) (hor : Origin s)
    (hi : s.ext i = .enqueue (.pushGlobal x)) (hq : s'.enqueued = s.enqueued)
    (he : s'.ext = Function.update s.ext i (.enqueue .loadSleeping)) (r : τ) :
    (!s'.pushed r) = (decide (r ≠ x) && !s.pushed r) := by
  have hcalling : (s.ext i).calling = some x := by rw [hi]; rfl
  simp only [Impl.pushed, hq, he]
  by_cases e : r = x
  · subst e
    have hpast : ∀ j, (Function.update s.ext i (.enqueue .loadSleeping : ExtPc n τ) j).calling ≠ some r := by
      intro j hj
      by_cases ej : j = i
      · subst ej; rw [Function.update_self] at hj; cases hj
      · rw [Function.update_of_ne ej] at hj
        have := ho.place_unique (x := r) (p := .calling i) (by simp [tasksAt, hcalling])
          (show r ∈ tasksAt s (.calling j) by simp [tasksAt, hj])
        cases this
        exact ej rfl
    have hin : ∃ j, (Thread.ext j, r) ∈ s.enqueued := ⟨i, hor.calling i r hcalling⟩
    simp [hpast, hin]
  · have hcall : (∀ j, (Function.update s.ext i (.enqueue .loadSleeping : ExtPc n τ) j).calling ≠ some r) ↔
        ∀ j, (s.ext j).calling ≠ some r := by
      refine forall_congr' fun j => ?_
      by_cases ej : j = i
      · subst ej
        rw [Function.update_self, hcalling]
        simp [ExtPc.calling, EnqPc.task, Ne.symm e]
      · rw [Function.update_of_ne ej]
    simp only [e, hcall, ne_eq, not_false_eq_true, decide_true, Bool.true_and]

/-- The roots to come are those before the step, but for the one that it pushes. -/
theorem unpushed_step (hF : (Lib.labels F).Nodup) (ho : Owned s) (hor : Origin s) (e : Effect s a s')
    (hf : Follows F s a = true) : unpushed F s = (s.pushes a).toList ++ unpushed F s' := by
  have keep : s'.pushed = s.pushed → s.pushes a = none → unpushed F s = (s.pushes a).toList ++ unpushed F s' := by
    intro h hp
    rw [hp, unpushed, unpushed, h]; rfl
  have moved : ∀ {i : Fin m} {pc : ExtPc 1 τ}, pc.calling = (s.ext i).calling →
      ∀ j, (Function.update s.ext i pc j).calling = (s.ext j).calling := fun h j => calling_setExt h j
  cases e with
  | call i x hi _ hx => exact keep (pushed_call hx hi rfl rfl) rfl
  | publish i x hi =>
    have hp : s.pushes (.step (.ext i)) = some x := by simp only [Impl.pushes, hi]; rfl
    have hnext : (unpushed F s).head? = some x := by
      have hc : (s.ext i).calling = some x := by rw [hi]; rfl
      simpa only [Follows, hc, Option.all_some, decide_eq_true_eq] using hf
    rw [hp]
    refine filter_eq_cons (roots_nodup hF) hnext fun r _ => ?_
    apply pushed_publish ho hor hi <;> rfl
  | spawn w y x => exact keep (pushed_congr (fun i z => by simp) fun _ => rfl) rfl
  | extMove i pc _ hact hm =>
    refine keep (pushed_congr (fun _ _ => Iff.rfl) (moved hm.calling_eq)) ?_
    rcases hact with rfl | rfl
    · exact hm.not_calling
    · rfl
  | extLock i _ hi | extUnlock i hi =>
    refine keep (pushed_congr (fun _ _ => Iff.rfl) (moved ?_)) ?_
    · rw [hi]; rfl
    · simp only [Impl.pushes, hi]; rfl
  | extNotify i v hi hv =>
    exact keep (pushed_congr (fun _ _ => Iff.rfl) (moved (by rw [hi]; rfl))) rfl
  | extNotifyNone i hi => exact keep (pushed_congr (fun _ _ => Iff.rfl) (moved (by rw [hi]; rfl))) rfl
  | _ => exact keep rfl rfl

theorem mem_kids_of_next {spawned : List τ} {x y : τ} (h : (unspawned F spawned y).head? = some x) : x ∈ kids F y :=
  (List.mem_filter.1 (List.mem_of_mem_head? h)).1

/-- A task enters the pool as a child of a running task or as a root. -/
theorem Effect.enqueued_in (e : Effect s a s') (hf : Follows F s a = true) : s'.enqueued = s.enqueued ∨
    (∃ w x y, (s.worker w).task = some y ∧ x ∈ kids F y ∧ s'.enqueued = s.enqueued ++ [(.worker w, x)]) ∨
    ∃ i x, x ∈ roots F ∧ s'.enqueued = s.enqueued ++ [(.ext i, x)] := by
  cases e with
  | spawn w y x hw =>
    have hnext : (unspawned F s.spawnedTasks y).head? = some x := by
      simpa only [Follows, hw, WorkerPc.task, Option.all_some, decide_eq_true_eq] using hf
    exact .inr (.inl ⟨w, x, y, by rw [hw]; rfl, mem_kids_of_next hnext, rfl⟩)
  | call i x => exact .inr (.inr ⟨i, x, of_decide_eq_true hf, rfl⟩)
  | _ => exact .inl rfl

theorem Walk.init (F : List (RoseTree τ)) : Walk F (init 1 m τ) := by
  refine ⟨nofun, nofun, [], ?_, rfl⟩
  rw [List.nil_append, unpushed, List.filter_eq_self.2]
  intro r _
  simp [Impl.pushed, Pool.init]

theorem Walk.effect (h : Walk F s) (hF : (Lib.labels F).Nodup) (hs : Safe s) (ha : Accounts s) (hor : Origin s)
    (e : Effect s a s') (hf : Follows F s a = true) : Walk F s' := by
  refine ⟨fun x hx => ?_, fun z hz => ?_, ?_⟩
  · rcases e.enqueued_in hf with hq | ⟨w, z, y, -, hz, hq⟩ | ⟨i, z, hz, hq⟩ <;>
      rw [allocated, hq] at hx
    · exact h.labels x hx
    · rw [List.map_append, List.mem_append] at hx
      rcases hx with hx | hx
      · exact h.labels x hx
      · rw [List.mem_singleton.1 hx]; exact kids_subset_labels hz
    · rw [List.map_append, List.mem_append] at hx
      rcases hx with hx | hx
      · exact h.labels x hx
      · rw [List.mem_singleton.1 hx]; exact roots_subset_labels hz
  · have mono : ∀ {y : τ}, y ∈ s.started.map (·.2) → y ∈ s'.started.map (·.2) := by
      intro y hy
      obtain ⟨r, hr, rfl⟩ := List.mem_map.1 hy
      exact List.mem_map.2 ⟨r, e.started_mono hr, rfl⟩
    have old : z ∈ s.spawnedTasks → ∃ y ∈ s'.started.map (·.2), z ∈ kids F y := by
      intro hz
      obtain ⟨y, hy, hzy⟩ := h.parent z hz
      exact ⟨y, mono hy, hzy⟩
    rcases e.enqueued_in hf with hq | ⟨w, x, y, hw, hx, hq⟩ | ⟨i, x, -, hq⟩
    · rw [Impl.spawnedTasks, hq] at hz; exact old hz
    · rw [spawnedTasks_append _ x s s' hq, List.mem_append] at hz
      rcases hz with hz | hz
      · exact old hz
      · rw [List.mem_singleton.1 hz]
        exact ⟨y, mono (List.mem_map.2 ⟨_, ha.log.begun w y hw, rfl⟩), hx⟩
    · rw [spawnedTasks_append _ x s s' hq, List.append_nil] at hz; exact old hz
  · obtain ⟨pre, hroots, hwalked⟩ := h.walked
    refine ⟨pre ++ (s.pushes a).toList, ?_, ?_⟩
    · rw [List.append_assoc, ← unpushed_step hF ha.owned hor e hf]; exact hroots
    · rw [h.visits_step hF hs ha e hf, hwalked, List.flatMap_append]

theorem walk_of_run (hF : (Lib.labels F).Nodup) {acts : List (Act 1 m τ)}
    (h : (machine 1 m τ).RunIn (fun s a => Follows F s a = true) acts s) : Walk F s := by
  induction h with
  | nil => exact Walk.init F
  | snoc hr hf hs ih =>
    have hrun := hr.run
    have hsafe := safe_of_run hrun
    exact ih.effect hF hsafe (accounts_of_run hrun) (origin_of_run hrun) (step_effect hs hsafe.not_pushGlobal) hf

/-- The worker blocks only when there is nothing left. -/
theorem rest_of_blocked {acts : List (Act 1 m τ)} (h : (machine 1 m τ).Run acts s) (hstop : s.stop = false)
    (hw : s.worker 0 = .blocked) (hext : ∀ i, s.ext i = .idle) : rest F s = [] := by
  have hsupply := conserved_of_run h hstop 0 hw
  have hempty : contents (s.deques 0) (s.worker 0).owner = [] := (safe_of_run h).deque_empty (by rw [hw]; rfl)
  rw [hw] at hempty
  have hglobal : s.global = [] := by
    have hpub : ∀ i, (s.ext i).published = false := fun i => by rw [hext i]; rfl
    simp only [supply, Finset.univ_unique, Finset.sum_singleton, Fin.default_eq_zero, spare, size, hw, hempty, hpub,
      free, WorkerPc.published, ind_false, Finset.sum_const_zero] at hsupply
    simpa [WorkerPc.awake] using hsupply
  simp only [rest, stack, hw, hempty, hglobal]
  rfl

theorem order_of_run (hF : (Lib.labels F).Nodup) {acts : List (Act 1 m τ)}
    (h : (machine 1 m τ).RunIn (fun s a => Follows F s a = true) acts s) :
    s.started.map (·.2) <+: visits F ∧
    (s.stop = false → (∀ w, s.worker w = .blocked) → (∀ i, s.ext i = .idle) →
      (∀ r ∈ roots F, ∃ i, (.ext i, r) ∈ s.enqueued) →
      s.started.map (·.2) = visits F ∧ ∀ x ∈ visits F, x ∈ s.ran) := by
  obtain ⟨pre, hroots, hwalked⟩ := (walk_of_run hF h).walked
  have hvisits : visits F = s.started.map (·.2) ++ (rest F s ++ (unpushed F s).flatMap (order F)) := by
    rw [visits_eq hF, hroots, List.flatMap_append, ← hwalked, List.append_assoc]
  refine ⟨⟨_, hvisits.symm⟩, fun hstop hw hext hall => ?_⟩
  have hnone : unpushed F s = [] := by
    refine List.filter_eq_nil_iff.2 fun r hr => ?_
    have hpushed : s.pushed r = true := decide_eq_true ⟨hall r hr, fun i => by rw [hext i]; nofun⟩
    simp [hpushed]
  have hrest : rest F s = [] := rest_of_blocked h.run hstop (hw 0) hext
  have heq : s.started.map (·.2) = visits F := by
    rw [hvisits, hrest, hnone]; simp
  refine ⟨heq, fun x hx => ?_⟩
  rw [← heq] at hx
  obtain ⟨⟨w, y⟩, hy, rfl⟩ := List.mem_map.1 hx
  rcases (accounts_of_run h.run).log.running w y hy with hr | hr
  · exact hr
  · rw [hw w] at hr; cases hr

end OneWorker

/-- A pool of `thread_count ≤ 1` runs the tasks of a forest in the order of its
visits: the tasks begun so far are always the first ones of that order. When all
roots have been enqueued and the worker sleeps, all of them have been run. -/
theorem one_worker_order {c : Nat} (hc : c ≤ 1) {F : List (RoseTree τ)} (hF : (labels F).Nodup)
    {acts : List (Act (workerCount c) m τ)} {s : Impl (workerCount c) m τ}
    (h : (machine (workerCount c) m τ).RunIn (fun s a => Follows F s a = true) acts s) :
    s.started.map (·.2) <+: visits F ∧
    (s.stop = false → (∀ w, s.worker w = .blocked) → (∀ i, s.ext i = .idle) →
      (∀ r ∈ roots F, ∃ i, (.ext i, r) ∈ s.enqueued) →
      s.started.map (·.2) = visits F ∧ ∀ x ∈ visits F, x ∈ s.ran) := by
  have hc : c = 0 ∨ c = 1 := by omega
  rcases hc with rfl | rfl
  · exact order_of_run hF h
  · exact order_of_run hF h

/-- Task 1 enqueues 2 and 4, and 2 enqueues 3; 5 is the second root. -/
def fiveTasks : List (RoseTree Nat) := [.node 1 [.node 2 [.node 3 []], .node 4 []], .node 5 []]

/-- The second root enters the global queue while task 1 runs. -/
def fiveTasksRun (i j : Fin 2) (w : Fin 1) : List (Act 1 2 Nat) := List.flatten
  [[.enqueue (.ext i) 1, .enqueue (.ext j) 5], List.replicate 2 (.step (.ext i)), List.replicate 8 (.step (.worker w)),
   [.enqueue (.worker w) 2], List.replicate 7 (.step (.worker w)), [.step (.ext j), .enqueue (.worker w) 4],
   List.replicate 7 (.step (.worker w)), [.finish w], List.replicate 6 (.step (.worker w)), [.finish w],
   List.replicate 8 (.step (.worker w)), [.enqueue (.worker w) 3], List.replicate 7 (.step (.worker w)), [.finish w],
   List.replicate 8 (.step (.worker w)), [.finish w], List.replicate 7 (.step (.worker w)), [.finish w, .step (.ext j)],
   List.replicate 51 (.step (.worker w))]

theorem one_worker_order_five_tasks : ∃ s : Impl (workerCount 0) 2 Nat,
    (machine (workerCount 0) 2 Nat).RunIn (fun s a => Follows fiveTasks s a = true) (fiveTasksRun 0 1 0) s ∧
    s.started.map (·.2) = [1, 4, 2, 3, 5] ∧ ∀ x ∈ [1, 4, 2, 3, 5], x ∈ s.ran := by
  have hexec : ((machine (workerCount 0) 2 Nat).execIn (fun s a => Follows fiveTasks s a = true)
      (init (workerCount 0) 2 Nat) (fiveTasksRun 0 1 0)).any (fun s => decide (s.stop = false ∧
        (∀ w, (s.worker w).isBlocked = true) ∧ (∀ i, (s.ext i).isIdle = true) ∧
        ∀ r ∈ roots fiveTasks, ∃ i, (.ext i, r) ∈ s.enqueued)) = true := by decide +kernel
  obtain ⟨s, hrun, hstop, hblocked, hidle, hall⟩ := Machine.exists_runIn_of_exec (fun _ _ => id) .nil hexec
  have hF : (labels fiveTasks).Nodup := by decide
  obtain ⟨horder, hran⟩ := (one_worker_order (Nat.zero_le 1) hF hrun).2 hstop
    (fun w => isBlocked_iff.1 (hblocked w)) (fun i => isIdle_iff.1 (hidle i)) hall
  exact ⟨s, hrun, horder, hran⟩

end AsyncRuntime.Pool
