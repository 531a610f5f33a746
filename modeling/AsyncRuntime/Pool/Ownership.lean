import AsyncRuntime.Lib.Sums
import AsyncRuntime.Pool.Teardown
/-!
# Every task is in one place

Counting, for a fixed task, its occurrences in all the places a task can be
gives the number of times it was allocated, in every state the pool reaches.
Each step moves an occurrence from one place to another or leaves all of them
where they are. Since an allocation is new, the count is at most one.
-/

namespace AsyncRuntime.Pool
open Lib Deque
variable {n m : Nat} {τ : Type}

/-! ## Places -/

/-- The task of an `enqueue` that has not reached its queue. -/
def EnqPc.task : EnqPc τ → Option τ
  | .push p => p.input
  | .pushGlobal x => some x
  | _ => none

def WorkerPc.spawning : WorkerPc n τ → Option τ
  | .running _ (some e) => e.task
  | _ => none

def ExtPc.calling : ExtPc n τ → Option τ
  | .enqueue e => e.task
  | _ => none

/-- The task that a worker has taken and not finished. -/
def held (d : WorkStealingDeque τ) : WorkerPc n τ → Option τ
  | .popping p => taken d p
  | .stealing _ _ _ (some q) => q.taken
  | .running x _ => some x
  | _ => none

/-- Where a task can be: in an unfinished `enqueue` of a worker or of an external
thread, in a queue, in the hands of a worker, or run and freed. -/
inductive Place (n m : Nat) where
  | spawning (w : Fin n)
  | calling (i : Fin m)
  | global
  | deque (j : Fin n)
  | held (w : Fin n)
  | freed
  deriving DecidableEq

/-- The tasks at a place. -/
def tasksAt (s : Impl n m τ) : Place n m → List τ
  | .spawning w => (s.worker w).spawning.toList
  | .calling i => (s.ext i).calling.toList
  | .global => s.global
  | .deque j => contents (s.deques j) (s.worker j).owner
  | .held w => (held (s.deques w) (s.worker w)).toList
  | .freed => s.ran

/-- The tasks allocated so far. -/
def allocated (s : Impl n m τ) : List τ := s.enqueued.map (·.2)

/-- One external thread moves, and no task with it. -/
theorem calling_setExt {s : Impl n m τ} {i : Fin m} {pc : ExtPc n τ} (h : pc.calling = (s.ext i).calling) (j : Fin m) :
    ((s.setExt i pc).ext j).calling = (s.ext j).calling := by
  by_cases e : j = i
  · subst e; simpa [Impl.setExt] using h
  · simp [Impl.setExt, e]

theorem ExtMove.calling_eq {s : Impl n m τ} {pc pc' : ExtPc n τ} (h : ExtMove s pc pc') : pc'.calling = pc.calling := by
  cases h <;> rfl

theorem held_congr {pc : WorkerPc n τ} {d d' : WorkStealingDeque τ} (h : taken d' pc.owner = taken d pc.owner) :
    held d' pc = held d pc := by
  cases pc with
  | popping p => exact h
  | stealing spin start i q => cases q <;> rfl
  | _ => rfl

variable [DecidableEq τ]

/-- The occurrences of `x` at a worker: in its deque, in its `enqueue` and in its
hands. -/
def cell (d : WorkStealingDeque τ) (pc : WorkerPc n τ) (x : τ) : Nat :=
  (contents d pc.owner).count x + pc.spawning.toList.count x + (held d pc).toList.count x

/-- The occurrences of `x` at all places. -/
def total (s : Impl n m τ) (x : τ) : Nat :=
  ∑ w, cell (s.deques w) (s.worker w) x + ∑ i, (s.ext i).calling.toList.count x + s.global.count x + s.ran.count x

/-! ## Steps that move no task -/

variable {s s' : Impl n m τ} {a : Act n m τ} {d : WorkStealingDeque τ} {x : τ}

theorem cell_of_searching {pc : WorkerPc n τ} (h : pc.searching = true) :
    cell d pc x = (window d.cur.load d.top d.bottom).count x := by
  cases pc with
  | stealing spin start i q => cases q <;> first | rfl | cases h
  | _ => first | rfl | cases h

theorem cell_running {y : τ} : cell d (.running y none : WorkerPc n τ) x =
    (window d.cur.load d.top d.bottom).count x + [y].count x := rfl

theorem Move.cell_eq {w : Fin n} {pc pc' : WorkerPc n τ} (h : Move s w pc pc') : cell d pc' x = cell d pc x := by
  cases h with
  | search h₁ h₂ => rw [cell_of_searching h₁, cell_of_searching h₂]
  | _ => rfl

theorem Locks.cell_eq {pc pc' : WorkerPc n τ} (h : Locks pc pc') : cell d pc' x = cell d pc x := by
  cases h <;> rfl

theorem Unlocks.cell_eq {pc pc' : WorkerPc n τ} (h : Unlocks pc pc') : cell d pc' x = cell d pc x := by
  cases h <;> rfl

/-- Beginning to run a task moves it nowhere: the worker held it already. -/
theorem cell_start {pc : WorkerPc n τ} {y : τ} (h : pc.got = some y) :
    cell d (.running y none : WorkerPc n τ) x = cell d pc x := by
  cases pc with
  | popping p => cases p <;> cases h; rfl
  | stealing spin start i q =>
    cases q with
    | none => cases h
    | some q => cases q <;> cases h; rfl
  | _ => cases h

/-- No place changes. -/
theorem total_congr (hw : ∀ w, cell (s'.deques w) (s'.worker w) x = cell (s.deques w) (s.worker w) x)
    (he : ∀ i, (s'.ext i).calling = (s.ext i).calling) (hg : s'.global = s.global) (hr : s'.ran = s.ran) :
    total s' x = total s x := by
  simp only [total, hw, he, hg, hr]

/-- One worker moves, and no task with it. -/
theorem total_move {w : Fin n} {pc : WorkerPc n τ} (hd : s'.deques = s.deques)
    (hw : s'.worker = Function.update s.worker w pc) (hc : cell (s.deques w) pc x = cell (s.deques w) (s.worker w) x)
    (he : ∀ i, (s'.ext i).calling = (s.ext i).calling) (hg : s'.global = s.global) (hr : s'.ran = s.ran) :
    total s' x = total s x := by
  refine total_congr (fun v => ?_) he hg hr
  rw [hd, hw]
  by_cases e : v = w
  · subst e; rw [Function.update_self, hc]
  · rw [Function.update_of_ne e]

/-! ## Steps that move a task -/

/-- One worker changes, with its deque. -/
theorem total_worker (s s' : Impl n m τ) {w : Fin n} {d' : WorkStealingDeque τ} {pc : WorkerPc n τ}
    (hd : s'.deques = Function.update s.deques w d') (hw : s'.worker = Function.update s.worker w pc)
    (he : s'.ext = s.ext) :
    total s' x + (cell (s.deques w) (s.worker w) x + s.global.count x + s.ran.count x) =
      total s x + (cell d' pc x + s'.global.count x + s'.ran.count x) := by
  have hsum := sum_change (f := fun j => cell (s'.deques j) (s'.worker j) x)
    (g := fun j => cell (s.deques j) (s.worker j) x) w fun j hj => by
      rw [hd, hw, Function.update_of_ne hj, Function.update_of_ne hj]
  simp only [hd, hw, Function.update_self] at hsum
  simp only [total, hd, hw, he]
  omega

/-- One worker changes, and no deque. -/
theorem total_worker_only (s s' : Impl n m τ) {w : Fin n} {pc : WorkerPc n τ} (hd : s'.deques = s.deques)
    (hw : s'.worker = Function.update s.worker w pc) (he : s'.ext = s.ext) :
    total s' x + (cell (s.deques w) (s.worker w) x + s.global.count x + s.ran.count x) =
      total s x + (cell (s.deques w) pc x + s'.global.count x + s'.ran.count x) := by
  refine total_worker s s' ?_ hw he
  rw [hd, Function.update_eq_self]

/-- A worker makes an access to its own deque that keeps its tasks together. -/
theorem total_owner {w : Fin n} {d' : WorkStealingDeque τ} {pc : WorkerPc n τ}
    (hc : cell d' pc x = cell (s.deques w) (s.worker w) x) :
    total ((s.setDeque w d').setWorker w pc) x = total s x := by
  have hsum := total_worker (x := x) s ((s.setDeque w d').setWorker w pc) rfl rfl rfl
  rw [hc] at hsum
  exact Nat.add_right_cancel hsum

/-- One external thread changes. -/
theorem total_ext (s s' : Impl n m τ) (i : Fin m) (hd : s'.deques = s.deques) (hw : s'.worker = s.worker)
    (he : ∀ j, j ≠ i → s'.ext j = s.ext j) (hr : s'.ran = s.ran) :
    total s' x + ((s.ext i).calling.toList.count x + s.global.count x) =
      total s x + ((s'.ext i).calling.toList.count x + s'.global.count x) := by
  have hsum := sum_change (f := fun j => (s'.ext j).calling.toList.count x)
    (g := fun j => (s.ext j).calling.toList.count x) i fun j hj => by rw [he j hj]
  simp only [total, hd, hw, hr]
  omega

/-- Within a pop, the task goes from the deque to the worker's hands. -/
theorem cell_pop {p p' : OwnerPc τ} {d' : WorkStealingDeque τ} (h : OwnerEffect d p d' p')
    (hp : p.isPop = true) : cell d' (.popping p' : WorkerPc n τ) x = cell d (.popping p : WorkerPc n τ) x := by
  have hin := input_of_isPop hp
  simp only [cell, WorkerPc.owner, WorkerPc.spawning, held]
  cases h with
  | quiet hc _ ht => rw [hc, ht]
  | push y _ hy => rw [hin] at hy; cases hy
  | pop y hc _ _ ht ht' => rw [hc, ht, ht', List.count_append]; simp

/-- Within a push, the task goes from the call to the deque. -/
theorem cell_push {p p' : OwnerPc τ} {d' : WorkStealingDeque τ} (h : OwnerEffect d p d' p')
    (hp' : p'.isPush = true) (y : τ) :
    cell d' (.running y (some (.push p')) : WorkerPc n τ) x =
      cell d (.running y (some (.push p)) : WorkerPc n τ) x := by
  simp only [cell, WorkerPc.owner, WorkerPc.spawning, EnqPc.task, held]
  cases h with
  | quiet hc hi _ => rw [hc, hi]
  | push z hc hi hi' => rw [hc, hi, hi', List.count_append]; simp
  | pop z _ _ _ _ ht => rw [taken_of_isPush hp'] at ht; cases ht

/-- What a steal takes from the owner's cell is in the thief's hands. -/
theorem cell_stolen {pc : WorkerPc n τ} {d' : WorkStealingDeque τ} {q q' : ThiefPc τ}
    (h : ThiefStepOk d pc.owner q d' q') :
    cell d' pc x + q'.taken.toList.count x = cell d pc x + q.taken.toList.count x := by
  simp only [cell, held_congr h.taken]
  cases h.effect with
  | quiet hc ht => rw [hc, ht]
  | steal y hc ht ht' =>
    simp only [hc, ht, ht', Option.toList_none, Option.toList_some, List.count_cons, List.count_nil]
    omega

theorem total_steal (h : Safe s) {w : Fin n} {spin : Option Nat} {start i : Nat} {q q' : ThiefPc τ}
    {d' : WorkStealingDeque τ} (hw : s.worker w = .stealing spin start i (some q))
    (hok : ThiefStepOk (s.deques (target w start i)) (s.worker (target w start i)).owner q d' q') :
    total ((s.setDeque (target w start i) d').setWorker w (.stealing spin start i (some q'))) x = total s x := by
  have hne : target w start i ≠ w := (h.stealing hw).1
  generalize target w start i = j at *
  have hsum := sum_change₂
    (f := fun k => cell (Function.update s.deques j d' k)
      (Function.update s.worker w (.stealing spin start i (some q')) k) x)
    (g := fun k => cell (s.deques k) (s.worker k) x) hne fun k hkj hkw => by
      rw [Function.update_of_ne hkj, Function.update_of_ne hkw]
  simp only [Function.update_self, Function.update_of_ne hne, Function.update_of_ne hne.symm, hw] at hsum
  have hstolen := cell_stolen (x := x) hok
  have hthief : ∀ r : ThiefPc τ, cell (s.deques w) (.stealing spin start i (some r) : WorkerPc n τ) x =
      (window (s.deques w).cur.load (s.deques w).top (s.deques w).bottom).count x + r.taken.toList.count x :=
    fun _ => rfl
  rw [hthief, hthief] at hsum
  simp only [total, Impl.setWorker, Impl.setDeque]
  omega

/-- A step changes the count of a task by its allocation. -/
theorem Effect.total_eq (e : Effect s a s') (h : Safe s) (x : τ) :
    total s' x + (allocated s).count x = total s x + (allocated s').count x := by
  have same : total s' x = total s x → s'.enqueued = s.enqueued →
      total s' x + (allocated s).count x = total s x + (allocated s').count x := by
    intro ht he
    rw [ht, allocated, allocated, he]
  cases e with
  | pop w p hw =>
    obtain ⟨hi, hc⟩ := h.popping hw
    exact same (total_owner (by rw [hw]; exact cell_pop (ownerStep_ok hi).effect hc)) rfl
  | push w y p hw =>
    obtain ⟨hi, hc⟩ := h.pushing hw
    exact same (total_owner (by rw [hw]; exact cell_push (ownerStep_ok hi).effect (isPush_ownerStep hc) y)) rfl
  | steal w spin start i q hw => exact same (total_steal h hw (thiefStep_ok (h.inv _) (h.stealing hw).2)) rfl
  | start w y hgot => exact same (total_move rfl rfl (cell_start hgot) (fun _ => rfl) rfl rfl) rfl
  | take w y g hpg hg =>
    refine same ?_ rfl
    have hsum := total_worker_only (x := x) s ({ s with global := g }.start w y) rfl rfl rfl
    rw [cell_of_searching (searching_of_popsGlobal hpg), cell_running, hg] at hsum
    simp only [Impl.start, Impl.setWorker, List.count_cons, List.count_nil] at hsum ⊢
    omega
  | move w pc rng hm => exact same (total_move rfl rfl hm.cell_eq (fun _ => rfl) rfl rfl) rfl
  | lock w pc _ hl => exact same (total_move rfl rfl hl.cell_eq (fun _ => rfl) rfl rfl) rfl
  | unlock w pc hl => exact same (total_move rfl rfl hl.cell_eq (fun _ => rfl) rfl rfl) rfl
  | incSleeping w hw | decSleeping w hw | notifyNone w y hw | spurious w hw =>
    exact same (total_move rfl rfl (by rw [hw]; rfl) (fun _ => rfl) rfl rfl) rfl
  | finish w y hw =>
    refine same ?_ rfl
    have hsum := total_worker_only (x := x) s
      { s.setWorker w (.popping .popLoadBottom) with
        ran := s.ran ++ [y], deleted := s.deleted ++ [(.worker w, y)] } rfl rfl rfl
    have hpop : cell (s.deques w) (.popping .popLoadBottom : WorkerPc n τ) x =
        (window (s.deques w).cur.load (s.deques w).top (s.deques w).bottom).count x := rfl
    rw [hw, cell_running, hpop] at hsum
    simp only [Impl.setWorker, List.count_append] at hsum ⊢
    omega
  | spawn w y z hw hz =>
    have hsum := total_worker_only (x := x) s
      { s.setWorker w (.running y (some (.push (.pushLoadBottom z)))) with
        enqueued := s.enqueued ++ [(.worker w, z)] } rfl rfl rfl
    have hcall : cell (s.deques w) (.running y (some (.push (.pushLoadBottom z))) : WorkerPc n τ) x =
        (window (s.deques w).cur.load (s.deques w).top (s.deques w).bottom).count x + [z].count x + [y].count x := rfl
    rw [hw, cell_running, hcall] at hsum
    simp only [Impl.setWorker, allocated, List.map_append, List.count_append, List.map_cons, List.map_nil] at hsum ⊢
    omega
  | call i y hi =>
    have hsum := total_ext (x := x) s
      ({ s.setExt i (.enqueue (.pushGlobal y)) with enqueued := s.enqueued ++ [(.ext i, y)] }) i rfl rfl
      (fun j hj => Function.update_of_ne hj _ s.ext) rfl
    simp only [Impl.setExt, Function.update_self, hi, ExtPc.calling, EnqPc.task, Option.toList_none,
      Option.toList_some, List.count_nil] at hsum
    simp only [Impl.setExt, allocated, List.map_append, List.count_append, List.map_cons, List.map_nil]
    omega
  | publish i y hi =>
    refine same ?_ rfl
    have hsum := total_ext (x := x) s
      ({ s with global := s.global ++ [y] }.setExt i (.enqueue .loadSleeping)) i rfl rfl
      (fun j hj => Function.update_of_ne hj _ s.ext) rfl
    simp only [Impl.setExt, Function.update_self, hi, ExtPc.calling, EnqPc.task, Option.toList_none,
      Option.toList_some, List.count_nil, List.count_append] at hsum
    simp only [Impl.setExt]
    omega
  | extMove i pc _ _ hm => exact same (total_congr (fun _ => rfl) (calling_setExt hm.calling_eq) rfl rfl) rfl
  | extLock i _ hi | extUnlock i hi | extNotifyNone i hi =>
    exact same (total_congr (fun _ => rfl) (calling_setExt (by rw [hi]; rfl)) rfl rfl) rfl
  | notify w y v hw hv =>
    have hne : w ≠ v := ne_of_running hw hv
    refine same ?_ rfl
    trans total (s.setWorker v .notified) x
    · refine total_move rfl rfl ?_ (fun _ => rfl) rfl rfl
      simp only [Impl.setWorker, Function.update_of_ne hne, hw]; rfl
    · exact total_move rfl rfl (by rw [hv]; rfl) (fun _ => rfl) rfl rfl
  | extNotify i v hi hv =>
    have hcall : (ExtPc.enqueue .unlock : ExtPc n τ).calling = (s.ext i).calling := by rw [hi]; rfl
    exact same (total_move rfl rfl (by rw [hv]; rfl) (calling_setExt hcall) rfl rfl) rfl
  | notifyAll =>
    refine same (total_congr (fun w => ?_) (fun _ => rfl) rfl rfl) rfl
    exact observe_notifyAll (fun pc => cell (s.deques w) pc x) rfl w
  | dtorMove | storeStop | dtorLock | dtorUnlock | destroy | destroyGlobal => exact same rfl rfl

/-! ## One occurrence -/

/-- The occurrences of a task are its allocations, of which there is at most
one. -/
structure Owned (s : Impl n m τ) : Prop where
  count : ∀ x, total s x = (allocated s).count x
  fresh : (allocated s).Nodup

theorem owned_init : Owned (init n m τ) := by
  refine ⟨fun x => ?_, List.nodup_nil⟩
  have hcell : ∀ w : Fin n, cell ((init n m τ).deques w) ((init n m τ).worker w) x = 0 := fun _ => rfl
  have hcall : ∀ i : Fin m, ((init n m τ).ext i).calling.toList.count x = 0 := fun _ => rfl
  simp only [total, hcell, hcall, Finset.sum_const_zero]
  rfl

omit [DecidableEq τ] in
theorem Effect.allocated_nodup (e : Effect s a s') (h : (allocated s).Nodup) : (allocated s').Nodup := by
  have grow : ∀ θ x, x ∉ allocated s → s'.enqueued = s.enqueued ++ [(θ, x)] → (allocated s').Nodup := by
    intro θ x hx he
    rw [allocated, he, List.map_append, List.map_singleton, ← List.concat_eq_append]
    exact h.concat hx
  cases e with
  | spawn w y x _ hx | call i x _ _ hx => exact grow _ x hx rfl
  | _ => exact h

omit [DecidableEq τ] in
theorem Effect.enqueued_enqueue {θ : Thread n m} (e : Effect s (.enqueue θ x) s') :
    s'.enqueued = s.enqueued ++ [(θ, x)] := by
  cases e with
  | spawn | call => rfl
  | extMove i pc _ ha => rcases ha with ha | ha <;> cases ha

omit [DecidableEq τ] in
/-- Only `enqueue` allocates. -/
theorem Effect.enqueued_eq (e : Effect s a s') (ha : ∀ θ x, a ≠ .enqueue θ x) : s'.enqueued = s.enqueued := by
  cases e with
  | spawn w y x => exact absurd rfl (ha (.worker w) x)
  | call i x => exact absurd rfl (ha (.ext i) x)
  | _ => rfl

theorem Owned.effect (h : Owned s) (hs : Safe s) (e : Effect s a s') : Owned s' := by
  refine ⟨fun x => ?_, e.allocated_nodup h.fresh⟩
  have := e.total_eq hs x
  have := h.count x
  omega

theorem Owned.total_le_one (h : Owned s) (x : τ) : total s x ≤ 1 := by
  rw [h.count]; exact List.nodup_iff_count_le_one.1 h.fresh x

/-- The places as a sum of types, to add over them. -/
def placeEquiv : Place n m ≃ (Fin n ⊕ Fin n ⊕ Fin n) ⊕ Fin m ⊕ Unit ⊕ Unit where
  toFun
    | .spawning w => .inl (.inl w)
    | .deque w => .inl (.inr (.inl w))
    | .held w => .inl (.inr (.inr w))
    | .calling i => .inr (.inl i)
    | .global => .inr (.inr (.inl ()))
    | .freed => .inr (.inr (.inr ()))
  invFun
    | .inl (.inl w) => .spawning w
    | .inl (.inr (.inl w)) => .deque w
    | .inl (.inr (.inr w)) => .held w
    | .inr (.inl i) => .calling i
    | .inr (.inr (.inl ())) => .global
    | .inr (.inr (.inr ())) => .freed
  left_inv p := by cases p <;> rfl
  right_inv p := by rcases p with (w | w | w) | i | u | u <;> rfl

instance : Fintype (Place n m) := Fintype.ofEquiv _ placeEquiv.symm

theorem total_eq_sum (s : Impl n m τ) (x : τ) : total s x = ∑ p, (tasksAt s p).count x := by
  rw [← placeEquiv.symm.sum_comp]
  simp only [Fintype.sum_sum_type, Finset.univ_unique, Finset.sum_singleton, placeEquiv, Equiv.coe_fn_symm_mk,
    tasksAt, total, cell, Finset.sum_add_distrib]
  omega

/-- An allocated task is at one place, once. -/
theorem Owned.place (h : Owned s) (hx : x ∈ allocated s) :
    ∃ p, (tasksAt s p).count x = 1 ∧ ∀ p', p' ≠ p → x ∉ tasksAt s p' := by
  have hone : ∑ p, (tasksAt s p).count x = 1 := by
    rw [← total_eq_sum, h.count, List.count_eq_one_of_mem h.fresh hx]
  obtain ⟨p, hp, hrest⟩ := exists_of_sum_eq_one hone
  exact ⟨p, hp, fun p' hp' => List.count_eq_zero.1 (hrest p' hp')⟩

/-- Only allocated tasks are anywhere. -/
theorem Owned.mem_allocated (h : Owned s) {p : Place n m} (hx : x ∈ tasksAt s p) : x ∈ allocated s := by
  rw [← List.count_pos_iff, ← h.count, total_eq_sum]
  exact lt_of_lt_of_le (List.count_pos_iff.2 hx)
    (Finset.single_le_sum (f := fun p => (tasksAt s p).count x) (fun _ _ => Nat.zero_le _) (Finset.mem_univ p))

/-- A task is not at two places. -/
theorem Owned.place_unique (h : Owned s) {p p' : Place n m} (hp : x ∈ tasksAt s p) (hp' : x ∈ tasksAt s p') :
    p' = p := by
  by_contra hne
  have hle := h.total_le_one x
  rw [total_eq_sum, ← Finset.add_sum_erase _ _ (Finset.mem_univ p)] at hle
  have h₁ := List.count_pos_iff.2 hp
  have h₂ : (tasksAt s p').count x ≤ ∑ k ∈ Finset.univ.erase p, (tasksAt s k).count x :=
    Finset.single_le_sum (f := fun k => (tasksAt s k).count x) (fun _ _ => Nat.zero_le _)
      (Finset.mem_erase.2 ⟨hne, Finset.mem_univ p'⟩)
  have h₃ := List.count_pos_iff.2 hp'
  omega

end AsyncRuntime.Pool
