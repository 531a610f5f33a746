import AsyncRuntime.Pool.Mutex
import AsyncRuntime.Pool.Ownership
/-!
# Supply of workers and demand of tasks

Each task in a queue wants a worker that is awake and holds no task, or an
`enqueue` that has published a task and not yet decided whether to wake anyone.
The supply of the pool is the number of these minus the number of queued tasks.
A step lowers the supply only if a worker leaves the loop, if an `enqueue`
returns because it saw no sleeper or no waiter to notify, or if a worker blocks.
-/

namespace AsyncRuntime.Pool
open Lib Deque
variable {n m : Nat} {τ : Type} {s s' : Impl n m τ} {a : Act n m τ}

/-- The worker is in the loop and not blocked in `cv.wait`, or it has been
notified. -/
def WorkerPc.awake : WorkerPc n τ → Bool
  | .blocked | .exited => false
  | _ => true

/-- The worker is awake and holds no task. -/
def free (d : WorkStealingDeque τ) (pc : WorkerPc n τ) : Bool := pc.awake && (held d pc).isNone

/-- The task is in its queue, and no waiter has been notified for it yet. -/
def EnqPc.published : EnqPc τ → Bool
  | .push p => p.input.isNone
  | .loadSleeping | .lock | .notify => true
  | _ => false

def WorkerPc.published : WorkerPc n τ → Bool
  | .running _ (some e) => e.published
  | _ => false

def ExtPc.published : ExtPc n τ → Bool
  | .enqueue e => e.published
  | _ => false

/-- One if the condition holds. -/
def ind (b : Bool) : Int := if b then 1 else 0

@[simp] theorem ind_true : ind true = 1 := rfl
@[simp] theorem ind_false : ind false = 0 := rfl

theorem ind_nonneg (b : Bool) : 0 ≤ ind b := by cases b <;> decide
theorem ind_le_one (b : Bool) : ind b ≤ 1 := by cases b <;> decide

/-- The number of tasks in a worker's deque. -/
def size (d : WorkStealingDeque τ) (pc : WorkerPc n τ) : Int := (contents d pc.owner).length

/-- What a worker and its deque add to the supply. -/
def spare (d : WorkStealingDeque τ) (pc : WorkerPc n τ) : Int := ind (free d pc) + ind pc.published - size d pc

def supply (s : Impl n m τ) : Int :=
  ∑ w, spare (s.deques w) (s.worker w) + ∑ i, ind (s.ext i).published - s.global.length

/-! ## Steps of one worker -/

variable {d d' : WorkStealingDeque τ}

theorem spare_of_searching {pc : WorkerPc n τ} (h : pc.searching = true) :
    spare d pc = 1 - (window d.cur.load d.top d.bottom).length := by
  cases pc with
  | stealing spin start i q => cases q <;> first | rfl | cases h
  | _ => first | rfl | cases h

theorem Move.spare_le {w : Fin n} {pc pc' : WorkerPc n τ} (h : Move s w pc pc') :
    spare d pc ≤ spare d pc' ∨ s.stop = true ∨ s.sleeping ≤ 0 := by
  cases h with
  | search h₁ h₂ => left; rw [spare_of_searching h₁, spare_of_searching h₂]
  | exit hs => exact .inr (.inl hs)
  | noSleepers hs => exact .inr (.inr hs)
  | _ => exact .inl (le_refl _)

theorem Locks.spare_le {pc pc' : WorkerPc n τ} (h : Locks pc pc') : spare d pc ≤ spare d pc' := by
  cases h <;> exact le_refl _

theorem Unlocks.spare_le {pc pc' : WorkerPc n τ} (h : Unlocks pc pc') :
    spare d pc ≤ spare d pc' ∨ pc = .unlock true ∨ pc = .wait ∧ pc' = .blocked := by
  cases h with
  | leave => exact .inr (.inl rfl)
  | wait => exact .inr (.inr ⟨rfl, rfl⟩)
  | _ => exact .inl (le_refl _)

theorem spare_start {pc : WorkerPc n τ} {x : τ} (h : pc.got = some x) :
    spare d pc ≤ spare d (.running x none : WorkerPc n τ) := by
  cases pc with
  | popping p => cases p <;> cases h; exact le_refl _
  | stealing spin start i q =>
    cases q with
    | none => cases h
    | some q => cases q <;> cases h; exact le_refl _
  | _ => cases h

/-- A worker that finishes its task is free. -/
theorem spare_finish (x : τ) :
    spare d (.running x none : WorkerPc n τ) ≤ spare d (.popping .popLoadBottom : WorkerPc n τ) := by
  have h₁ : spare d (.running x none : WorkerPc n τ) = 0 + 0 - (window d.cur.load d.top d.bottom).length := rfl
  have h₂ : spare d (.popping .popLoadBottom : WorkerPc n τ) = 1 + 0 - (window d.cur.load d.top d.bottom).length := rfl
  omega

/-- A pop takes a task and the worker is no longer free. -/
theorem spare_pop {p p' : OwnerPc τ} (h : OwnerEffect d p d' p') (hp : p.isPop = true) :
    spare d' (.popping p' : WorkerPc n τ) = spare d (.popping p : WorkerPc n τ) := by
  simp only [spare, size, free, held, WorkerPc.awake, WorkerPc.owner, Bool.true_and]
  cases h with
  | quiet hc _ ht => rw [hc, ht]; rfl
  | push y _ hy => rw [input_of_isPop hp] at hy; cases hy
  | pop y hc _ _ ht ht' =>
    rw [hc, ht, ht', List.length_append]
    simp [WorkerPc.published]

/-- A push publishes its task and owes a notification. -/
theorem spare_push {p p' : OwnerPc τ} (h : OwnerEffect d p d' p') (hp' : p'.isPush = true) (x : τ) :
    spare d' (.running x (some (.push p')) : WorkerPc n τ) = spare d (.running x (some (.push p)) : WorkerPc n τ) := by
  simp only [spare, size, free, held, WorkerPc.published, EnqPc.published, WorkerPc.owner]
  cases h with
  | quiet hc hi _ => rw [hc, hi]; rfl
  | push y hc hi hi' =>
    rw [hc, hi, hi', List.length_append]
    simp [WorkerPc.awake]
  | pop y _ _ _ _ ht => rw [taken_of_isPush hp'] at ht; cases ht

/-- What the supply gains at the owner of a stolen task it loses at the thief. -/
theorem spare_stolen {pc : WorkerPc n τ} {q q' : ThiefPc τ} (h : ThiefStepOk d pc.owner q d' q') :
    spare d' pc + ind q'.taken.isNone = spare d pc + ind q.taken.isNone := by
  simp only [spare, size, free, held_congr h.taken]
  cases h.effect with
  | quiet hc ht => rw [hc, ht]
  | steal y hc ht ht' =>
    rw [hc, ht, ht', List.length_cons]
    simp
    omega

theorem spare_notified : spare d (.notified : WorkerPc n τ) = spare d (.blocked : WorkerPc n τ) + 1 := by
  have h₁ : spare d (.blocked : WorkerPc n τ) = 0 + 0 - (window d.cur.load d.top d.bottom).length := rfl
  have h₂ : spare d (.notified : WorkerPc n τ) = 1 + 0 - (window d.cur.load d.top d.bottom).length := rfl
  omega

theorem spare_blocked_le : spare d (.blocked : WorkerPc n τ) ≤ spare d (.notified : WorkerPc n τ) := by
  rw [spare_notified]; omega

theorem spare_unlock (x : τ) : spare d (.running x (some .notify) : WorkerPc n τ) =
    spare d (.running x (some .unlock) : WorkerPc n τ) + 1 := by
  have h₁ : spare d (.running x (some .unlock) : WorkerPc n τ) =
    0 + 0 - (window d.cur.load d.top d.bottom).length := rfl
  have h₂ : spare d (.running x (some .notify) : WorkerPc n τ) =
    0 + 1 - (window d.cur.load d.top d.bottom).length := rfl
  omega

/-! ## The supply of the pool -/

/-- No part of the supply shrinks. -/
theorem supply_le (hw : ∀ w, spare (s.deques w) (s.worker w) ≤ spare (s'.deques w) (s'.worker w))
    (he : ∀ i, ind (s.ext i).published ≤ ind (s'.ext i).published) (hg : s'.global = s.global) :
    supply s ≤ supply s' := by
  have h₁ := Finset.sum_le_sum fun w (_ : w ∈ Finset.univ) => hw w
  have h₂ := Finset.sum_le_sum fun i (_ : i ∈ Finset.univ) => he i
  simp only [supply, hg]
  omega

/-- One worker changes, with its deque. -/
theorem supply_worker (s s' : Impl n m τ) {w : Fin n} {pc : WorkerPc n τ}
    (hd : s'.deques = Function.update s.deques w d') (hw : s'.worker = Function.update s.worker w pc)
    (he : s'.ext = s.ext) :
    supply s' + (spare (s.deques w) (s.worker w) - s.global.length) =
      supply s + (spare d' pc - s'.global.length) := by
  have hsum := sum_change (f := fun j => spare (s'.deques j) (s'.worker j))
    (g := fun j => spare (s.deques j) (s.worker j)) w fun j hj => by
      rw [hd, hw, Function.update_of_ne hj, Function.update_of_ne hj]
  simp only [hd, hw, Function.update_self] at hsum
  simp only [supply, hd, hw, he]
  omega

/-- One worker changes, and no deque. -/
theorem supply_worker_only (s s' : Impl n m τ) {w : Fin n} {pc : WorkerPc n τ} (hd : s'.deques = s.deques)
    (hw : s'.worker = Function.update s.worker w pc) (he : s'.ext = s.ext) :
    supply s' + (spare (s.deques w) (s.worker w) - s.global.length) =
      supply s + (spare (s.deques w) pc - s'.global.length) := by
  refine supply_worker s s' ?_ hw he
  rw [hd, Function.update_eq_self]

/-- A worker moves and its part of the supply does not shrink. -/
theorem supply_move {w : Fin n} {pc : WorkerPc n τ} (hd : s'.deques = s.deques)
    (hw : s'.worker = Function.update s.worker w pc) (hc : spare (s.deques w) (s.worker w) ≤ spare (s.deques w) pc)
    (he : ∀ i, ind (s.ext i).published ≤ ind (s'.ext i).published) (hg : s'.global = s.global) :
    supply s ≤ supply s' := by
  refine supply_le (fun v => ?_) he hg
  rw [hd, hw]
  by_cases e : v = w
  · subst e; rw [Function.update_self]; exact hc
  · rw [Function.update_of_ne e]

theorem supply_owner {w : Fin n} {pc : WorkerPc n τ} (hc : spare d' pc = spare (s.deques w) (s.worker w)) :
    supply s ≤ supply ((s.setDeque w d').setWorker w pc) := by
  have hsum := supply_worker s ((s.setDeque w d').setWorker w pc) rfl rfl rfl
  rw [hc] at hsum
  exact (add_right_cancel hsum).ge

theorem supply_steal (h : Safe s) {w : Fin n} {spin : Option Nat} {start i : Nat} {q q' : ThiefPc τ}
    (hw : s.worker w = .stealing spin start i (some q))
    (hok : ThiefStepOk (s.deques (target w start i)) (s.worker (target w start i)).owner q d' q') :
    supply s ≤ supply ((s.setDeque (target w start i) d').setWorker w (.stealing spin start i (some q'))) := by
  have hne : target w start i ≠ w := (h.stealing hw).1
  generalize target w start i = j at *
  have hsum := sum_change₂
    (f := fun k => spare (Function.update s.deques j d' k)
      (Function.update s.worker w (.stealing spin start i (some q')) k))
    (g := fun k => spare (s.deques k) (s.worker k)) hne fun k hkj hkw => by
      rw [Function.update_of_ne hkj, Function.update_of_ne hkw]
  simp only [Function.update_self, Function.update_of_ne hne, Function.update_of_ne hne.symm, hw] at hsum
  have hstolen := spare_stolen hok
  have hthief : ∀ r : ThiefPc τ, spare (s.deques w) (.stealing spin start i (some r) : WorkerPc n τ) =
      ind r.taken.isNone + 0 - (window (s.deques w).cur.load (s.deques w).top (s.deques w).bottom).length :=
    fun _ => rfl
  rw [hthief, hthief] at hsum
  simp only [supply, Impl.setWorker, Impl.setDeque]
  omega

/-- One external thread changes. -/
theorem supply_ext (s s' : Impl n m τ) (i : Fin m) (hd : s'.deques = s.deques) (hw : s'.worker = s.worker)
    (he : ∀ j, j ≠ i → s'.ext j = s.ext j) :
    supply s' + (ind (s.ext i).published - s.global.length) =
      supply s + (ind (s'.ext i).published - s'.global.length) := by
  have hsum := sum_change (f := fun j => ind (s'.ext j).published) (g := fun j => ind (s.ext j).published) i
    fun j hj => by rw [he j hj]
  simp only [supply, hd, hw]
  omega

/-- A notified worker adds one to the supply. -/
theorem supply_notified {v : Fin n} (hv : s.worker v = .blocked) :
    supply (s.setWorker v .notified) = supply s + 1 := by
  have hsum := supply_worker_only s (s.setWorker v .notified) rfl rfl rfl
  rw [hv, spare_notified] at hsum
  simp only [Impl.setWorker] at hsum ⊢
  omega

theorem published_setExt {i : Fin m} {pc : ExtPc n τ} (h : ind (s.ext i).published ≤ ind pc.published) (j : Fin m) :
    ind (s.ext j).published ≤ ind ((s.setExt i pc).ext j).published := by
  by_cases e : j = i
  · subst e; simpa [Impl.setExt] using h
  · simp [Impl.setExt, e]

theorem ExtMove.published_le {pc pc' : ExtPc n τ} (h : ExtMove s pc pc') :
    ind pc.published ≤ ind pc'.published ∨ s.sleeping ≤ 0 := by
  cases h with
  | noSleepers hs => exact .inr hs
  | _ => exact .inl (le_refl _)

/-- How a step may lower the supply. -/
inductive Lowers (s s' : Impl n m τ) : Prop
  | stopped : s.stop = true → Lowers s s'
  | left (w : Fin n) : s.worker w = .unlock true → Lowers s s'
  | noSleepers : s.sleeping ≤ 0 → (∀ w, s'.worker w = .blocked → s.worker w = .blocked) → Lowers s s'
  | noWaiters : (∀ w, s'.worker w ≠ .blocked) → Lowers s s'
  | blocks (w : Fin n) : s.worker w = .wait → s'.worker = Function.update s.worker w .blocked →
      s'.deques = s.deques → s'.ext = s.ext → s'.global = s.global → Lowers s s'

theorem Move.not_blocked {w : Fin n} {pc pc' : WorkerPc n τ} (h : Move s w pc pc') : pc'.isBlocked = false := by
  cases h with
  | search _ h₂ => cases pc' <;> first | rfl | cases h₂
  | _ => rfl

theorem Effect.supply (e : Effect s a s') (h : Safe s) : supply s ≤ supply s' ∨ Lowers s s' := by
  have ext_same : ∀ i, ind (s.ext i).published ≤ ind (s.ext i).published := fun _ => le_refl _
  cases e with
  | pop w p hw =>
    obtain ⟨hi, hc⟩ := h.popping hw
    exact .inl (supply_owner (by rw [hw]; exact spare_pop (ownerStep_ok hi).effect hc))
  | push w x p hw =>
    obtain ⟨hi, hc⟩ := h.pushing hw
    exact .inl (supply_owner (by rw [hw]; exact spare_push (ownerStep_ok hi).effect (isPush_ownerStep hc) x))
  | steal w spin start i q hw => exact .inl (supply_steal h hw (thiefStep_ok (h.inv _) (h.stealing hw).2))
  | start w x hgot => exact .inl (supply_move rfl rfl (spare_start hgot) ext_same rfl)
  -- one task less in the queue, and one worker less to look for it
  | take w x g hpg hg =>
    have hsum := supply_worker_only s ({ s with global := g }.start w x) rfl rfl rfl
    have hrun : spare (s.deques w) (.running x none : WorkerPc n τ) =
        0 + 0 - (window (s.deques w).cur.load (s.deques w).top (s.deques w).bottom).length := rfl
    rw [spare_of_searching (searching_of_popsGlobal hpg), hg, hrun, List.length_cons] at hsum
    simp only [Impl.start, Impl.setWorker] at hsum ⊢
    push_cast at hsum
    left; omega
  | move w pc rng hm =>
    rcases hm.spare_le (d := s.deques w) with hle | hs | hs
    · exact .inl (supply_move rfl rfl hle ext_same rfl)
    · exact .inr (.stopped hs)
    · refine .inr (.noSleepers hs fun v hv => ?_)
      by_cases e : v = w
      · subst e
        have hb := hm.not_blocked
        simp only [Impl.setWorker, Function.update_self] at hv
        rw [hv] at hb; cases hb
      · simpa [Impl.setWorker, e] using hv
  | lock w pc _ hl => exact .inl (supply_move rfl rfl hl.spare_le ext_same rfl)
  | unlock w pc hl =>
    rcases hl.spare_le (d := s.deques w) with hle | hw | ⟨hw, rfl⟩
    · exact .inl (supply_move rfl rfl hle ext_same rfl)
    · exact .inr (.left w hw)
    · exact .inr (.blocks w hw rfl rfl rfl rfl)
  | incSleeping w hw | decSleeping w hw | spawn w y x hw =>
    exact .inl (supply_move rfl rfl (by rw [hw]; exact le_refl _) ext_same rfl)
  | finish w x hw => exact .inl (supply_move rfl rfl (by rw [hw]; exact spare_finish x) ext_same rfl)
  | call i x hi =>
    exact .inl (supply_le (fun _ => le_refl _) (published_setExt (by rw [hi]; exact le_refl _)) rfl)
  -- one task more, and one `enqueue` that will look for a sleeper
  | publish i x hi =>
    have hsum := supply_ext s ({ s with global := s.global ++ [x] }.setExt i (.enqueue .loadSleeping)) i rfl rfl
      (fun j hj => Function.update_of_ne hj _ s.ext)
    simp only [Impl.setExt, Function.update_self, hi, ExtPc.published, EnqPc.published, ind_true, ind_false,
      List.length_append, List.length_singleton] at hsum
    simp only [Impl.setExt]
    push_cast at hsum
    left; omega
  | extMove i pc _ _ hm =>
    rcases hm.published_le with hle | hs
    · exact .inl (supply_le (fun _ => le_refl _) (published_setExt hle) rfl)
    · exact .inr (.noSleepers hs fun _ hv => hv)
  | extLock i _ hi | extUnlock i hi =>
    exact .inl (supply_le (fun _ => le_refl _) (published_setExt (by rw [hi]; exact le_refl _)) rfl)
  -- the `enqueue` has woken the worker that it stood for
  | notify w x v hw hv =>
    have hne : w ≠ v := ne_of_running hw hv
    have hw' : (s.setWorker v .notified).worker w = .running x (some .notify) := by
      simp only [Impl.setWorker, Function.update_of_ne hne, hw]
    have hsum := supply_worker_only (s.setWorker v .notified)
      ((s.setWorker v .notified).setWorker w (.running x (some .unlock))) rfl rfl rfl
    rw [hw', supply_notified hv] at hsum
    have := spare_unlock (n := n) (d := s.deques w) x
    simp only [Impl.setWorker] at hsum ⊢
    left; omega
  | notifyNone w x hw hb =>
    refine .inr (.noWaiters fun v hv => ?_)
    by_cases e : v = w
    · subst e; simp [Impl.setWorker] at hv
    · exact hb v (by simpa [Impl.setWorker, e] using hv)
  | extNotify i v hi hv =>
    have hsum := supply_ext (s.setWorker v .notified) ((s.setWorker v .notified).setExt i (.enqueue .unlock)) i rfl rfl
      (fun j hj => Function.update_of_ne hj _ s.ext)
    rw [supply_notified hv] at hsum
    simp only [Impl.setExt, Impl.setWorker, Function.update_self, hi, ExtPc.published, EnqPc.published, ind_true,
      ind_false] at hsum
    simp only [Impl.setExt, Impl.setWorker]
    left; omega
  | extNotifyNone i hi hb => exact .inr (.noWaiters hb)
  | spurious v hv =>
    exact .inl (supply_move rfl rfl (by rw [hv]; exact spare_blocked_le) ext_same rfl)
  | notifyAll =>
    refine .inl (supply_le (fun w => ?_) ext_same rfl)
    rcases notifyAll_worker s w with hw | ⟨hw, hw'⟩
    · simp only [hw]; exact le_refl _
    · simp only [hw, hw']; exact spare_blocked_le
  | dtorMove | storeStop | dtorLock | dtorUnlock | destroy | destroyGlobal =>
    exact .inl (supply_le (fun _ => le_refl _) ext_same rfl)

end AsyncRuntime.Pool
