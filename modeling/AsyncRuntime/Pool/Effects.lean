import AsyncRuntime.Pool.Model
/-!
# What one step of the pool can do

`step_effect` goes through the program once. Everything proved about runs of the
pool is a case analysis over `Effect`, and over `Move` for the steps of a worker
that change nothing but its own program point, so none of it looks at the code
again.
-/

namespace AsyncRuntime.Pool
open Lib Deque
variable {n m : Nat} {τ : Type}

/-! ## Classes of program points -/

/-- The worker is past its own deque, holds no task and does not hold the mutex:
the global queue, the head of `steal_from_others`, the first load of `stop` and
the spin loop. -/
def WorkerPc.searching : WorkerPc n τ → Bool
  | .popGlobal | .stealing _ _ _ none | .loadStop | .spinPop _ | .lock => true
  | _ => false

/-- The worker is about to pop the global queue. -/
def WorkerPc.popsGlobal : WorkerPc n τ → Bool
  | .popGlobal | .spinPop _ => true
  | _ => false

/-- A pop or a steal is about to return this task. -/
def WorkerPc.got : WorkerPc n τ → Option τ
  | .popping (.popDone r) => r
  | .stealing _ _ _ (some (.done r)) => r
  | _ => none

/-- A step of worker `w` that only moves it. -/
inductive Move (s : Impl n m τ) (w : Fin n) : WorkerPc n τ → WorkerPc n τ → Prop
  | boot : Move s w .boot (.popping .popLoadBottom)
  | popMiss : Move s w (.popping (.popDone none)) .popGlobal
  | search {pc pc'} : pc.searching → pc'.searching → (pc.popsGlobal → s.global = []) →
      (pc = .loadStop → s.stop = false) → Move s w pc pc'
  | steal {spin start i} : target w start i ≠ w →
      Move s w (.stealing spin start i none) (.stealing spin start i (some .loadTop))
  | stealMiss {spin start i} :
      Move s w (.stealing spin start i (some (.done none))) (.stealing spin start (i + 1) none)
  | exit : s.stop = true → Move s w .loadStop .exited
  | leave : s.stop = true → Move s w .lockedStop (.unlock true)
  | lookFirst : s.stop = false → Move s w .lockedStop (.look .first .global)
  | lookPred : s.stop = false → Move s w .predStop (.look .pred .global)
  | stopPred : s.stop = true → Move s w .predStop .decSleeping
  | look {site l l'} : lookStep s l = .inl l' → Move s w (.look site l) (.look site l')
  | foundFirst {l} : lookStep s l = .inr true → Move s w (.look .first l) (.unlock false)
  | emptyFirst {l} : lookStep s l = .inr false → Move s w (.look .first l) .incSleeping
  | foundPred {l} : lookStep s l = .inr true → Move s w (.look .pred l) .decSleeping
  | emptyPred {l} : lookStep s l = .inr false → Move s w (.look .pred l) .wait
  | pushed {x} : Move s w (.running x (some (.push .pushDone))) (.running x (some .loadSleeping))
  | sleepers {x} : 0 < s.sleeping → Move s w (.running x (some .loadSleeping)) (.running x (some .lock))
  | noSleepers {x} : s.sleeping ≤ 0 → Move s w (.running x (some .loadSleeping)) (.running x none)

/-- A worker takes the mutex. -/
inductive Locks : WorkerPc n τ → WorkerPc n τ → Prop
  | sleep : Locks .lock .lockedStop
  | woken : Locks .notified .predStop
  | notify {x} : Locks (.running x (some .lock)) (.running x (some .notify))

/-- A worker releases the mutex. -/
inductive Unlocks : WorkerPc n τ → WorkerPc n τ → Prop
  | leave : Unlocks (.unlock true) .exited
  | again : Unlocks (.unlock false) (.popping .popLoadBottom)
  | wait : Unlocks .wait .blocked
  | notify {x} : Unlocks (.running x (some .unlock)) (.running x none)

/-- A step of an external thread that only moves it. -/
inductive ExtMove (s : Impl n m τ) : ExtPc n τ → ExtPc n τ → Prop
  | sleepers : 0 < s.sleeping → ExtMove s (.enqueue .loadSleeping) (.enqueue .lock)
  | noSleepers : s.sleeping ≤ 0 → ExtMove s (.enqueue .loadSleeping) .idle
  | wait : s.dtor = .idle → ExtMove s .idle (.wait .global)
  | look {l l'} : ExtMove s (.wait l) (.wait l')
  | empty {l} : lookStep s l = .inr false → ExtMove s (.wait l) .idle

/-- A step of the destructor that touches neither the mutex nor a worker, and
deletes nothing. -/
inductive DtorMove (s : Impl n m τ) : DtorPc → DtorPc → Prop
  | begin : (∀ i, s.ext i = .idle) → DtorMove s .idle .storeStop
  | join {k} (h : k < n) : s.worker ⟨k, h⟩ = .exited → DtorMove s (.join k) (.join (k + 1))
  | joined {k} : n ≤ k → DtorMove s (.join k) (.destroy 0)
  | destroyed {k} : n ≤ k → DtorMove s (.destroy k) .destroyGlobal

/-- What an action does to the pool. -/
inductive Effect (s : Impl n m τ) : Act n m τ → Impl n m τ → Prop
  | pop (w p) : s.worker w = .popping p →
      Effect s (.step (.worker w))
        ((s.setDeque w (ownerStep (s.deques w) p).1).setWorker w (.popping (ownerStep (s.deques w) p).2))
  | push (w x p) : s.worker w = .running x (some (.push p)) →
      Effect s (.step (.worker w)) ((s.setDeque w (ownerStep (s.deques w) p).1).setWorker w
        (.running x (some (.push (ownerStep (s.deques w) p).2))))
  | steal (w spin start i q) : s.worker w = .stealing spin start i (some q) →
      Effect s (.step (.worker w))
        ((s.setDeque (target w start i) (thiefStep (s.deques (target w start i)) q).1).setWorker w
          (.stealing spin start i (some (thiefStep (s.deques (target w start i)) q).2)))
  | start (w x) : (s.worker w).got = some x → Effect s (.step (.worker w)) (s.start w x)
  | take (w x g) : (s.worker w).popsGlobal → s.global = x :: g →
      Effect s (.step (.worker w)) ({ s with global := g }.start w x)
  | move (w pc rng) : Move s w (s.worker w) pc → Effect s (.step (.worker w)) { s.setWorker w pc with rng := rng }
  | lock (w pc) : s.mutex = none → Locks (s.worker w) pc →
      Effect s (.step (.worker w)) { s.setWorker w pc with mutex := some (.worker w) }
  | unlock (w pc) : Unlocks (s.worker w) pc → Effect s (.step (.worker w)) { s.setWorker w pc with mutex := none }
  | incSleeping (w) : s.worker w = .incSleeping →
      Effect s (.step (.worker w)) { s.setWorker w .predStop with sleeping := s.sleeping + 1 }
  | decSleeping (w) : s.worker w = .decSleeping →
      Effect s (.step (.worker w)) { s.setWorker w (.unlock false) with sleeping := s.sleeping - 1 }
  | finish (w x) : s.worker w = .running x none →
      Effect s (.finish w) { s.setWorker w (.popping .popLoadBottom) with
        ran := s.ran ++ [x], deleted := s.deleted ++ [(.worker w, x)] }
  | spawn (w y x) : s.worker w = .running y none → x ∉ s.enqueued.map (·.2) →
      Effect s (.enqueue (.worker w) x) { s.setWorker w (.running y (some (.push (.pushLoadBottom x)))) with
        enqueued := s.enqueued ++ [(.worker w, x)] }
  | call (i x) : s.ext i = .idle → s.dtor = .idle → x ∉ s.enqueued.map (·.2) →
      Effect s (.enqueue (.ext i) x)
        { s.setExt i (.enqueue (.pushGlobal x)) with enqueued := s.enqueued ++ [(.ext i, x)] }
  | publish (i x) : s.ext i = .enqueue (.pushGlobal x) →
      Effect s (.step (.ext i)) ({ s with global := s.global ++ [x] }.setExt i (.enqueue .loadSleeping))
  | extMove (i pc a) : a = .step (.ext i) ∨ a = .wait i → ExtMove s (s.ext i) pc → Effect s a (s.setExt i pc)
  | extLock (i) : s.mutex = none → s.ext i = .enqueue .lock →
      Effect s (.step (.ext i)) { s.setExt i (.enqueue .notify) with mutex := some (.ext i) }
  | extUnlock (i) : s.ext i = .enqueue .unlock → Effect s (.step (.ext i)) { s.setExt i .idle with mutex := none }
  | notify (w x v) : s.worker w = .running x (some .notify) → s.worker v = .blocked →
      Effect s (.notify (.worker w) (some v)) ((s.setWorker v .notified).setWorker w (.running x (some .unlock)))
  | notifyNone (w x) : s.worker w = .running x (some .notify) → (∀ v, s.worker v ≠ .blocked) →
      Effect s (.notify (.worker w) none) (s.setWorker w (.running x (some .unlock)))
  | extNotify (i v) : s.ext i = .enqueue .notify → s.worker v = .blocked →
      Effect s (.notify (.ext i) (some v)) ((s.setWorker v .notified).setExt i (.enqueue .unlock))
  | extNotifyNone (i) : s.ext i = .enqueue .notify → (∀ v, s.worker v ≠ .blocked) →
      Effect s (.notify (.ext i) none) (s.setExt i (.enqueue .unlock))
  | spurious (v) : s.worker v = .blocked → Effect s (.spurious v) (s.setWorker v .notified)
  | dtorMove (pc) : DtorMove s s.dtor pc → Effect s (.step .dtor) { s with dtor := pc }
  | storeStop : s.dtor = .storeStop → Effect s (.step .dtor) { s with stop := true, dtor := .lock }
  | dtorLock : s.mutex = none → s.dtor = .lock →
      Effect s (.step .dtor) { s with mutex := some .dtor, dtor := .notifyAll }
  | notifyAll : s.dtor = .notifyAll → Effect s (.step .dtor) { notifyAll s with dtor := .unlock }
  | dtorUnlock : s.dtor = .unlock → Effect s (.step .dtor) { s with mutex := none, dtor := .join 0 }
  | destroy (j : Fin n) : s.dtor = .destroy j →
      Effect s (.step .dtor) { s with
        deleted := s.deleted ++ (remaining (s.deques j)).map (fun x => (.deque j, x)), dtor := .destroy (j + 1) }
  | destroyGlobal : s.dtor = .destroyGlobal →
      Effect s (.step .dtor) { s with deleted := s.deleted ++ s.global.map (fun x => (.global, x)), dtor := .finished }

/-! ## Every step has one of these effects -/

theorem isExited_iff {pc : WorkerPc n τ} : pc.isExited = true ↔ pc = .exited := by
  cases pc <;> simp [WorkerPc.isExited]

theorem isBlocked_iff {pc : WorkerPc n τ} : pc.isBlocked = true ↔ pc = .blocked := by
  cases pc <;> simp [WorkerPc.isBlocked]

theorem isIdle_iff {pc : ExtPc n τ} : pc.isIdle = true ↔ pc = .idle := by
  cases pc <;> simp [ExtPc.isIdle]

theorem dtor_isIdle_iff {pc : DtorPc} : pc.isIdle = true ↔ pc = .idle := by
  cases pc <;> simp [DtorPc.isIdle]

theorem searching_stealMiss (spin : Option Nat) : (stealMiss spin : WorkerPc n τ).searching = true := by
  unfold stealMiss
  split
  · rfl
  · split <;> rfl

theorem searching_of_popsGlobal {pc : WorkerPc n τ} (h : pc.popsGlobal = true) : pc.searching = true := by
  cases pc <;> first | rfl | cases h

theorem stealEnter_effect {s : Impl n m τ} {w : Fin n} (hpc : (s.worker w).popsGlobal = true) (hg : s.global = [])
    (spin : Option Nat) : Effect s (.step (.worker w)) (stealEnter s w spin) := by
  have hmove : ∀ pc : WorkerPc n τ, pc.searching = true → Move s w (s.worker w) pc := by
    intro pc h
    refine .search (searching_of_popsGlobal hpc) h (fun _ => hg) (fun e => ?_)
    rw [e] at hpc; cases hpc
  unfold stealEnter
  split
  · exact .move w _ s.rng (hmove _ (searching_stealMiss spin))
  · exact .move w _ _ (hmove _ rfl)

theorem stealLoop_effect {s : Impl n m τ} {w : Fin n} {spin : Option Nat} {start i : Nat}
    (hpc : s.worker w = .stealing spin start i none) :
    Effect s (.step (.worker w)) (s.setWorker w (stealLoop w spin start i)) := by
  have hmove : ∀ pc : WorkerPc n τ, pc.searching = true → Move s w (s.worker w) pc := by
    intro pc h
    rw [hpc]
    exact .search rfl h nofun nofun
  unfold stealLoop
  split
  · split
    · exact .move w _ s.rng (hmove _ rfl)
    · next h => exact .move w _ s.rng (by rw [hpc]; exact .steal h)
  · exact .move w _ s.rng (hmove _ (searching_stealMiss spin))

/-- One access of an `enqueue` made by a running task. -/
theorem enqStep_effect {s s' : Impl n m τ} {w : Fin n} {x : τ} {e : EnqPc τ} {e' : Option (EnqPc τ)}
    (hpc : s.worker w = .running x (some e)) (h : enqStep s (.worker w) e = some (s', e'))
    (hpush : ∀ y, e ≠ .pushGlobal y) : Effect s (.step (.worker w)) (s'.setWorker w (.running x e')) := by
  have hq : localQueue s (.worker w) = some w := by simp only [localQueue, hpc]
  cases e with
  | push p =>
    simp only [enqStep, hq] at h
    split at h
    · cases h
    · cases h
      exact .move w _ s.rng (by rw [hpc]; exact .pushed)
    · next hj _ =>
      cases h; cases hj
      exact .push w x _ hpc
  | pushGlobal y => exact absurd rfl (hpush y)
  | loadSleeping =>
    simp only [enqStep] at h
    split at h
    · next hs => cases h; exact .move w _ s.rng (by rw [hpc]; exact .sleepers hs)
    · next hs => cases h; exact .move w _ s.rng (by rw [hpc]; exact .noSleepers (not_lt.1 hs))
  | lock =>
    simp only [enqStep] at h
    split at h
    · next hm => cases h; exact .lock w _ (Option.isNone_iff_eq_none.1 hm) (by rw [hpc]; exact .notify)
    · cases h
  | notify => cases h
  | unlock => cases h; exact .unlock w _ (by rw [hpc]; exact .notify)

theorem workerStep_effect {s s' : Impl n m τ} {w : Fin n} (h : workerStep s w = some s')
    (hpush : ∀ x y, s.worker w ≠ .running x (some (.pushGlobal y))) : Effect s (.step (.worker w)) s' := by
  unfold workerStep at h
  cases hpc : s.worker w with
  | boot =>
    simp only [hpc] at h; cases h
    exact .move w _ s.rng (by rw [hpc]; exact .boot)
  | popping p =>
    simp only [hpc] at h
    split at h
    · cases h; exact .move w _ s.rng (by rw [hpc]; exact .popMiss)
    · cases h; exact .start w _ (by rw [hpc]; rfl)
    · cases h; exact .pop w _ hpc
  | popGlobal =>
    simp only [hpc] at h
    split at h
    · next hg => cases h; exact stealEnter_effect (by rw [hpc]; rfl) hg none
    · next x g hg => cases h; exact .take w x g (by rw [hpc]; rfl) hg
  | stealing spin start i q =>
    simp only [hpc] at h
    split at h
    · cases h; exact stealLoop_effect hpc
    · cases h; exact .move w _ s.rng (by rw [hpc]; exact .stealMiss)
    · cases h; exact .start w _ (by rw [hpc]; rfl)
    · cases h; exact .steal w _ _ _ _ hpc
  | running x e =>
    cases e with
    | none => simp only [hpc] at h; cases h
    | some e =>
      simp only [hpc, Option.map_eq_some_iff] at h
      obtain ⟨⟨s₁, e'⟩, he, rfl⟩ := h
      exact enqStep_effect hpc he fun y hy => hpush x y (by rw [hpc, hy])
  | loadStop =>
    simp only [hpc] at h
    split at h
    · next hs => cases h; exact .move w _ s.rng (by rw [hpc]; exact .exit hs)
    · next hs =>
      cases h
      exact .move w _ s.rng (by rw [hpc]; exact .search rfl rfl nofun fun _ => Bool.not_eq_true _ ▸ hs)
  | spinPop k =>
    simp only [hpc] at h
    split at h
    · next hg => cases h; exact stealEnter_effect (by rw [hpc]; rfl) hg (some k)
    · next x g hg => cases h; exact .take w x g (by rw [hpc]; rfl) hg
  | lock =>
    simp only [hpc] at h
    split at h
    · next hm => cases h; exact .lock w _ (Option.isNone_iff_eq_none.1 hm) (by rw [hpc]; exact .sleep)
    · cases h
  | lockedStop =>
    simp only [hpc] at h
    split at h
    · next hs => cases h; exact .move w _ s.rng (by rw [hpc]; exact .leave hs)
    · next hs => cases h; exact .move w _ s.rng (by rw [hpc]; exact .lookFirst (Bool.eq_false_iff.2 hs))
  | look site l =>
    simp only [hpc] at h
    split at h <;> cases h <;> refine .move w _ s.rng ?_ <;> rw [hpc]
    · exact .look ‹_›
    · exact .foundFirst ‹_›
    · exact .emptyFirst ‹_›
    · exact .foundPred ‹_›
    · exact .emptyPred ‹_›
  | incSleeping => simp only [hpc] at h; cases h; exact .incSleeping w hpc
  | predStop =>
    simp only [hpc] at h
    split at h
    · next hs => cases h; exact .move w _ s.rng (by rw [hpc]; exact .stopPred hs)
    · next hs => cases h; exact .move w _ s.rng (by rw [hpc]; exact .lookPred (Bool.eq_false_iff.2 hs))
  | wait => simp only [hpc] at h; cases h; exact .unlock w _ (by rw [hpc]; exact .wait)
  | blocked => simp only [hpc] at h; cases h
  | notified =>
    simp only [hpc] at h
    split at h
    · next hm => cases h; exact .lock w _ (Option.isNone_iff_eq_none.1 hm) (by rw [hpc]; exact .woken)
    · cases h
  | decSleeping => simp only [hpc] at h; cases h; exact .decSleeping w hpc
  | unlock leave =>
    simp only [hpc] at h; cases h
    cases leave with
    | true => exact .unlock w _ (by rw [hpc]; exact .leave)
    | false => exact .unlock w _ (by rw [hpc]; exact .again)
  | exited => simp only [hpc] at h; cases h

theorem extStep_effect {s s' : Impl n m τ} {i : Fin m} (h : extStep s i = some s') : Effect s (.step (.ext i)) s' := by
  unfold extStep at h
  cases hpc : s.ext i with
  | idle => simp only [hpc] at h; cases h
  | enqueue e =>
    simp only [hpc, Option.map_eq_some_iff] at h
    obtain ⟨⟨s₁, e'⟩, he, rfl⟩ := h
    cases e with
    | push p => cases he
    | pushGlobal x => cases he; exact .publish i x hpc
    | loadSleeping =>
      simp only [enqStep] at he
      split at he
      · next hs => cases he; exact .extMove i _ _ (.inl rfl) (by rw [hpc]; exact .sleepers hs)
      · next hs => cases he; exact .extMove i _ _ (.inl rfl) (by rw [hpc]; exact .noSleepers (not_lt.1 hs))
    | lock =>
      simp only [enqStep] at he
      split at he
      · next hm => cases he; exact .extLock i (Option.isNone_iff_eq_none.1 hm) hpc
      · cases he
    | notify => cases he
    | unlock => cases he; exact .extUnlock i hpc
  | wait l =>
    simp only [hpc] at h
    split at h <;> cases h <;> refine .extMove i _ _ (.inl rfl) ?_ <;> rw [hpc]
    · exact .look
    · exact .look
    · exact .empty ‹_›

theorem dtorStep_effect {s s' : Impl n m τ} (h : dtorStep s = some s') : Effect s (.step .dtor) s' := by
  unfold dtorStep at h
  cases hpc : s.dtor with
  | idle =>
    simp only [hpc] at h
    split at h
    · next hi => cases h; exact .dtorMove _ (by rw [hpc]; exact .begin fun i => isIdle_iff.1 (hi i))
    · cases h
  | storeStop => simp only [hpc] at h; cases h; exact .storeStop hpc
  | lock =>
    simp only [hpc] at h
    split at h
    · next hm => cases h; exact .dtorLock (Option.isNone_iff_eq_none.1 hm) hpc
    · cases h
  | notifyAll => simp only [hpc] at h; cases h; exact .notifyAll hpc
  | unlock => simp only [hpc] at h; cases h; exact .dtorUnlock hpc
  | join k =>
    simp only [hpc] at h
    split at h
    · next hk =>
      split at h
      · next he => cases h; exact .dtorMove _ (by rw [hpc]; exact .join hk (isExited_iff.1 he))
      · cases h
    · next hk => cases h; exact .dtorMove _ (by rw [hpc]; exact .joined (not_lt.1 hk))
  | destroy k =>
    simp only [hpc] at h
    split at h
    · next hk => cases h; exact .destroy ⟨k, hk⟩ hpc
    · next hk => cases h; exact .dtorMove _ (by rw [hpc]; exact .destroyed (not_lt.1 hk))
  | destroyGlobal => simp only [hpc] at h; cases h; exact .destroyGlobal hpc
  | finished => simp only [hpc] at h; cases h

theorem notifyOne_cases {s s' : Impl n m τ} {v : Option (Fin n)} (h : notifyOne s v = some s') :
    (∃ w, v = some w ∧ s.worker w = .blocked ∧ s' = s.setWorker w .notified) ∨
      v = none ∧ (∀ w, s.worker w ≠ .blocked) ∧ s' = s := by
  cases v with
  | some w =>
    simp only [notifyOne] at h
    split at h
    · next hb => cases h; exact .inl ⟨w, rfl, isBlocked_iff.1 hb, rfl⟩
    · cases h
  | none =>
    simp only [notifyOne] at h
    split at h
    · next hb =>
      cases h
      refine .inr ⟨rfl, fun w e => ?_, rfl⟩
      have := hb w
      rw [e] at this; cases this
    · cases h

theorem notifyAll_worker (s : Impl n m τ) (w : Fin n) :
    (notifyAll s).worker w = s.worker w ∨ s.worker w = .blocked ∧ (notifyAll s).worker w = .notified := by
  cases hw : s.worker w with
  | blocked => right; simp only [notifyAll, hw, and_self]
  | _ => left; simp only [notifyAll, hw]

/-- Every step has one of the effects. A worker's `enqueue` goes to its own
deque, so none of them stands at the push to the global queue. -/
theorem step_effect [DecidableEq τ] {s s' : Impl n m τ} {a : Act n m τ} (h : step s a = some s')
    (hpush : ∀ w x y, s.worker w ≠ .running x (some (.pushGlobal y))) : Effect s a s' := by
  unfold step at h
  cases a with
  | enqueue θ x =>
    simp only at h
    split at h
    · cases h
    · next hx =>
      cases θ with
      | worker w =>
        simp only at h
        split at h
        · next y hpc =>
          have hq : localQueue s (.worker w) = some w := by simp only [localQueue, hpc]
          rw [hq] at h; cases h
          exact .spawn w y x hpc hx
        · cases h
      | ext i =>
        simp only [Bool.and_eq_true] at h
        split at h
        · next hi => cases h; exact .call i x (isIdle_iff.1 hi.1) (dtor_isIdle_iff.1 hi.2) hx
        · cases h
      | dtor => cases h
  | wait i =>
    simp only [Bool.and_eq_true] at h
    split at h
    · next hi =>
      cases h
      exact .extMove i _ _ (.inr rfl) (by rw [isIdle_iff.1 hi.1]; exact .wait (dtor_isIdle_iff.1 hi.2))
    · cases h
  | step θ =>
    cases θ with
    | worker w => exact workerStep_effect h (hpush w)
    | ext i => exact extStep_effect h
    | dtor => exact dtorStep_effect h
  | notify θ v =>
    cases θ with
    | worker w =>
      simp only at h
      split at h
      · next x hpc =>
        obtain ⟨s₁, hn, rfl⟩ := Option.map_eq_some_iff.1 h
        rcases notifyOne_cases hn with ⟨v, rfl, hv, rfl⟩ | ⟨rfl, hb, rfl⟩
        · exact .notify w x v hpc hv
        · exact .notifyNone w x hpc hb
      · cases h
    | ext i =>
      simp only at h
      split at h
      · next hpc =>
        obtain ⟨s₁, hn, rfl⟩ := Option.map_eq_some_iff.1 h
        rcases notifyOne_cases hn with ⟨v, rfl, hv, rfl⟩ | ⟨rfl, hb, rfl⟩
        · exact .extNotify i v hpc hv
        · exact .extNotifyNone i hpc hb
      · cases h
    | dtor => cases h
  | finish w =>
    simp only at h
    split at h
    · next x hpc => cases h; exact .finish w x hpc
    · cases h
  | spurious w =>
    simp only at h
    split at h
    · next hb => cases h; exact .spurious w (isBlocked_iff.1 hb)
    · cases h

/-! ## What becomes of one worker -/

/-- The thread that an action belongs to; a spurious wake-up has none. -/
def Act.thread : Act n m τ → Option (Thread n m)
  | .enqueue θ _ | .step θ | .notify θ _ => some θ
  | .wait i => some (.ext i)
  | .finish w => some (.worker w)
  | .spurious _ => none

/-- The worker runs a task or looks for one. -/
def WorkerPc.atWork : WorkerPc n τ → Bool
  | .popping _ | .popGlobal | .stealing _ _ _ _ | .spinPop _ | .running _ _ => true
  | _ => false

/-- A worker moves; no queue and no external thread changes. -/
structure Moves (s s' : Impl n m τ) (w : Fin n) (pc : WorkerPc n τ) : Prop where
  worker : s'.worker = Function.update s.worker w pc
  deques : s'.deques = s.deques
  ext : s'.ext = s.ext
  global : s'.global = s.global

/-- What becomes of a worker in a step: it stays where it is, it is notified, or the step
is its own. -/
inductive WorkerEffect (s : Impl n m τ) (a : Act n m τ) (s' : Impl n m τ) (w : Fin n) : Prop
  | stays : s'.worker w = s.worker w → WorkerEffect s a s' w
  | woken : s.worker w = .blocked → s'.worker w = .notified → WorkerEffect s a s' w
  | works : a.thread = some (.worker w) → (s.worker w).atWork = true → (s'.worker w).atWork = true →
      WorkerEffect s a s' w
  | moves {pc} : a = .step (.worker w) → Move s w (s.worker w) pc → Moves s s' w pc → WorkerEffect s a s' w
  | locks {pc} : a = .step (.worker w) → s.mutex = none → Locks (s.worker w) pc → Moves s s' w pc →
      WorkerEffect s a s' w
  | unlocks {pc} : a = .step (.worker w) → Unlocks (s.worker w) pc → Moves s s' w pc → WorkerEffect s a s' w
  | incSleeping : a = .step (.worker w) → s.worker w = .incSleeping → Moves s s' w .predStop → WorkerEffect s a s' w
  | decSleeping : a = .step (.worker w) → s.worker w = .decSleeping → Moves s s' w (.unlock false) →
      WorkerEffect s a s' w

section WorkerEffect
variable {s s' : Impl n m τ} {a : Act n m τ}

theorem Moves.worker_self {w : Fin n} {pc : WorkerPc n τ} (h : Moves s s' w pc) : s'.worker w = pc := by
  rw [h.worker, Function.update_self]

theorem atWork_of_popsGlobal {pc : WorkerPc n τ} (h : pc.popsGlobal = true) : pc.atWork = true := by
  cases pc <;> first | rfl | cases h

theorem atWork_of_got {pc : WorkerPc n τ} {x : τ} (h : pc.got = some x) : pc.atWork = true := by
  cases pc <;> first | rfl | cases h

theorem Effect.worker (e : Effect s a s') (w : Fin n) : WorkerEffect s a s' w := by
  have own : ∀ {v : Fin n} {pc : WorkerPc n τ}, s'.worker = Function.update s.worker v pc →
      (v = w → WorkerEffect s a s' w) → WorkerEffect s a s' w := by
    intro v pc hw h
    by_cases e : v = w
    · exact h e
    · exact .stays (by rw [hw, Function.update_of_ne (Ne.symm e)])
  have works : ∀ {v : Fin n} {pc : WorkerPc n τ}, s'.worker = Function.update s.worker v pc →
      a.thread = some (.worker v) → (s.worker v).atWork = true → pc.atWork = true → WorkerEffect s a s' w := by
    intro v pc hw ha h₁ h₂
    refine own hw ?_
    rintro rfl
    exact .works ha h₁ (by rw [hw, Function.update_self]; exact h₂)
  have woken : ∀ {v : Fin n}, s.worker v = .blocked → Function.update s.worker v .notified w = s'.worker w →
      WorkerEffect s a s' w := by
    intro v hv hw
    by_cases e : v = w
    · subst e; exact .woken hv (by rw [← hw, Function.update_self])
    · exact .stays (by rw [← hw, Function.update_of_ne (Ne.symm e)])
  cases e with
  | pop v p hv | push v x p hv | steal v spin start i q hv | finish v x hv | spawn v y x hv | notifyNone v x hv =>
    exact works rfl rfl (by rw [hv]; rfl) rfl
  | start v x hgot => exact works rfl rfl (atWork_of_got hgot) rfl
  | take v x g hpg => exact works rfl rfl (atWork_of_popsGlobal hpg) rfl
  | move v pc rng hm =>
    refine own rfl ?_
    rintro rfl
    exact .moves rfl hm ⟨rfl, rfl, rfl, rfl⟩
  | lock v pc hnone hl =>
    refine own rfl ?_
    rintro rfl
    exact .locks rfl hnone hl ⟨rfl, rfl, rfl, rfl⟩
  | unlock v pc hl =>
    refine own rfl ?_
    rintro rfl
    exact .unlocks rfl hl ⟨rfl, rfl, rfl, rfl⟩
  | incSleeping v hv =>
    refine own rfl ?_
    rintro rfl
    exact .incSleeping rfl hv ⟨rfl, rfl, rfl, rfl⟩
  | decSleeping v hv =>
    refine own rfl ?_
    rintro rfl
    exact .decSleeping rfl hv ⟨rfl, rfl, rfl, rfl⟩
  | notify v x u hv hu =>
    by_cases e : v = w
    · subst e
      exact .works rfl (by rw [hv]; rfl) (by simp [Impl.setWorker, WorkerPc.atWork])
    · exact woken hu (by simp only [Impl.setWorker, Function.update_of_ne (Ne.symm e)])
  | extNotify i v hi hv | spurious v hv => exact woken hv rfl
  | notifyAll =>
    rcases notifyAll_worker s w with hw | ⟨hw, hw'⟩
    · exact .stays hw
    · exact .woken hw hw'
  | call | publish | extMove | extLock | extUnlock | extNotifyNone | dtorMove | storeStop | dtorLock | dtorUnlock
  | destroy | destroyGlobal => exact .stays rfl

/-- A worker inside a task is not the one it wakes. -/
theorem ne_of_running {w v : Fin n} {x : τ} {e : Option (EnqPc τ)} (hw : s.worker w = .running x e)
    (hv : s.worker v = .blocked) : w ≠ v := by
  rintro rfl
  cases hw.symm.trans hv

/-- An observation that waking does not change stays in `cv.notify_all`. -/
theorem observe_notifyAll {β : Type} (f : WorkerPc n τ → β) (h : f .notified = f .blocked) (w : Fin n) :
    f ((notifyAll s).worker w) = f (s.worker w) := by
  rcases notifyAll_worker s w with hw | ⟨hw, hw'⟩
  · rw [hw]
  · rw [hw, hw', h]

end WorkerEffect

end AsyncRuntime.Pool
