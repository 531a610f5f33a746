import AsyncRuntime.Lib.Sums
import AsyncRuntime.Pool.Deques
/-!
# The mutex and the count of sleepers

At most one thread is between taking the mutex and releasing it, and
`sleeping_workers` counts the workers between its increment and its decrement.
-/

namespace AsyncRuntime.Pool
open Lib Deque
variable {n m : Nat} {τ : Type} {s s' : Impl n m τ} {a : Act n m τ}

/-! ## Who holds the mutex -/

def WorkerPc.holds : WorkerPc n τ → Bool
  | .lockedStop | .look _ _ | .incSleeping | .predStop | .wait | .decSleeping | .unlock _ => true
  | .running _ (some .notify) | .running _ (some .unlock) => true
  | _ => false

def ExtPc.holds : ExtPc n τ → Bool
  | .enqueue .notify | .enqueue .unlock => true
  | _ => false

def DtorPc.holds : DtorPc → Bool
  | .notifyAll | .unlock => true
  | _ => false

def Impl.holds (s : Impl n m τ) : Thread n m → Bool
  | .worker w => (s.worker w).holds
  | .ext i => (s.ext i).holds
  | .dtor => s.dtor.holds

/-- What a step does to the mutex: nothing, take it, or release it. -/
inductive MutexEffect (s s' : Impl n m τ) : Prop
  | keep : s'.mutex = s.mutex → (∀ θ, s'.holds θ = s.holds θ) → MutexEffect s s'
  | lock (θ : Thread n m) : s.mutex = none → s'.mutex = some θ → (∀ θ', θ' ≠ θ → s'.holds θ' = s.holds θ') →
      MutexEffect s s'
  | unlock (θ : Thread n m) : s.holds θ = true → s'.holds θ = false → s'.mutex = none →
      (∀ θ', θ' ≠ θ → s'.holds θ' = s.holds θ') → MutexEffect s s'

section Frames
variable {w : Fin n} {pc : WorkerPc n τ} {i : Fin m} {epc : ExtPc n τ}

/-- Nobody takes or releases the mutex. -/
theorem MutexEffect.stay (hm : s'.mutex = s.mutex) (hw : ∀ w, (s'.worker w).holds = (s.worker w).holds)
    (he : ∀ i, (s'.ext i).holds = (s.ext i).holds) (hd : s'.dtor.holds = s.dtor.holds) : MutexEffect s s' := by
  refine .keep hm fun θ => ?_
  cases θ with
  | worker w => exact hw w
  | ext i => exact he i
  | dtor => exact hd

/-- Only worker `w` moves. -/
theorem holds_of_worker (hw : s'.worker = Function.update s.worker w pc) (he : s'.ext = s.ext) (hd : s'.dtor = s.dtor)
    (θ : Thread n m) (hθ : θ ≠ .worker w) : s'.holds θ = s.holds θ := by
  cases θ with
  | worker v =>
    have hv : v ≠ w := fun e => hθ (by rw [e])
    simp only [Impl.holds, hw, Function.update_of_ne hv]
  | ext i => simp only [Impl.holds, he]
  | dtor => simp only [Impl.holds, hd]

/-- Only external thread `i` moves. -/
theorem holds_of_ext (hw : s'.worker = s.worker) (he : s'.ext = Function.update s.ext i epc) (hd : s'.dtor = s.dtor)
    (θ : Thread n m) (hθ : θ ≠ .ext i) : s'.holds θ = s.holds θ := by
  cases θ with
  | worker v => simp only [Impl.holds, hw]
  | ext j =>
    have hj : j ≠ i := fun e => hθ (by rw [e])
    simp only [Impl.holds, he, Function.update_of_ne hj]
  | dtor => simp only [Impl.holds, hd]

/-- Only the destructor moves. -/
theorem holds_of_dtor (hw : s'.worker = s.worker) (he : s'.ext = s.ext) (θ : Thread n m) (hθ : θ ≠ .dtor) :
    s'.holds θ = s.holds θ := by
  cases θ with
  | worker v => simp only [Impl.holds, hw]
  | ext j => simp only [Impl.holds, he]
  | dtor => exact absurd rfl hθ

theorem MutexEffect.keep_worker (hm : s'.mutex = s.mutex) (hw : s'.worker = Function.update s.worker w pc)
    (he : s'.ext = s.ext) (hd : s'.dtor = s.dtor) (hpc : pc.holds = (s.worker w).holds) : MutexEffect s s' :=
  .stay hm (fun v => by rw [hw]; exact observe_update WorkerPc.holds hpc v) (fun i => by rw [he]) (by rw [hd])

theorem MutexEffect.keep_ext (hm : s'.mutex = s.mutex) (hw : s'.worker = s.worker)
    (he : s'.ext = Function.update s.ext i epc) (hd : s'.dtor = s.dtor) (hpc : epc.holds = (s.ext i).holds) :
    MutexEffect s s' :=
  .stay hm (fun v => by rw [hw]) (fun j => by rw [he]; exact observe_update ExtPc.holds hpc j) (by rw [hd])

end Frames

theorem holds_of_searching {pc : WorkerPc n τ} (h : pc.searching = true) : pc.holds = false := by
  cases pc <;> first | rfl | cases h

theorem Move.holds_eq {w : Fin n} {pc pc' : WorkerPc n τ} (h : Move s w pc pc') : pc'.holds = pc.holds := by
  cases h with
  | search h₁ h₂ => rw [holds_of_searching h₁, holds_of_searching h₂]
  | _ => rfl

theorem Unlocks.holds {pc pc' : WorkerPc n τ} (h : Unlocks pc pc') : pc.holds = true ∧ pc'.holds = false := by
  cases h <;> exact ⟨rfl, rfl⟩

theorem ExtMove.holds_eq {pc pc' : ExtPc n τ} (h : ExtMove s pc pc') : pc'.holds = pc.holds := by
  cases h <;> rfl

theorem DtorMove.holds_eq {pc pc' : DtorPc} (h : DtorMove s pc pc') : pc'.holds = pc.holds := by
  cases h <;> rfl

theorem holds_of_got {pc : WorkerPc n τ} {x : τ} (h : pc.got = some x) : pc.holds = false := by
  cases pc <;> first | rfl | cases h

theorem Effect.mutex (e : Effect s a s') : MutexEffect s s' := by
  cases e with
  | pop w p hw | push w x p hw | steal w spin start i q hw =>
    exact .keep_worker (s := s) rfl rfl rfl rfl (by rw [hw]; rfl)
  | start w x hgot => exact .keep_worker rfl rfl rfl rfl (by rw [holds_of_got hgot]; rfl)
  | take w x g hpg =>
    exact .keep_worker rfl rfl rfl rfl (by rw [holds_of_searching (searching_of_popsGlobal hpg)]; rfl)
  | move w pc rng hm => exact .keep_worker rfl rfl rfl rfl hm.holds_eq
  | lock w pc hnone hl =>
    refine .lock (.worker w) hnone rfl ?_
    apply holds_of_worker <;> rfl
  | unlock w pc hl =>
    refine .unlock (.worker w) hl.holds.1 ?_ rfl ?_
    · simpa [Impl.holds, Impl.setWorker] using hl.holds.2
    · apply holds_of_worker <;> rfl
  | incSleeping w hw | decSleeping w hw | finish w x hw | spawn w y x hw | notifyNone w x hw | spurious w hw =>
    exact .keep_worker rfl rfl rfl rfl (by rw [hw]; rfl)
  | call i x hi | publish i x hi | extNotifyNone i hi => exact .keep_ext rfl rfl rfl rfl (by rw [hi]; rfl)
  | extMove i pc _ _ hm => exact .keep_ext rfl rfl rfl rfl hm.holds_eq
  | extLock i hnone hi =>
    refine .lock (.ext i) hnone rfl ?_
    apply holds_of_ext <;> rfl
  | extUnlock i hi =>
    refine .unlock (.ext i) (by simp only [Impl.holds, hi]; rfl) ?_ rfl ?_
    · simp [Impl.holds, Impl.setExt, ExtPc.holds]
    · apply holds_of_ext <;> rfl
  | notify w x v hw hv =>
    exact .stay rfl (observe_update₂ WorkerPc.holds (by rw [hw]; rfl) (by rw [hv]; rfl)) (fun _ => rfl) rfl
  | extNotify i v hi hv =>
    refine .stay rfl ?_ ?_ rfl
    · exact observe_update WorkerPc.holds (by rw [hv]; rfl)
    · exact observe_update ExtPc.holds (by rw [show (s.setWorker v .notified).ext i = s.ext i from rfl, hi]; rfl)
  | dtorMove pc hm => exact .stay rfl (fun _ => rfl) (fun _ => rfl) hm.holds_eq
  | storeStop hd | destroy j hd | destroyGlobal hd =>
    exact .stay rfl (fun _ => rfl) (fun _ => rfl) (by rw [hd]; rfl)
  | dtorLock hnone hd =>
    refine .lock .dtor hnone rfl ?_
    apply holds_of_dtor <;> rfl
  | notifyAll hd =>
    exact .stay rfl (observe_notifyAll WorkerPc.holds rfl) (fun _ => rfl) (by rw [hd]; rfl)
  | dtorUnlock hd =>
    refine .unlock .dtor (by simp only [Impl.holds, hd]; rfl) rfl rfl ?_
    apply holds_of_dtor <;> rfl

/-! ## The invariant -/

/-- The worker is counted in `sleeping_workers`. -/
def WorkerPc.counted : WorkerPc n τ → Bool
  | .predStop | .look .pred _ | .wait | .blocked | .notified | .decSleeping => true
  | _ => false

/-- The number of workers counted in `sleeping_workers`. -/
def sleepers (s : Impl n m τ) : Int := ∑ w, if (s.worker w).counted then 1 else 0

theorem sleepers_update {w : Fin n} {pc : WorkerPc n τ} (hw : s'.worker = Function.update s.worker w pc) :
    sleepers s' + (if (s.worker w).counted then 1 else 0) = sleepers s + if pc.counted then 1 else 0 := by
  have hsum := sum_change (f := fun v => if (s'.worker v).counted then (1 : Int) else 0)
    (g := fun v => if (s.worker v).counted then 1 else 0) w fun v hv => by rw [hw, Function.update_of_ne hv]
  rw [hw, Function.update_self] at hsum
  rw [sleepers, hw]
  exact hsum

/-- The mutex is with the thread that is past its lock, and `sleeping_workers` is
the number of workers counted in it. -/
structure Locked (s : Impl n m τ) : Prop where
  holder : ∀ θ, s.holds θ = true → s.mutex = some θ
  sleeping : s.sleeping = sleepers s

theorem locked_init : Locked (init n m τ) := by
  refine ⟨fun θ h => ?_, ?_⟩
  · cases θ <;> cases h
  · have hc : ∀ w : Fin n, ((init n m τ).worker w).counted = false := fun _ => rfl
    simp only [sleepers, hc, Bool.false_eq_true, if_false, Finset.sum_const_zero]
    rfl

theorem MutexEffect.holder (e : MutexEffect s s') (h : ∀ θ, s.holds θ = true → s.mutex = some θ) (θ : Thread n m)
    (hθ : s'.holds θ = true) : s'.mutex = some θ := by
  cases e with
  | keep hm hh => rw [hm]; exact h θ (by rw [← hh]; exact hθ)
  | lock θ₀ hnone hm hh =>
    by_cases e : θ = θ₀
    · rw [e]; exact hm
    · rw [hh θ e] at hθ
      have := h θ hθ
      rw [hnone] at this; cases this
  | unlock θ₀ h₀ h₀' hm hh =>
    by_cases e : θ = θ₀
    · subst e; rw [h₀'] at hθ; cases hθ
    · rw [hh θ e] at hθ
      have := h θ hθ
      rw [h θ₀ h₀] at this; cases this
      exact absurd rfl e

theorem counted_of_searching {pc : WorkerPc n τ} (h : pc.searching = true) : pc.counted = false := by
  cases pc <;> first | rfl | cases h

theorem Move.counted_eq {w : Fin n} {pc pc' : WorkerPc n τ} (h : Move s w pc pc') : pc'.counted = pc.counted := by
  cases h with
  | search h₁ h₂ => rw [counted_of_searching h₁, counted_of_searching h₂]
  | @look site => cases site <;> rfl
  | _ => rfl

theorem Locks.counted_eq {pc pc' : WorkerPc n τ} (h : Locks pc pc') : pc'.counted = pc.counted := by
  cases h <;> rfl

theorem Unlocks.counted_eq {pc pc' : WorkerPc n τ} (h : Unlocks pc pc') : pc'.counted = pc.counted := by
  cases h <;> rfl

theorem counted_of_got {pc : WorkerPc n τ} {x : τ} (h : pc.got = some x) : pc.counted = false := by
  cases pc <;> first | rfl | cases h

/-- A step that leaves `sleeping_workers` alone moves no worker in or out of the
count. -/
theorem Effect.counted (e : Effect s a s') : (∀ w, (s'.worker w).counted = (s.worker w).counted) ∧
    s'.sleeping = s.sleeping ∨
    (∃ w, s.worker w = .incSleeping ∧ s'.worker = Function.update s.worker w .predStop ∧
      s'.sleeping = s.sleeping + 1) ∨
    ∃ w, s.worker w = .decSleeping ∧ s'.worker = Function.update s.worker w (.unlock false) ∧
      s'.sleeping = s.sleeping - 1 := by
  have same : ∀ {v : Fin n} {pc : WorkerPc n τ}, pc.counted = (s.worker v).counted →
      ∀ w, (Function.update s.worker v pc w).counted = (s.worker w).counted :=
    fun h w => observe_update WorkerPc.counted h w
  cases e with
  | incSleeping w hw => exact .inr (.inl ⟨w, hw, rfl, rfl⟩)
  | decSleeping w hw => exact .inr (.inr ⟨w, hw, rfl, rfl⟩)
  | pop w p hw | push w x p hw | steal w spin start i q hw | finish w x hw | spawn w y x hw | notifyNone w x hw
  | spurious w hw => exact .inl ⟨same (by rw [hw]; rfl), rfl⟩
  | extNotify i w hi hw => exact .inl ⟨same (by rw [hw]; rfl), rfl⟩
  | start w x hgot => exact .inl ⟨same (by rw [counted_of_got hgot]; rfl), rfl⟩
  | take w x g hpg => exact .inl ⟨same (by rw [counted_of_searching (searching_of_popsGlobal hpg)]; rfl), rfl⟩
  | move w pc rng hm => exact .inl ⟨same hm.counted_eq, rfl⟩
  | lock w pc _ hl => exact .inl ⟨same hl.counted_eq, rfl⟩
  | unlock w pc hl => exact .inl ⟨same hl.counted_eq, rfl⟩
  | notify w x v hw hv =>
    exact .inl ⟨observe_update₂ WorkerPc.counted (by rw [hw]; rfl) (by rw [hv]; rfl), rfl⟩
  | notifyAll => exact .inl ⟨observe_notifyAll WorkerPc.counted rfl, rfl⟩
  | call | publish | extMove | extLock | extUnlock | extNotifyNone | dtorMove | storeStop | dtorLock | dtorUnlock
  | destroy | destroyGlobal => exact .inl ⟨fun _ => rfl, rfl⟩

theorem Locked.effect (h : Locked s) (e : Effect s a s') : Locked s' := by
  refine ⟨e.mutex.holder h.holder, ?_⟩
  have hsleep := h.sleeping
  rcases e.counted with ⟨hc, hs⟩ | ⟨w, hw, hw', hs⟩ | ⟨w, hw, hw', hs⟩
  · simp only [hs, sleepers, hc]; exact hsleep
  · have hsum := sleepers_update hw'
    rw [hw] at hsum
    have hsum : sleepers s' + 0 = sleepers s + 1 := hsum
    rw [hs, hsleep]; omega
  · have hsum := sleepers_update hw'
    rw [hw] at hsum
    have hsum : sleepers s' + 1 = sleepers s + 0 := hsum
    rw [hs, hsleep]; omega

theorem locked_of_run [DecidableEq τ] {acts : List (Act n m τ)} (h : (machine n m τ).Run acts s) : Locked s :=
  inv_of_run locked_init (fun _ e hl => hl.effect e) h

/-- Two threads do not hold the mutex at once. -/
theorem Locked.holder_unique (h : Locked s) {θ θ' : Thread n m} (hθ : s.holds θ = true) (hθ' : s.holds θ' = true) :
    θ = θ' := by
  have := h.holder θ hθ
  rw [h.holder θ' hθ'] at this
  exact (Option.some.inj this).symm

/-- A counted worker keeps `sleeping_workers` positive. -/
theorem Locked.sleeping_pos (h : Locked s) {w : Fin n} (hw : (s.worker w).counted = true) : 0 < s.sleeping := by
  rw [h.sleeping]
  have hle : (if (s.worker w).counted then (1 : Int) else 0) ≤ sleepers s :=
    Finset.single_le_sum (f := fun v => if (s.worker v).counted then (1 : Int) else 0)
      (fun v _ => by split <;> decide) (Finset.mem_univ w)
  rw [hw, if_pos rfl] at hle
  omega

end AsyncRuntime.Pool
