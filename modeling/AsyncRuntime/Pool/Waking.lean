import AsyncRuntime.Pool.Mutex
import AsyncRuntime.Pool.Shutdown
/-!
# Shutdown wakes every worker

`~impl` stores `stop` and then notifies everybody under the mutex. The mutex is
what closes the windows: when `cv.notify_all` runs no worker stands between its
check of `stop` and its wait, and every check made later finds `stop` set.
-/

namespace AsyncRuntime.Pool
open Lib Deque
variable {n m : Nat} {τ : Type} {s s' : Impl n m τ} {a : Act n m τ}

/-! ## The sleep section -/

/-- From the lock of the sleep section to its unlock, `cv.wait` included. -/
def WorkerPc.inSleepSection : WorkerPc n τ → Bool
  | .lock | .lockedStop | .look _ _ | .incSleeping | .predStop | .wait | .blocked | .notified | .decSleeping
  | .unlock _ => true
  | _ => false

/-- The worker has found `stop` clear and may come to wait, or waits without a
notification. -/
def WorkerPc.dozing : WorkerPc n τ → Bool
  | .look _ _ | .incSleeping | .wait | .blocked => true
  | _ => false

/-- `~impl` has stored `stop`. -/
def DtorPc.stored : DtorPc → Bool
  | .idle | .storeStop => false
  | _ => true

/-- `~impl` has executed `cv.notify_all`. -/
def DtorPc.notifiedAll : DtorPc → Bool
  | .unlock | .join _ | .destroy _ | .destroyGlobal | .finished => true
  | _ => false

theorem stored_of_notifiedAll {pc : DtorPc} (h : pc.notifiedAll = true) : pc.stored = true := by
  cases pc <;> first | rfl | cases h

/-! ## Nobody dozes -/

theorem dozing_of_searching {pc : WorkerPc n τ} (h : pc.searching = true) : pc.dozing = false := by
  cases pc <;> first | rfl | cases h

theorem dozing_of_atWork {pc : WorkerPc n τ} (h : pc.atWork = true) : pc.dozing = false := by
  cases pc <;> first | rfl | cases h

theorem Move.dozing {w : Fin n} {pc pc' : WorkerPc n τ} (h : Move s w pc pc') (hd : pc'.dozing = true) :
    pc.dozing = true ∨ s.stop = false := by
  cases h with
  | search _ h₂ => rw [dozing_of_searching h₂] at hd; cases hd
  | lookFirst hs | lookPred hs => exact .inr hs
  | look | emptyFirst | emptyPred => exact .inl rfl
  | _ => cases hd

theorem Locks.not_dozing {pc pc' : WorkerPc n τ} (h : Locks pc pc') : pc'.dozing = false := by
  cases h <;> rfl

theorem Unlocks.dozing {pc pc' : WorkerPc n τ} (h : Unlocks pc pc') (hd : pc'.dozing = true) : pc.dozing = true := by
  cases h <;> first | rfl | cases hd

/-- A worker comes to doze only while `stop` is clear. -/
theorem Effect.dozing (e : Effect s a s') {w : Fin n} (h : (s'.worker w).dozing = true) :
    (s.worker w).dozing = true ∨ s.stop = false := by
  cases e.worker w with
  | stays hw => exact .inl (hw ▸ h)
  | woken hw => exact .inl (by rw [hw]; rfl)
  | works _ _ hw => rw [dozing_of_atWork hw] at h; cases h
  | moves _ hm hs => exact hm.dozing (hs.worker_self ▸ h)
  | locks _ _ hl hs => rw [hs.worker_self, hl.not_dozing] at h; cases h
  | unlocks _ hl hs => exact .inl (hl.dozing (hs.worker_self ▸ h))
  | incSleeping _ _ hs | decSleeping _ _ hs => rw [hs.worker_self] at h; cases h

/-- `stop` is set once the destructor has stored it, and nobody dozes once it has
notified everybody. -/
structure Woken (s : Impl n m τ) : Prop where
  stop : s.dtor.stored = true → s.stop = true
  awake : s.dtor.notifiedAll = true → ∀ w, (s.worker w).dozing = false

theorem woken_init : Woken (init n m τ) := ⟨nofun, nofun⟩

/-- A worker that dozes and is not blocked holds the mutex. -/
theorem holds_of_dozing {pc : WorkerPc n τ} (h : pc.dozing = true) : pc = .blocked ∨ pc.holds = true := by
  cases pc with
  | blocked => exact .inl rfl
  | look | incSleeping | wait => exact .inr rfl
  | _ => cases h

theorem DtorMove.stored {pc pc' : DtorPc} (h : DtorMove s pc pc') : pc'.stored = pc.stored := by
  cases h <;> rfl

theorem DtorMove.notifiedAll {pc pc' : DtorPc} (h : DtorMove s pc pc') : pc'.notifiedAll = pc.notifiedAll := by
  cases h <;> rfl

theorem Woken.effect (h : Woken s) (hl : Locked s) (e : Effect s a s') : Woken s' := by
  have same : s'.dtor.stored = s.dtor.stored → s'.dtor.notifiedAll = s.dtor.notifiedAll → Woken s' := by
    intro hs hn
    refine ⟨fun hd => e.stop_mono (h.stop (hs ▸ hd)), fun hd w => ?_⟩
    rw [hn] at hd
    by_contra hw
    rcases e.dozing (eq_true_of_ne_false hw) with hw | hstop
    · rw [h.awake hd w] at hw; cases hw
    · rw [h.stop (stored_of_notifiedAll hd)] at hstop; cases hstop
  cases e with
  | dtorMove pc hm => exact same hm.stored hm.notifiedAll
  | storeStop => exact ⟨fun _ => rfl, nofun⟩
  | dtorLock _ hd => exact same (by rw [hd]; rfl) (by rw [hd]; rfl)
  | notifyAll hd =>
    refine ⟨fun _ => h.stop (by rw [hd]; rfl), fun _ w => ?_⟩
    have hholds : s.holds .dtor = true := by simp only [Impl.holds, hd]; rfl
    rcases notifyAll_worker s w with hw | ⟨-, hw⟩
    · by_contra hdoze
      have hdoze : (s.worker w).dozing = true := hw ▸ eq_true_of_ne_false hdoze
      rcases holds_of_dozing hdoze with hb | hb
      · have : (Pool.notifyAll s).worker w = .notified := by simp only [Pool.notifyAll, hb]
        rw [hw, hb] at this; cases this
      · cases hl.holder_unique (θ := .worker w) hb hholds
    · exact congrArg WorkerPc.dozing hw
  | dtorUnlock hd | destroy j hd | destroyGlobal hd => exact same (by rw [hd]; rfl) (by rw [hd]; rfl)
  | _ => exact same rfl rfl

/-! ## Out of the sleep section -/

/-- How many more steps of its own a worker makes in the sleep section when `stop`
is set. -/
def WorkerPc.toLeave : WorkerPc n τ → Nat
  | .notified => 4
  | .lock | .predStop => 3
  | .lockedStop | .decSleeping => 2
  | .unlock _ => 1
  | _ => 0

/-- The worker has left `worker_loop`, or is back at its head. -/
def WorkerPc.isOut : WorkerPc n τ → Bool
  | .exited | .popping .popLoadBottom => true
  | _ => false

/-- How many more actions of its own a thread keeps the mutex for when `stop` is
set and nobody dozes. -/
def Impl.toRelease (s : Impl n m τ) : Thread n m → Nat
  | .worker w => match s.worker w with
    | .predStop => 3
    | .lockedStop | .decSleeping | .running _ (some .notify) => 2
    | .unlock _ | .running _ (some .unlock) => 1
    | _ => 0
  | .ext _ => 0
  | .dtor => match s.dtor with
    | .unlock => 1
    | _ => 0

theorem toLeave_le (pc : WorkerPc n τ) : pc.toLeave ≤ 4 := by
  cases pc <;> simp [WorkerPc.toLeave]

theorem toLeave_pos {pc : WorkerPc n τ} (h : pc.inSleepSection = true) (hd : pc.dozing = false) : 0 < pc.toLeave := by
  cases pc with
  | look | incSleeping | wait | blocked => cases hd
  | lock | lockedStop | predStop | notified | decSleeping | unlock => simp [WorkerPc.toLeave]
  | _ => cases h

theorem inSleepSection_of_toLeave {pc : WorkerPc n τ} (h : 0 < pc.toLeave) : pc.inSleepSection = true := by
  cases pc <;> first | rfl | cases h

theorem toRelease_le (s : Impl n m τ) (θ : Thread n m) : s.toRelease θ ≤ 3 := by
  cases θ with
  | worker w => simp only [Impl.toRelease]; split <;> decide
  | ext i => exact Nat.zero_le _
  | dtor => simp only [Impl.toRelease]; split <;> decide

/-- An action of another thread leaves a worker where it is, unless it wakes it. -/
theorem Effect.other (e : Effect s a s') {w : Fin n} (ha : a.thread ≠ some (.worker w)) (hw : s.worker w ≠ .blocked) :
    s'.worker w = s.worker w := by
  cases e.worker w with
  | stays h => exact h
  | woken h => exact absurd h hw
  | works h => exact absurd h ha
  | moves h | locks h | unlocks h | incSleeping h | decSleeping h => exact absurd (congrArg Act.thread h) ha

/-- With `stop` set, each step of its own brings a worker nearer to the end of the
sleep section. -/
theorem workerStep_toLeave {w : Fin n} (hstop : s.stop = true) (hw : 0 < (s.worker w).toLeave)
    (h : workerStep s w = some s') : (s'.worker w).toLeave < (s.worker w).toLeave ∧
      (0 < (s'.worker w).toLeave ∨ (s'.worker w).isOut = true) := by
  cases hpc : s.worker w with
  | lock | notified =>
    simp only [workerStep, hpc] at h
    split at h <;> cases h
    simp [Impl.setWorker, WorkerPc.toLeave]
  | lockedStop | predStop | decSleeping =>
    simp only [workerStep, hpc, hstop] at h
    cases h
    simp [Impl.setWorker, WorkerPc.toLeave]
  | unlock leave =>
    simp only [workerStep, hpc] at h
    cases h
    cases leave <;> simp [Impl.setWorker, WorkerPc.toLeave, WorkerPc.isOut]
  | _ => rw [hpc] at hw; cases hw

/-! ## The mutex is released -/

theorem Locks.holds {pc pc' : WorkerPc n τ} (h : Locks pc pc') : pc'.holds = true := by
  cases h <;> rfl

/-- The thread that takes the mutex is past its lock. -/
theorem Effect.lock_holds (e : Effect s a s') (hm : s.mutex = none) {θ : Thread n m} (hm' : s'.mutex = some θ) :
    s'.holds θ = true := by
  cases e with
  | lock w pc _ hl =>
    cases hm'
    simpa [Impl.holds, Impl.setWorker] using hl.holds
  | extLock i =>
    cases hm'
    simp [Impl.holds, Impl.setExt, ExtPc.holds]
  | dtorLock => cases hm'; rfl
  | unlock | extUnlock | dtorUnlock => cases hm'
  | _ =>
    have hm' : s.mutex = some θ := hm'
    rw [hm] at hm'; cases hm'

theorem Effect.dtor_other (e : Effect s a s') (ha : a.thread ≠ some .dtor) : s'.dtor = s.dtor := by
  cases e with
  | dtorMove | storeStop | dtorLock | notifyAll | dtorUnlock | destroy | destroyGlobal => exact absurd rfl ha
  | _ => rfl

theorem Effect.notifiedAll (e : Effect s a s') (hd : s.dtor.notifiedAll = true) : s'.dtor.notifiedAll = true := by
  cases e with
  | dtorMove pc hm => exact hm.notifiedAll.trans hd
  | storeStop h | dtorLock _ h => rw [h] at hd; cases hd
  | notifyAll | dtorUnlock | destroy | destroyGlobal => rfl
  | _ => exact hd

/-- What is known in every state after `cv.notify_all`. -/
structure Shut (s : Impl n m τ) : Prop where
  safe : Safe s
  woken : Woken s
  notified : s.dtor.notifiedAll = true
  ext_idle : ∀ i, s.ext i = .idle
  held : ∀ θ, s.mutex = some θ → s.holds θ = true

theorem Shut.stop (h : Shut s) : s.stop = true := h.woken.stop (stored_of_notifiedAll h.notified)

theorem Shut.awake (h : Shut s) (w : Fin n) : (s.worker w).dozing = false := h.woken.awake h.notified w

theorem Shut.not_blocked (h : Shut s) (w : Fin n) : s.worker w ≠ .blocked := by
  intro hw
  have := h.awake w
  rw [hw] at this; cases this

section Runs
variable [DecidableEq τ]

/-- A worker in the sleep section acts only by its next step. -/
theorem act_of_sleepSection {w : Fin n} (h : step s a = some s') (ha : a.thread = some (.worker w))
    (hw : (s.worker w).inSleepSection = true) : workerStep s w = some s' := by
  have idle : ∀ x e, s.worker w ≠ .running x e := by
    intro x e hx
    rw [hx] at hw; cases hw
  cases a with
  | step θ => cases ha; exact h
  | wait | spurious => cases ha
  | enqueue θ x =>
    cases ha
    simp only [step] at h
    split at h
    · cases h
    · split at h
      · exact absurd ‹_› (idle _ _)
      · cases h
  | notify θ v =>
    cases ha
    simp only [step] at h
    split at h
    · exact absurd ‹_› (idle _ _)
    · cases h
  | finish v =>
    cases ha
    simp only [step] at h
    split at h
    · exact absurd ‹_› (idle _ _)
    · cases h

/-- With `stop` set, each action of its own brings a worker that holds the mutex
nearer to its release. -/
theorem toRelease_worker {w : Fin n} (hstop : s.stop = true) (h : step s a = some s')
    (ha : a.thread = some (.worker w)) (hr : 0 < s.toRelease (.worker w)) :
    s'.toRelease (.worker w) < s.toRelease (.worker w) := by
  cases hpc : s.worker w with
  | lockedStop | predStop | decSleeping =>
    have h := act_of_sleepSection h ha (by rw [hpc]; rfl)
    simp only [workerStep, hpc, hstop] at h
    cases h
    simp [Impl.toRelease, hpc, Impl.setWorker]
  | unlock leave =>
    have h := act_of_sleepSection h ha (by rw [hpc]; rfl)
    simp only [workerStep, hpc] at h
    cases h
    cases leave <;> simp [Impl.toRelease, hpc, Impl.setWorker]
  | running x e =>
    rcases e with - | e
    · simp only [Impl.toRelease, hpc] at hr; cases hr
    cases e with
    | notify =>
      cases a with
      | notify θ v =>
        cases ha
        simp only [step, hpc, Option.map_eq_some_iff] at h
        obtain ⟨s₁, -, rfl⟩ := h
        simp [Impl.toRelease, hpc, Impl.setWorker]
      | _ => cases ha <;> simp [step, workerStep, enqStep, hpc] at h
    | unlock =>
      cases a with
      | step θ =>
        cases ha
        simp only [step, workerStep, hpc, enqStep, Option.map_some, Option.some.injEq] at h
        subst h
        simp [Impl.toRelease, hpc, Impl.setWorker]
      | _ => cases ha <;> simp [step, hpc] at h
    | _ => simp only [Impl.toRelease, hpc] at hr; cases hr
  | _ => simp only [Impl.toRelease, hpc] at hr; cases hr

theorem toRelease_dtor (h : step s a = some s') (ha : a.thread = some .dtor) (hr : 0 < s.toRelease .dtor) :
    s'.toRelease .dtor < s.toRelease .dtor := by
  cases hpc : s.dtor with
  | unlock =>
    cases a with
    | step θ =>
      cases ha
      simp only [step, dtorStep, hpc] at h
      cases h
      simp [Impl.toRelease, hpc]
    | _ => cases ha <;> simp [step] at h
  | _ => simp only [Impl.toRelease, hpc] at hr; cases hr

theorem held_of_run {acts : List (Act n m τ)} (h : (machine n m τ).Run acts s) (θ : Thread n m)
    (hm : s.mutex = some θ) : s.holds θ = true := by
  refine inv_of_run (P := fun s => ∀ θ, s.mutex = some θ → s.holds θ = true) nofun (fun _ e hi θ hm => ?_) h θ hm
  cases e.mutex with
  | keep hmutex hholds => rw [hholds]; exact hi θ (hmutex ▸ hm)
  | lock θ' hnone => exact e.lock_holds hnone hm
  | unlock θ' _ _ hnone => rw [hnone] at hm; cases hm

theorem woken_of_run {acts : List (Act n m τ)} (h : (machine n m τ).Run acts s) : Woken s :=
  inv_of_run woken_init (fun hr e hw => hw.effect (locked_of_run hr) e) h

theorem shut_of_run {acts : List (Act n m τ)} (h : (machine n m τ).Run acts s) (hd : s.dtor.notifiedAll = true) :
    Shut s := by
  refine ⟨safe_of_run h, woken_of_run h, hd, ?_, held_of_run h⟩
  exact (teardown_of_run h).ext_idle fun hi => by rw [hi] at hd; cases hd

/-- The thread has an action. -/
def CanAct (s : Impl n m τ) (θ : Thread n m) : Prop := ∃ a : Act n m τ, a.thread = some θ ∧ (step s a).isSome = true

/-- Whatever happens, `P` has held by the time that `θ` has made `k` actions more. -/
def Within (s : Impl n m τ) (θ : Thread n m) (k : Nat) (P : Impl n m τ → Prop) : Prop :=
  ∀ bs t, (machine n m τ).execFrom s bs = some t → k ≤ bs.countP (fun a => a.thread = some θ) →
    ∃ cs u, cs <+: bs ∧ (machine n m τ).execFrom s cs = some u ∧ P u

namespace Shut

theorem toRelease_step (h : Shut s) {θ : Thread n m} (hr : 0 < s.toRelease θ) (hs : step s a = some s') :
    s'.toRelease θ ≤ s.toRelease θ ∧ (a.thread = some θ → s'.toRelease θ < s.toRelease θ) := by
  have e := step_effect hs h.safe.not_pushGlobal
  by_cases ha : a.thread = some θ
  · have hlt : s'.toRelease θ < s.toRelease θ := by
      cases θ with
      | worker w => exact toRelease_worker h.stop hs ha hr
      | ext i => cases hr
      | dtor => exact toRelease_dtor hs ha hr
    exact ⟨hlt.le, fun _ => hlt⟩
  · have heq : s'.toRelease θ = s.toRelease θ := by
      cases θ with
      | worker w => simp only [Impl.toRelease, e.other ha (h.not_blocked w)]
      | ext i => rfl
      | dtor => simp only [Impl.toRelease, e.dtor_other ha]
    exact ⟨heq.le, fun h => absurd h ha⟩

/-- The holder of the mutex can act. -/
theorem holder_canAct (h : Shut s) {θ : Thread n m} (hθ : s.holds θ = true) : CanAct s θ ∧ 0 < s.toRelease θ := by
  cases θ with
  | worker w =>
    have hdoze := h.awake w
    have hholds : (s.worker w).holds = true := hθ
    cases hpc : s.worker w with
    | lockedStop | predStop | decSleeping | unlock =>
      exact ⟨⟨.step (.worker w), rfl, by simp [step, workerStep, hpc]⟩, by simp [Impl.toRelease, hpc]⟩
    | look | incSleeping | wait => rw [hpc] at hdoze; cases hdoze
    | running x e =>
      match e, hpc with
      | some .notify, hpc =>
        -- nobody is blocked, so it wakes nobody
        have hnone : ∀ v, (s.worker v).isBlocked = false := fun v =>
          Bool.eq_false_iff.2 fun hv => h.not_blocked v (isBlocked_iff.1 hv)
        exact ⟨⟨.notify (.worker w) none, rfl, by simp [step, hpc, notifyOne, hnone]⟩, by simp [Impl.toRelease, hpc]⟩
      | some .unlock, hpc =>
        exact ⟨⟨.step (.worker w), rfl, by simp [step, workerStep, enqStep, hpc]⟩, by simp [Impl.toRelease, hpc]⟩
      | none, hpc | some (.push _), hpc | some (.pushGlobal _), hpc | some .loadSleeping, hpc | some .lock, hpc =>
        rw [hpc] at hholds; cases hholds
    | _ => rw [hpc] at hholds; cases hholds
  | ext i =>
    have hholds : (s.ext i).holds = true := hθ
    rw [h.ext_idle i] at hholds; cases hholds
  | dtor =>
    have hholds : s.dtor.holds = true := hθ
    have hn := h.notified
    cases hpc : s.dtor with
    | unlock => exact ⟨⟨.step .dtor, rfl, by simp [step, dtorStep, hpc]⟩, by simp [Impl.toRelease, hpc]⟩
    | notifyAll => rw [hpc] at hn; cases hn
    | _ => rw [hpc] at hholds; cases hholds

/-- A worker in the sleep section can act unless another thread holds the mutex. -/
theorem canAct (h : Shut s) {w : Fin n} (hw : (s.worker w).inSleepSection = true) (hm : s.mutex = none) :
    CanAct s (.worker w) := by
  have hdoze := h.awake w
  refine ⟨.step (.worker w), rfl, ?_⟩
  cases hpc : s.worker w with
  | lock | notified | lockedStop | predStop | decSleeping | unlock => simp [step, workerStep, hpc, hm]
  | look | incSleeping | wait | blocked => rw [hpc] at hdoze; cases hdoze
  | _ => rw [hpc] at hw; cases hw

theorem toLeave_step (h : Shut s) {w : Fin n} (hr : 0 < (s.worker w).toLeave) (hs : step s a = some s') :
    ((s'.worker w).toLeave ≤ (s.worker w).toLeave ∧
      (a.thread = some (.worker w) → (s'.worker w).toLeave < (s.worker w).toLeave)) ∧
    (0 < (s'.worker w).toLeave ∨ (s'.worker w).isOut = true) := by
  by_cases ha : a.thread = some (.worker w)
  · obtain ⟨hlt, hin⟩ := workerStep_toLeave h.stop hr (act_of_sleepSection hs ha (inSleepSection_of_toLeave hr))
    exact ⟨⟨hlt.le, fun _ => hlt⟩, hin⟩
  · have e := step_effect hs h.safe.not_pushGlobal
    rw [e.other ha (h.not_blocked w)]
    exact ⟨⟨le_rfl, fun h => absurd h ha⟩, .inl hr⟩

end Shut

/-- Reached after `cv.notify_all`. -/
def ReachedShut (s : Impl n m τ) : Prop := (∃ acts, (machine n m τ).Run acts s) ∧ s.dtor.notifiedAll = true

theorem ReachedShut.shut (h : ReachedShut s) : Shut s := shut_of_run h.1.choose_spec h.2

theorem ReachedShut.step (h : ReachedShut s) (hs : Pool.step s a = some s') : ReachedShut s' := by
  obtain ⟨acts, hrun⟩ := h.1
  exact ⟨⟨_, hrun.snoc hs⟩, (step_effect hs h.shut.safe.not_pushGlobal).notifiedAll h.2⟩

theorem ReachedShut.execFrom {bs : List (Act n m τ)} {t : Impl n m τ} (h : ReachedShut s)
    (hx : (machine n m τ).execFrom s bs = some t) : ReachedShut t :=
  Machine.inv_of_execFrom ReachedShut (fun _ _ _ hi hs => hi.step hs) h hx

theorem ReachedShut.leaves (h : ReachedShut s) {w : Fin n} (hw : (s.worker w).inSleepSection = true) :
    Within s (.worker w) 4 fun u => (u.worker w).isOut = true := by
  intro bs t hx hcount
  have hpos := toLeave_pos hw (h.shut.awake w)
  obtain ⟨cs, u, hcs, hu, ⟨-, hin⟩, h0⟩ := Machine.exists_rank_zero
    (fun u => ReachedShut u ∧ (0 < (u.worker w).toLeave ∨ (u.worker w).isOut = true)) (fun u => (u.worker w).toLeave)
    (fun a => decide (a.thread = some (.worker w))) (by
      rintro s a s' ⟨hi, -⟩ hr hs
      obtain ⟨hrank, hin⟩ := hi.shut.toLeave_step hr hs
      exact ⟨⟨hi.step hs, hin⟩, hrank.1, fun ha => hrank.2 (of_decide_eq_true ha)⟩)
    ⟨h, .inl hpos⟩ hx ((toLeave_le _).trans hcount)
  exact ⟨cs, u, hcs, hu, hin.resolve_left (by omega)⟩

theorem ReachedShut.releases (h : ReachedShut s) (θ : Thread n m) :
    Within s θ 3 fun u => u.mutex ≠ some θ := by
  intro bs t hx hcount
  obtain ⟨cs, u, hcs, hu, hi, h0⟩ := Machine.exists_rank_zero ReachedShut (fun u => u.toRelease θ)
    (fun a => decide (a.thread = some θ)) (by
      intro s a s' hi hr hs
      obtain ⟨hle, hlt⟩ := hi.shut.toRelease_step hr hs
      exact ⟨hi.step hs, hle, fun ha => hlt (of_decide_eq_true ha)⟩)
    h hx ((toRelease_le s θ).trans hcount)
  refine ⟨cs, u, hcs, hu, fun hm => ?_⟩
  have := (hi.shut.holder_canAct (hi.shut.held θ hm)).2
  omega

/-- Once `~impl` has executed `cv.notify_all`, no worker is ever again blocked in
`cv.wait` without a notification. A worker in the sleep section is out of it by
its fourth step: it has left `worker_loop` or is back at its head. It can make its
next step, or a thread has the mutex that can act and that releases the mutex by
its third action. -/
theorem shutdown_wakes_workers {acts bs : List (Act n m τ)} {t : Impl n m τ} (h : (machine n m τ).Run acts s)
    (hd : s.dtor.notifiedAll = true) (hx : (machine n m τ).execFrom s bs = some t) (w : Fin n) :
    t.worker w ≠ .blocked ∧ ((t.worker w).inSleepSection = true →
      Within t (.worker w) 4 (fun u => (u.worker w).isOut = true) ∧
      (CanAct t (.worker w) ∨ ∃ θ, t.mutex = some θ ∧ CanAct t θ ∧ Within t θ 3 fun u => u.mutex ≠ some θ)) := by
  have hs : ReachedShut s := ⟨⟨acts, h⟩, hd⟩
  have ht := hs.execFrom hx
  refine ⟨ht.shut.not_blocked w, fun hw => ⟨ht.leaves hw, ?_⟩⟩
  cases hm : t.mutex with
  | none => exact .inl (ht.shut.canAct hw hm)
  | some θ => exact .inr ⟨θ, rfl, (ht.shut.holder_canAct (ht.shut.held θ hm)).1, ht.releases θ⟩

end Runs

/-- Both workers block, and the destructor goes as far as `cv.notify_all`. -/
def bothWoken {n m : Nat} (w v : Fin n) : List (Act n m Nat) := List.flatten
  [List.replicate 254 (.step (.worker w)), List.replicate 254 (.step (.worker v)), List.replicate 4 (.step .dtor)]

/-- The destructor releases the mutex, and worker `w` takes it first. -/
def firstLocks {n m : Nat} (w : Fin n) : List (Act n m Nat) := [.step .dtor, .step (.worker w)]

theorem shutdown_wakes_workers_both : ∃ s t, (machine 2 0 Nat).Run (bothWoken 0 1) s ∧ s.dtor.notifiedAll = true ∧
    (machine 2 0 Nat).execFrom s (firstLocks 0) = some t ∧ t.mutex = some (.worker 0) ∧
    (t.worker 1).inSleepSection = true ∧ t.worker 1 ≠ .blocked ∧
    Within t (.worker 1) 4 (fun u => (u.worker 1).isOut = true) := by
  have hexec : ((machine 2 0 Nat).exec (bothWoken 0 1)).any (fun s => decide (s.dtor.notifiedAll = true ∧
      ((machine 2 0 Nat).execFrom s (firstLocks 0)).any (fun t => decide (t.mutex = some (.worker 0) ∧
        (t.worker 1).inSleepSection = true)) = true)) = true := by decide +kernel
  obtain ⟨s, hrun, hd, hcont⟩ := Machine.exists_run_of_exec hexec
  obtain ⟨t, hx, hm, hw⟩ := Machine.exists_of_any hcont
  obtain ⟨hb, hsleep⟩ := shutdown_wakes_workers hrun hd hx 1
  exact ⟨s, t, hrun, hd, hx, hm, hw, hb, (hsleep hw).1⟩

end AsyncRuntime.Pool
