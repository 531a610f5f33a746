import AsyncRuntime.Deque.StoreBuffers
import AsyncRuntime.Pool.Deques
/-!
# The pool under store buffers

Two kinds of stores of the pool may be late: those that `push` makes to the worker's own deque
(`Deque.StoreBuffers`), and the release store of `stop` in the destructor, which waits for the
mutex right after it. All other shared variables are written under a mutex or by
read-modify-write operations.

A state of the pool under store buffers is one of the pool without them, in which the
workers that are inside `push`, and the destructor before it has the mutex, may have come
farther (`Lags`). So what holds in every state of the pool that no push is running in holds
under store buffers too.
-/

namespace AsyncRuntime.Pool.Buffered
open Lib Deque Deque.Buffered
variable {n m : Nat} {τ : Type}

/-! ## The machine -/

/-- The pool in memory with every thread's program point, the buffers of the workers, and
whether the store of `stop` is late. -/
structure State (n m : Nat) (τ : Type) where
  impl : Impl n m τ
  buf : Fin n → List (Store τ)
  stopLate : Bool

/-- The call of a worker on its own deque, and the worker's program point made from it; a
call that is about to return makes no access. -/
def ownCall : WorkerPc n τ → Option (OwnerPc τ × (OwnerPc τ → WorkerPc n τ))
  | .popping (.popDone _) => none
  | .popping p => some (p, .popping)
  | .running _ (some (.push .pushDone)) => none
  | .running x (some (.push p)) => some (p, fun p => .running x (some (.push p)))
  | _ => none

theorem ownCall_eq_some {pc₁ : WorkerPc n τ} {p : OwnerPc τ} {pc : OwnerPc τ → WorkerPc n τ}
    (h : ownCall pc₁ = some (p, pc)) : (pc₁ = .popping p ∧ pc = .popping ∧ ∀ r, p ≠ .popDone r) ∨
      ∃ x, pc₁ = .running x (some (.push p)) ∧ pc = fun p => .running x (some (.push p)) := by
  unfold ownCall at h
  split at h
  · cases h
  · next hdone =>
    cases h
    exact .inl ⟨rfl, rfl, hdone⟩
  · cases h
  · cases h
    exact .inr ⟨_, rfl, rfl⟩
  · cases h

def workerStep (s : State n m τ) (w : Fin n) : Option (State n m τ) :=
  match ownCall (s.impl.worker w) with
  | some (p, pc) => (access (s.impl.deques w) (s.buf w) p).map fun (d, buf, p') =>
      { s with impl := (s.impl.setDeque w d).setWorker w (pc p'), buf := Function.update s.buf w buf }
  | none => (Pool.workerStep s.impl w).map fun u => { s with impl := u }

/-- The store of `stop` goes into the buffer of the destructor's thread; the mutex waits for it. -/
def dtorStep (s : State n m τ) : Option (State n m τ) :=
  match s.impl.dtor with
  | .storeStop => some { s with impl := { s.impl with dtor := .lock }, stopLate := true }
  | _ => if s.stopLate then none else (Pool.dtorStep s.impl).map fun u => { s with impl := u }

/-- What the scheduler may pick: what it may pick without buffers, or a late store to reach
memory. -/
inductive Act (n m : Nat) (τ : Type) where
  | access (a : Pool.Act n m τ)
  | drain (w : Fin n)
  | drainStop

def step [DecidableEq τ] (s : State n m τ) : Act n m τ → Option (State n m τ)
  | .access (.step (.worker w)) => workerStep s w
  | .access (.step .dtor) => dtorStep s
  | .access a => (Pool.step s.impl a).map fun u => { s with impl := u }
  | .drain w => match s.buf w with
    | [] => none
    | x :: buf =>
      some { s with impl := s.impl.setDeque w (write (s.impl.deques w) x), buf := Function.update s.buf w buf }
  | .drainStop =>
    if s.stopLate then some { s with impl := { s.impl with stop := true }, stopLate := false } else none

def machine (n m : Nat) (τ : Type) [DecidableEq τ] : Machine (State n m τ) (Act n m τ) where
  init := ⟨Pool.init n m τ, fun _ => [], false⟩
  step := step

/-! ## Other program points

What a thread does depends on its own program point only, except that the destructor and
`cv.notify_one` see which workers have left and which are blocked. -/

/-- The pool with other program points of the workers and the destructor. -/
def replaced (s : Impl n m τ) (g : Fin n → WorkerPc n τ) (e : DtorPc) : Impl n m τ := { s with worker := g, dtor := e }

section Replaced
variable {s u : Impl n m τ} {g : Fin n → WorkerPc n τ} {e : DtorPc}

theorem lookStep_replaced (l : LookPc n) : lookStep (replaced s g e) l = lookStep s l := by
  cases l <;> rfl

theorem localQueue_replaced {w : Fin n} (hg : g w = s.worker w) :
    localQueue (replaced s g e) (.worker w) = localQueue s (.worker w) := by
  simp only [localQueue, replaced, hg]

theorem enqStep_replaced {θ : Thread n m} (hq : localQueue (replaced s g e) θ = localQueue s θ) (pc : EnqPc τ) :
    enqStep (replaced s g e) θ pc = (enqStep s θ pc).map fun (u, o) => (replaced u g e, o) := by
  cases pc with
  | push p =>
    simp only [enqStep, hq]
    cases localQueue s θ with
    | none => rfl
    | some j => cases p <;> rfl
  | lock => simp only [enqStep]; cases hm : s.mutex <;> simp [replaced, hm]
  | _ => rfl

theorem takeGlobal_replaced {w : Fin n} (spin : Option Nat) :
    (match (replaced s g e).global with
      | [] => some (stealEnter (replaced s g e) w spin)
      | x :: l => some ({ replaced s g e with global := l }.start w x)) =
    (match s.global with
      | [] => some (stealEnter s w spin)
      | x :: l => some ({ s with global := l }.start w x)).map
        fun u => replaced u (Function.update g w (u.worker w)) e := by
  have hglobal : (replaced s g e).global = s.global := rfl
  rw [hglobal]
  cases s.global with
  | nil =>
    simp only [stealEnter]
    split <;> simp [replaced, Impl.setWorker]
  | cons x l => simp [replaced, Impl.setWorker, Impl.start]

theorem workerStep_replaced {w : Fin n} (hg : g w = s.worker w) : Pool.workerStep (replaced s g e) w =
    (Pool.workerStep s w).map fun u => replaced u (Function.update g w (u.worker w)) e := by
  have hw : (replaced s g e).worker w = s.worker w := hg
  unfold Pool.workerStep
  rw [hw]
  cases s.worker w with
  | popping p => cases p with
    | popDone r => cases r <;> simp [replaced, Impl.setWorker, Impl.start]
    | _ => simp [replaced, Impl.setWorker, Impl.setDeque]
  | popGlobal => exact takeGlobal_replaced none
  | spinPop k => exact takeGlobal_replaced (some k)
  | stealing spin start i q => cases q with
    | none => simp [replaced, Impl.setWorker]
    | some q => cases q with
      | done r => cases r <;> simp [replaced, Impl.setWorker, Impl.start]
      | _ => simp [replaced, Impl.setWorker, Impl.setDeque]
  | running x o => cases o with
    | none => rfl
    | some pc =>
      simp only [enqStep_replaced (localQueue_replaced hg), Option.map_map]
      congr 1
      funext r
      simp [replaced, Impl.setWorker]
  | loadStop | lockedStop | predStop => cases hstop : s.stop <;> simp [replaced, hstop, Impl.setWorker]
  | lock | notified => cases hm : s.mutex <;> simp [replaced, hm, Impl.setWorker]
  | look site l =>
    simp only [lookStep_replaced]
    cases lookStep s l with
    | inl l' => simp [replaced, Impl.setWorker]
    | inr b => cases b <;> cases site <;> simp [replaced, Impl.setWorker]
  | blocked | exited => rfl
  | boot | incSleeping | wait | decSleeping | unlock => simp [replaced, Impl.setWorker]

theorem worker_of_workerStep {w : Fin n} (hs : Pool.workerStep s w = some u) :
    u.worker = Function.update s.worker w (u.worker w) := by
  have h := workerStep_replaced (s := s) (g := s.worker) (e := s.dtor) (w := w) rfl
  have hself : replaced s s.worker s.dtor = s := rfl
  rw [hself, hs, Option.map_some, Option.some.injEq] at h
  exact congrArg Impl.worker h

theorem extStep_replaced (i : Fin m) : extStep (replaced s g e) i = (extStep s i).map fun u => replaced u g e := by
  have hi : (replaced s g e).ext i = s.ext i := rfl
  unfold extStep
  rw [hi]
  cases s.ext i with
  | idle => rfl
  | enqueue pc =>
    simp only [enqStep_replaced (θ := .ext i) rfl, Option.map_map]
    rfl
  | wait l =>
    simp only [lookStep_replaced]
    cases lookStep s l with
    | inl l' => rfl
    | inr b => cases b <;> rfl

theorem worker_of_extStep {i : Fin m} (hs : extStep s i = some u) : u.worker = s.worker := by
  have h := extStep_replaced (s := s) (g := s.worker) (e := s.dtor) i
  have hself : replaced s s.worker s.dtor = s := rfl
  rw [hself, hs, Option.map_some, Option.some.injEq] at h
  have hworker := congrArg Impl.worker h
  exact hworker

/-- `cv.notify_all`, seen by one worker. -/
def woken : WorkerPc n τ → WorkerPc n τ
  | .blocked => .notified
  | pc => pc

theorem notifyAll_replaced : notifyAll (replaced s g e) = replaced (notifyAll s) (fun w => woken (g w)) e := by
  simp only [notifyAll, replaced, Impl.mk.injEq, true_and, and_true]
  funext w
  cases g w <;> rfl

theorem notifyAll_eq_woken (w : Fin n) : (notifyAll s).worker w = woken (s.worker w) := by
  simp only [notifyAll]
  cases s.worker w <;> rfl

/-- What the step of one thread shows of another worker stays: the worker is where it was, or
it has been moved in the same way in both pools. -/
def Follow (s u : Impl n m τ) (g g' : Fin n → WorkerPc n τ) : Prop :=
  ∀ v, (g' v = g v ∧ u.worker v = s.worker v) ∨ (g' v = u.worker v ∧ ownCall (s.worker v) = none)

theorem Follow.stay (hu : u.worker = s.worker) : Follow s u g g := fun v => .inl ⟨rfl, by rw [hu]⟩

/-- Then a worker that is not in a call moves. -/
theorem Follow.move {g' : Fin n → WorkerPc n τ} {w : Fin n} (h : Follow s u g g') (hw : ownCall (s.worker w) = none)
    (pc : WorkerPc n τ) {u' : Impl n m τ} (hu : u'.worker = Function.update u.worker w pc) :
    Follow s u' g (Function.update g' w pc) := by
  intro v
  by_cases hv : v = w
  · subst hv
    exact .inr ⟨by rw [hu, Function.update_self, Function.update_self], hw⟩
  · rw [hu, Function.update_of_ne hv, Function.update_of_ne hv]
    exact h v

variable (hg : ∀ v, ownCall (s.worker v) = none → g v = s.worker v)
  (hblocked : ∀ v, (g v).isBlocked = (s.worker v).isBlocked)

include hg hblocked in
theorem dtorStep_replaced (hexited : ∀ v, (g v).isExited = (s.worker v).isExited) (hs : Pool.dtorStep s = some u) :
    ∃ g', Pool.dtorStep (replaced s g s.dtor) = some (replaced u g' u.dtor) ∧ Follow s u g g' := by
  have hd : (replaced s g s.dtor).dtor = s.dtor := rfl
  unfold Pool.dtorStep at hs ⊢
  rw [hd]
  cases hdtor : s.dtor with
  | idle =>
    rw [hdtor] at hs
    simp only at hs ⊢
    split at hs
    · next hext => cases hs; exact ⟨g, if_pos hext, Follow.stay rfl⟩
    · cases hs
  | storeStop => rw [hdtor] at hs; cases hs; exact ⟨g, rfl, Follow.stay rfl⟩
  | lock =>
    rw [hdtor] at hs
    simp only at hs ⊢
    split at hs
    · next hm => cases hs; exact ⟨g, if_pos hm, Follow.stay rfl⟩
    · cases hs
  | notifyAll =>
    rw [hdtor] at hs
    cases hs
    refine ⟨fun w => woken (g w), by rw [notifyAll_replaced]; rfl, fun v => ?_⟩
    by_cases hb : (s.worker v).isBlocked = true
    · have hv := isBlocked_iff.1 hb
      have hcall : ownCall (s.worker v) = none := by rw [hv]; rfl
      exact .inr ⟨(congrArg woken (hg v hcall)).trans (notifyAll_eq_woken v).symm, hcall⟩
    · have hsame : ∀ pc : WorkerPc n τ, pc.isBlocked ≠ true → woken pc = pc := by
        intro pc hpc
        cases pc <;> first | rfl | exact absurd rfl hpc
      refine .inl ⟨hsame _ (by rw [hblocked]; exact hb), ?_⟩
      exact (notifyAll_eq_woken v).trans (hsame _ hb)
  | unlock => rw [hdtor] at hs; cases hs; exact ⟨g, rfl, Follow.stay rfl⟩
  | join k =>
    rw [hdtor] at hs
    simp only at hs ⊢
    split at hs
    · next hk =>
      split at hs
      · next hx =>
        cases hs
        refine ⟨g, ?_, Follow.stay rfl⟩
        rw [dif_pos hk, if_pos]
        · rfl
        · exact (hexited _).trans hx
      · cases hs
    · next hk => cases hs; exact ⟨g, dif_neg hk, Follow.stay rfl⟩
  | destroy k =>
    rw [hdtor] at hs
    simp only at hs ⊢
    split at hs
    · next hk => cases hs; exact ⟨g, dif_pos hk, Follow.stay rfl⟩
    · next hk => cases hs; exact ⟨g, dif_neg hk, Follow.stay rfl⟩
  | destroyGlobal => rw [hdtor] at hs; cases hs; exact ⟨g, rfl, Follow.stay rfl⟩
  | finished => rw [hdtor] at hs; cases hs

omit hg in
include hblocked in
theorem notifyOne_replaced {v : Option (Fin n)} (hs : notifyOne s v = some u) :
    ∃ g', notifyOne (replaced s g e) v = some (replaced u g' e) ∧ Follow s u g g' := by
  cases v with
  | some v =>
    simp only [notifyOne] at hs ⊢
    split at hs
    · next hb =>
      cases hs
      have hcall : ownCall (s.worker v) = none := by rw [isBlocked_iff.1 hb]; rfl
      refine ⟨Function.update g v .notified, ?_, (Follow.stay rfl).move hcall .notified rfl⟩
      rw [if_pos]
      · rfl
      · exact (hblocked v).trans hb
    · cases hs
  | none =>
    simp only [notifyOne] at hs ⊢
    split at hs
    · next hnone =>
      cases hs
      exact ⟨g, if_pos fun w => (hblocked w).trans (hnone w), .stay rfl⟩
    · cases hs

include hg hblocked in
/-- A step of a thread that is not in a call on its deque. -/
theorem step_replaced [DecidableEq τ] {a : Pool.Act n m τ}
    (hcall : ∀ w, a.thread = some (.worker w) → ownCall (s.worker w) = none) (hdtor : a ≠ .step .dtor)
    (hidle : e.isIdle = s.dtor.isIdle) (hs : Pool.step s a = some u) :
    ∃ g', Pool.step (replaced s g e) a = some (replaced u g' e) ∧ Follow s u g g' := by
  have own : ∀ {w : Fin n}, a.thread = some (.worker w) → (replaced s g e).worker w = s.worker w :=
    fun hw => hg _ (hcall _ hw)
  cases a with
  | enqueue θ x =>
    simp only [Pool.step] at hs ⊢
    split at hs
    · cases hs
    · next hx =>
      have hx' : x ∉ (replaced s g e).enqueued.map (·.2) := hx
      rw [if_neg hx']
      cases θ with
      | worker w =>
        simp only [localQueue_replaced (hg w (hcall w rfl)), own rfl] at hs ⊢
        split at hs
        · cases hs
          exact ⟨_, rfl, (Follow.stay rfl).move (hcall w rfl) _ rfl⟩
        · cases hs
      | ext i =>
        simp only [localQueue] at hs ⊢
        split at hs
        · next hi =>
          cases hs
          rw [← hidle] at hi
          exact ⟨g, if_pos hi, .stay rfl⟩
        · cases hs
      | dtor => cases hs
  | wait i =>
    simp only [Pool.step] at hs ⊢
    split at hs
    · next hi =>
      cases hs
      rw [← hidle] at hi
      exact ⟨g, if_pos hi, .stay rfl⟩
    · cases hs
  | step θ => cases θ with
    | worker w =>
      have hs' : Pool.workerStep s w = some u := hs
      have hstep := workerStep_replaced (e := e) (hg w (hcall w rfl))
      rw [hs'] at hstep
      exact ⟨_, hstep, (Follow.stay rfl).move (hcall w rfl) _ (worker_of_workerStep hs')⟩
    | ext i =>
      have hs' : extStep s i = some u := hs
      have hstep := extStep_replaced (s := s) (g := g) (e := e) i
      rw [hs'] at hstep
      exact ⟨g, hstep, .stay (worker_of_extStep hs')⟩
    | dtor => exact absurd rfl hdtor
  | notify θ v => cases θ with
    | worker w =>
      simp only [Pool.step, own rfl] at hs ⊢
      split at hs
      · obtain ⟨u₁, h₁, rfl⟩ := Option.map_eq_some_iff.1 hs
        obtain ⟨g', hg', hf⟩ := notifyOne_replaced hblocked h₁
        rw [hg']
        exact ⟨_, rfl, hf.move (hcall w rfl) _ rfl⟩
      · cases hs
    | ext i =>
      have hi : (replaced s g e).ext i = s.ext i := rfl
      simp only [Pool.step, hi] at hs ⊢
      split at hs
      · obtain ⟨u₁, h₁, rfl⟩ := Option.map_eq_some_iff.1 hs
        obtain ⟨g', hg', hf⟩ := notifyOne_replaced hblocked h₁
        rw [hg']
        exact ⟨g', rfl, hf⟩
      · cases hs
    | dtor => cases hs
  | finish w =>
    simp only [Pool.step, own rfl] at hs ⊢
    split at hs
    · cases hs
      exact ⟨_, rfl, (Follow.stay rfl).move (hcall w rfl) _ rfl⟩
    · cases hs
  | spurious w =>
    simp only [Pool.step] at hs ⊢
    split at hs
    · next hb =>
      cases hs
      have hcall : ownCall (s.worker w) = none := by rw [isBlocked_iff.1 hb]; rfl
      refine ⟨_, if_pos ((hblocked w).trans hb), (Follow.stay rfl).move hcall _ rfl⟩
    · cases hs

end Replaced

/-! ## The pool that is behind -/

/-- A worker of the pool without buffers, and one under buffers. -/
inductive WorkerLags (d : WorkStealingDeque τ) (buf : List (Store τ)) : WorkerPc n τ → WorkerPc n τ → Prop
  | same {pc : WorkerPc n τ} : buf = [] → WorkerLags d buf pc pc
  | push {x : τ} {p₀ p : OwnerPc τ} : Behind d p₀ buf p →
      WorkerLags d buf (.running x (some (.push p₀))) (.running x (some (.push p)))

namespace WorkerLags
variable {d : WorkStealingDeque τ} {buf : List (Store τ)} {pc₀ pc : WorkerPc n τ}

theorem eq (h : WorkerLags d buf pc₀ pc) (hcall : ownCall pc = none) : pc₀ = pc ∧ buf = [] := by
  cases h with
  | same hbuf => exact ⟨rfl, hbuf⟩
  | @push x p₀ p hb =>
    have hp : p = .pushDone := by cases p <;> first | rfl | cases hcall
    obtain ⟨rfl, hbuf⟩ := hb.of_not_writing (by rw [hp]; rfl)
    exact ⟨rfl, hbuf⟩

theorem isBlocked_eq (h : WorkerLags d buf pc₀ pc) : pc₀.isBlocked = pc.isBlocked := by
  cases h <;> rfl

theorem isExited_eq (h : WorkerLags d buf pc₀ pc) : pc₀.isExited = pc.isExited := by
  cases h <;> rfl

theorem of_top (h : WorkerLags d buf pc₀ pc) (t : Int) : WorkerLags { d with top := t } buf pc₀ pc := by
  cases h with
  | same hbuf => exact .same hbuf
  | push hb => exact .push (hb.of_top t)

end WorkerLags

/-- The pool without buffers has the memory of the pool under buffers; its workers inside
`push` and its destructor may be behind. -/
structure Lags (s : State n m τ) (t : Impl n m τ) : Prop where
  same : t = replaced s.impl t.worker t.dtor
  worker : ∀ w, WorkerLags (s.impl.deques w) (s.buf w) (t.worker w) (s.impl.worker w)
  dtor : t.dtor = if s.stopLate then .storeStop else s.impl.dtor
  late : s.stopLate = true → s.impl.dtor = .lock

variable {s : State n m τ} {t : Impl n m τ}

theorem Lags.deques (h : Lags s t) : t.deques = s.impl.deques := by
  have hdeques := congrArg Impl.deques h.same
  exact hdeques

/-- Other threads change no more of a deque than its `top_`. -/
theorem deques_of_effect {s u : Impl n m τ} {a : Pool.Act n m τ} (e : Effect s a u)
    (hcall : ∀ w, a = .step (.worker w) → ownCall (s.worker w) = none) (v : Fin n) :
    ∃ top, u.deques v = { s.deques v with top := top } := by
  cases e with
  | pop w p hw =>
    have hp : ∃ r, p = .popDone r := by
      have := hcall w rfl
      rw [hw] at this
      cases p <;> first | exact ⟨_, rfl⟩ | cases this
    obtain ⟨r, rfl⟩ := hp
    exact ⟨(s.deques v).top, by simp [Impl.setDeque, Impl.setWorker, ownerStep]⟩
  | push w x p hw =>
    have hp : p = .pushDone := by
      have := hcall w rfl
      rw [hw] at this
      cases p <;> first | rfl | cases this
    subst hp
    exact ⟨(s.deques v).top, by simp [Impl.setDeque, Impl.setWorker, ownerStep]⟩
  | steal w spin start i q hw =>
    obtain ⟨top, htop⟩ := thiefStep_top (s.deques (target w start i)) q
    by_cases hv : v = target w start i
    · subst hv
      exact ⟨top, by simp only [Impl.setDeque, Impl.setWorker, Function.update_self]; exact htop⟩
    · exact ⟨(s.deques v).top, by simp only [Impl.setDeque, Impl.setWorker, Function.update_of_ne hv]⟩
  | _ => exact ⟨(s.deques v).top, rfl⟩

theorem dtor_of_effect {s u : Impl n m τ} {a : Pool.Act n m τ} (e : Effect s a u) (ha : a ≠ .step .dtor) :
    u.dtor = s.dtor := by
  cases e <;> first | rfl | exact absurd rfl ha

/-- The pool goes on with a step that both make. -/
theorem Lags.follow (h : Lags s t) {u : Impl n m τ} {g : Fin n → WorkerPc n τ} {e : DtorPc}
    (hf : Follow s.impl u t.worker g) (hdeques : ∀ v, ∃ top, u.deques v = { s.impl.deques v with top := top })
    (hdtor : e = if s.stopLate then .storeStop else u.dtor) (hlate : s.stopLate = true → u.dtor = .lock) :
    Lags { s with impl := u } (replaced u g e) where
  same := rfl
  worker v := by
    obtain ⟨top, htop⟩ := hdeques v
    simp only [replaced, htop]
    rcases hf v with ⟨hg, hu⟩ | ⟨hg, hcall⟩
    · rw [hg, hu]
      exact (h.worker v).of_top top
    · rw [hg]
      exact .same ((h.worker v).eq hcall).2
  dtor := hdtor
  late := hlate

section Steps
variable [DecidableEq τ]

/-- A worker inside `push` catches up. -/
theorem Catches.pool {d d' : WorkStealingDeque τ} {p p' : OwnerPc τ} (h : Catches d p d' p') {w : Fin n} {x : τ}
    (hd : t.deques w = d) (hw : t.worker w = .running x (some (.push p))) :
    (Pool.machine n m τ).Repeats (.step (.worker w)) t
      ((t.setDeque w d').setWorker w (.running x (some (.push p')))) := by
  induction h generalizing t with
  | refl d p =>
    have hself : (t.setDeque w d).setWorker w (.running x (some (.push p))) = t := by
      rw [← hd, ← hw]
      simp [Impl.setDeque, Impl.setWorker]
    rw [hself]
    exact .refl ..
  | @step d d' p p' hne _ ih =>
    have hstep : (Pool.machine n m τ).step t (.step (.worker w)) = some ((t.setDeque w (ownerStep d p).1).setWorker w
        (.running x (some (.push (ownerStep d p).2)))) := by
      have hq : localQueue t (.worker w) = some w := by simp only [localQueue, hw]
      show Pool.workerStep t w = _
      simp only [Pool.workerStep, hw, enqStep, hq, ← hd]
      rfl
    refine .head hstep ?_
    have h := ih (t := (t.setDeque w (ownerStep d p).1).setWorker w (.running x (some (.push (ownerStep d p).2))))
      (by simp [Impl.setDeque, Impl.setWorker]) (by simp [Impl.setWorker])
    simpa [Impl.setDeque, Impl.setWorker] using h

omit [DecidableEq τ] in
/-- A worker makes an access to its deque, or one of its stores reaches memory. -/
theorem Lags.call (h : Lags s t) {w : Fin n} {d : WorkStealingDeque τ} {buf : List (Store τ)} {pc₀ pc : WorkerPc n τ}
    (hw : WorkerLags d buf pc₀ pc) :
    Lags { s with impl := (s.impl.setDeque w d).setWorker w pc, buf := Function.update s.buf w buf }
      ((t.setDeque w d).setWorker w pc₀) where
  same := by
    have hsame := h.same
    rw [hsame]
    rfl
  worker v := by
    simp only [Impl.setDeque, Impl.setWorker]
    by_cases hv : v = w
    · subst hv
      simp only [Function.update_self]
      exact hw
    · simp only [Function.update_of_ne hv]
      exact h.worker v
  dtor := h.dtor
  late := h.late

omit [DecidableEq τ] in
/-- A pop makes no store that may be late. -/
theorem access_pop {d d' : WorkStealingDeque τ} {buf : List (Store τ)} {p p' : OwnerPc τ} (hp : p.isPop = true)
    (ha : access d [] p = some (d', buf, p')) : buf = [] ∧ ownerStep d p = (d', p') := by
  have hd : delayed d p = none := by cases p <;> first | rfl | cases hp
  simp only [access, List.foldl_nil, hd, List.isEmpty_nil, if_true] at ha
  split at ha
  · cases ha
    exact ⟨rfl, rfl⟩
  · next hf =>
    cases ha
    have hload := ownerStep_load hd (Bool.eq_false_of_not_eq_true hf)
    exact ⟨rfl, Prod.ext hload rfl⟩

theorem Lags.own_call (h : Lags s t) (hsafe : Safe t) {w : Fin n} {p p' : OwnerPc τ} {pc : OwnerPc τ → WorkerPc n τ}
    {d : WorkStealingDeque τ} {buf : List (Store τ)} (hcall : ownCall (s.impl.worker w) = some (p, pc))
    (ha : access (s.impl.deques w) (s.buf w) p = some (d, buf, p')) :
    ∃ t', (Pool.machine n m τ).Repeats (.step (.worker w)) t t' ∧
      Lags { s with impl := (s.impl.setDeque w d).setWorker w (pc p'), buf := Function.update s.buf w buf } t' := by
  have hdeques : t.deques w = s.impl.deques w := congrFun h.deques w
  have hlag := h.worker w
  generalize ht : t.worker w = pc₀ at hlag
  rcases ownCall_eq_some hcall with ⟨hpc, rfl, hdone⟩ | ⟨x, hpc, rfl⟩
  · obtain ⟨rfl, hbuf⟩ : pc₀ = .popping p ∧ s.buf w = [] := by
      rw [hpc] at hlag
      cases hlag with | same hbuf => exact ⟨rfl, hbuf⟩
    rw [hbuf] at ha
    obtain ⟨rfl, hstep⟩ := access_pop (hsafe.popping ht).2 ha
    refine ⟨_, .head ?_ (.refl ..), h.call (.same rfl)⟩
    show Pool.workerStep t w = _
    simp only [Pool.workerStep, ht, hdeques]
    split
    · exact absurd rfl (hdone none)
    · exact absurd rfl (hdone _)
    · rw [hstep]
  · obtain ⟨p₀, rfl, hb⟩ : ∃ p₀, pc₀ = .running x (some (.push p₀)) ∧ Behind (s.impl.deques w) p₀ (s.buf w) p := by
      rw [hpc] at hlag
      cases hlag with
      | same hbuf => exact ⟨p, rfl, hbuf ▸ .refl ..⟩
      | push hb => exact ⟨_, rfl, hb⟩
    obtain ⟨p₁, hcatch, hb'⟩ := hb.access ha
    exact ⟨_, Catches.pool hcatch hdeques ht, h.call (.push hb')⟩

/-- The oldest late store of a worker reaches memory. -/
theorem Lags.drain (h : Lags s t) {w : Fin n} {x : Store τ} {buf : List (Store τ)} (hbuf : s.buf w = x :: buf) :
    ∃ t', (Pool.machine n m τ).Repeats (.step (.worker w)) t t' ∧
      Lags { s with impl := s.impl.setDeque w (write (s.impl.deques w) x), buf := Function.update s.buf w buf } t' := by
  have hdeques : t.deques w = s.impl.deques w := congrFun h.deques w
  have hlag := h.worker w
  generalize ht : t.worker w = pc₀ at hlag
  generalize hpc : s.impl.worker w = pc at hlag
  cases hlag with
  | same hempty => rw [hbuf] at hempty; cases hempty
  | @push y p₀ p hb =>
    rw [hbuf] at hb
    obtain ⟨p₁, hcatch, hb'⟩ := hb.drain
    refine ⟨_, Catches.pool hcatch hdeques ht, ?_⟩
    have hcall := h.call (w := w) (.push (x := y) hb')
    rw [← hpc] at hcall
    have hself : (s.impl.setDeque w (write (s.impl.deques w) x)).setWorker w (s.impl.worker w) =
        s.impl.setDeque w (write (s.impl.deques w) x) := by simp [Impl.setWorker, Impl.setDeque]
    rwa [hself] at hcall

/-- A step of a thread that is not in a call on its deque. -/
theorem Lags.other_step (h : Lags s t) (hsafe : Safe t) {a : Pool.Act n m τ} {u : Impl n m τ}
    (hcall : ∀ w, a.thread = some (.worker w) → ownCall (s.impl.worker w) = none)
    (hdtor : a = .step .dtor → s.stopLate = false) (hs : Pool.step s.impl a = some u) :
    ∃ t', Pool.step t a = some t' ∧ Lags { s with impl := u } t' := by
  have hself : t = replaced s.impl t.worker t.dtor := h.same
  have hg : ∀ v, ownCall (s.impl.worker v) = none → t.worker v = s.impl.worker v := fun v hv => ((h.worker v).eq hv).1
  have hblocked : ∀ v, (t.worker v).isBlocked = (s.impl.worker v).isBlocked := fun v => (h.worker v).isBlocked_eq
  have heffect : Effect s.impl a u := by
    refine step_effect hs ?_
    intro w x y hw
    exact hsafe.not_pushGlobal w x y ((hg w (by rw [hw]; rfl)).trans hw)
  have hdeques := deques_of_effect heffect (fun w hw => hcall w (by rw [hw]; rfl))
  by_cases hda : a = .step .dtor
  · subst hda
    have hlate := hdtor rfl
    have hd : t.dtor = s.impl.dtor := by rw [h.dtor, hlate]; rfl
    obtain ⟨g', hstep, hf⟩ := dtorStep_replaced hg hblocked (fun v => (h.worker v).isExited_eq) hs
    rw [hself, hd]
    refine ⟨_, hstep, h.follow hf hdeques (by rw [hlate]; rfl) (fun hl => ?_)⟩
    rw [hlate] at hl
    cases hl
  · have hidle : t.dtor.isIdle = s.impl.dtor.isIdle := by
      rw [h.dtor]
      split
      · next hl => rw [h.late hl]; rfl
      · rfl
    obtain ⟨g', hstep, hf⟩ := step_replaced hg hblocked hcall hda hidle hs
    have hd := dtor_of_effect heffect hda
    rw [hself]
    refine ⟨_, hstep, h.follow hf hdeques ?_ ?_⟩
    · rw [hd]; exact h.dtor
    · rw [hd]; exact h.late

end Steps

/-! ## The refinement -/

section Refinement
variable [DecidableEq τ]

/-- What a task does, and what `enqueue` does after its push, is no call on the deque. -/
theorem ownCall_of_step {s u : Impl n m τ} {a : Pool.Act n m τ} {w : Fin n} (hs : Pool.step s a = some u)
    (ha : a.thread = some (.worker w)) (hne : a ≠ .step (.worker w)) : ownCall (s.worker w) = none := by
  cases a with
  | enqueue θ x =>
    obtain rfl : θ = .worker w := Option.some.inj ha
    simp only [Pool.step] at hs
    split at hs
    · cases hs
    · split at hs
      · next hpc => rw [hpc]; rfl
      · cases hs
  | step θ =>
    obtain rfl : θ = .worker w := Option.some.inj ha
    exact absurd rfl hne
  | notify θ v =>
    obtain rfl : θ = .worker w := Option.some.inj ha
    simp only [Pool.step] at hs
    split at hs
    · next hpc => rw [hpc]; rfl
    · cases hs
  | finish v =>
    obtain rfl : v = w := by cases ha; rfl
    simp only [Pool.step] at hs
    split at hs
    · next hpc => rw [hpc]; rfl
    · cases hs
  | wait i | spurious v => cases ha

theorem Lags.step (h : Lags s t) (hsafe : Safe t) {a : Act n m τ} {s' : State n m τ} (hs : step s a = some s') :
    ∃ bs t', (Pool.machine n m τ).execFrom t bs = some t' ∧ Lags s' t' := by
  cases a with
  | drain w =>
    simp only [Buffered.step] at hs
    split at hs
    · cases hs
    · next x buf hbuf =>
      cases hs
      obtain ⟨t', ⟨k, hk⟩, hl⟩ := h.drain hbuf
      exact ⟨_, t', hk, hl⟩
  | drainStop =>
    simp only [Buffered.step] at hs
    split at hs
    · next hlate =>
      cases hs
      have hd : t.dtor = .storeStop := by rw [h.dtor, hlate]; rfl
      have hstep : (Pool.machine n m τ).step t (.step .dtor) = some { t with stop := true, dtor := .lock } := by
        show Pool.dtorStep t = _
        simp only [Pool.dtorStep, hd]
      refine ⟨_, _, Machine.execFrom_singleton hstep, ?_, h.worker, (h.late hlate).symm, nofun⟩
      have hsame := h.same
      rw [hsame]
      rfl
    · cases hs
  | access a =>
    have other : ∀ {u : Impl n m τ}, Pool.step s.impl a = some u →
        (∀ w, a.thread = some (.worker w) → ownCall (s.impl.worker w) = none) →
        (a = .step .dtor → s.stopLate = false) →
        ∃ bs t', (Pool.machine n m τ).execFrom t bs = some t' ∧ Lags { s with impl := u } t' := by
      intro u hu hcall hdtor
      obtain ⟨t', ht, hl⟩ := h.other_step hsafe hcall hdtor hu
      exact ⟨_, t', Machine.execFrom_singleton ht, hl⟩
    by_cases hw : ∃ w, a = .step (.worker w)
    · obtain ⟨w, rfl⟩ := hw
      simp only [Buffered.step, workerStep] at hs
      split at hs
      · next p pc hcall =>
        obtain ⟨⟨d, buf, p'⟩, ha, rfl⟩ := Option.map_eq_some_iff.1 hs
        obtain ⟨t', ⟨k, hk⟩, hl⟩ := h.own_call hsafe hcall ha
        exact ⟨_, t', hk, hl⟩
      · next hcall =>
        obtain ⟨u, hu, rfl⟩ := Option.map_eq_some_iff.1 hs
        refine other hu ?_ nofun
        rintro v ⟨⟩
        exact hcall
    · by_cases hd : a = .step .dtor
      · subst hd
        simp only [Buffered.step, dtorStep] at hs
        split at hs
        · next hstore =>
          -- the store of `stop` goes into the buffer, and the other destructor has not made it
          cases hs
          have hlate : s.stopLate = false := by
            refine Bool.eq_false_of_not_eq_true fun hl => ?_
            rw [h.late hl] at hstore
            cases hstore
          have hdt : t.dtor = .storeStop := by rw [h.dtor, hlate]; exact hstore
          refine ⟨[], t, rfl, ?_, h.worker, hdt, fun _ => rfl⟩
          have hsame := h.same
          rw [hsame]
          rfl
        · split at hs
          · cases hs
          · next hlate =>
            obtain ⟨u, hu, rfl⟩ := Option.map_eq_some_iff.1 hs
            exact other hu nofun (fun _ => Bool.eq_false_of_not_eq_true hlate)
      · have hstep : (Pool.step s.impl a).map (fun u => ({ s with impl := u } : State n m τ)) = some s' := by
          cases a with
          | step θ => cases θ with
            | worker w => exact absurd ⟨w, rfl⟩ hw
            | ext i => exact hs
            | dtor => exact absurd rfl hd
          | _ => exact hs
        obtain ⟨u, hu, rfl⟩ := Option.map_eq_some_iff.1 hstep
        exact other hu (fun w hθ => ownCall_of_step hu hθ (fun he => hw ⟨w, he⟩)) (fun he => absurd he hd)

/-- Every step under store buffers is matched by steps without them. -/
theorem refines : Refines (machine n m τ) (Pool.machine n m τ) (fun _ => (none : Option Unit))
    (fun _ => none) Lags where
  init := ⟨rfl, fun _ => .same rfl, rfl, nofun⟩
  step {s a s' bs t} hrun h hs := by
    obtain ⟨cs, t', hexec, hl⟩ := h.step (safe_of_run hrun) hs
    exact ⟨cs, t', hexec, List.filterMap_eq_nil_iff.2 (fun _ _ => rfl), hl⟩

/-- The worker is inside the push of an `enqueue`. -/
def pushing : WorkerPc n τ → Bool
  | .running _ (some (.push _)) => true
  | _ => false

/-- No worker is inside a push, and the store of `stop` is not late. -/
def State.Settled (s : State n m τ) : Prop := s.stopLate = false ∧ ∀ w, pushing (s.impl.worker w) = false

instance (s : State n m τ) : Decidable s.Settled := inferInstanceAs (Decidable (_ ∧ _))

/-- **The pool behaves under store buffers as without them.** For every number of workers and
external threads and every interleaving, with the stores of `push` to the deque and the store
of `stop` reaching memory at any later time: the tasks enqueued, started, run and deleted so
far, the queues and the counter of sleeping workers are those of a state that the pool reaches
without buffers. Whenever no worker is inside a push and the store of `stop` is not late, the whole
state is such a state, so that everything that holds in every state of the pool holds in it. -/
theorem pool_unchanged_by_buffers {as : List (Act n m τ)} (h : (machine n m τ).Run as s) :
    ∃ bs t, (Pool.machine n m τ).Run bs t ∧
      (t.enqueued, t.started, t.ran, t.deleted) = (s.impl.enqueued, s.impl.started, s.impl.ran, s.impl.deleted) ∧
      (t.deques, t.global, t.sleeping, t.mutex) = (s.impl.deques, s.impl.global, s.impl.sleeping, s.impl.mutex) ∧
      (s.Settled → t = s.impl ∧ ∀ w, s.buf w = []) := by
  obtain ⟨bs, t, hrun, -, hl⟩ := refines.trace h
  have hsame := hl.same
  refine ⟨bs, t, hrun, ?_, ?_, fun hset => ?_⟩
  · rw [hsame]; rfl
  · rw [hsame]; rfl
  · have hw : ∀ w, t.worker w = s.impl.worker w ∧ s.buf w = [] := by
      intro w
      have hlag := hl.worker w
      have hpush := hset.2 w
      generalize s.impl.worker w = pc at hlag hpush ⊢
      generalize t.worker w = pc₀ at hlag ⊢
      cases hlag with
      | same hbuf => exact ⟨rfl, hbuf⟩
      | push hb => cases hpush
    have hworker : t.worker = s.impl.worker := funext fun w => (hw w).1
    have hd : t.dtor = s.impl.dtor := by rw [hl.dtor, hset.1]; rfl
    refine ⟨?_, fun w => (hw w).2⟩
    rw [hsame, hworker, hd]
    rfl

end Refinement

/-- A worker runs a task that enqueues another one. The slot is stored late, and the push ends. -/
def lateSlot {n m : Nat} (i : Fin m) (w : Fin n) : List (Act n m Nat) := List.flatten
  [[.access (.enqueue (.ext i) 1), .access (.step (.ext i)), .access (.step (.ext i))],
    List.replicate 8 (.access (.step (.worker w))), [.access (.enqueue (.worker w) 2)],
    List.replicate 4 (.access (.step (.worker w))), [.drain w], List.replicate 3 (.access (.step (.worker w)))]

theorem pool_unchanged_by_buffers_late_slot : ∃ s, (machine 1 1 Nat).Run (lateSlot 0 0) s ∧
    (s.impl.enqueued, s.impl.started) = ([(.ext 0, 1), (.worker 0, 2)], [(0, 1)]) ∧
    ∃ bs, (Pool.machine 1 1 Nat).Run bs s.impl := by
  have hexec : ((machine 1 1 Nat).exec (lateSlot 0 0)).any (fun s => decide (s.Settled ∧
      (s.impl.enqueued, s.impl.started) = ([(.ext 0, 1), (.worker 0, 2)], [(0, 1)]))) = true := by decide +kernel
  obtain ⟨s, hrun, hset, hlists⟩ := Machine.exists_run_of_exec hexec
  obtain ⟨bs, t, ht, -, -, hsame⟩ := pool_unchanged_by_buffers hrun
  exact ⟨s, hrun, hlists, bs, (hsame hset).1 ▸ ht⟩

end AsyncRuntime.Pool.Buffered
