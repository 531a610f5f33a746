import AsyncRuntime.Deque.Accesses
import AsyncRuntime.Pool.Stealing
import AsyncRuntime.Pool.Wakeup
/-!
# What the pool may still do

A worker that searches in vain goes to sleep unless the look in the sleep section finds
work that its search did not. `Searched` says when this cannot happen: all the queues it
has passed still look empty, and the steal it has begun will not lose its race. A worker
for which it fails may come back for one more lap. It fails only by steps that are paid
for: a task that is published, a task that is taken, and `stop`.

The potential adds up the steps left of all threads, the laps still due and what each
queued task is worth. Here are its definition and what an access to a deque does to it.
-/

namespace AsyncRuntime.Pool
open Lib Deque
variable {n m : Nat} {τ : Type} {s s' : Impl n m τ}

/-! ## What a search has seen -/

/-- Every queue looks empty. -/
def Barren (s : Impl n m τ) : Prop := s.global = [] ∧ ∀ j, Exhausted (s.deques j)

/-- The steal will not lose its race, or it has missed a deque that looks empty. -/
def Fresh (d : WorkStealingDeque τ) : Option (ThiefPc τ) → Prop
  | some (.loadBottom t) | some (.loadArray t) | some (.loadSlot t _) | some (.cas t _) => t = d.top
  | some (.done none) => Exhausted d
  | _ => True

/-- The `bottom_` that a look has loaded is not above `top_`. -/
def Past (s : Impl n m τ) : LookPc n → Prop
  | .top j b => b ≤ (s.deques j).top
  | _ => True

/-- What worker `w` has passed on its way to sleep is still empty. -/
def Searched (s : Impl n m τ) (w : Fin n) : WorkerPc n τ → Prop
  | .stealing none start i q =>
    s.global = [] ∧ (∀ k < i, Exhausted (s.deques (target w start k))) ∧ Fresh (s.deques (target w start i)) q
  | .stealing (some _) _ _ _ | .loadStop | .spinPop _ | .lock | .lockedStop => Barren s
  | .look _ l => Barren s ∧ s.stop = false ∧ Past s l
  | .incSleeping | .predStop | .wait | .blocked | .notified => Barren s ∧ s.stop = false
  | _ => True

/-- Nothing is published or taken, and `stop` is not set. -/
structure Calm (s s' : Impl n m τ) : Prop where
  global : s.global = [] → s'.global = []
  deque : ∀ j, Exhausted (s.deques j) → Exhausted (s'.deques j)
  top : ∀ j, (s'.deques j).top = (s.deques j).top
  stop : s'.stop = s.stop

theorem Calm.of_eq (hg : s'.global = s.global) (hd : s'.deques = s.deques) (hs : s'.stop = s.stop) : Calm s s' where
  global h := by rw [hg, h]
  deque j h := by rw [hd]; exact h
  top j := by rw [hd]
  stop := hs

theorem Calm.barren (c : Calm s s') (h : Barren s) : Barren s' := ⟨c.global h.1, fun j => c.deque j (h.2 j)⟩

theorem Calm.fresh (c : Calm s s') {j : Fin n} {q : Option (ThiefPc τ)} (h : Fresh (s.deques j) q) :
    Fresh (s'.deques j) q := by
  rcases q with _ | q
  · trivial
  · cases q with
    | loadTop => trivial
    | loadBottom t | loadArray t | loadSlot t a | cas t task => exact h.trans (c.top j).symm
    | done task =>
      cases task with
      | none => exact c.deque j h
      | some x => trivial

theorem Calm.past (c : Calm s s') {l : LookPc n} (h : Past s l) : Past s' l := by
  cases l with
  | global | bottom => trivial
  | top j b => exact le_of_le_of_eq h (c.top j).symm

/-- A calm step of another thread leaves what a worker has searched as it is. -/
theorem Calm.searched (c : Calm s s') {w : Fin n} {pc : WorkerPc n τ} (h : Searched s w pc) : Searched s' w pc := by
  cases pc with
  | stealing spin start i q =>
    cases spin with
    | none =>
      obtain ⟨hg, hpassed, hq⟩ := h
      exact ⟨c.global hg, fun k hk => c.deque _ (hpassed k hk), c.fresh hq⟩
    | some k => exact c.barren h
  | loadStop | spinPop | lock | lockedStop => exact c.barren h
  | look site l =>
    obtain ⟨hb, hstop, hl⟩ := h
    exact ⟨c.barren hb, c.stop.trans hstop, c.past hl⟩
  | incSleeping | predStop | wait | blocked | notified => exact ⟨c.barren h.1, c.stop.trans h.2⟩
  | _ => trivial

/-! ## Steps left -/

/-- The accesses left in a look. -/
def LookPc.rank : LookPc n → Nat
  | .global => 2 * n + 1
  | .bottom j => 2 * (n - j)
  | .top j _ => 2 * (n - j) - 1

theorem LookPc.rank_pos (l : LookPc n) : 0 < l.rank := by
  cases l with
  | global => exact Nat.succ_pos _
  | bottom j | top j => have := j.isLt; simp only [LookPc.rank]; omega

theorem LookPc.rank_lookFrom {j : Nat} {l : LookPc n} (h : lookFrom n j = .inl l) : l.rank = 2 * (n - j) := by
  unfold lookFrom at h
  split at h
  · cases h; rfl
  · cases h

theorem LookPc.rank_lookStep {l l' : LookPc n} (h : lookStep s l = .inl l') : l'.rank < l.rank := by
  cases l with
  | global =>
    simp only [lookStep] at h
    split at h
    · rw [LookPc.rank_lookFrom h]; simp only [LookPc.rank]; omega
    · cases h
  | bottom j => cases h; have := j.isLt; simp only [LookPc.rank]; omega
  | top j b =>
    simp only [lookStep] at h
    split at h
    · rw [LookPc.rank_lookFrom h]; have := j.isLt; simp only [LookPc.rank]; omega
    · cases h

/-- The steps from the head of the loop in `worker_loop` to `cv.wait`, at most. -/
def lap (n : Nat) : Nat := 268 * n + 115

/-- What the next lap of a worker is worth, if its search may have missed something. -/
def relap (n : Nat) : Nat := lap n + 3

/-- What a task in a queue is worth: the lap after it has been run, and a lap of each
worker that may lose the race for it. -/
def taskWorth (n : Nat) : Nat := lap n + 1 + n * relap n

/-- The steps left in an `enqueue`, with the task and what its publication undoes. -/
def EnqPc.rank (n : Nat) : EnqPc τ → Nat
  | .push p => p.rank + 2 * n + 10 + p.input.toList.length * (taskWorth n + n * relap n)
  | .pushGlobal _ => 2 * n + 10 + (taskWorth n + n * relap n)
  | .loadSleeping => 2 * n + 9
  | .lock => 2 * n + 8
  | .notify => 2 * n + 7
  | .unlock => 1

/-- The steps left to `cv.wait` when `steal_from_others` returns nothing. -/
def missRank (n : Nat) : Option Nat → Nat
  | none => 260 * n + 105
  | some k => 4 * n + 8 + (31 - k) * (8 * n + 3)

/-- The steps left until the worker sleeps or has left, if its search misses nothing. -/
def WorkerPc.rank : WorkerPc n τ → Nat
  | .boot => lap n + 1
  | .popping p => p.rank + 268 * n + 108
  | .popGlobal => 268 * n + 107
  | .stealing spin _ i none => missRank n spin + 8 * (n - i) + 1
  | .stealing spin _ i (some q) => missRank n spin + 8 * (n - i - 1) + q.rank + 2
  | .running _ none => 0
  | .running _ (some e) => e.rank n
  | .loadStop => 260 * n + 105
  | .spinPop k => missRank n (some k) + 8 * n + 3
  | .lock => 4 * n + 8
  | .lockedStop => 4 * n + 7
  | .look .first l => 2 * n + 5 + l.rank
  | .incSleeping => 2 * n + 5
  | .predStop => 2 * n + 4
  | .look .pred l => l.rank + 1
  | .wait => 1
  | .blocked => 0
  | .notified => 2 * n + 5
  | .decSleeping => lap n + 2
  | .unlock false => lap n + 1
  | .unlock true => 1
  | .exited => 0

def ExtPc.rank : ExtPc n τ → Nat
  | .enqueue e => e.rank n
  | _ => 0

/-- The steps left in the destructor, with the laps that `stop` and `notify_all` cause. -/
def DtorPc.rank (n : Nat) : DtorPc → Nat
  | .idle => 2 * n + 8 + n * (2 * n + 5) + n * relap n
  | .storeStop => 2 * n + 7 + n * (2 * n + 5) + n * relap n
  | .lock => 2 * n + 6 + n * (2 * n + 5)
  | .notifyAll => 2 * n + 5 + n * (2 * n + 5)
  | .unlock => 2 * n + 4
  | .join k => (n - k) + n + 3
  | .destroy k => (n - k) + 2
  | .destroyGlobal => 1
  | .finished => 0

/-! ## The potential -/

open Classical in
/-- What worker `w` may still do from `pc` on: the steps left on its lap, one more lap if
its search may have missed something, and the lap after the task in its hands. -/
noncomputable def dueAt (s : Impl n m τ) (w : Fin n) (pc : WorkerPc n τ) : Nat :=
  pc.rank + (if Searched s w pc then 0 else relap n) + (held (s.deques w) pc).toList.length * (lap n + 1)

noncomputable def due (s : Impl n m τ) (w : Fin n) : Nat := dueAt s w (s.worker w)

/-- The copies that a deque may still make, as it has at most twice the capacity of the
tasks ever enqueued. -/
def growthAt (e : Nat) (d : WorkStealingDeque τ) (p : OwnerPc τ) : Nat := (2 * (1024 + 2 * e - room d p)).toNat

def growth (s : Impl n m τ) (w : Fin n) : Nat := growthAt s.enqueued.length (s.deques w) (s.worker w).owner

/-- What the pool may still do without a new request. -/
noncomputable def potential (s : Impl n m τ) : Nat :=
  ∑ w, due s w + taskWorth n * queued s + ∑ w, growth s w + ∑ i, (s.ext i).rank + s.dtor.rank n

/-! ## Where no call on the deque is half way -/

/-- The worker's deque is as it was between two calls. -/
def WorkerPc.settled (pc : WorkerPc n τ) : Bool := pc.owner.settled

theorem settled_of_searching {pc : WorkerPc n τ} (h : pc.searching = true) : pc.settled = true := by
  rw [WorkerPc.settled, owner_of_searching h]; rfl

theorem settled_of_got {pc : WorkerPc n τ} {x : τ} (h : pc.got = some x) : pc.settled = true := by
  cases pc with
  | popping p => cases p <;> cases h; rfl
  | stealing spin start i q => rfl
  | _ => cases h

theorem Move.settled {w : Fin n} {pc pc' : WorkerPc n τ} (h : Move s w pc pc') :
    pc.settled = true ∧ pc'.settled = true := by
  cases h with
  | search h₁ h₂ => exact ⟨settled_of_searching h₁, settled_of_searching h₂⟩
  | _ => exact ⟨rfl, rfl⟩

theorem Locks.settled {pc pc' : WorkerPc n τ} (h : Locks pc pc') : pc.settled = true ∧ pc'.settled = true := by
  cases h <;> exact ⟨rfl, rfl⟩

theorem Unlocks.settled {pc pc' : WorkerPc n τ} (h : Unlocks pc pc') : pc.settled = true ∧ pc'.settled = true := by
  cases h <;> exact ⟨rfl, rfl⟩

/-! ## Growth is bounded -/

/-- No deque has more capacity than the tasks enqueued account for. -/
def Sized (s : Impl n m τ) : Prop := ∀ w, Fits (s.deques w) (s.worker w).owner s.enqueued.length

theorem sized_init : Sized (init n m τ) := fun _ => ⟨le_refl _, le_refl _⟩

theorem Sized.of_move (h : Sized s) {w : Fin n} {pc : WorkerPc n τ} (hd : s'.deques = s.deques)
    (hw : s'.worker = Function.update s.worker w pc) (he : s'.enqueued = s.enqueued)
    (hp : (s.worker w).settled = true ∧ pc.settled = true) : Sized s' := by
  intro v
  rw [hd, hw, he]
  by_cases hv : v = w
  · subst hv
    rw [Function.update_self]
    exact (h v).of_settled hp.1 hp.2
  · rw [Function.update_of_ne hv]
    exact h v

theorem Sized.of_eq (h : Sized s) (hd : s'.deques = s.deques) (hw : s'.worker = s.worker)
    (he : s.enqueued.length ≤ s'.enqueued.length) : Sized s' := by
  intro v
  rw [hd, hw]
  exact (h v).mono he

theorem Sized.owner (h : Sized s) (hs : Safe s) {w : Fin n} {p : OwnerPc τ} {pc : WorkerPc n τ}
    (hp : (s.worker w).owner = p) (hpc : pc.owner = (ownerStep (s.deques w) p).2) :
    Sized ((s.setDeque w (ownerStep (s.deques w) p).1).setWorker w pc) := by
  intro v
  by_cases hv : v = w
  · subst hv
    simp only [Impl.setWorker, Impl.setDeque, Function.update_self, hpc]
    exact (hp ▸ h v).ownerStep (hp ▸ hs.inv v)
  · simp only [Impl.setWorker, Impl.setDeque, Function.update_of_ne hv]
    exact h v

theorem Sized.effect {a : Act n m τ} (h : Sized s) (hs : Safe s) (e : Effect s a s') : Sized s' := by
  cases e with
  | pop w p hw => exact h.owner hs (by rw [hw]; rfl) rfl
  | push w x p hw => exact h.owner hs (by rw [hw]; rfl) rfl
  | steal w spin start i q hw =>
    intro v
    have howner : ∀ v, (Function.update s.worker w
        (.stealing spin start i (some (thiefStep (s.deques (target w start i)) q).2)) v).owner = (s.worker v).owner :=
      observe_update WorkerPc.owner (by rw [hw]; rfl)
    simp only [Impl.setWorker, Impl.setDeque, howner]
    by_cases hv : v = target w start i
    · rw [hv, Function.update_self]; exact (h _).thiefStep q
    · rw [Function.update_of_ne hv]; exact h v
  | start w x hgot => exact h.of_move rfl rfl rfl ⟨settled_of_got hgot, rfl⟩
  | take w x g hpg => exact h.of_move rfl rfl rfl ⟨settled_of_searching (searching_of_popsGlobal hpg), rfl⟩
  | move w pc rng hm => exact h.of_move rfl rfl rfl hm.settled
  | lock w pc _ hl => exact h.of_move rfl rfl rfl hl.settled
  | unlock w pc hl => exact h.of_move rfl rfl rfl hl.settled
  | incSleeping w hw | decSleeping w hw | finish w x hw | notifyNone w x hw | spurious w hw =>
    exact h.of_move (w := w) rfl rfl rfl ⟨by rw [hw]; rfl, rfl⟩
  | spawn w y x hw =>
    intro v
    simp only [Impl.setWorker, List.length_append, List.length_singleton]
    by_cases hv : v = w
    · subst hv
      obtain ⟨hb, hr⟩ := h v
      rw [hw] at hb hr
      rw [Function.update_self]
      refine ⟨?_, ?_⟩
      · have hb : (s.deques v).bottom + 0 ≤ s.enqueued.length := hb
        show (s.deques v).bottom + 1 ≤ _
        omega
      · have hr : (s.deques v).cur.capacity ≤ 1024 + 2 * s.enqueued.length := hr
        show (s.deques v).cur.capacity ≤ _
        omega
    · rw [Function.update_of_ne hv]
      exact (h v).mono (Nat.le_succ _)
  | call => exact h.of_eq rfl rfl (by simp)
  | notify w x v hw hv =>
    have h₁ : Sized (s.setWorker v .notified) := h.of_move rfl rfl rfl ⟨by rw [hv]; rfl, rfl⟩
    have hne : w ≠ v := by
      rintro rfl
      rw [hw] at hv; cases hv
    refine h₁.of_move (w := w) rfl rfl rfl ⟨?_, rfl⟩
    simp only [Impl.setWorker, Function.update_of_ne hne, hw]
    rfl
  | extNotify i v _ hv => exact h.of_move (w := v) rfl rfl rfl ⟨by rw [hv]; rfl, rfl⟩
  | notifyAll =>
    intro v
    have howner := observe_notifyAll WorkerPc.owner rfl (s := s) v
    show Fits (s.deques v) ((Pool.notifyAll s).worker v).owner s.enqueued.length
    rw [howner]
    exact h v
  | publish | extMove | extLock | extUnlock | extNotifyNone | dtorMove | storeStop | dtorLock | dtorUnlock
  | destroy | destroyGlobal => exact h.of_eq rfl rfl (le_refl _)

theorem sized_of_run [DecidableEq τ] {acts : List (Act n m τ)} (h : (machine n m τ).Run acts s) : Sized s :=
  inv_of_run sized_init (fun hr e hz => hz.effect (safe_of_run hr) e) h

/-! ## Steps that only move a worker -/

theorem dueAt_lt {w : Fin n} {pc pc' : WorkerPc n τ} (hr : pc'.rank < pc.rank)
    (hh : held (s.deques w) pc' = held (s.deques w) pc) (hs : Searched s w pc → Searched s w pc') :
    dueAt s w pc' < dueAt s w pc := by
  unfold dueAt
  rw [hh]
  by_cases h : Searched s w pc
  · rw [if_pos h, if_pos (hs h)]
    omega
  · rw [if_neg h]
    split <;> omega

/-- A worker that missed something comes back. -/
theorem dueAt_lt_of_missed {w : Fin n} {pc pc' : WorkerPc n τ} (h : ¬Searched s w pc) (hs : Searched s w pc')
    (hr : pc'.rank < pc.rank + relap n) (hh : held (s.deques w) pc' = held (s.deques w) pc) :
    dueAt s w pc' < dueAt s w pc := by
  unfold dueAt
  rw [hh, if_neg h, if_pos hs]
  omega

/-- A worker gets a task. -/
theorem dueAt_take {w : Fin n} {pc pc' : WorkerPc n τ} (hr : pc'.rank < pc.rank) {x : τ}
    (hh' : held (s'.deques w) pc' = some x) (hh : held (s.deques w) pc = none)
    (hs : Searched s w pc → Searched s' w pc') : dueAt s' w pc' + 1 ≤ dueAt s w pc + (lap n + 1) := by
  unfold dueAt
  rw [hh, hh']
  by_cases h : Searched s w pc
  · rw [if_pos h, if_pos (hs h)]
    simp
    omega
  · rw [if_neg h]
    split <;> simp <;> omega

theorem dueAt_of_searched (w : Fin n) (pc : WorkerPc n τ) (h : Searched s w pc) :
    dueAt s w pc = pc.rank + (held (s.deques w) pc).toList.length * (lap n + 1) := by
  unfold dueAt
  rw [if_pos h]
  rfl

/-- Only worker `w` moves, besides the mutex, `sleeping` and the records. -/
structure Walks (s s' : Impl n m τ) (w : Fin n) (pc : WorkerPc n τ) : Prop where
  deques : s'.deques = s.deques
  global : s'.global = s.global
  stop : s'.stop = s.stop
  enqueued : s'.enqueued = s.enqueued
  ext : s'.ext = s.ext
  dtor : s'.dtor = s.dtor
  worker : s'.worker = Function.update s.worker w pc

/-- What worker `v` may do depends on the queues and on `stop` only. -/
theorem dueAt_congr (hd : s'.deques = s.deques) (hg : s'.global = s.global) (hs : s'.stop = s.stop) (v : Fin n)
    (pc : WorkerPc n τ) : dueAt s' v pc = dueAt s v pc := by
  have hiff : Searched s' v pc ↔ Searched s v pc :=
    ⟨(Calm.of_eq hg.symm hd.symm hs.symm).searched, (Calm.of_eq hg hd hs).searched⟩
  unfold dueAt
  rw [hd]
  by_cases h : Searched s v pc
  · rw [if_pos h, if_pos (hiff.2 h)]
  · rw [if_neg h, if_neg (hiff.not.2 h)]

theorem Walks.potential_eq {w : Fin n} {pc : WorkerPc n τ} (h : Walks s s' w pc)
    (hc : contents (s.deques w) pc.owner = contents (s.deques w) (s.worker w).owner)
    (hr : room (s.deques w) pc.owner = room (s.deques w) (s.worker w).owner) :
    potential s' + dueAt s w (s.worker w) = potential s + dueAt s w pc := by
  have hdue : ∑ v, due s' v + due s w = ∑ v, due s v + due s' w := by
    refine sum_change w fun v hv => ?_
    rw [due, dueAt_congr h.deques h.global h.stop, h.worker, Function.update_of_ne hv]
    rfl
  have hdue' : due s' w = dueAt s w pc := by
    rw [due, dueAt_congr h.deques h.global h.stop, h.worker, Function.update_self]
  have hobs {β : Type} (f : WorkStealingDeque τ → OwnerPc τ → β)
      (hf : f (s.deques w) pc.owner = f (s.deques w) (s.worker w).owner) (v : Fin n) :
      f (s'.deques v) (s'.worker v).owner = f (s.deques v) (s.worker v).owner := by
    rw [h.deques, h.worker]
    by_cases hv : v = w
    · subst hv; rw [Function.update_self]; exact hf
    · rw [Function.update_of_ne hv]
  have hqueued : queued s' = queued s := by
    have := hobs (fun d p => (contents d p).length) (congrArg List.length hc)
    simp only [queued, tasksAt, h.global, this]
  have hgrowth : ∀ v, growth s' v = growth s v := by
    intro v
    have := hobs (growthAt s.enqueued.length) (by rw [growthAt, growthAt, hr])
    rw [growth, h.enqueued, this v, growth]
  simp only [potential, hqueued, hgrowth, h.ext, h.dtor]
  rw [hdue'] at hdue
  have : due s w = dueAt s w (s.worker w) := rfl
  omega

theorem Walks.potential_lt {w : Fin n} (pc : WorkerPc n τ) (h : Walks s s' w pc)
    (hp : (s.worker w).settled = true ∧ pc.settled = true) (hlt : dueAt s w pc < dueAt s w (s.worker w)) :
    potential s' < potential s := by
  have := h.potential_eq (by rw [contents_of_settled hp.1, contents_of_settled hp.2])
    (by rw [room_of_settled hp.1, room_of_settled hp.2])
  omega

/-! ## The search -/

theorem held_of_searching {pc : WorkerPc n τ} (h : pc.searching = true) (d : WorkStealingDeque τ) :
    held d pc = none := by
  cases pc with
  | stealing spin start i q => cases q <;> first | rfl | cases h
  | _ => first | rfl | cases h

theorem rank_stealMiss (spin : Option Nat) : (stealMiss spin : WorkerPc n τ).rank ≤ missRank n spin := by
  cases spin with
  | none => exact le_refl _
  | some k =>
    simp only [stealMiss]
    split
    · next hk =>
      obtain ⟨j, hj⟩ : ∃ j, 31 - k = j + 1 := ⟨30 - k, by omega⟩
      have hj' : 31 - (k + 1) = j := by omega
      simp only [WorkerPc.rank, missRank, hj, hj', Nat.add_mul]
      omega
    · simp only [WorkerPc.rank, missRank]
      omega

theorem searched_stealMiss (h : Barren s) (w : Fin n) (spin : Option Nat) : Searched s w (stealMiss spin) := by
  unfold stealMiss
  split
  · exact h
  · split <;> exact h

/-- The loop of `steal_from_others` passes every deque. -/
theorem barren_of_passed {w : Fin n} {start i : Nat} (hg : s.global = []) (hi : n ≤ i)
    (h : ∀ k < i, Exhausted (s.deques (target w start k))) : Barren s := by
  refine ⟨hg, fun j => ?_⟩
  have hj : j ∈ (List.range n).map (target w start) := by
    rw [targets_eq_rotate, List.mem_rotate]
    exact List.mem_finRange j
  obtain ⟨k, hk, rfl⟩ := List.mem_map.1 hj
  exact h k ((List.mem_range.1 hk).trans_le hi)

theorem Safe.exhausted (hs : Safe s) {w : Fin n} (h : (s.worker w).drained = true) : Exhausted (s.deques w) :=
  (hs.drained w h).ge

theorem stealEnter_potential (hs : Safe s) {w : Fin n} {spin : Option Nat} (hg : s.global = [])
    (hpc : s.worker w = .popGlobal ∧ spin = none ∨ ∃ k, s.worker w = .spinPop k ∧ spin = some k) :
    potential (stealEnter s w spin) < potential s := by
  have hsearch : (s.worker w).searching = true := by
    rcases hpc with ⟨hw, -⟩ | ⟨k, hw, -⟩ <;> rw [hw] <;> rfl
  have hheld := held_of_searching hsearch (s.deques w)
  unfold stealEnter
  split
  · next hn =>
    refine Walks.potential_lt (stealMiss spin) ⟨rfl, rfl, rfl, rfl, rfl, rfl, rfl⟩
      ⟨settled_of_searching hsearch, settled_of_searching (searching_stealMiss spin)⟩ (dueAt_lt ?_ ?_ fun h => ?_)
    · have := rank_stealMiss (n := n) (τ := τ) spin
      rcases hpc with ⟨hw, rfl⟩ | ⟨k, hw, rfl⟩ <;> rw [hw] <;> simp only [WorkerPc.rank, missRank] at this ⊢ <;> omega
    · rw [hheld, held_of_searching (searching_stealMiss spin)]
    · refine searched_stealMiss ⟨hg, fun j => ?_⟩ w spin
      have hj : j = w := Fin.ext (by have := j.isLt; have := w.isLt; omega)
      exact hj ▸ hs.exhausted (drained_of_searching hsearch)
  · refine Walks.potential_lt (.stealing spin _ 0 none) ⟨rfl, rfl, rfl, rfl, rfl, rfl, rfl⟩
      ⟨settled_of_searching hsearch, rfl⟩ (dueAt_lt ?_ hheld.symm fun h => ?_)
    · rcases hpc with ⟨hw, rfl⟩ | ⟨k, hw, rfl⟩ <;> rw [hw] <;> simp only [WorkerPc.rank, missRank] <;> omega
    · rcases hpc with ⟨hw, rfl⟩ | ⟨k, hw, rfl⟩
      · exact ⟨hg, nofun, trivial⟩
      · rw [hw] at h; exact h

theorem stealLoop_potential (hs : Safe s) {w : Fin n} {spin : Option Nat} {start i : Nat}
    (hw : s.worker w = .stealing spin start i none) :
    potential (s.setWorker w (stealLoop w spin start i)) < potential s := by
  have hdrained : (s.worker w).drained = true := by rw [hw]; rfl
  refine Walks.potential_lt (stealLoop w spin start i) ⟨rfl, rfl, rfl, rfl, rfl, rfl, rfl⟩ ?_ ?_
  · rw [hw]
    refine ⟨rfl, ?_⟩
    unfold stealLoop
    split
    · split <;> rfl
    · exact settled_of_searching (searching_stealMiss spin)
  rw [hw]
  unfold stealLoop
  split
  · next hi =>
    split
    · next hown =>
      refine dueAt_lt ?_ rfl fun h => ?_
      · simp only [WorkerPc.rank]; omega
      · cases spin with
        | none =>
          obtain ⟨hg, hpassed, -⟩ := h
          refine ⟨hg, fun k hk => ?_, trivial⟩
          rcases Nat.lt_succ_iff_lt_or_eq.1 hk with hk | rfl
          · exact hpassed k hk
          · rw [hown]; exact hs.exhausted hdrained
        | some k => exact h
    · refine dueAt_lt ?_ rfl fun h => ?_
      · simp only [WorkerPc.rank, ThiefPc.rank]; omega
      · cases spin with
        | none => exact ⟨h.1, h.2.1, trivial⟩
        | some k => exact h
  · next hi =>
    refine dueAt_lt ?_ (held_of_searching (searching_stealMiss spin) _) fun h => ?_
    · refine (rank_stealMiss spin).trans_lt ?_
      simp only [WorkerPc.rank]
      omega
    · cases spin with
      | none => exact searched_stealMiss (barren_of_passed h.1 (not_lt.1 hi) h.2.1) w none
      | some k => exact searched_stealMiss h w (some k)

/-- A look finds nothing that the search did not. -/
theorem lookStep_of_searched {l : LookPc n} (hb : Barren s) (hl : Past s l) : lookStep s l ≠ .inr true := by
  have hfrom (j : Nat) : lookFrom n j ≠ .inr true := by
    unfold lookFrom
    split <;> simp
  cases l with
  | global => simp only [lookStep, hb.1, List.isEmpty_nil, if_true]; exact hfrom 0
  | bottom j => simp [lookStep]
  | top j b =>
    have hl : b ≤ (s.deques j).top := hl
    simp only [lookStep, hl, if_true]
    exact hfrom _

theorem past_lookStep {l l' : LookPc n} (hb : Barren s) (h : lookStep s l = .inl l') : Past s l' := by
  have hfrom {j : Nat} (hj : lookFrom n j = .inl l') : Past s l' := by
    unfold lookFrom at hj
    split at hj
    · cases hj; trivial
    · cases hj
  cases l with
  | global =>
    simp only [lookStep] at h
    split at h
    · exact hfrom h
    · cases h
  | bottom j => cases h; exact hb.2 j
  | top j b =>
    simp only [lookStep] at h
    split at h
    · exact hfrom h
    · cases h

/-! ## Accesses to a deque -/

/-- What the other workers may do stays, if the step is calm. -/
theorem Calm.due_le (c : Calm s s') {v : Fin n} (hw : s'.worker v = s.worker v)
    (hh : held (s'.deques v) (s.worker v) = held (s.deques v) (s.worker v)) : due s' v ≤ due s v := by
  unfold due dueAt
  rw [hw, hh]
  by_cases h : Searched s v (s.worker v)
  · rw [if_pos h, if_pos (c.searched h)]
  · rw [if_neg h]
    split <;> omega

/-- Otherwise each of them may have to come back. -/
theorem due_le_relap {v : Fin n} (hw : s'.worker v = s.worker v)
    (hh : held (s'.deques v) (s.worker v) = held (s.deques v) (s.worker v)) : due s' v ≤ due s v + relap n := by
  unfold due dueAt
  rw [hw, hh]
  split <;> split <;> omega

theorem sum_due_le {w : Fin n} (hw : ∀ v, v ≠ w → s'.worker v = s.worker v)
    (hh : ∀ v, v ≠ w → held (s'.deques v) (s.worker v) = held (s.deques v) (s.worker v)) :
    ∑ v, due s' v + due s w ≤ ∑ v, due s v + due s' w + n * relap n := by
  have := sum_change_le (f := due s') (g := due s) w fun v hv => due_le_relap (hw v hv) (hh v hv)
  rwa [Fintype.card_fin] at this

theorem Calm.sum_due_le (c : Calm s s') {w : Fin n} (hw : ∀ v, v ≠ w → s'.worker v = s.worker v)
    (hh : ∀ v, v ≠ w → held (s'.deques v) (s.worker v) = held (s.deques v) (s.worker v)) :
    ∑ v, due s' v + due s w ≤ ∑ v, due s v + due s' w :=
  sum_change_le (f := due s') (g := due s) (e := 0) w fun v hv => c.due_le (hw v hv) (hh v hv)

/-- An access of worker `w` to its own deque. -/
def Impl.access (s : Impl n m τ) (w : Fin n) (d : WorkStealingDeque τ) (pc : WorkerPc n τ) : Impl n m τ :=
  (s.setDeque w d).setWorker w pc

section access
variable (s : Impl n m τ) {w : Fin n} (d : WorkStealingDeque τ) (pc : WorkerPc n τ)

theorem access_worker_ne {v : Fin n} (hv : v ≠ w) :
    (s.access w d pc).worker v = s.worker v := Function.update_of_ne hv ..

theorem access_deques_ne {v : Fin n} (hv : v ≠ w) :
    (s.access w d pc).deques v = s.deques v := Function.update_of_ne hv ..

theorem access_worker_self : (s.access w d pc).worker w = pc := Function.update_self ..

theorem access_deques_self : (s.access w d pc).deques w = d := Function.update_self ..

theorem queued_access (w : Fin n) : queued (s.access w d pc) + (contents (s.deques w) (s.worker w).owner).length =
    queued s + (contents d pc.owner).length := by
  have hsum := sum_change
    (f := fun j => (contents ((s.access w d pc).deques j) ((s.access w d pc).worker j).owner).length)
    (g := fun j => (contents (s.deques j) (s.worker j).owner).length) w fun v hv => by
      rw [access_deques_ne s d pc hv, access_worker_ne s d pc hv]
  rw [access_deques_self s d pc, access_worker_self s d pc] at hsum
  have hg : (s.access w d pc).global = s.global := rfl
  simp only [queued, tasksAt, hg]
  omega

theorem growth_access (w : Fin n) :
    ∑ v, growth (s.access w d pc) v + growthAt s.enqueued.length (s.deques w) (s.worker w).owner =
    ∑ v, growth s v + growthAt s.enqueued.length d pc.owner := by
  have hsum := sum_change (f := growth (s.access w d pc)) (g := growth s) w fun v hv => by
    unfold growth
    rw [access_deques_ne s d pc hv, access_worker_ne s d pc hv]
    rfl
  have hw : growth (s.access w d pc) w = growthAt s.enqueued.length d pc.owner := by
    unfold growth
    rw [access_deques_self s d pc, access_worker_self s d pc]
    rfl
  rw [hw] at hsum
  exact hsum

/-- The potential after an access of worker `w` to its own deque; `stir` is zero if the
access is calm. -/
theorem potential_access (w : Fin n) {stir : Nat} (h : Calm s (s.access w d pc) ∧ stir = 0 ∨ stir = n * relap n) :
    potential (s.access w d pc) + due s w + taskWorth n * (contents (s.deques w) (s.worker w).owner).length +
        growthAt s.enqueued.length (s.deques w) (s.worker w).owner ≤
      potential s + due (s.access w d pc) w + taskWorth n * (contents d pc.owner).length +
        growthAt s.enqueued.length d pc.owner + stir := by
  have hw : ∀ v, v ≠ w → (s.access w d pc).worker v = s.worker v := fun v hv => access_worker_ne s d pc hv
  have hh : ∀ v, v ≠ w → held ((s.access w d pc).deques v) (s.worker v) = held (s.deques v) (s.worker v) :=
    fun v hv => by rw [access_deques_ne s d pc hv]
  have hdue : ∑ v, due (s.access w d pc) v + due s w ≤ ∑ v, due s v + due (s.access w d pc) w + stir := by
    rcases h with ⟨c, rfl⟩ | rfl
    · exact c.sum_due_le hw hh
    · exact Pool.sum_due_le hw hh
  have hqueued := congrArg (taskWorth n * ·) (queued_access s d pc w)
  have hgrowth := growth_access s d pc w
  have hext : (s.access w d pc).ext = s.ext := rfl
  have hdtor : (s.access w d pc).dtor = s.dtor := rfl
  simp only [Nat.mul_add] at hqueued
  simp only [potential, hext, hdtor]
  omega

end access

/-- An access of the owner is calm unless it publishes or takes a task. -/
theorem calm_access {w : Fin n} {p : OwnerPc τ} (pc : WorkerPc n τ) (hi : Inv (s.deques w) p)
    (hin : (ownerStep (s.deques w) p).2.input = p.input) (htop : (ownerStep (s.deques w) p).1.top = (s.deques w).top) :
    Calm s (s.access w (ownerStep (s.deques w) p).1 pc) where
  global h := h
  deque j h := by
    by_cases hj : j = w
    · subst hj; rw [access_deques_self]; exact h.ownerStep hi hin
    · rw [access_deques_ne _ _ _ hj]; exact h
  top j := by
    by_cases hj : j = w
    · subst hj; rw [access_deques_self]; exact htop
    · rw [access_deques_ne _ _ _ hj]
  stop := rfl

theorem pop_potential (hs : Safe s) {w : Fin n} {p : OwnerPc τ} (hw : s.worker w = .popping p) (hp : 0 < p.rank) :
    potential (s.access w (ownerStep (s.deques w) p).1 (.popping (ownerStep (s.deques w) p).2)) < potential s := by
  obtain ⟨hi, hpop⟩ := hs.popping hw
  have hdue : due s w = p.rank + 268 * n + 108 + (taken (s.deques w) p).toList.length * (lap n + 1) := by
    rw [due, hw, dueAt_of_searched w (.popping p) trivial]; rfl
  have hdue' : due (s.access w (ownerStep (s.deques w) p).1 (.popping (ownerStep (s.deques w) p).2)) w =
      (ownerStep (s.deques w) p).2.rank + 268 * n + 108 +
        (taken (ownerStep (s.deques w) p).1 (ownerStep (s.deques w) p).2).toList.length * (lap n + 1) := by
    rw [due, access_worker_self, dueAt_of_searched w (.popping _) trivial, access_deques_self]; rfl
  obtain ⟨hroom, hlt⟩ : room (ownerStep (s.deques w) p).1 (ownerStep (s.deques w) p).2 = room (s.deques w) p ∧
      (0 < p.rank → (ownerStep (s.deques w) p).2.rank < p.rank) := by
    refine (ownerStep_access hi).resolve_right ?_
    rintro ⟨-, -, -, -, hin, -⟩
    rw [input_of_isPop hpop] at hin
    cases hin
  have hlt := hlt hp
  have howner : (s.worker w).owner = p := by rw [hw]; rfl
  have hgrowth : growthAt s.enqueued.length (ownerStep (s.deques w) p).1 (ownerStep (s.deques w) p).2 =
      growthAt s.enqueued.length (s.deques w) p := by rw [growthAt, growthAt, hroom]
  have hok := ownerStep_ok hi
  cases hok.effect with
  | push y _ hy => rw [input_of_isPop hpop] at hy; cases hy
  | quiet hc hin ht =>
    have htop : (ownerStep (s.deques w) p).1.top = (s.deques w).top := by
      rcases top_ownerStep hi with htop | ⟨x, hx, -⟩
      · exact htop
      · rw [hc] at hx
        have := congrArg List.length hx
        simp at this
    have hpot := potential_access s _ _ w (.inl ⟨calm_access (.popping (ownerStep (s.deques w) p).2) hi hin htop, rfl⟩)
    rw [hdue, hdue', howner, ht] at hpot
    simp only [WorkerPc.owner, hc, hgrowth] at hpot
    omega
  | pop x hc _ _ ht ht' =>
    have hpot := potential_access s (ownerStep (s.deques w) p).1 (.popping (ownerStep (s.deques w) p).2) w (.inr rfl)
    rw [hdue, hdue', howner, ht, ht', hc] at hpot
    simp only [WorkerPc.owner, hgrowth, List.length_append, Nat.mul_add, Option.toList, List.length_singleton,
      List.length_nil] at hpot
    have hworth : taskWorth n = lap n + 1 + n * relap n := rfl
    omega

theorem push_potential (hs : Safe s) (hz : Sized s) {w : Fin n} {x : τ} {p : OwnerPc τ}
    (hw : s.worker w = .running x (some (.push p))) (hp : 0 < p.rank) :
    potential (s.access w (ownerStep (s.deques w) p).1 (.running x (some (.push (ownerStep (s.deques w) p).2)))) <
      potential s := by
  obtain ⟨hi, hpush⟩ := hs.pushing hw
  have howner : (s.worker w).owner = p := by rw [hw]; rfl
  have hfits := hz w
  rw [howner] at hfits
  have hdue : due s w = p.rank + 2 * n + 10 + p.input.toList.length * (taskWorth n + n * relap n) + (lap n + 1) := by
    rw [due, hw, dueAt_of_searched w (.running x (some (.push p))) trivial]
    simp [WorkerPc.rank, EnqPc.rank, held]
  have hdue' : due (s.access w (ownerStep (s.deques w) p).1
      (.running x (some (.push (ownerStep (s.deques w) p).2)))) w =
      (ownerStep (s.deques w) p).2.rank + 2 * n + 10 +
        (ownerStep (s.deques w) p).2.input.toList.length * (taskWorth n + n * relap n) + (lap n + 1) := by
    rw [due, access_worker_self, dueAt_of_searched w (.running x (some (.push _))) trivial]
    simp [WorkerPc.rank, EnqPc.rank, held]
  -- what the deque grows by pays for the copies
  have hrank := rank_ownerStep hi hp
  have hroom := hfits.room
  have hroom' := (hfits.ownerStep hi).room
  have hgrowth : ((ownerStep (s.deques w) p).2.rank : Int) + 1 +
      growthAt s.enqueued.length (ownerStep (s.deques w) p).1 (ownerStep (s.deques w) p).2 ≤
        p.rank + growthAt s.enqueued.length (s.deques w) p := by
    unfold growthAt
    omega
  have hok := ownerStep_ok hi
  cases hok.effect with
  | pop y _ _ _ _ ht => rw [taken_of_isPush (isPush_ownerStep hpush)] at ht; cases ht
  | quiet hc hin _ =>
    have htop : (ownerStep (s.deques w) p).1.top = (s.deques w).top := by
      rcases top_ownerStep hi with htop | ⟨y, hy, -⟩
      · exact htop
      · rw [hc] at hy
        have := congrArg List.length hy
        simp at this
    have hpot := potential_access s _ _ w
      (.inl ⟨calm_access (.running x (some (.push (ownerStep (s.deques w) p).2))) hi hin htop, rfl⟩)
    rw [hdue, hdue', howner, hin] at hpot
    simp only [WorkerPc.owner, hc] at hpot
    omega
  | push y hc hin hin' =>
    have hpot := potential_access s (ownerStep (s.deques w) p).1
      (.running x (some (.push (ownerStep (s.deques w) p).2))) w (.inr rfl)
    rw [hdue, hdue', howner, hin, hin'] at hpot
    simp only [WorkerPc.owner, hc, List.length_append, Nat.mul_add, Option.toList, List.length_singleton,
      List.length_nil]
      at hpot
    omega

/-! ## Steals -/

/-- An access of worker `w` to the deque `j` of another. -/
def Impl.probe (s : Impl n m τ) (w j : Fin n) (d : WorkStealingDeque τ) (pc : WorkerPc n τ) : Impl n m τ :=
  (s.setDeque j d).setWorker w pc

section probe
variable {w j : Fin n} {q q' : ThiefPc τ} {d : WorkStealingDeque τ} {pc : WorkerPc n τ}

theorem probe_deques_ne {v : Fin n} (hv : v ≠ j) :
    (s.probe w j d pc).deques v = s.deques v := Function.update_of_ne hv ..

theorem probe_deques_self : (s.probe w j d pc).deques j = d := Function.update_self ..

theorem probe_owner (hpc : pc.owner = (s.worker w).owner) (v : Fin n) :
    ((s.probe w j d pc).worker v).owner = (s.worker v).owner := observe_update WorkerPc.owner hpc v

/-- The potential after an access of worker `w` to the deque `j`. -/
theorem potential_probe (w : Fin n) (pc : WorkerPc n τ) (hok : ThiefStepOk (s.deques j) (s.worker j).owner q d q')
    (hroom : room d (s.worker j).owner = room (s.deques j) (s.worker j).owner) (hpc : pc.owner = (s.worker w).owner) :
    potential (s.probe w j d pc) + due s w + taskWorth n * (contents (s.deques j) (s.worker j).owner).length ≤
      potential s + due (s.probe w j d pc) w + taskWorth n * (contents d (s.worker j).owner).length + n * relap n := by
  have hw : ∀ v, v ≠ w → (s.probe w j d pc).worker v = s.worker v := fun v hv => Function.update_of_ne hv ..
  have hh : ∀ v, v ≠ w → held ((s.probe w j d pc).deques v) (s.worker v) = held (s.deques v) (s.worker v) := by
    intro v _
    by_cases hv : v = j
    · subst hv; rw [probe_deques_self]; exact held_congr hok.taken
    · rw [probe_deques_ne hv]
  have hdue := sum_due_le hw hh
  have hqueued : queued (s.probe w j d pc) + (contents (s.deques j) (s.worker j).owner).length =
      queued s + (contents d (s.worker j).owner).length := by
    have hsum := sum_change
      (f := fun v => (contents ((s.probe w j d pc).deques v) ((s.probe w j d pc).worker v).owner).length)
      (g := fun v => (contents (s.deques v) (s.worker v).owner).length) j fun v hv => by
        rw [probe_deques_ne hv, probe_owner hpc]
    rw [probe_deques_self, probe_owner hpc] at hsum
    have hg : (s.probe w j d pc).global = s.global := rfl
    simp only [queued, tasksAt, hg]
    omega
  have hgrowth : ∀ v, growth (s.probe w j d pc) v = growth s v := by
    intro v
    have he : (s.probe w j d pc).enqueued = s.enqueued := rfl
    rw [growth, growth, probe_owner hpc, he]
    by_cases hv : v = j
    · subst hv; rw [probe_deques_self, growthAt, growthAt, hroom]
    · rw [probe_deques_ne hv]
  have hqueued := congrArg (taskWorth n * ·) hqueued
  have hext : (s.probe w j d pc).ext = s.ext := rfl
  have hdtor : (s.probe w j d pc).dtor = s.dtor := rfl
  simp only [Nat.mul_add] at hqueued
  simp only [potential, hext, hdtor, hgrowth]
  omega

end probe

/-- A probe moves `top_` only when it takes a task. -/
theorem thiefStep_takes {d : WorkStealingDeque τ} {p : OwnerPc τ} {q : ThiefPc τ} (hi : Inv d p) (hq : ThiefOk d p q) :
    (thiefStep d q).1 = d ∨ ∃ t, q = .cas t (d.cur.load t) ∧ t = d.top ∧ (d.cur.load t).isSome = true ∧
      thiefStep d q = ({ d with top := t + 1 }, .done (d.cur.load t)) := by
  cases q with
  | loadBottom t => left; simp only [thiefStep]; split <;> rfl
  | cas t task =>
    by_cases ht : d.top = t
    · obtain ⟨-, hlive⟩ := hq
      obtain ⟨hlt, rfl⟩ := hlive ht.symm
      refine .inr ⟨t, rfl, ht.symm, hi.full t ht.le hlt, ?_⟩
      simp only [thiefStep, ht, if_true]
    · left; simp only [thiefStep, ht, if_false]
  | _ => exact .inl rfl

/-- A fresh steal stays fresh. It misses only a deque that looks empty. -/
theorem Fresh.thiefStep {d : WorkStealingDeque τ} {q : ThiefPc τ} (h : Fresh d (some q))
    (hd : (thiefStep d q).1 = d) : Fresh d (some (thiefStep d q).2) := by
  cases q with
  | loadTop => rfl
  | loadBottom t =>
    have h : t = d.top := h
    simp only [Deque.thiefStep]
    split
    · next hle => show d.bottom ≤ d.top; omega
    · exact h
  | cas t task =>
    have h : t = d.top := h
    simp only [Deque.thiefStep, h, if_true] at hd
    have := congrArg WorkStealingDeque.top hd
    simp only at this
    omega
  | done task => exact h
  | _ => exact h

section steal
variable {w j : Fin n} {spin : Option Nat} {start i : Nat} {q q' : ThiefPc τ}

/-- An access of a thief that takes nothing. -/
theorem steal_potential_walk (hs : Safe s) (hw : s.worker w = .stealing spin start i (some q)) (hq : 0 < q.rank)
    (hj : target w start i = j) (hd : thiefStep (s.deques j) q = (s.deques j, q')) :
    potential (s.setWorker w (.stealing spin start i (some q'))) < potential s := by
  obtain ⟨-, hthief⟩ := hs.stealing hw
  rw [hj] at hthief
  have hrank : q'.rank < q.rank := by
    have := rank_thiefStep (d := s.deques j) hq
    rwa [hd] at this
  have hok : ThiefStepOk (s.deques j) (s.worker j).owner q (s.deques j) q' := by
    have := thiefStep_ok (hs.inv j) hthief
    rwa [hd] at this
  have htaken : q'.taken = q.taken := by
    cases hok.effect with
    | quiet _ htk => exact htk
    | steal x hx =>
      have := congrArg List.length hx
      simp at this
  refine Walks.potential_lt (.stealing spin start i (some q')) ⟨rfl, rfl, rfl, rfl, rfl, rfl, rfl⟩
    ⟨by rw [hw]; rfl, rfl⟩ ?_
  rw [hw]
  refine dueAt_lt ?_ htaken fun h => ?_
  · simp only [WorkerPc.rank]; omega
  · cases spin with
    | none =>
      obtain ⟨hg, hpassed, hfresh⟩ := h
      rw [hj] at hfresh
      refine ⟨hg, hpassed, ?_⟩
      have := hfresh.thiefStep (by rw [hd])
      rwa [hj, ← show (thiefStep (s.deques j) q).2 = q' by rw [hd]]
    | some k => exact h

/-- A thief that wins its race. -/
theorem steal_potential_won (hs : Safe s) {t : Int} {d : WorkStealingDeque τ} {x : τ}
    (hw : s.worker w = .stealing spin start i (some (.cas t (some x)))) (hj : target w start i = j)
    (hd : thiefStep (s.deques j) (.cas t (some x)) = (d, .done (some x))) :
    potential (s.probe w j d (.stealing spin start i (some (.done (some x))))) < potential s := by
  obtain ⟨-, hthief⟩ := hs.stealing hw
  rw [hj] at hthief
  have hroom : room d (s.worker j).owner = room (s.deques j) (s.worker j).owner := by
    have := room_thiefStep (s.deques j) (s.worker j).owner (.cas t (some x))
    rwa [hd] at this
  have hok : ThiefStepOk (s.deques j) (s.worker j).owner (.cas t (some x)) d (.done (some x)) := by
    have := thiefStep_ok (hs.inv j) hthief
    rwa [hd] at this
  have hpot := potential_probe w (.stealing spin start i (some (.done (some x)))) hok hroom (by rw [hw]; rfl)
  have hexhausted : ∀ v, Exhausted (s.deques v) →
      Exhausted ((s.probe w j d (.stealing spin start i (some (.done (some x))))).deques v) := by
    intro v hv
    by_cases hvj : v = j
    · subst hvj
      rw [probe_deques_self, Exhausted, hok.bottom]
      exact le_trans hv hok.top
    · rw [probe_deques_ne hvj]; exact hv
  have hdue : due (s.probe w j d (.stealing spin start i (some (.done (some x))))) w + 1 ≤ due s w + (lap n + 1) := by
    have hself : (s.probe w j d (.stealing spin start i (some (.done (some x))))).worker w =
        .stealing spin start i (some (.done (some x))) := Function.update_self ..
    rw [due, due, hself, hw]
    refine dueAt_take ?_ rfl rfl fun h => ?_
    · simp only [WorkerPc.rank, ThiefPc.rank]; omega
    · cases spin with
      | none => exact ⟨h.1, fun k hk => hexhausted _ (h.2.1 k hk), trivial⟩
      | some k => exact ⟨h.1, fun v => hexhausted v (h.2 v)⟩
  cases hok.effect with
  | quiet _ htk => cases htk
  | steal y hc =>
    rw [hc, List.length_cons, Nat.mul_add] at hpot
    have hworth : taskWorth n = lap n + 1 + n * relap n := rfl
    omega

theorem steal_potential (hs : Safe s) (hw : s.worker w = .stealing spin start i (some q)) (hq : 0 < q.rank) :
    potential (s.probe w (target w start i) (thiefStep (s.deques (target w start i)) q).1
      (.stealing spin start i (some (thiefStep (s.deques (target w start i)) q).2))) < potential s := by
  obtain ⟨-, hthief⟩ := hs.stealing hw
  rcases thiefStep_takes (hs.inv _) hthief with hd | ⟨t, rfl, -, hsome, hstep⟩
  · have hwalk := steal_potential_walk hs hw hq rfl (Prod.ext hd rfl)
    rw [hd]
    simp only [Impl.probe, Impl.setDeque, Function.update_eq_self]
    exact hwalk
  · obtain ⟨x, hx⟩ := Option.isSome_iff_exists.1 hsome
    rw [hx] at hw hstep ⊢
    rw [hstep]
    exact steal_potential_won hs hw rfl hstep

end steal

end AsyncRuntime.Pool
