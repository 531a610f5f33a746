import AsyncRuntime.Pool.Potential
import AsyncRuntime.Pool.Quiescence
/-!
# The pool does not spin

Each request makes the workers take a bounded number of steps, counting everything: the
searches that find nothing, the spins before a worker sleeps, the lost races for a task,
the copies of growing deques and the wake-ups. The bound is quadratic in the number of
workers and does not depend on anything else.
-/

namespace AsyncRuntime.Pool
open Lib Deque
variable {n m : Nat} {τ : Type} {s s' : Impl n m τ}

/-! ## The global queue, the external threads and the destructor -/

/-- The potential after a change of the global queue. -/
theorem potential_global (s : Impl n m τ) (g : List τ) (hg : s.global ≠ []) :
    potential { s with global := g } + taskWorth n * s.global.length ≤ potential s + taskWorth n * g.length := by
  have c : Calm s { s with global := g } := ⟨fun h => absurd h hg, fun _ h => h, fun _ => rfl, rfl⟩
  have hdue : ∑ v, due { s with global := g } v ≤ ∑ v, due s v := Finset.sum_le_sum fun v _ => c.due_le rfl rfl
  have hqueued : queued { s with global := g } + s.global.length = queued s + g.length := by
    simp only [queued, tasksAt]
    omega
  have hqueued := congrArg (taskWorth n * ·) hqueued
  have hgrowth : ∀ v, growth { s with global := g } v = growth s v := fun _ => rfl
  simp only [Nat.mul_add] at hqueued
  simp only [potential, hgrowth]
  omega

/-- A task is published in the global queue. -/
theorem potential_publish (s : Impl n m τ) (x : τ) :
    potential { s with global := s.global ++ [x] } ≤ potential s + (taskWorth n + n * relap n) := by
  have hdue : ∑ v, due { s with global := s.global ++ [x] } v ≤ ∑ v, due s v + n * relap n := by
    have := sum_le_add (f := due { s with global := s.global ++ [x] }) (g := due s) (e := relap n)
      fun v => due_le_relap rfl rfl
    rwa [Fintype.card_fin] at this
  have hqueued : queued { s with global := s.global ++ [x] } = queued s + 1 := by
    simp only [queued, tasksAt, List.length_append, List.length_singleton]
    omega
  have hgrowth : ∀ v, growth { s with global := s.global ++ [x] } v = growth s v := fun _ => rfl
  simp only [potential, hgrowth, hqueued, Nat.mul_add]
  omega

/-- An external thread moves. -/
theorem potential_ext (s s' : Impl n m τ) (i : Fin m) (pc : ExtPc n τ) (hd : s'.deques = s.deques)
    (hg : s'.global = s.global)
    (hs : s'.stop = s.stop) (he : s'.enqueued = s.enqueued) (hw : s'.worker = s.worker) (hdtor : s'.dtor = s.dtor)
    (hx : s'.ext = Function.update s.ext i pc) : potential s' + (s.ext i).rank = potential s + pc.rank := by
  have hdue : ∀ v, due s' v = due s v := fun v => by rw [due, dueAt_congr hd hg hs, hw, due]
  have hgrowth : ∀ v, growth s' v = growth s v := fun v => by rw [growth, growth, he, hd, hw]
  have hqueued : queued s' = queued s := by simp only [queued, tasksAt, hg, hd, hw]
  have hext := sum_change (f := fun j => (s'.ext j).rank) (g := fun j => (s.ext j).rank) i fun j hj => by
    rw [hx, Function.update_of_ne hj]
  have hself : (s'.ext i).rank = pc.rank := by rw [hx, Function.update_self]
  rw [hself] at hext
  simp only [potential, hdue, hgrowth, hqueued, hdtor]
  omega

/-- The destructor moves. -/
theorem potential_dtor (hd : s'.deques = s.deques) (hg : s'.global = s.global) (hs : s'.stop = s.stop)
    (he : s'.enqueued = s.enqueued) (hw : s'.worker = s.worker) (hx : s'.ext = s.ext) :
    potential s' + s.dtor.rank n = potential s + s'.dtor.rank n := by
  have hdue : ∀ v, due s' v = due s v := fun v => by rw [due, dueAt_congr hd hg hs, hw, due]
  have hgrowth : ∀ v, growth s' v = growth s v := fun v => by rw [growth, growth, he, hd, hw]
  have hqueued : queued s' = queued s := by simp only [queued, tasksAt, hg, hd, hw]
  simp only [potential, hdue, hgrowth, hqueued, hx]
  omega

/-- A task is allocated. -/
theorem potential_enqueued (s : Impl n m τ) (e : Thread n m × τ) :
    potential { s with enqueued := s.enqueued ++ [e] } ≤ potential s + 4 * n := by
  have hdue : ∀ v, due { s with enqueued := s.enqueued ++ [e] } v = due s v := fun v => dueAt_congr rfl rfl rfl v _
  have hqueued : queued { s with enqueued := s.enqueued ++ [e] } = queued s := rfl
  have hgrowth : ∑ v, growth { s with enqueued := s.enqueued ++ [e] } v ≤ ∑ v, growth s v + n * 4 := by
    have := sum_le_add (f := growth { s with enqueued := s.enqueued ++ [e] }) (g := growth s) (e := 4) fun v => by
      simp only [growth, growthAt, List.length_append, List.length_singleton]
      omega
    rwa [Fintype.card_fin] at this
  simp only [potential, hdue, hqueued]
  omega

/-! ## A step of a worker -/

theorem take_potential {w : Fin n} {x : τ} {g : List τ} (hpc : (s.worker w).popsGlobal = true)
    (hg : s.global = x :: g) : potential ({ s with global := g }.start w x) < potential s := by
  have hsearch := searching_of_popsGlobal hpc
  have hglobal := potential_global s g (by rw [hg]; nofun)
  rw [hg, List.length_cons, Nat.mul_add] at hglobal
  have hwalk : Walks { s with global := g } ({ s with global := g }.start w x) w (.running x none) :=
    ⟨rfl, rfl, rfl, rfl, rfl, rfl, rfl⟩
  have hpot := hwalk.potential_eq (by rw [contents_of_settled (settled_of_searching hsearch)]; rfl)
    (by rw [room_of_settled (settled_of_searching hsearch)]; rfl)
  have hrun : dueAt { s with global := g } w (.running x none) = lap n + 1 := by
    rw [dueAt_of_searched w (.running x none) trivial]
    simp [WorkerPc.rank, held]
  have hpos : 0 < (s.worker w).rank := by
    cases hw : s.worker w with
    | popGlobal | spinPop => simp [WorkerPc.rank]
    | _ => rw [hw] at hpc; cases hpc
  have hle : (s.worker w).rank ≤ dueAt { s with global := g } w (s.worker w) := by
    unfold dueAt
    omega
  have hworth : taskWorth n = lap n + 1 + n * relap n := rfl
  have hworker : ({ s with global := g } : Impl n m τ).worker w = s.worker w := rfl
  rw [hrun, hworker] at hpot
  omega

theorem start_potential {w : Fin n} {x : τ} (hgot : (s.worker w).got = some x) (hrank : 0 < (s.worker w).rank) :
    potential (s.start w x) < potential s := by
  refine Walks.potential_lt (.running x none) ⟨rfl, rfl, rfl, rfl, rfl, rfl, rfl⟩ ⟨settled_of_got hgot, rfl⟩
    (dueAt_lt hrank ?_ fun _ => trivial)
  exact (held_of_got hgot (s.deques w)).2.symm

/-- A worker that holds no task walks on. -/
theorem walk_potential {w : Fin n} {pc : WorkerPc n τ} (pc' : WorkerPc n τ) (hw : s.worker w = pc)
    (h : Walks s s' w pc') (hp : pc.settled = true ∧ pc'.settled = true) (hr : pc'.rank < pc.rank)
    (hh : held (s.deques w) pc' = held (s.deques w) pc) (hs : Searched s w pc → Searched s w pc') :
    potential s' < potential s := by
  subst hw
  exact h.potential_lt pc' hp (dueAt_lt hr hh hs)

/-- A worker that missed something goes back to its deque. -/
theorem back_potential {w : Fin n} {pc : WorkerPc n τ} (pc' : WorkerPc n τ) (hw : s.worker w = pc)
    (h : Walks s s' w pc') (hp : pc.settled = true ∧ pc'.settled = true) (hr : pc'.rank < pc.rank + relap n)
    (hh : held (s.deques w) pc' = held (s.deques w) pc) (hs : ¬Searched s w pc) (hs' : Searched s w pc') :
    potential s' < potential s := by
  subst hw
  exact h.potential_lt pc' hp (dueAt_lt_of_missed hs hs' hr hh)

theorem look_potential {w : Fin n} {site : Site} {l : LookPc n} (hw : s.worker w = .look site l)
    (h : workerStep s w = some s') : potential s' < potential s := by
  have hpos := l.rank_pos
  simp only [workerStep, hw] at h
  cases hl : lookStep s l with
  | inl l' =>
    simp only [hl] at h
    cases h
    have hlt := LookPc.rank_lookStep hl
    refine walk_potential (.look site l') hw ⟨rfl, rfl, rfl, rfl, rfl, rfl, rfl⟩ ⟨rfl, rfl⟩ ?_ rfl
      fun h => ⟨h.1, h.2.1, past_lookStep h.1 hl⟩
    cases site <;> simp only [WorkerPc.rank] <;> omega
  | inr found =>
    cases found with
    | true =>
      have hmissed : ¬Searched s w (.look site l) := fun h => lookStep_of_searched h.1 h.2.2 hl
      cases site with
      | first =>
        simp only [hl] at h
        cases h
        refine back_potential (.unlock false) hw ⟨rfl, rfl, rfl, rfl, rfl, rfl, rfl⟩ ⟨rfl, rfl⟩ ?_ rfl hmissed trivial
        simp only [WorkerPc.rank, relap]; omega
      | pred =>
        simp only [hl] at h
        cases h
        refine back_potential .decSleeping hw ⟨rfl, rfl, rfl, rfl, rfl, rfl, rfl⟩ ⟨rfl, rfl⟩ ?_ rfl hmissed trivial
        simp only [WorkerPc.rank, relap]; omega
    | false =>
      cases site with
      | first =>
        simp only [hl] at h
        cases h
        refine walk_potential .incSleeping hw ⟨rfl, rfl, rfl, rfl, rfl, rfl, rfl⟩ ⟨rfl, rfl⟩ ?_ rfl
          fun h => ⟨h.1, h.2.1⟩
        simp only [WorkerPc.rank]; omega
      | pred =>
        simp only [hl] at h
        cases h
        refine walk_potential .wait hw ⟨rfl, rfl, rfl, rfl, rfl, rfl, rfl⟩ ⟨rfl, rfl⟩ ?_ rfl
          fun h => ⟨h.1, h.2.1⟩
        simp only [WorkerPc.rank]; omega

theorem enqStep_potential (hs : Safe s) (hz : Sized s) {w : Fin n} {x : τ} {e : EnqPc τ} {e' : Option (EnqPc τ)}
    {t : Impl n m τ} (hw : s.worker w = .running x (some e)) (h : enqStep s (.worker w) e = some (t, e')) :
    potential (t.setWorker w (.running x e')) < potential s := by
  have hq : localQueue s (.worker w) = some w := by simp only [localQueue, hw]
  cases e with
  | push p =>
    simp only [enqStep, hq] at h
    split at h
    · cases h
    · cases h
      refine walk_potential (.running x (some .loadSleeping)) hw ⟨rfl, rfl, rfl, rfl, rfl, rfl, rfl⟩
        ⟨rfl, rfl⟩ ?_ rfl id
      simp only [WorkerPc.rank, EnqPc.rank]
      omega
    · next hj hdone =>
      cases h; cases hj
      exact push_potential hs hz hw (rank_pos_of_isPush (hs.pushing hw).2 hdone)
  | pushGlobal y => exact absurd hw (hs.not_pushGlobal w x y)
  | loadSleeping =>
    cases h
    split
    · refine walk_potential (.running x (some .lock)) hw ⟨rfl, rfl, rfl, rfl, rfl, rfl, rfl⟩ ⟨rfl, rfl⟩ ?_ rfl id
      simp [WorkerPc.rank, EnqPc.rank]
    · refine walk_potential (.running x none) hw ⟨rfl, rfl, rfl, rfl, rfl, rfl, rfl⟩ ⟨rfl, rfl⟩ ?_ rfl id
      simp [WorkerPc.rank, EnqPc.rank]
  | lock =>
    simp only [enqStep] at h
    split at h
    · cases h
      refine walk_potential (.running x (some .notify)) hw ⟨rfl, rfl, rfl, rfl, rfl, rfl, rfl⟩ ⟨rfl, rfl⟩ ?_ rfl id
      simp [WorkerPc.rank, EnqPc.rank]
    · cases h
  | notify => cases h
  | unlock =>
    cases h
    refine walk_potential (.running x none) hw ⟨rfl, rfl, rfl, rfl, rfl, rfl, rfl⟩ ⟨rfl, rfl⟩ ?_ rfl id
    simp [WorkerPc.rank, EnqPc.rank]

theorem workerStep_potential (hs : Safe s) (hz : Sized s) {w : Fin n} (h : workerStep s w = some s') :
    potential s' < potential s := by
  cases hw : s.worker w with
  | boot =>
    simp only [workerStep, hw] at h
    cases h
    refine walk_potential (.popping .popLoadBottom) hw ⟨rfl, rfl, rfl, rfl, rfl, rfl, rfl⟩ ⟨rfl, rfl⟩ ?_ rfl id
    simp only [WorkerPc.rank, OwnerPc.rank, lap]; omega
  | popping p =>
    simp only [workerStep, hw] at h
    split at h
    · cases h
      refine walk_potential .popGlobal hw ⟨rfl, rfl, rfl, rfl, rfl, rfl, rfl⟩ ⟨rfl, rfl⟩ ?_ rfl id
      simp only [WorkerPc.rank]; omega
    · cases h
      exact start_potential (by rw [hw]; rfl) (by rw [hw]; simp [WorkerPc.rank])
    · next hnone hsome =>
      cases h
      refine pop_potential hs hw (rank_pos_of_isPop (hs.popping hw).2 fun task => ?_)
      cases task with
      | none => exact hnone
      | some x => exact hsome x
  | popGlobal =>
    simp only [workerStep, hw] at h
    split at h
    · next hg => cases h; exact stealEnter_potential hs hg (.inl ⟨hw, rfl⟩)
    · next x g hg => cases h; exact take_potential (by rw [hw]; rfl) hg
  | stealing spin start i q =>
    simp only [workerStep, hw] at h
    split at h
    · cases h; exact stealLoop_potential hs hw
    · cases h
      refine walk_potential (.stealing spin start (i + 1) none) hw ⟨rfl, rfl, rfl, rfl, rfl, rfl, rfl⟩ ⟨rfl, rfl⟩ ?_ rfl
        fun hsearched => ?_
      · simp only [WorkerPc.rank]; omega
      · cases spin with
        | none =>
          obtain ⟨hg, hpassed, hmiss⟩ := hsearched
          refine ⟨hg, fun k hk => ?_, trivial⟩
          rcases Nat.lt_succ_iff_lt_or_eq.1 hk with hk | rfl
          · exact hpassed k hk
          · exact hmiss
        | some k => exact hsearched
    · cases h
      exact start_potential (by rw [hw]; rfl) (by rw [hw]; simp [WorkerPc.rank])
    · next hnone hsome =>
      cases h
      refine steal_potential hs hw (ThiefPc.rank_pos fun task => ?_)
      cases task with
      | none => rintro rfl; exact hnone rfl
      | some x => rintro rfl; exact hsome x rfl
  | running x e =>
    cases e with
    | none => simp only [workerStep, hw] at h; cases h
    | some e =>
      simp only [workerStep, hw, Option.map_eq_some_iff] at h
      obtain ⟨⟨t, e'⟩, he, rfl⟩ := h
      exact enqStep_potential hs hz hw he
  | loadStop =>
    simp only [workerStep, hw] at h
    cases h
    split
    · exact walk_potential .exited hw ⟨rfl, rfl, rfl, rfl, rfl, rfl, rfl⟩ ⟨rfl, rfl⟩ (by simp [WorkerPc.rank]) rfl
        fun _ => trivial
    · refine walk_potential (.spinPop 0) hw ⟨rfl, rfl, rfl, rfl, rfl, rfl, rfl⟩ ⟨rfl, rfl⟩ ?_ rfl id
      simp only [WorkerPc.rank, missRank]; omega
  | spinPop k =>
    simp only [workerStep, hw] at h
    split at h
    · next hg => cases h; exact stealEnter_potential hs hg (.inr ⟨k, hw, rfl⟩)
    · next x g hg => cases h; exact take_potential (by rw [hw]; rfl) hg
  | lock =>
    simp only [workerStep, hw] at h
    split at h
    · cases h
      refine walk_potential .lockedStop hw ⟨rfl, rfl, rfl, rfl, rfl, rfl, rfl⟩ ⟨rfl, rfl⟩ ?_ rfl id
      simp only [WorkerPc.rank]; omega
    · cases h
  | lockedStop =>
    simp only [workerStep, hw] at h
    cases h
    split
    · refine walk_potential (.unlock true) hw ⟨rfl, rfl, rfl, rfl, rfl, rfl, rfl⟩ ⟨rfl, rfl⟩ ?_ rfl fun _ => trivial
      simp only [WorkerPc.rank]; omega
    · next hstop =>
      refine walk_potential (.look .first .global) hw ⟨rfl, rfl, rfl, rfl, rfl, rfl, rfl⟩ ⟨rfl, rfl⟩ ?_ rfl
        fun hb => ⟨hb, by simpa using hstop, trivial⟩
      simp only [WorkerPc.rank, LookPc.rank]; omega
  | look site l => exact look_potential hw h
  | incSleeping =>
    simp only [workerStep, hw] at h
    cases h
    refine walk_potential .predStop hw ⟨rfl, rfl, rfl, rfl, rfl, rfl, rfl⟩ ⟨rfl, rfl⟩ ?_ rfl id
    simp only [WorkerPc.rank]; omega
  | predStop =>
    simp only [workerStep, hw] at h
    cases h
    split
    · next hstop =>
      refine back_potential .decSleeping hw ⟨rfl, rfl, rfl, rfl, rfl, rfl, rfl⟩ ⟨rfl, rfl⟩ ?_ rfl
        (fun hsearched => ?_) trivial
      · simp only [WorkerPc.rank, relap]; omega
      · rw [hsearched.2] at hstop; cases hstop
    · refine walk_potential (.look .pred .global) hw ⟨rfl, rfl, rfl, rfl, rfl, rfl, rfl⟩ ⟨rfl, rfl⟩ ?_ rfl
        fun h => ⟨h.1, h.2, trivial⟩
      simp only [WorkerPc.rank, LookPc.rank]; omega
  | wait =>
    simp only [workerStep, hw] at h
    cases h
    exact walk_potential .blocked hw ⟨rfl, rfl, rfl, rfl, rfl, rfl, rfl⟩ ⟨rfl, rfl⟩ Nat.zero_lt_one rfl id
  | blocked => simp only [workerStep, hw] at h; cases h
  | notified =>
    simp only [workerStep, hw] at h
    split at h
    · cases h
      refine walk_potential .predStop hw ⟨rfl, rfl, rfl, rfl, rfl, rfl, rfl⟩ ⟨rfl, rfl⟩ ?_ rfl id
      simp only [WorkerPc.rank]; omega
    · cases h
  | decSleeping =>
    simp only [workerStep, hw] at h
    cases h
    refine walk_potential (.unlock false) hw ⟨rfl, rfl, rfl, rfl, rfl, rfl, rfl⟩ ⟨rfl, rfl⟩ ?_ rfl id
    simp only [WorkerPc.rank]; omega
  | unlock leave =>
    simp only [workerStep, hw] at h
    cases h
    cases leave with
    | true => exact walk_potential .exited hw ⟨rfl, rfl, rfl, rfl, rfl, rfl, rfl⟩ ⟨rfl, rfl⟩ Nat.zero_lt_one rfl id
    | false =>
      refine walk_potential (.popping .popLoadBottom) hw ⟨rfl, rfl, rfl, rfl, rfl, rfl, rfl⟩ ⟨rfl, rfl⟩ ?_ rfl id
      simp only [WorkerPc.rank, OwnerPc.rank, lap]; omega
  | exited => simp only [workerStep, hw] at h; cases h

/-! ## A step of the pool -/

/-- The steps of the workers and of the destructor, the wake-ups and the returns of tasks. -/
def Act.ofPool : Act n m τ → Bool
  | .step (.worker _) | .step .dtor | .notify _ _ | .finish _ => true
  | _ => false

/-- What makes the pool work: calls of `enqueue`, and wake-ups without a cause. -/
def Act.requests : Act n m τ → Bool
  | .enqueue _ _ | .spurious _ => true
  | _ => false

/-- The steps that a request may cause. -/
def perRequest (n : Nat) : Nat := taskWorth n + n * relap n + 6 * n + 16

theorem ExtMove.rank_le {pc pc' : ExtPc n τ} (h : ExtMove s pc pc') : pc'.rank ≤ pc.rank := by
  cases h <;> simp [ExtPc.rank, EnqPc.rank]

theorem DtorMove.rank_lt {pc pc' : DtorPc} (h : DtorMove s pc pc') : pc'.rank n < pc.rank n := by
  cases h <;> simp only [DtorPc.rank] <;> omega

theorem dueAt_notified (v : Fin n) : dueAt s v .notified = dueAt s v .blocked + (2 * n + 5) := by
  unfold dueAt
  by_cases h : Searched s v .blocked
  · rw [if_pos h, if_pos (show Searched s v .notified from h)]
    simp [WorkerPc.rank, held]
  · rw [if_neg h, if_neg (show ¬Searched s v .notified from h)]
    simp [WorkerPc.rank, held]
    omega

/-- A blocked worker is woken. -/
theorem wake_potential {v : Fin n} (hv : s.worker v = .blocked) :
    potential (s.setWorker v .notified) = potential s + (2 * n + 5) := by
  have hwalk : Walks s (s.setWorker v .notified) v .notified := ⟨rfl, rfl, rfl, rfl, rfl, rfl, rfl⟩
  have hpot := hwalk.potential_eq (by rw [hv]; rfl) (by rw [hv]; rfl)
  rw [hv, dueAt_notified] at hpot
  omega

theorem spawn_potential {w : Fin n} {y x : τ} (hw : s.worker w = .running y none) :
    potential { s.setWorker w (.running y (some (.push (.pushLoadBottom x)))) with
      enqueued := s.enqueued ++ [(.worker w, x)] } ≤ potential s + perRequest n := by
  have hnew := potential_enqueued s (.worker w, x)
  have hwalk : Walks { s with enqueued := s.enqueued ++ [(.worker w, x)] }
      { s.setWorker w (.running y (some (.push (.pushLoadBottom x)))) with
        enqueued := s.enqueued ++ [(.worker w, x)] } w
      (.running y (some (.push (.pushLoadBottom x)))) := ⟨rfl, rfl, rfl, rfl, rfl, rfl, rfl⟩
  have hpot := hwalk.potential_eq (by rw [hw]; rfl) (by rw [hw]; rfl)
  have hbefore : dueAt { s with enqueued := s.enqueued ++ [(.worker w, x)] } w (.running y none) = lap n + 1 := by
    rw [dueAt_of_searched w (.running y none) trivial]
    simp [WorkerPc.rank, held]
  have hafter : dueAt { s with enqueued := s.enqueued ++ [(.worker w, x)] } w
      (.running y (some (.push (.pushLoadBottom x)))) = 6 + 2 * n + 10 + (taskWorth n + n * relap n) + (lap n + 1) := by
    rw [dueAt_of_searched w (.running y (some (.push (.pushLoadBottom x)))) trivial]
    simp [WorkerPc.rank, EnqPc.rank, OwnerPc.rank, OwnerPc.input, held]
  have hworker : ({ s with enqueued := s.enqueued ++ [(.worker w, x)] } : Impl n m τ).worker w = .running y none := hw
  rw [hworker, hbefore, hafter] at hpot
  unfold perRequest
  omega

theorem call_potential {i : Fin m} {x : τ} (hi : s.ext i = .idle) :
    potential { s.setExt i (.enqueue (.pushGlobal x)) with enqueued := s.enqueued ++ [(.ext i, x)] } ≤
      potential s + perRequest n := by
  have hnew := potential_enqueued s (.ext i, x)
  have hpot := potential_ext { s with enqueued := s.enqueued ++ [(.ext i, x)] }
    { s.setExt i (.enqueue (.pushGlobal x)) with enqueued := s.enqueued ++ [(.ext i, x)] } i (.enqueue (.pushGlobal x))
    rfl rfl rfl rfl rfl rfl rfl
  have hidle : (({ s with enqueued := s.enqueued ++ [(.ext i, x)] } : Impl n m τ).ext i).rank = 0 := by
    show (s.ext i).rank = 0
    rw [hi]; rfl
  have hcall : (.enqueue (.pushGlobal x) : ExtPc n τ).rank = 2 * n + 10 + (taskWorth n + n * relap n) := rfl
  rw [hidle, hcall] at hpot
  unfold perRequest
  omega

theorem publish_potential {i : Fin m} {x : τ} (hi : s.ext i = .enqueue (.pushGlobal x)) :
    potential ({ s with global := s.global ++ [x] }.setExt i (.enqueue .loadSleeping)) ≤ potential s := by
  have hnew := potential_publish s x
  have hpot := potential_ext { s with global := s.global ++ [x] }
    ({ s with global := s.global ++ [x] }.setExt i (.enqueue .loadSleeping)) i _ rfl rfl rfl rfl rfl rfl rfl
  have hbefore : (({ s with global := s.global ++ [x] } : Impl n m τ).ext i).rank =
      2 * n + 10 + (taskWorth n + n * relap n) := by
    show (s.ext i).rank = _
    rw [hi]; rfl
  have hafter : (.enqueue .loadSleeping : ExtPc n τ).rank = 2 * n + 9 := rfl
  rw [hbefore, hafter] at hpot
  omega

theorem storeStop_potential (hd : s.dtor = .storeStop) :
    potential { s with stop := true, dtor := .lock } < potential s := by
  have hdue : ∑ v, due { s with stop := true, dtor := .lock } v ≤ ∑ v, due s v + n * relap n := by
    have := sum_le_add (f := due { s with stop := true, dtor := .lock }) (g := due s) (e := relap n)
      fun v => due_le_relap rfl rfl
    rwa [Fintype.card_fin] at this
  have hqueued : queued { s with stop := true, dtor := .lock } = queued s := rfl
  have hgrowth : ∀ v, growth { s with stop := true, dtor := .lock } v = growth s v := fun _ => rfl
  simp only [potential, hqueued, hgrowth, hd, DtorPc.rank]
  omega

theorem notifyAll_potential (hd : s.dtor = .notifyAll) :
    potential { notifyAll s with dtor := .unlock } < potential s := by
  generalize hs' : ({ notifyAll s with dtor := .unlock } : Impl n m τ) = s'
  have hworker : s'.worker = (notifyAll s).worker := by rw [← hs']
  have hdeques : s'.deques = s.deques := by rw [← hs']; rfl
  have hglobal : s'.global = s.global := by rw [← hs']; rfl
  have hstop : s'.stop = s.stop := by rw [← hs']; rfl
  have henq : s'.enqueued = s.enqueued := by rw [← hs']; rfl
  have hext : s'.ext = s.ext := by rw [← hs']; rfl
  have hdtor : s'.dtor = .unlock := by rw [← hs']
  have hdue : ∑ v, due s' v ≤ ∑ v, due s v + n * (2 * n + 5) := by
    have := sum_le_add (f := due s') (g := due s) (e := 2 * n + 5) fun v => by
      rw [due, due, dueAt_congr hdeques hglobal hstop, hworker]
      rcases notifyAll_worker s v with hv | ⟨hv, hv'⟩
      · rw [hv]; exact Nat.le_add_right ..
      · rw [hv, hv', dueAt_notified]
    rwa [Fintype.card_fin] at this
  have howner : ∀ v, (s'.worker v).owner = (s.worker v).owner := by
    rw [hworker]; exact observe_notifyAll WorkerPc.owner rfl
  have hqueued : queued s' = queued s := by simp only [queued, tasksAt, howner, hglobal, hdeques]
  have hgrowth : ∀ v, growth s' v = growth s v := fun v => by rw [growth, growth, howner, henq, hdeques]
  simp only [potential, hqueued, hgrowth, hext, hd, hdtor, DtorPc.rank]
  omega

theorem ext_potential_le {i : Fin m} (pc : ExtPc n τ) (hd : s'.deques = s.deques) (hg : s'.global = s.global)
    (hs : s'.stop = s.stop) (he : s'.enqueued = s.enqueued) (hw : s'.worker = s.worker) (hdtor : s'.dtor = s.dtor)
    (hx : s'.ext = Function.update s.ext i pc) (hr : pc.rank ≤ (s.ext i).rank) : potential s' ≤ potential s := by
  have := potential_ext s s' i pc hd hg hs he hw hdtor hx
  omega

theorem dtor_potential_lt (hd : s'.deques = s.deques) (hg : s'.global = s.global) (hs : s'.stop = s.stop)
    (he : s'.enqueued = s.enqueued) (hw : s'.worker = s.worker) (hx : s'.ext = s.ext)
    (hr : s'.dtor.rank n < s.dtor.rank n) : potential s' < potential s := by
  have := potential_dtor hd hg hs he hw hx
  omega

/-- A notifier wakes a worker, or finds none to wake. -/
theorem notify_potential {w : Fin n} {x : τ} (hw : s.worker w = .running x (some .notify)) {t : Impl n m τ}
    (ht : t = s ∨ ∃ v, s.worker v = .blocked ∧ t = s.setWorker v .notified) :
    potential (t.setWorker w (.running x (some .unlock))) < potential s := by
  have hle : potential t ≤ potential s + (2 * n + 5) := by
    rcases ht with rfl | ⟨v, hv, rfl⟩
    · exact Nat.le_add_right ..
    · exact (wake_potential hv).le
  have htw : t.worker w = .running x (some .notify) := by
    rcases ht with rfl | ⟨v, hv, rfl⟩
    · exact hw
    · have hne : w ≠ v := by
        rintro rfl
        rw [hw] at hv; cases hv
      simp only [Impl.setWorker, Function.update_of_ne hne, hw]
  have hwalk : Walks t (t.setWorker w (.running x (some .unlock))) w (.running x (some .unlock)) :=
    ⟨rfl, rfl, rfl, rfl, rfl, rfl, rfl⟩
  have hpot := hwalk.potential_eq (by rw [htw]; rfl) (by rw [htw]; rfl)
  rw [htw, dueAt_of_searched w (.running x (some .notify)) trivial,
    dueAt_of_searched w (.running x (some .unlock)) trivial] at hpot
  simp only [WorkerPc.rank, EnqPc.rank, held] at hpot
  omega

theorem extNotify_potential {i : Fin m} (hi : s.ext i = .enqueue .notify) {t : Impl n m τ}
    (ht : t = s ∨ ∃ v, s.worker v = .blocked ∧ t = s.setWorker v .notified) :
    potential (t.setExt i (.enqueue .unlock)) < potential s := by
  have hle : potential t ≤ potential s + (2 * n + 5) := by
    rcases ht with rfl | ⟨v, hv, rfl⟩
    · exact Nat.le_add_right ..
    · exact (wake_potential hv).le
  have hti : t.ext i = .enqueue .notify := by
    rcases ht with rfl | ⟨v, -, rfl⟩ <;> exact hi
  have hpot := potential_ext t (t.setExt i (.enqueue .unlock)) i _ rfl rfl rfl rfl rfl rfl rfl
  rw [hti] at hpot
  simp only [ExtPc.rank, EnqPc.rank] at hpot
  omega

/-- A task returns, and its worker begins a new lap. -/
theorem finish_potential {w : Fin n} {x : τ} (hw : s.worker w = .running x none)
    (h : Walks s s' w (.popping .popLoadBottom)) : potential s' < potential s := by
  have hpot := h.potential_eq (by rw [hw]; rfl) (by rw [hw]; rfl)
  rw [hw, dueAt_of_searched w (.running x none) trivial,
    dueAt_of_searched w (.popping .popLoadBottom) trivial] at hpot
  simp only [WorkerPc.rank, OwnerPc.rank, held, taken, lap, Option.toList, List.length_singleton,
    List.length_nil] at hpot
  omega

theorem potential_init : potential (init n m τ) = n * (lap n + 1) + (2 * n + 8 + n * (2 * n + 5) + n * relap n) := by
  have hdue : ∀ w, due (init n m τ) w = lap n + 1 := fun w => by
    rw [due]
    show dueAt _ w .boot = _
    rw [dueAt_of_searched w .boot trivial]
    simp [WorkerPc.rank, held]
  have hqueued : queued (init n m τ) = 0 := by
    have hempty : ∀ w, tasksAt (init n m τ) (.deque w) = [] := fun w => contents_nil (le_of_eq rfl)
    have hglobal : (init n m τ).global = [] := rfl
    simp [queued, hempty, hglobal]
  have hgrowth : ∀ w, growth (init n m τ) w = 0 := fun w => by
    have hroom : room ((init n m τ).deques w) ((init n m τ).worker w).owner = 1024 := rfl
    have henq : (init n m τ).enqueued.length = 0 := rfl
    simp [growth, growthAt, hroom, henq]
  have hext : ∀ i, ((init n m τ).ext i).rank = 0 := fun i => rfl
  have hdtor : (init n m τ).dtor = .idle := rfl
  simp [potential, hdue, hqueued, hgrowth, hext, hdtor, DtorPc.rank]

section
variable [DecidableEq τ]

/-- **The potential pays for every step of the pool.** Only a request raises it. -/
theorem step_potential (hs : Safe s) (hz : Sized s) {a : Act n m τ} (h : step s a = some s') :
    potential s' + a.ofPool.toNat ≤ potential s + perRequest n * a.requests.toNat := by
  have e := step_effect h hs.not_pushGlobal
  cases a with
  | enqueue θ x =>
    have hle : potential s' ≤ potential s + perRequest n := by
      cases e with
      | spawn w y x hw => exact spawn_potential hw
      | call i x hi => exact call_potential hi
      | extMove i pc _ ha => rcases ha with ha | ha <;> cases ha
    simpa [Act.ofPool, Act.requests] using hle
  | wait i =>
    have hle : potential s' ≤ potential s := by
      cases e with
      | extMove j pc _ _ hm => exact ext_potential_le pc rfl rfl rfl rfl rfl rfl rfl hm.rank_le
    simpa [Act.ofPool, Act.requests] using hle
  | step θ =>
    cases θ with
    | worker w => simpa [Act.ofPool, Act.requests] using workerStep_potential hs hz h
    | ext i =>
      have hle : potential s' ≤ potential s := by
        cases e with
        | publish j x hj => exact publish_potential hj
        | extMove j pc _ _ hm => exact ext_potential_le pc rfl rfl rfl rfl rfl rfl rfl hm.rank_le
        | extLock _ _ hi =>
          refine ext_potential_le (.enqueue .notify) rfl rfl rfl rfl rfl rfl rfl ?_
          rw [hi]
          simp [ExtPc.rank, EnqPc.rank]
        | extUnlock _ hi => exact ext_potential_le .idle rfl rfl rfl rfl rfl rfl rfl (Nat.zero_le _)
      simpa [Act.ofPool, Act.requests] using hle
    | dtor =>
      have hlt : potential s' < potential s := by
        cases e with
        | extMove j pc _ ha => rcases ha with ha | ha <;> cases ha
        | storeStop hd => exact storeStop_potential hd
        | notifyAll hd => exact notifyAll_potential hd
        | dtorMove pc hm => exact dtor_potential_lt rfl rfl rfl rfl rfl rfl hm.rank_lt
        | dtorLock _ hd | dtorUnlock hd | destroyGlobal hd =>
          refine dtor_potential_lt rfl rfl rfl rfl rfl rfl ?_
          rw [hd]
          simp only [DtorPc.rank]
          omega
        | destroy j hd =>
          refine dtor_potential_lt rfl rfl rfl rfl rfl rfl ?_
          rw [hd]
          simp only [DtorPc.rank]
          omega
      simpa [Act.ofPool, Act.requests] using hlt
  | notify θ v =>
    have hlt : potential s' < potential s := by
      cases e with
      | notify w x v hw hv => exact notify_potential hw (.inr ⟨v, hv, rfl⟩)
      | notifyNone w x hw => exact notify_potential hw (.inl rfl)
      | extNotify i v hi hv => exact extNotify_potential hi (.inr ⟨v, hv, rfl⟩)
      | extNotifyNone i hi => exact extNotify_potential hi (.inl rfl)
      | extMove j pc _ ha => rcases ha with ha | ha <;> cases ha
    simpa [Act.ofPool, Act.requests] using hlt
  | finish w =>
    have hlt : potential s' < potential s := by
      cases e with
      | finish _ x hw => exact finish_potential hw ⟨rfl, rfl, rfl, rfl, rfl, rfl, rfl⟩
      | extMove j pc _ ha => rcases ha with ha | ha <;> cases ha
    simpa [Act.ofPool, Act.requests] using hlt
  | spurious v =>
    have hle : potential s' ≤ potential s + perRequest n := by
      cases e with
      | spurious _ hv =>
        rw [wake_potential hv, perRequest]
        omega
      | extMove j pc _ ha => rcases ha with ha | ha <;> cases ha
    simpa [Act.ofPool, Act.requests] using hle

/-- **The pool does not spin.** However the threads interleave, the workers and the
destructor take at most `540 (n + 1)²` steps for each request and as many for the pool
itself. Failed searches, spins before sleeping, lost races, wake-ups and the copies of
growing deques are counted. -/
theorem pool_steps_linear {acts : List (Act n m τ)} (h : (machine n m τ).Run acts s) :
    acts.countP Act.ofPool ≤ 540 * (n + 1) ^ 2 * (acts.countP Act.requests + 1) := by
  have hrun := h.amortized potential Act.ofPool Act.requests (perRequest n) fun _ _ _ _ hr hstep =>
    step_potential (safe_of_run hr) (sized_of_run hr) hstep
  have hinit : potential (machine n m τ).init ≤ 540 * (n + 1) ^ 2 := by
    rw [show potential (machine n m τ).init = _ from potential_init, relap, lap]
    nlinarith
  have hrequest : perRequest n ≤ 540 * (n + 1) ^ 2 := by
    rw [perRequest, taskWorth, relap, lap]
    nlinarith
  have hmul := Nat.mul_le_mul_right (acts.countP Act.requests) hrequest
  rw [Nat.mul_add, Nat.mul_one]
  omega

end

theorem pool_steps_linear_one_task : ∃ s, (machine 1 1 Nat).Run (oneTask 0 0) s ∧ s.ran = [7] ∧
    (oneTask 0 0).countP Act.ofPool ≤ 540 * (1 + 1) ^ 2 * ((oneTask 0 0).countP Act.requests + 1) := by
  have hexec : ((machine 1 1 Nat).exec (oneTask 0 0)).any (fun s => decide (s.ran = [7])) = true := by decide +kernel
  obtain ⟨s, hrun, hran⟩ := Machine.exists_run_of_exec hexec
  exact ⟨s, hrun, hran, pool_steps_linear hrun⟩

end AsyncRuntime.Pool
