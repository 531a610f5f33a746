import Mathlib.Data.List.Rotate
import AsyncRuntime.Deque.Invariants
import AsyncRuntime.Pool.Effects
/-!
# The search of steal_from_others

The targets of the loop are the deques in cyclic order from `start_index`, and the
loop skips the worker's own: so the deques it probes are a rotation of all deques
with one taken out (`victims`). `Search` notes what a call probes and returns, and
every call that a worker makes, in whatever interleaving and from whatever state of
`rng_state` and the deques, probes `victims` in order until a steal succeeds.

A worker that searches while nothing else happens finds the oldest task of the first
deque in that order that is not empty, and touches nothing but its `top_`.
-/

namespace AsyncRuntime.Pool
open Lib Deque
variable {n m : Nat} {τ : Type} {w : Fin n} {start i : Nat}

/-! ## The cyclic order -/

/-- The deques other than `w`, in cyclic order from `start`. -/
def victims (w : Fin n) (start : Nat) : List (Fin n) := ((List.finRange n).rotate start).filter (· ≠ w)

/-- The deques that the loop has probed before iteration `i`. -/
def passed (w : Fin n) (start i : Nat) : List (Fin n) := ((List.range i).map (target w start)).filter (· ≠ w)

theorem nodup_victims (w : Fin n) (start : Nat) : (victims w start).Nodup :=
  (List.nodup_rotate.2 (List.nodup_finRange n)).filter _

theorem mem_victims {j : Fin n} : j ∈ victims w start ↔ j ≠ w := by
  simp [victims, List.mem_rotate]

theorem targets_eq_rotate (w : Fin n) (start : Nat) :
    (List.range n).map (target w start) = (List.finRange n).rotate start := by
  apply List.ext_getElem
  · simp
  · intro i hi _
    simp [List.getElem_rotate, target, Nat.add_comm]

theorem passed_all (w : Fin n) (start : Nat) : passed w start n = victims w start := by
  rw [passed, targets_eq_rotate, victims]

theorem passed_succ_own (h : target w start i = w) : passed w start (i + 1) = passed w start i := by
  simp [passed, List.range_succ, h]

theorem passed_succ (h : target w start i ≠ w) : passed w start (i + 1) = passed w start i ++ [target w start i] := by
  simp [passed, List.range_succ, h]

theorem passed_prefix (w : Fin n) (start : Nat) (h : i ≤ n) : passed w start i <+: victims w start := by
  obtain ⟨k, rfl⟩ := Nat.exists_eq_add_of_le h
  rw [← passed_all, passed, passed, List.range_add, List.map_append, List.filter_append]
  exact List.prefix_append _ _

/-- The order from iteration `i` on, where the loop calls `steal`. -/
theorem victims_split (h : i < n) (hne : target w start i ≠ w) :
    ∃ post, victims w start = passed w start i ++ target w start i :: post := by
  obtain ⟨post, hpost⟩ := passed_prefix w start (Nat.succ_le_of_lt h)
  rw [passed_succ hne, List.append_assoc] at hpost
  exact ⟨post, hpost.symm⟩

/-! ## What a search does -/

/-- A call of `steal_from_others`: its `start_index`, the deques it has called `steal`
on with what that returned, and what it has returned itself. -/
structure Search (n : Nat) (τ : Type) where
  start : Nat
  tried : List (Fin n × Option τ)
  result : Option (Option τ)

/-- The calls go through `order` as long as they fail, the first that succeeds is
the last, and what the search returns is what the last one returned. -/
inductive Search.Follows (order : List (Fin n)) : Search n τ → Prop
  | searching (k : Nat) (pre post : List (Fin n)) : order = pre ++ post → Follows order ⟨k, pre.map (·, none), none⟩
  | missed (k : Nat) : Follows order ⟨k, order.map (·, none), some none⟩
  | found (k : Nat) (pre : List (Fin n)) (j : Fin n) (post : List (Fin n)) (x : τ) : order = pre ++ j :: post →
      Follows order ⟨k, pre.map (·, none) ++ [(j, some x)], some (some x)⟩

def WorkerPc.isStealing : WorkerPc n τ → Bool
  | .stealing _ _ _ _ => true
  | _ => false

/-- The searches of worker `w`, the latest first, after a step from `pc` to `pc'`. -/
def noteSearch (w : Fin n) (pc pc' : WorkerPc n τ) (H : List (Search n τ)) : List (Search n τ) :=
  if pc.popsGlobal then
    match pc' with
    | .stealing _ start _ _ => ⟨start, [], none⟩ :: H
    | _ => H
  else
    match pc, H with
    -- `steal` has returned
    | .stealing _ start i (some (.done r)), h :: H =>
      { h with tried := h.tried ++ [(target w start i, r)], result := r.map some } :: H
    | .stealing _ _ i none, h :: H => if i < n then h :: H else { h with result := some none } :: H
    | _, H => H

/-- The searches of worker `w` after any step. -/
def noteSearches (w : Fin n) (s : Impl n m τ) (a : Act n m τ) (s' : Impl n m τ) (H : List (Search n τ)) :
    List (Search n τ) :=
  match a with
  | .step (.worker v) => if v = w then noteSearch w (s.worker w) (s'.worker w) H else H
  | _ => H

/-- The pool with the searches of worker `w`. -/
def watching [DecidableEq τ] (m : Nat) (w : Fin n) : Machine (Impl n m τ × List (Search n τ)) (Act n m τ) :=
  (machine n m τ).withHistory [] (noteSearches w)

/-! ## Steps of the other threads -/

/-- A step that leaves the worker where it is, or outside `steal_from_others`. -/
def Outside (pc pc' : WorkerPc n τ) : Prop := pc' = pc ∨ pc.isStealing = false ∧ pc'.isStealing = false

variable {s s' : Impl n m τ}

theorem enqStep_worker {θ : Thread n m} {e : EnqPc τ} {r : Impl n m τ × Option (EnqPc τ)} (h : enqStep s θ e = some r) :
    r.1.worker = s.worker := by
  cases e with
  | push p =>
    simp only [enqStep] at h
    split at h <;> cases h <;> rfl
  | lock =>
    simp only [enqStep] at h
    split at h <;> cases h
    rfl
  | _ => cases h <;> rfl

/-- A step of a worker moves no other worker, and takes it into `steal_from_others`
only from a pop of the global queue. -/
theorem workerStep_moves {v : Fin n} (h : workerStep s v = some s') : ∃ pc, s'.worker = Function.update s.worker v pc ∧
    ((s.worker v).isStealing = false → (s.worker v).popsGlobal = false → pc.isStealing = false) := by
  cases hpc : s.worker v with
  | popping p =>
    simp only [workerStep, hpc] at h
    split at h <;> cases h <;> exact ⟨_, rfl, fun _ _ => rfl⟩
  | popGlobal | spinPop =>
    simp only [workerStep, hpc] at h
    split at h <;> cases h
    · unfold stealEnter
      split <;> exact ⟨_, rfl, fun _ hp => by cases hp⟩
    · exact ⟨_, rfl, fun _ _ => rfl⟩
  | stealing spin start i q =>
    simp only [workerStep, hpc] at h
    split at h <;> cases h <;> exact ⟨_, rfl, fun hs => by cases hs⟩
  | running x e =>
    cases e with
    | none => simp only [workerStep, hpc] at h; cases h
    | some e =>
      simp only [workerStep, hpc, Option.map_eq_some_iff] at h
      obtain ⟨r, hr, rfl⟩ := h
      exact ⟨_, by rw [Impl.setWorker, enqStep_worker hr], fun _ _ => rfl⟩
  | lock | notified =>
    simp only [workerStep, hpc] at h
    split at h <;> cases h
    exact ⟨_, rfl, fun _ _ => rfl⟩
  | look site l =>
    simp only [workerStep, hpc] at h
    split at h <;> cases h <;> exact ⟨_, rfl, fun _ _ => rfl⟩
  | loadStop | lockedStop | predStop | unlock =>
    simp only [workerStep, hpc] at h
    cases h
    exact ⟨_, rfl, fun _ _ => by split <;> rfl⟩
  | boot | incSleeping | wait | decSleeping =>
    simp only [workerStep, hpc] at h
    cases h
    exact ⟨_, rfl, fun _ _ => rfl⟩
  | blocked | exited => simp only [workerStep, hpc] at h; cases h

theorem extStep_worker {i : Fin m} (h : extStep s i = some s') : s'.worker = s.worker := by
  unfold extStep at h
  split at h
  · cases h
  · obtain ⟨r, hr, rfl⟩ := Option.map_eq_some_iff.1 h
    exact enqStep_worker hr
  · split at h <;> cases h <;> rfl

/-- The destructor moves only blocked workers. -/
theorem dtorStep_outside (h : dtorStep s = some s') (w : Fin n) : Outside (s.worker w) (s'.worker w) := by
  cases hpc : s.dtor with
  | notifyAll =>
    simp only [dtorStep, hpc] at h
    cases h
    rcases notifyAll_worker s w with hw | ⟨hw, hw'⟩
    · exact .inl hw
    · exact .inr ⟨by rw [hw]; rfl, by rw [hw']; rfl⟩
  | join k =>
    simp only [dtorStep, hpc] at h
    split at h
    · split at h <;> cases h
      exact .inl rfl
    · cases h; exact .inl rfl
  | idle | lock | destroy =>
    simp only [dtorStep, hpc] at h
    split at h <;> cases h <;> exact .inl rfl
  | storeStop | unlock | destroyGlobal => simp only [dtorStep, hpc] at h; cases h; exact .inl rfl
  | finished => simp only [dtorStep, hpc] at h; cases h

/-- A worker that is moved from outside to outside. -/
theorem update_outside {f : Fin n → WorkerPc n τ} {v : Fin n} {pc : WorkerPc n τ} (h : (f v).isStealing = false)
    (h' : pc.isStealing = false) (w : Fin n) : Outside (f w) (Function.update f v pc w) := by
  by_cases e : w = v
  · subst e
    exact .inr ⟨h, by rw [Function.update_self]; exact h'⟩
  · exact .inl (Function.update_of_ne e ..)

theorem notifyOne_outside {v : Option (Fin n)} (h : notifyOne s v = some s') (w : Fin n) :
    Outside (s.worker w) (s'.worker w) := by
  rcases notifyOne_cases h with ⟨v, -, hv, rfl⟩ | ⟨-, -, rfl⟩
  · exact update_outside (by rw [hv]; rfl) rfl w
  · exact .inl rfl

theorem Outside.trans {pc pc' pc'' : WorkerPc n τ} (h : Outside pc pc') (h' : Outside pc' pc'') : Outside pc pc'' := by
  rcases h with rfl | ⟨h1, h2⟩
  · exact h'
  · rcases h' with rfl | ⟨-, h3⟩
    · exact .inr ⟨h1, h2⟩
    · exact .inr ⟨h1, h3⟩

/-- Nobody but the worker itself takes it into or through `steal_from_others`. -/
theorem step_outside [DecidableEq τ] {a : Act n m τ} (h : step s a = some s') (ha : a ≠ .step (.worker w)) :
    Outside (s.worker w) (s'.worker w) := by
  cases a with
  | enqueue θ x =>
    simp only [step] at h
    split at h
    · cases h
    cases θ with
    | worker v =>
      dsimp only at h
      split at h
      · next hv => cases h; exact update_outside (by rw [hv]; rfl) rfl w
      · cases h
    | ext i => dsimp only at h; split at h <;> cases h; exact .inl rfl
    | dtor => cases h
  | wait i => simp only [step] at h; split at h <;> cases h; exact .inl rfl
  | step θ =>
    cases θ with
    | worker v =>
      obtain ⟨pc, hpc, -⟩ := workerStep_moves h
      rw [hpc]
      exact .inl (Function.update_of_ne (by rintro rfl; exact ha rfl) ..)
    | ext i => exact .inl (by rw [extStep_worker h])
    | dtor => exact dtorStep_outside h w
  | notify θ v =>
    cases θ with
    | worker u =>
      simp only [step] at h
      split at h
      · next hu =>
        obtain ⟨r, hr, rfl⟩ := Option.map_eq_some_iff.1 h
        refine (notifyOne_outside hr w).trans (update_outside ?_ rfl w)
        rcases notifyOne_outside hr u with e | ⟨-, e⟩
        · rw [e, hu]; rfl
        · exact e
      · cases h
    | ext i =>
      simp only [step] at h
      split at h
      · obtain ⟨r, hr, rfl⟩ := Option.map_eq_some_iff.1 h
        exact notifyOne_outside hr w
      · cases h
    | dtor => cases h
  | finish v =>
    simp only [step] at h
    split at h
    · next hv => cases h; exact update_outside (by rw [hv]; rfl) rfl w
    · cases h
  | spurious v =>
    simp only [step] at h
    split at h
    · next hv => cases h; exact update_outside (by rw [isBlocked_iff.1 hv]; rfl) rfl w
    · cases h

/-! ## Every search follows the order -/

/-- A search that is over. -/
def Search.Finished (w : Fin n) (h : Search n τ) : Prop := h.Follows (victims w h.start) ∧ h.result.isSome = true

/-- The searches fit the worker's program point: the latest is under way inside the
loop, and has failed at every deque before this iteration; the others are over. -/
def Noted (w : Fin n) (pc : WorkerPc n τ) (H : List (Search n τ)) : Prop :=
  match pc with
  | .stealing _ start i q => i ≤ n ∧ (q.isSome = true → i < n ∧ target w start i ≠ w) ∧
      ∃ H', H = ⟨start, (passed w start i).map (·, none), none⟩ :: H' ∧ ∀ h ∈ H', h.Finished w
  | _ => ∀ h ∈ H, h.Finished w

theorem noted_iff {pc : WorkerPc n τ} {H : List (Search n τ)} (h : pc.isStealing = false) :
    Noted w pc H ↔ ∀ h ∈ H, h.Finished w := by
  cases pc <;> first | rfl | cases h

theorem Noted.outside {pc pc' : WorkerPc n τ} {H : List (Search n τ)} (h : Noted w pc H) (ho : Outside pc pc') :
    Noted w pc' H := by
  rcases ho with rfl | ⟨hpc, hpc'⟩
  · exact h
  · exact (noted_iff hpc').2 ((noted_iff hpc).1 h)

theorem isStealing_stealMiss (spin : Option Nat) : (stealMiss spin : WorkerPc n τ).isStealing = false := by
  unfold stealMiss
  split
  · rfl
  · split <;> rfl

section Loop
variable {spin : Option Nat} {H : List (Search n τ)}

/-- The head of the loop: it calls `steal`, skips the worker's own deque, or ends. -/
theorem Noted.loop (h : Noted w (.stealing spin start i none) H) :
    Noted w (stealLoop w spin start i) (noteSearch w (.stealing spin start i none) (stealLoop w spin start i) H) := by
  obtain ⟨hi, -, H', rfl, hH⟩ := h
  unfold stealLoop
  split
  · next hlt =>
    have hnote : ∀ pc, noteSearch w (.stealing spin start i none) pc
        (⟨start, (passed w start i).map (·, none), none⟩ :: H') =
        ⟨start, (passed w start i).map (·, none), none⟩ :: H' := fun pc => if_pos hlt
    rw [hnote]
    split
    · next hown => exact ⟨hlt, nofun, H', by rw [passed_succ_own hown], hH⟩
    · next hne => exact ⟨hi, fun _ => ⟨hlt, hne⟩, H', rfl, hH⟩
  · next hge =>
    obtain rfl : i = n := by omega
    have hnote : ∀ pc, noteSearch w (.stealing spin start i none) pc
        (⟨start, (passed w start i).map (·, none), none⟩ :: H') =
        ⟨start, (passed w start i).map (·, none), some none⟩ :: H' := fun pc => if_neg hge
    rw [hnote, passed_all, noted_iff (isStealing_stealMiss spin)]
    rintro k (_ | ⟨_, hk⟩)
    · exact ⟨.missed start, rfl⟩
    · exact hH k hk

/-- An access inside `steal`. -/
theorem Noted.access {q : ThiefPc τ} (h : Noted w (.stealing spin start i (some q)) H) (hq : ∀ r, q ≠ .done r)
    (q' : ThiefPc τ) : Noted w (.stealing spin start i (some q'))
      (noteSearch w (.stealing spin start i (some q)) (.stealing spin start i (some q')) H) := by
  cases q with
  | done r => exact absurd rfl (hq r)
  | _ => exact h

/-- `steal` has returned a null pointer. -/
theorem Noted.failed {pc : WorkerPc n τ} (h : Noted w (.stealing spin start i (some (.done none))) H) :
    Noted w (.stealing spin start (i + 1) none) (noteSearch w (.stealing spin start i (some (.done none))) pc H) := by
  obtain ⟨-, hq, H', rfl, hH⟩ := h
  obtain ⟨hlt, hne⟩ := hq rfl
  exact ⟨hlt, nofun, H', by rw [passed_succ hne, List.map_append]; rfl, hH⟩

/-- `steal` has returned a task: the search is over. -/
theorem Noted.succeeded {pc : WorkerPc n τ} {x : τ} (h : Noted w (.stealing spin start i (some (.done (some x)))) H) :
    Noted w (.running x none) (noteSearch w (.stealing spin start i (some (.done (some x)))) pc H) := by
  obtain ⟨-, hq, H', rfl, hH⟩ := h
  obtain ⟨hlt, hne⟩ := hq rfl
  obtain ⟨post, hpost⟩ := victims_split hlt hne
  rintro k (_ | ⟨_, hk⟩)
  · exact ⟨.found start (passed w start i) (target w start i) post x hpost, rfl⟩
  · exact hH k hk

/-- A search begins. -/
theorem Noted.enter {pc : WorkerPc n τ} (hpc : pc.popsGlobal = true) (h : Noted w pc H) (start : Nat) :
    Noted w (.stealing spin start 0 none) (noteSearch w pc (.stealing spin start 0 none) H) := by
  have hnot : pc.isStealing = false := by cases pc <;> first | rfl | cases hpc
  exact ⟨Nat.zero_le n, nofun, H, if_pos hpc, (noted_iff hnot).1 h⟩

/-- Outside the loop nothing is noted. -/
theorem noteSearch_outside {pc pc' : WorkerPc n τ} (h : pc.isStealing = false) (h' : pc'.isStealing = false) :
    noteSearch w pc pc' H = H := by
  unfold noteSearch
  split
  · cases pc' <;> first | rfl | cases h'
  · cases pc <;> first | rfl | cases h

end Loop

/-- A step of the worker itself. -/
theorem Noted.workerStep {H : List (Search n τ)} (h : Noted w (s.worker w) H) (hs : workerStep s w = some s') :
    Noted w (s'.worker w) (noteSearch w (s.worker w) (s'.worker w) H) := by
  cases hst : (s.worker w).isStealing with
  | true =>
    cases hpc : s.worker w with
    | stealing spin start i q =>
      rw [hpc] at h
      simp only [Pool.workerStep, hpc] at hs
      split at hs <;> cases hs <;> simp only [Impl.setWorker, Impl.start, Function.update_self]
      · exact h.loop
      · exact h.failed
      · exact h.succeeded
      · next q hnone hsome =>
        refine h.access (fun r => ?_) _
        rintro rfl
        cases r with
        | none => exact hnone rfl
        | some x => exact hsome x rfl
    | _ => rw [hpc] at hst; cases hst
  | false =>
    cases hg : (s.worker w).popsGlobal with
    | true =>
      have hfresh : ∀ pc : WorkerPc n τ, pc.isStealing = false → Noted w pc (noteSearch w (s.worker w) pc H) := by
        intro pc hpc
        rw [noteSearch_outside hst hpc, noted_iff hpc]
        exact (noted_iff hst).1 h
      have henter : ∀ spin, Noted w ((stealEnter s w spin).worker w)
          (noteSearch w (s.worker w) ((stealEnter s w spin).worker w) H) := by
        intro spin
        unfold stealEnter
        split <;> simp only [Impl.setWorker, Function.update_self]
        · exact hfresh _ (isStealing_stealMiss spin)
        · exact h.enter hg _
      cases hpc : s.worker w with
      | popGlobal | spinPop =>
        simp only [Pool.workerStep, hpc] at hs
        rw [← hpc]
        split at hs <;> cases hs
        · exact henter _
        · simp only [Impl.start, Impl.setWorker, Function.update_self]
          exact hfresh _ rfl
      | _ => rw [hpc] at hg; cases hg
    | false =>
      obtain ⟨pc, hw, hpc⟩ := workerStep_moves hs
      rw [hw, Function.update_self]
      have hpc := hpc hst hg
      rw [noteSearch_outside hst hpc, noted_iff hpc]
      exact (noted_iff hst).1 h

/-- Every step of the pool. -/
theorem Noted.step [DecidableEq τ] {u u' : Impl n m τ × List (Search n τ)} {a : Act n m τ}
    (h : Noted w (u.1.worker w) u.2) (hs : (watching m w).step u a = some u') : Noted w (u'.1.worker w) u'.2 := by
  obtain ⟨hstep, hnote⟩ := Machine.withHistory_step.1 hs
  rw [hnote]
  by_cases ha : a = .step (.worker w)
  · subst ha
    simp only [noteSearches, if_true]
    exact h.workerStep hstep
  · have hsame : noteSearches w u.1 a u'.1 u.2 = u.2 := by
      unfold noteSearches
      split
      · next v => exact if_neg (by rintro rfl; exact ha rfl)
      · rfl
    rw [hsame]
    exact h.outside (step_outside hstep ha)

/-- Every search follows its order, and one that is not over is under way. -/
theorem Noted.follows {pc : WorkerPc n τ} {H : List (Search n τ)} (hn : Noted w pc H) (h : Search n τ) (hh : h ∈ H) :
    h.Follows (victims w h.start) ∧ (h.result = none → pc.isStealing = true) := by
  have hdone : h.Finished w → h.Follows (victims w h.start) ∧ (h.result = none → pc.isStealing = true) := by
    rintro ⟨hf, hr⟩
    refine ⟨hf, fun e => ?_⟩
    rw [e] at hr
    cases hr
  cases hs : pc.isStealing with
  | false => exact hs ▸ hdone ((noted_iff hs).1 hn h hh)
  | true =>
    cases pc with
    | stealing spin start i q =>
      obtain ⟨hi, -, H', rfl, hH⟩ := hn
      rcases List.mem_cons.1 hh with rfl | hh
      · obtain ⟨post, hpost⟩ := passed_prefix w start hi
        exact ⟨.searching start _ post hpost.symm, fun _ => rfl⟩
      · exact hdone (hH h hh)
    | _ => cases hs

/-! ## A steal that nothing disturbs -/

section Steal
variable {d : WorkStealingDeque τ}

theorem remaining_eq_nil_iff (h : Inv d .idle) : remaining d = [] ↔ d.bottom ≤ d.top := by
  have hlen : ((remaining d).length : Int) = d.bottom - d.top := h.length_contents
  rw [← List.length_eq_zero_iff]
  omega

/-- The oldest task is at `top_`, and `top_ + 1` leaves the others. -/
theorem remaining_eq_cons (h : Inv d .idle) {x : τ} {l : List τ} (hx : remaining d = x :: l) :
    d.top < d.bottom ∧ d.cur.load d.top = some x ∧ remaining { d with top := d.top + 1 } = l := by
  have hlt : d.top < d.bottom := by
    by_contra hge
    rw [(remaining_eq_nil_iff h).2 (by omega)] at hx
    cases hx
  obtain ⟨y, hy⟩ := Option.isSome_iff_exists.1 (h.full d.top (le_refl _) hlt)
  rw [remaining, window_cons _ hlt, hy] at hx
  cases hx
  exact ⟨hlt, hy, rfl⟩

end Steal

/-! ## A search that nothing disturbs -/

@[simp] theorem setWorker_setWorker (s : Impl n m τ) (w : Fin n) (pc pc' : WorkerPc n τ) :
    (s.setWorker w pc).setWorker w pc' = s.setWorker w pc' := by
  simp [Impl.setWorker]

@[simp] theorem worker_setWorker (s : Impl n m τ) (w : Fin n) (pc : WorkerPc n τ) :
    (s.setWorker w pc).worker w = pc := by
  simp [Impl.setWorker]

@[simp] theorem deques_setWorker (s : Impl n m τ) (w : Fin n) (pc : WorkerPc n τ) :
    (s.setWorker w pc).deques = s.deques :=
  rfl

@[simp] theorem setDeque_self (s : Impl n m τ) (j : Fin n) : s.setDeque j (s.deques j) = s := by
  simp [Impl.setDeque]

@[simp] theorem setDeque_setWorker (s : Impl n m τ) (w j : Fin n) (pc : WorkerPc n τ) (d : WorkStealingDeque τ) :
    (s.setWorker w pc).setDeque j d = (s.setDeque j d).setWorker w pc := rfl

@[simp] theorem start_setWorker (s : Impl n m τ) (w : Fin n) (pc : WorkerPc n τ) (x : τ) :
    (s.setWorker w pc).start w x = s.start w x := by
  simp [Impl.start, Impl.setWorker]

/-- The deques before iteration `i` are all empty, or one is the first that is not. -/
theorem passed_empty_or (s : Impl n m τ) (w : Fin n) (start i : Nat) :
    (∀ j ∈ passed w start i, remaining (s.deques j) = []) ∨
    ∃ k < i, target w start k ≠ w ∧ (∀ j ∈ passed w start k, remaining (s.deques j) = []) ∧
      remaining (s.deques (target w start k)) ≠ [] := by
  induction i with
  | zero => exact .inl (by simp [passed])
  | succ i ih =>
    rcases ih with hall | ⟨k, hk, h⟩
    · by_cases hown : target w start i = w
      · exact .inl (by rwa [passed_succ_own hown])
      · by_cases hx : remaining (s.deques (target w start i)) = []
        · refine .inl (fun j hj => ?_)
          rw [passed_succ hown, List.mem_append, List.mem_singleton] at hj
          rcases hj with hj | rfl
          · exact hall j hj
          · exact hx
        · exact .inr ⟨i, by omega, hown, hall, hx⟩
    · exact .inr ⟨k, by omega, h⟩

theorem stealLoop_own {spin : Option Nat} (hi : i < n) (h : target w start i = w) :
    stealLoop w spin start i = (.stealing spin start (i + 1) none : WorkerPc n τ) := by
  rw [stealLoop, if_pos hi, if_pos h]

theorem stealLoop_other {spin : Option Nat} (hi : i < n) (h : target w start i ≠ w) :
    stealLoop w spin start i = (.stealing spin start i (some .loadTop) : WorkerPc n τ) := by
  rw [stealLoop, if_pos hi, if_neg h]

section Alone
variable [DecidableEq τ] {H : List (Search n τ)} {spin : Option Nat} {t : Impl n m τ × List (Search n τ)}

/-- The worker makes a step and then goes on alone. -/
theorem alone_step (hs : workerStep s w = some s')
    (h : (watching m w).Repeats (.step (.worker w)) (s', noteSearch w (s.worker w) (s'.worker w) H) t) :
    (watching m w).Repeats (.step (.worker w)) (s, H) t := by
  have hnote : noteSearches w s (.step (.worker w)) s' H = noteSearch w (s.worker w) (s'.worker w) H := if_pos rfl
  have hstep : (watching m w).step (s, H) (.step (.worker w)) = some (s', noteSearch w (s.worker w) (s'.worker w) H) :=
    Machine.withHistory_step.2 ⟨hs, hnote.symm⟩
  exact .head hstep h

/-- The same when only its program point and the pool around it matter. -/
theorem alone_move {pc pc' : WorkerPc n τ} {H' : List (Search n τ)}
    (hs : workerStep (s.setWorker w pc) w = some (s'.setWorker w pc')) (hnote : noteSearch w pc pc' H = H')
    (h : (watching m w).Repeats (.step (.worker w)) (s'.setWorker w pc', H') t) :
    (watching m w).Repeats (.step (.worker w)) (s.setWorker w pc, H) t := by
  refine alone_step hs ?_
  rw [worker_setWorker, worker_setWorker, hnote]
  exact h

/-- One access of a steal. -/
theorem alone_access {q q' : ThiefPc τ} {d : WorkStealingDeque τ} (hq : ∀ r, q ≠ .done r)
    (hstep : thiefStep (s.deques (target w start i)) q = (d, q'))
    (h : (watching m w).Repeats (.step (.worker w))
      ((s.setDeque (target w start i) d).setWorker w (.stealing spin start i (some q')), H) t) :
    (watching m w).Repeats (.step (.worker w)) (s.setWorker w (.stealing spin start i (some q)), H) t := by
  have hs : workerStep (s.setWorker w (.stealing spin start i (some q))) w =
      some ((s.setDeque (target w start i) d).setWorker w (.stealing spin start i (some q'))) := by
    cases q with
    | done r => exact absurd rfl (hq r)
    | _ => simp [workerStep, hstep]
  refine alone_move hs ?_ h
  cases q with
  | done r => exact absurd rfl (hq r)
  | _ => rfl

/-- An access that only reads. -/
theorem alone_read {q q' : ThiefPc τ} (hq : ∀ r, q ≠ .done r)
    (hstep : thiefStep (s.deques (target w start i)) q = (s.deques (target w start i), q'))
    (h : (watching m w).Repeats (.step (.worker w)) (s.setWorker w (.stealing spin start i (some q')), H) t) :
    (watching m w).Repeats (.step (.worker w)) (s.setWorker w (.stealing spin start i (some q)), H) t := by
  refine alone_access hq hstep ?_
  rw [setDeque_self]
  exact h

/-- The head of the loop: it skips the worker's own deque, or calls `steal`. -/
theorem alone_loop (hi : i < n) {k : Search n τ}
    (h : (watching m w).Repeats (.step (.worker w)) (s.setWorker w (stealLoop w spin start i), k :: H) t) :
    (watching m w).Repeats (.step (.worker w)) (s.setWorker w (.stealing spin start i none), k :: H) t := by
  refine alone_move ?_ (if_pos hi) h
  simp [workerStep]

/-- `steal` finds its deque empty: the loop goes on, and only the worker has moved. -/
theorem alone_empty (hi : i < n) (hne : target w start i ≠ w)
    (he : (s.deques (target w start i)).bottom ≤ (s.deques (target w start i)).top) {tried : List (Fin n × Option τ)}
    (h : (watching m w).Repeats (.step (.worker w)) (s.setWorker w (.stealing spin start (i + 1) none),
      ⟨start, tried ++ [(target w start i, none)], none⟩ :: H) t) :
    (watching m w).Repeats (.step (.worker w))
      (s.setWorker w (.stealing spin start i none), ⟨start, tried, none⟩ :: H) t := by
  have hbot : thiefStep (s.deques (target w start i)) (.loadBottom (s.deques (target w start i)).top) =
      (s.deques (target w start i), .done none) := if_pos (by omega)
  have hret : workerStep (s.setWorker w (.stealing spin start i (some (.done none)))) w =
      some (s.setWorker w (.stealing spin start (i + 1) none)) := by
    simp [workerStep]
  refine alone_loop hi ?_
  rw [stealLoop_other hi hne]
  exact alone_read nofun rfl (alone_read nofun hbot (alone_move hret rfl h))

/-- `steal` finds a task: it moves `top_` past it, and the worker runs the task. -/
theorem alone_found {j : Fin n} (hi : i < n) (hj : target w start i = j) (hne : j ≠ w)
    (hinv : Inv (s.deques j) .idle) {x : τ}
    {l : List τ} (hx : remaining (s.deques j) = x :: l) {tried : List (Fin n × Option τ)} :
    (watching m w).Repeats (.step (.worker w)) (s.setWorker w (.stealing spin start i none), ⟨start, tried, none⟩ :: H)
      ((s.setDeque j { s.deques j with top := (s.deques j).top + 1 }).start w x,
        ⟨start, tried ++ [(j, some x)], some (some x)⟩ :: H) := by
  subst hj
  obtain ⟨hlt, hload, -⟩ := remaining_eq_cons hinv hx
  have hbot : ∀ d : WorkStealingDeque τ, d.top < d.bottom → thiefStep d (.loadBottom d.top) = (d, .loadArray d.top) :=
    fun d hd => if_neg (by omega)
  have hslot : ∀ d : WorkStealingDeque τ, d.cur.load d.top = some x →
      thiefStep d (.loadSlot d.top d.array) = (d, .cas d.top (some x)) := by
    intro d hd
    rw [← hd]
    rfl
  have hret : ∀ s : Impl n m τ, workerStep (s.setWorker w (.stealing spin start i (some (.done (some x))))) w =
      some (s.start w x) := by
    intro s
    simp [workerStep]
  refine alone_loop hi ?_
  rw [stealLoop_other hi hne]
  refine alone_read nofun rfl (alone_read nofun (hbot _ hlt) ?_)
  refine alone_read nofun rfl (alone_read nofun (hslot _ hload) ?_)
  refine alone_access nofun (if_pos rfl) (alone_step (hret _) ?_)
  rw [worker_setWorker]
  exact .refl _ _

/-- The loop has found every deque before iteration `i` empty. -/
theorem alone_skip (hi : i ≤ n) (hinv : ∀ j, j ≠ w → Inv (s.deques j) .idle)
    (hempty : ∀ j ∈ passed w start i, remaining (s.deques j) = [])
    (h : (watching m w).Repeats (.step (.worker w)) (s.setWorker w (.stealing spin start i none),
      ⟨start, (passed w start i).map (·, none), none⟩ :: H) t) :
    (watching m w).Repeats (.step (.worker w))
      (s.setWorker w (.stealing spin start 0 none), ⟨start, [], none⟩ :: H) t := by
  induction i with
  | zero => exact h
  | succ i ih =>
    by_cases hown : target w start i = w
    · rw [passed_succ_own hown] at hempty h
      refine ih (by omega) hempty (alone_loop hi ?_)
      rw [stealLoop_own hi hown]
      exact h
    · rw [passed_succ hown] at hempty h
      have hlast := hempty (target w start i) (by simp)
      rw [List.map_append] at h
      refine ih (by omega) (fun j hj => hempty j (by simp [hj])) (alone_empty hi hown ?_ h)
      exact (remaining_eq_nil_iff (hinv _ hown)).1 hlast

/-- The loop ends. -/
theorem alone_end {tried : List (Fin n × Option τ)} :
    (watching m w).Repeats (.step (.worker w)) (s.setWorker w (.stealing spin start n none), ⟨start, tried, none⟩ :: H)
      (s.setWorker w (stealMiss spin), ⟨start, tried, some none⟩ :: H) := by
  refine alone_move ?_ (if_neg (Nat.lt_irrefl n)) (.refl _ _)
  simp [workerStep, stealLoop]

end Alone

/-! ## A call -/

/-- `rng_state` after the update that a search begins with. -/
def nextRng (s : Impl n m τ) (w : Fin n) : UInt32 := xorshift ((s.rng w).getD (UInt32.ofNat w + 1))

/-- The pool once worker `w` has updated its `rng_state`. -/
def drawn (s : Impl n m τ) (w : Fin n) : Impl n m τ := { s with rng := Function.update s.rng w (some (nextRng s w)) }

/-- Which call of `steal_from_others` the worker is at: the first, or one of the
spin loop. -/
def WorkerPc.attempt : WorkerPc n τ → Option Nat
  | .spinPop k => some k
  | _ => none

theorem alone_enter [DecidableEq τ] {H : List (Search n τ)} {t : Impl n m τ × List (Search n τ)} (hn : 2 ≤ n)
    (hpc : (s.worker w).popsGlobal = true) (hg : s.global = [])
    (h : (watching m w).Repeats (.step (.worker w))
      ((drawn s w).setWorker w (.stealing (s.worker w).attempt ((nextRng s w).toNat % n) 0 none),
        ⟨(nextRng s w).toNat % n, [], none⟩ :: H) t) :
    (watching m w).Repeats (.step (.worker w)) (s, H) t := by
  have henter : ∀ spin, stealEnter s w spin =
      (drawn s w).setWorker w (.stealing spin ((nextRng s w).toNat % n) 0 none) := fun spin => if_neg (by omega)
  have hs : workerStep s w =
      some ((drawn s w).setWorker w (.stealing (s.worker w).attempt ((nextRng s w).toNat % n) 0 none)) := by
    cases hw : s.worker w with
    | popGlobal | spinPop => simp only [workerStep, hw, hg, henter, WorkerPc.attempt]
    | _ => rw [hw] at hpc; cases hpc
  refine alone_step hs ?_
  rw [worker_setWorker]
  have hnote : ∀ spin start, noteSearch w (s.worker w) (.stealing spin start 0 none) H = ⟨start, [], none⟩ :: H :=
    fun _ _ => if_pos hpc
  rw [hnote]
  exact h

/-- `steal_from_others` calls `steal` on the other deques in cyclic order from its
`start_index`, whatever the other threads do meanwhile, and returns at the first call
that succeeds. A search that nothing disturbs returns a null pointer exactly when the
other deques are empty; otherwise it takes the oldest task of the first that is not, and
moves nothing but that deque's `top_`, its own `rng_state` and itself. -/
theorem steal_from_others_searches [DecidableEq τ] (hn : 2 ≤ n) (w : Fin n) :
    (∀ start, (victims w start).Nodup ∧ ∀ j, j ∈ victims w start ↔ j ≠ w) ∧
    (∀ (s t : Impl n m τ) (acts : List (Act n m τ)) (H : List (Search n τ)), (s.worker w).isStealing = false →
      (watching m w).execFrom (s, []) acts = some (t, H) → ∀ h ∈ H,
        h.Follows (victims w h.start) ∧ (h.result = none → (t.worker w).isStealing = true)) ∧
    ∀ s : Impl n m τ, (s.worker w).popsGlobal = true → s.global = [] → (∀ j, j ≠ w → Inv (s.deques j) .idle) →
      ∃ t h r, (watching m w).Repeats (.step (.worker w)) (s, []) (t, [h]) ∧
        h.start = (nextRng s w).toNat % n ∧ h.result = some r ∧
        (r = none ↔ ∀ j, j ≠ w → remaining (s.deques j) = []) ∧
        (r = none → t = (drawn s w).setWorker w (stealMiss (s.worker w).attempt)) ∧
        ∀ x, r = some x → ∃ pre j post l, victims w h.start = pre ++ j :: post ∧
          (∀ k ∈ pre, remaining (s.deques k) = []) ∧ remaining (s.deques j) = x :: l ∧ remaining (t.deques j) = l ∧
          t = ((drawn s w).setDeque j { s.deques j with top := (s.deques j).top + 1 }).start w x := by
  refine ⟨fun start => ⟨nodup_victims w start, fun j => mem_victims⟩, ?_, ?_⟩
  · intro s t acts H hs hx h hh
    have hnoted : Noted w (t.worker w) H := Machine.inv_of_execFrom (M := watching m w)
      (fun u => Noted w (u.1.worker w) u.2)
        (fun _ _ _ hi hstep => hi.step hstep) ((noted_iff hs).2 (List.forall_mem_nil _)) hx
    exact hnoted.follows h hh
  · intro s hpc hg hinv
    rcases passed_empty_or s w ((nextRng s w).toNat % n) n with hall | ⟨i, hi, hne, hpre, hfull⟩
    · refine ⟨_, _, none, alone_enter hn hpc hg (alone_skip (le_refl n) hinv hall alone_end), rfl, rfl, ?_,
        fun _ => rfl, nofun⟩
      rw [passed_all] at hall
      exact ⟨fun _ j hj => hall j (mem_victims.2 hj), fun _ => rfl⟩
    · obtain ⟨x, l, hx⟩ := List.exists_cons_of_ne_nil hfull
      obtain ⟨post, hpost⟩ := victims_split hi hne
      refine ⟨_, _, some x, alone_enter hn hpc hg (alone_skip (le_of_lt hi) hinv hpre
        (alone_found (s := drawn s w) hi rfl hne (hinv _ hne) hx)), rfl, rfl, ?_, nofun, ?_⟩
      · refine ⟨nofun, fun hall => ?_⟩
        rw [hall _ hne] at hx
        cases hx
      · rintro _ ⟨⟩
        refine ⟨_, _, post, l, hpost, hpre, hx, ?_, rfl⟩
        simp only [Impl.start, Impl.setWorker, Impl.setDeque, Function.update_self]
        exact (remaining_eq_cons (hinv _ hne) hx).2.2

/-- A deque with one task. -/
def holdsSeven : WorkStealingDeque Nat :=
  { (WorkStealingDeque.new 2 ⟨1, rfl⟩).storeSlot 0 0 (some 7) with bottom := 1 }

theorem inv_holdsSeven : Inv holdsSeven .idle where
  top_nonneg := le_refl _
  top_le := by decide
  fits := by decide
  full i h0 h1 := by
    have h0 : (0 : Int) ≤ i := h0
    have h1 : i < 1 := h1
    obtain rfl : i = 0 := by omega
    decide
  array_lt := by decide
  at_pc := trivial

/-- Three workers, of which the first is about to search and the last has a task. -/
def searcher : Impl 3 0 Nat := ((init 3 0 Nat).setDeque 2 holdsSeven).setWorker 0 .popGlobal

theorem deques_searcher {j : Fin 3} (h : j ≠ 2) :
    searcher.deques j = .new 1024 ⟨10, by decide⟩ := Function.update_of_ne h ..

theorem steal_from_others_finds_seven :
    ∃ t h, (watching 0 (0 : Fin 3)).Repeats (.step (.worker 0)) (searcher, []) (t, [h]) ∧
    h.result = some (some 7) ∧ remaining (t.deques 2) = [] := by
  have hinv : ∀ j : Fin 3, j ≠ 0 → Inv (searcher.deques j) .idle := by
    intro j _
    by_cases hj : j = 2
    · subst hj; exact inv_holdsSeven
    · rw [deques_searcher hj]
      exact inv_new ..
  obtain ⟨t, h, r, hrun, -, hr, hnone, -, hsome⟩ :=
    (steal_from_others_searches (m := 0) (τ := Nat) (by decide) (0 : Fin 3)).2.2 searcher rfl rfl hinv
  have hseven : remaining (searcher.deques 2) = [7] := by decide
  cases r with
  | none =>
    have := hnone.1 rfl 2 (by decide)
    rw [hseven] at this
    cases this
  | some x =>
    obtain ⟨-, j, -, l, -, -, hx, hl, -⟩ := hsome x rfl
    have hj : j = 2 := by
      by_contra hj
      rw [deques_searcher hj] at hx
      cases hx
    subst hj
    rw [hseven] at hx
    cases hx
    exact ⟨t, h, hrun, hr, hl⟩

end AsyncRuntime.Pool
