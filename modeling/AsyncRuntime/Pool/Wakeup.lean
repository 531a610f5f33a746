import AsyncRuntime.Pool.Shutdown
import AsyncRuntime.Pool.Supply
/-!
# No lost wake-up

A worker blocks when it has looked at every queue under the mutex and found
nothing, although none of the queues is locked while it looks. What it has seen
holds until it blocks in this sense: a queue it has passed holds no task but
those of `enqueue` calls that will find the worker counted in `sleeping_workers`
and wait for its mutex, and the last task of a deque whose owner is about to pop
it. So the supply is not negative when the worker blocks, and from there on
`Effect.supply` keeps it so while anyone is blocked.
-/

namespace AsyncRuntime.Pool
open Lib Deque

variable {n m : Nat} {τ : Type} {s s' : Impl n m τ} {a : Act n m τ} {d d' : WorkStealingDeque τ}

/-! ## What a look misses -/

/-- The owner's pop has lowered `bottom_` and not decided yet. -/
def undecided (d : WorkStealingDeque τ) (pc : WorkerPc n τ) : Bool := pc.owner.pending && (held d pc).isNone

/-- How many tasks a look at the deque may miss. -/
def cover (d : WorkStealingDeque τ) (pc : WorkerPc n τ) : Int := ind pc.published + ind (undecided d pc)

theorem cover_nonneg (pc : WorkerPc n τ) : 0 ≤ cover d pc := by
  have := ind_nonneg pc.published
  have := ind_nonneg (undecided d pc)
  unfold cover; omega

/-- A deque changes, and no more tasks come into sight than are covered. -/
def Eases (d : WorkStealingDeque τ) (pc : WorkerPc n τ) (d' : WorkStealingDeque τ) (pc' : WorkerPc n τ) : Prop :=
  size d' pc' = 0 ∨ d.top ≤ d'.top ∧ size d' pc' + cover d pc ≤ size d pc + cover d' pc' ∧
    d'.top + size d' pc' + cover d pc ≤ d.top + size d pc + cover d' pc'

theorem Eases.of_top_eq {pc pc' : WorkerPc n τ} (ht : d'.top = d.top)
    (h : size d' pc' + cover d pc ≤ size d pc + cover d' pc') : Eases d pc d' pc' :=
  .inr ⟨ht.ge, h, by omega⟩

theorem Eases.refl (d : WorkStealingDeque τ) (pc : WorkerPc n τ) : Eases d pc d pc := .of_top_eq rfl (le_refl _)

/-- The worker moves without an access to its deque. -/
theorem Eases.of_move {pc pc' : WorkerPc n τ} (hs : size d pc' = size d pc) (hc : cover d pc ≤ cover d pc') :
    Eases d pc d pc' := .of_top_eq rfl (by omega)

theorem size_of_searching {pc : WorkerPc n τ} (h : pc.searching = true) :
    size d pc = (window d.cur.load d.top d.bottom).length := by
  rw [size, owner_of_searching h]; rfl

theorem cover_of_searching {pc : WorkerPc n τ} (h : pc.searching = true) : cover d pc = 0 := by
  have hp : pc.published = false := by cases pc <;> first | rfl | cases h
  rw [cover, undecided, owner_of_searching h, hp]; rfl

theorem Move.eases {w : Fin n} {pc pc' : WorkerPc n τ} (h : Move s w pc pc')
    (hs : ∀ x, pc = .running x (some .loadSleeping) → 0 < s.sleeping) : Eases d pc d pc' := by
  cases h with
  | search h₁ h₂ =>
    refine .of_move ?_ ?_
    · rw [size_of_searching h₁, size_of_searching h₂]
    · rw [cover_of_searching h₁, cover_of_searching h₂]
  | noSleepers hle =>
    have := hs _ rfl
    omega
  | _ => exact .of_move rfl (le_refl _)

theorem Locks.eases {pc pc' : WorkerPc n τ} (h : Locks pc pc') : Eases d pc d pc' := by
  cases h <;> exact .of_move rfl (le_refl _)

theorem Unlocks.eases {pc pc' : WorkerPc n τ} (h : Unlocks pc pc') : Eases d pc d pc' := by
  cases h <;> exact .of_move rfl (le_refl _)

theorem eases_start {pc : WorkerPc n τ} {x : τ} (h : pc.got = some x) :
    Eases d pc d (.running x none : WorkerPc n τ) := by
  cases pc with
  | popping p => cases p <;> cases h; exact .of_move rfl (le_refl _)
  | stealing spin start i q =>
    cases q with
    | none => cases h
    | some q => cases q <;> cases h; exact .of_move rfl (le_refl _)
  | _ => cases h

/-! ## Accesses to a deque -/

theorem size_eq_zero {pc : WorkerPc n τ} (h : contents d pc.owner = []) : size d pc = 0 := by
  rw [size, h]; rfl

theorem eases_pop {p : OwnerPc τ} (h : Inv d p) (hp : p.isPop = true) :
    Eases d (.popping p : WorkerPc n τ) (ownerStep d p).1 (.popping (ownerStep d p).2) := by
  have htop := ownerStep_top h
  have hpend := ownerStep_pending h
  have heff := (ownerStep_ok h).effect
  generalize (ownerStep d p).1 = d' at *
  generalize (ownerStep d p).2 = p' at *
  rcases htop with htop | hnil
  · cases heff with
    | quiet hc _ ht =>
      by_cases hnil : contents d' p' = []
      · exact .inl (size_eq_zero hnil)
      · refine .of_top_eq htop ?_
        have hle : ind (undecided d (.popping p : WorkerPc n τ)) ≤ ind (undecided d' (.popping p' : WorkerPc n τ)) := by
          simp only [undecided, WorkerPc.owner, held, ht]
          cases hp' : p.pending with
          | false => exact ind_nonneg _
          | true =>
            rcases hpend hp' with hp'' | hsome | h'
            · rw [hp'']
            · rw [ht] at hsome
              obtain ⟨y, hy⟩ := Option.isSome_iff_exists.1 hsome
              simp [hy]
            · exact absurd h' hnil
        simp only [size, WorkerPc.owner, hc, cover, WorkerPc.published]
        omega
    | push y _ hy => rw [input_of_isPop hp] at hy; cases hy
    | pop y hc _ _ ht ht' =>
      -- the popped task is out of sight, so the pop need not be covered any more
      refine .of_top_eq htop ?_
      have := ind_le_one (undecided d (.popping p : WorkerPc n τ))
      have := ind_nonneg (undecided d' (.popping p' : WorkerPc n τ))
      simp only [size, WorkerPc.owner, hc, cover, WorkerPc.published, List.length_append, List.length_singleton]
      push_cast
      omega
  · exact .inl (size_eq_zero hnil)

theorem eases_push {p : OwnerPc τ} (h : Inv d p) (hp : p.isPush = true) (x : τ) :
    Eases d (.running x (some (.push p)) : WorkerPc n τ) (ownerStep d p).1
      (.running x (some (.push (ownerStep d p).2))) := by
  have htop := ownerStep_top h
  have heff := (ownerStep_ok h).effect
  have hp' := isPush_ownerStep (d := d) hp
  generalize (ownerStep d p).1 = d' at *
  generalize (ownerStep d p).2 = p' at *
  rcases htop with htop | hnil
  · refine .of_top_eq htop ?_
    simp only [size, cover, undecided, WorkerPc.owner, WorkerPc.published, EnqPc.published, pending_of_isPush hp,
      pending_of_isPush hp', Bool.false_and]
    cases heff with
    | quiet hc hi _ => rw [hc, hi]
    | push y hc hi hi' =>
      rw [hc, hi, hi', List.length_append]
      simp
    | pop y _ _ _ _ ht => rw [taken_of_isPush hp'] at ht; cases ht
  · exact .inl (size_eq_zero hnil)

/-- A steal takes a task out of sight and moves `top_` past it. -/
theorem eases_stolen {pc : WorkerPc n τ} {q q' : ThiefPc τ} (hi : Inv d pc.owner)
    (h : ThiefStepOk d pc.owner q d' q') : Eases d pc d' pc := by
  have hback : back d' pc.owner = back d pc.owner := by simp only [back, h.bottom]
  have h₁ := hi.length_contents
  have h₂ := h.inv.length_contents
  have hcov : cover d' pc = cover d pc := by simp only [cover, undecided, held_congr h.taken]
  have htop := h.top
  right
  simp only [size, hcov]
  omega

/-! ## What a look has seen -/

/-- The global queue holds no task but those of `enqueue` calls in progress. -/
def GlobalOk (s : Impl n m τ) : Prop := (s.global.length : Int) ≤ ∑ i, ind (s.ext i).published

/-- Deque `j` holds no task but those covered. -/
def Checked (s : Impl n m τ) (j : Fin n) : Prop := size (s.deques j) (s.worker j) ≤ cover (s.deques j) (s.worker j)

/-- The look has loaded `b` from `bottom_` of deque `j`. -/
def Seen (s : Impl n m τ) (j : Fin n) (b : Int) : Prop :=
  (s.deques j).top + size (s.deques j) (s.worker j) ≤ max b (s.deques j).top + cover (s.deques j) (s.worker j)

/-- What a look has established about the deques so far. -/
def Scanned (s : Impl n m τ) : LookPc n → Prop
  | .global => True
  | .bottom j => ∀ k, k < j → Checked s k
  | .top j b => (∀ k, k < j → Checked s k) ∧ Seen s j b

/-- What a look of the predicate has established so far. -/
def Looked (s : Impl n m τ) : LookPc n → Prop
  | .global => True
  | .bottom j => GlobalOk s ∧ ∀ k, k < j → Checked s k
  | .top j b => GlobalOk s ∧ (∀ k, k < j → Checked s k) ∧ Seen s j b

/-- What a worker that evaluates the predicate, or is about to block, knows. -/
def Watch (s : Impl n m τ) : WorkerPc n τ → Prop
  | .look .pred l => Looked s l
  | .wait => GlobalOk s ∧ ∀ k, Checked s k
  | _ => True

/-- The worker evaluates the predicate of `cv.wait` or is about to block. -/
def WorkerPc.looking : WorkerPc n τ → Bool
  | .look .pred _ | .wait => true
  | _ => false

/-- Every deque changes only by what is covered. -/
def AllEase (s s' : Impl n m τ) : Prop := ∀ j, Eases (s.deques j) (s.worker j) (s'.deques j) (s'.worker j)

theorem AllEase.checked (h : AllEase s s') {j : Fin n} (hc : Checked s j) : Checked s' j := by
  have hcov := cover_nonneg (d := s'.deques j) (s'.worker j)
  unfold Checked at *
  rcases h j with h0 | ⟨-, hle, -⟩ <;> omega

theorem AllEase.seen (h : AllEase s s') {j : Fin n} {b : Int} (hs : Seen s j b) : Seen s' j b := by
  have hcov := cover_nonneg (d := s'.deques j) (s'.worker j)
  unfold Seen at *
  rcases h j with h0 | ⟨htop, -, hle⟩
  · have := le_max_right b (s'.deques j).top
    omega
  · have := max_le_max_left b htop
    omega

theorem Scanned.mono (h : AllEase s s') {l : LookPc n} (hl : Scanned s l) : Scanned s' l := by
  cases l with
  | global => trivial
  | bottom j => exact fun k hk => h.checked (hl k hk)
  | top j b => exact ⟨fun k hk => h.checked (hl.1 k hk), h.seen hl.2⟩

theorem Watch.mono (h : AllEase s s') (hg : GlobalOk s → GlobalOk s') {pc : WorkerPc n τ} (hw : Watch s pc) :
    Watch s' pc := by
  unfold Watch at *
  split
  · next l =>
    cases l with
    | global => trivial
    | bottom j => exact ⟨hg hw.1, fun k hk => h.checked (hw.2 k hk)⟩
    | top j b => exact ⟨hg hw.1, fun k hk => h.checked (hw.2.1 k hk), h.seen hw.2.2⟩
  · exact ⟨hg hw.1, fun k => h.checked (hw.2 k)⟩
  · trivial

/-! ## One access of the look -/

theorem globalOk_of_empty (h : s.global.isEmpty = true) : GlobalOk s := by
  unfold GlobalOk
  rw [List.isEmpty_iff.1 h]
  exact Finset.sum_nonneg fun i _ => ind_nonneg _

/-- At its load of `bottom_` the look misses the task of a pop in progress and no
other. -/
theorem Safe.seen_bottom (h : Safe s) (j : Fin n) : Seen s j (s.deques j).bottom := by
  have hinv := h.inv j
  have hlen := hinv.length_contents
  have hcov := cover_nonneg (d := s.deques j) (s.worker j)
  unfold Seen size
  cases hp : (s.worker j).owner.pending with
  | false =>
    have := back_of_not_pending (d := s.deques j) hp
    have := le_max_left (s.deques j).bottom (s.deques j).top
    omega
  | true =>
    obtain ⟨p, hpc⟩ := h.popping_of_pending hp
    rw [hpc] at hp hlen hinv hcov ⊢
    cases ht : (taken (s.deques j) p).isSome with
    | true =>
      have := hinv.back_of_taken hp ht
      have := le_max_right (s.deques j).bottom (s.deques j).top
      omega
    | false =>
      have hone : cover (s.deques j) (.popping p : WorkerPc n τ) = 1 := by
        have hn : (taken (s.deques j) p).isNone = true := by simpa using ht
        have hp : p.pending = true := hp
        simp only [cover, WorkerPc.published, undecided, WorkerPc.owner, held, hp, hn, Bool.and_self, ind_true,
          ind_false, zero_add]
      have hback : back (s.deques j) (WorkerPc.popping p : WorkerPc n τ).owner = (s.deques j).bottom + 1 := by
        rw [back, if_pos hp]
      have := le_max_left (s.deques j).bottom (s.deques j).top
      omega

theorem scanned_from {j : Nat} (hc : ∀ k : Fin n, k.val < j → Checked s k) :
    (∀ l, lookFrom n j = .inl l → Scanned s l) ∧ (lookFrom n j = .inr false → ∀ k, Checked s k) := by
  unfold lookFrom
  split
  · refine ⟨?_, nofun⟩
    rintro l ⟨⟩
    exact fun k hk => hc k hk
  · next hj => exact ⟨nofun, fun _ k => hc k (lt_of_lt_of_le k.isLt (not_lt.1 hj))⟩

/-- A look goes on with what it has established, or has found nothing in any
deque. -/
theorem Scanned.step (h : Safe s) {l : LookPc n} (hl : Scanned s l) :
    (∀ l', lookStep s l = .inl l' → Scanned s l') ∧ (lookStep s l = .inr false → ∀ k, Checked s k) := by
  cases l with
  | global =>
    simp only [lookStep]
    split
    · exact scanned_from fun k hk => absurd hk (Nat.not_lt_zero _)
    · exact ⟨nofun, nofun⟩
  | bottom j =>
    refine ⟨?_, nofun⟩
    rintro l' ⟨⟩
    exact ⟨hl, h.seen_bottom j⟩
  | top j b =>
    obtain ⟨hc, hseen⟩ := hl
    simp only [lookStep]
    split
    · next hb =>
      have hj : Checked s j := by
        unfold Seen at hseen
        unfold Checked
        rw [max_eq_right hb] at hseen
        omega
      refine scanned_from fun k hk => ?_
      rcases Nat.lt_succ_iff_lt_or_eq.1 hk with hk | hk
      · exact hc k hk
      · rw [Fin.ext hk]; exact hj
    · exact ⟨nofun, nofun⟩

theorem Looked.scanned {l : LookPc n} (h : Looked s l) : Scanned s l := by
  cases l with
  | global => trivial
  | bottom j => exact h.2
  | top j b => exact h.2

theorem Scanned.looked (hg : GlobalOk s) {l : LookPc n} (h : Scanned s l) : Looked s l := by
  cases l with
  | global => trivial
  | bottom j => exact ⟨hg, h⟩
  | top j b => exact ⟨hg, h⟩

/-- A look that goes on, or ends with nothing found, has found the global queue
empty. -/
theorem Looked.globalOk {l : LookPc n} (h : Looked s l) (hl : lookStep s l ≠ .inr true) : GlobalOk s := by
  cases l with
  | global =>
    simp only [lookStep] at hl
    split at hl
    · next he => exact globalOk_of_empty he
    · exact absurd rfl hl
  | bottom j => exact h.1
  | top j b => exact h.1

/-- A look goes on with what it has established, or has found nothing at all. -/
theorem Looked.step (h : Safe s) {l : LookPc n} (hl : Looked s l) :
    (∀ l', lookStep s l = .inl l' → Looked s l') ∧
    (lookStep s l = .inr false → GlobalOk s ∧ ∀ k, Checked s k) := by
  obtain ⟨hnext, hend⟩ := hl.scanned.step h
  refine ⟨fun l' hl' => ?_, fun he => ?_⟩
  · exact (hnext l' hl').looked (hl.globalOk (by rw [hl']; nofun))
  · exact ⟨hl.globalOk (by rw [he]; nofun), hend he⟩

theorem Move.watch (h : Safe s) {w : Fin n} {pc pc' : WorkerPc n τ} (hm : Move s w pc pc') (hw : Watch s pc) :
    Watch s pc' := by
  cases hm with
  | search _ h₂ => cases pc' <;> trivial
  | @look site l l' hl =>
    cases site with
    | first => trivial
    | pred => exact (Looked.step h hw).1 l' hl
  | emptyPred hl => exact (Looked.step h hw).2 hl
  | _ => trivial

/-! ## What the other threads do meanwhile -/

theorem holds_of_looking {pc : WorkerPc n τ} (h : pc.looking = true) : pc.holds = true := by
  cases pc <;> first | rfl | cases h

theorem counted_of_looking {pc : WorkerPc n τ} (h : pc.looking = true) : pc.counted = true := by
  cases pc with
  | look site l => cases site <;> first | rfl | cases h
  | wait => rfl
  | _ => cases h

theorem not_looking_of_atWork {pc : WorkerPc n τ} (h : pc.atWork = true) : pc.looking = false := by
  cases pc <;> first | rfl | cases h

theorem Locks.not_looking {pc pc' : WorkerPc n τ} (h : Locks pc pc') : pc'.looking = false := by
  cases h <;> rfl

theorem Unlocks.not_looking {pc pc' : WorkerPc n τ} (h : Unlocks pc pc') : pc'.looking = false := by
  cases h <;> rfl

theorem AllEase.of_worker {w : Fin n} {pc : WorkerPc n τ} (hd : ∀ j, j ≠ w → s'.deques j = s.deques j)
    (hw : s'.worker = Function.update s.worker w pc) (h : Eases (s.deques w) (s.worker w) (s'.deques w) pc) :
    AllEase s s' := by
  intro j
  by_cases e : j = w
  · subst e; rw [hw, Function.update_self]; exact h
  · rw [hw, Function.update_of_ne e, hd j e]; exact .refl ..

theorem AllEase.of_eq (hd : s'.deques = s.deques) (hw : s'.worker = s.worker) : AllEase s s' := by
  intro j
  rw [hd, hw]; exact .refl ..

/-- Every step eases every deque, but for an `enqueue` of a task that finds no
sleepers, and for one that notifies. -/
theorem Effect.allEase (e : Effect s a s') (h : Safe s)
    (hload : ∀ v x, s.worker v = .running x (some .loadSleeping) → 0 < s.sleeping)
    (hnotify : ∀ v x, s.worker v ≠ .running x (some .notify)) : AllEase s s' := by
  cases e with
  | pop v p hv =>
    obtain ⟨hi, hc⟩ := h.popping hv
    refine .of_worker (s := s) (fun j hj => Function.update_of_ne hj ..) rfl ?_
    simp only [Impl.setWorker, Impl.setDeque, Function.update_self, hv]
    exact eases_pop hi hc
  | push v x p hv =>
    obtain ⟨hi, hc⟩ := h.pushing hv
    refine .of_worker (s := s) (fun j hj => Function.update_of_ne hj ..) rfl ?_
    simp only [Impl.setWorker, Impl.setDeque, Function.update_self, hv]
    exact eases_push hi hc x
  | steal v spin start i q hv =>
    obtain ⟨hne, hq⟩ := h.stealing hv
    have hok := thiefStep_ok (h.inv _) hq
    intro j
    by_cases ev : j = v
    · subst ev
      simp only [Impl.setWorker, Impl.setDeque, Function.update_self, Function.update_of_ne hne.symm, hv]
      exact .of_move rfl (le_refl _)
    · simp only [Impl.setWorker, Impl.setDeque, Function.update_of_ne ev]
      by_cases ej : j = target v start i
      · subst ej; rw [Function.update_self]; exact eases_stolen (h.inv _) hok
      · rw [Function.update_of_ne ej]; exact .refl ..
  | start v x hgot => exact .of_worker (fun _ _ => rfl) rfl (eases_start hgot)
  | take v x g hpg =>
    have hsch := searching_of_popsGlobal hpg
    refine .of_worker (s := s) (fun _ _ => rfl) rfl (.of_move ?_ ?_)
    · rw [size_of_searching hsch]; rfl
    · rw [cover_of_searching hsch]; exact cover_nonneg _
  | move v pc rng hm => exact .of_worker (fun _ _ => rfl) rfl (hm.eases (hload v))
  | lock v pc _ hl => exact .of_worker (fun _ _ => rfl) rfl hl.eases
  | unlock v pc hu => exact .of_worker (fun _ _ => rfl) rfl hu.eases
  | incSleeping v hv | decSleeping v hv | finish v x hv | spawn v y x hv =>
    exact .of_worker (fun _ _ => rfl) rfl (by rw [hv]; exact .of_move rfl (le_refl _))
  | notify v x u hv | notifyNone v x hv => exact absurd hv (hnotify v x)
  | extNotify i v hi hv =>
    exact .of_worker (s := s) (fun _ _ => rfl) rfl (by rw [hv]; exact .of_move rfl (le_refl _))
  | spurious v hv => exact .of_worker (fun _ _ => rfl) rfl (by rw [hv]; exact .of_move rfl (le_refl _))
  | notifyAll =>
    intro j
    rcases notifyAll_worker s j with hj | ⟨hj, hj'⟩
    · simp only [hj]; exact .refl ..
    · simp only [hj, hj']; exact .of_move rfl (le_refl _)
  | call | publish | extMove | extLock | extUnlock | extNotifyNone | dtorMove | storeStop | dtorLock | dtorUnlock
  | destroy | destroyGlobal => exact .of_eq rfl rfl

/-- While a worker evaluates the predicate, the other threads ease every deque:
none of them can take the mutex, and none of them sees no sleeper. -/
theorem Effect.ease (e : Effect s a s') (h : Safe s) (hl : Locked s) {w : Fin n} (hw : (s.worker w).looking = true) :
    AllEase s s' := by
  refine e.allEase h (fun _ _ _ => hl.sleeping_pos (counted_of_looking hw)) fun v x hv => ?_
  have hhold : s.holds (.worker w) = true := holds_of_looking hw
  cases hl.holder_unique (θ := .worker v) (by simp only [Impl.holds, hv]; rfl) hhold
  rw [hv] at hw; cases hw

theorem GlobalOk.mono (hg : GlobalOk s) (he : ∀ i, ind (s.ext i).published ≤ ind (s'.ext i).published)
    (hlen : s'.global.length ≤ s.global.length) : GlobalOk s' := by
  have hsum := Finset.sum_le_sum fun i (_ : i ∈ Finset.univ) => he i
  unfold GlobalOk at *
  omega

theorem Effect.globalOk (e : Effect s a s') (hl : Locked s) {w : Fin n} (hw : (s.worker w).looking = true)
    (hg : GlobalOk s) : GlobalOk s' := by
  have hhold : s.holds (.worker w) = true := holds_of_looking hw
  have hsleep := hl.sleeping_pos (counted_of_looking hw)
  have none : ∀ {i : Fin m}, (s.ext i).holds = false := by
    intro i
    by_contra hi
    cases hl.holder_unique (θ := .ext i) (by simpa [Impl.holds] using hi) hhold
  have same : ∀ i, ind (s.ext i).published ≤ ind (s.ext i).published := fun _ => le_refl _
  cases e with
  | take v x g _ hx =>
    refine hg.mono same ?_
    rw [hx]; exact Nat.le_succ _
  | call i x hi | extLock i _ hi | extUnlock i hi =>
    exact hg.mono (published_setExt (by rw [hi]; exact le_refl _)) (le_refl _)
  | publish i x hi =>
    have hsum := sum_change
      (f := fun j => ind (Function.update s.ext i (.enqueue .loadSleeping : ExtPc n τ) j).published)
      (g := fun j => ind (s.ext j).published) i fun j hj => by rw [Function.update_of_ne hj]
    rw [Function.update_self, hi] at hsum
    have hsum : (∑ j, ind (Function.update s.ext i (.enqueue .loadSleeping : ExtPc n τ) j).published) + 0 =
        (∑ j, ind (s.ext j).published) + 1 := hsum
    unfold GlobalOk at *
    simp only [Impl.setExt, List.length_append, List.length_singleton]
    push_cast
    omega
  | extMove i pc _ _ hm =>
    rcases hm.published_le with hle | hs
    · exact hg.mono (published_setExt hle) (le_refl _)
    · omega
  | extNotify i v hi | extNotifyNone i hi =>
    have := none (i := i)
    rw [hi] at this; cases this
  | _ => exact hg.mono same (le_refl _)

/-! ## The invariants -/

/-- Every worker that evaluates the predicate knows what it has seen. -/
def Watching (s : Impl n m τ) : Prop := ∀ w, Watch s (s.worker w)

theorem watch_of_not_looking {pc : WorkerPc n τ} (h : pc.looking = false) : Watch s pc := by
  unfold Watch
  split
  · cases h
  · cases h
  · trivial

/-- A worker comes to evaluate the predicate by its own moves. -/
theorem Effect.to_looking (e : Effect s a s') {w : Fin n} (hw : (s'.worker w).looking = true) :
    s'.worker w = s.worker w ∨ Move s w (s.worker w) (s'.worker w) ∧ s'.deques = s.deques ∧ s'.ext = s.ext ∧
      s'.global = s.global ∧ s'.worker = Function.update s.worker w (s'.worker w) := by
  cases e.worker w with
  | stays h => exact .inl h
  | woken _ h => rw [h] at hw; cases hw
  | works _ _ h => rw [not_looking_of_atWork h] at hw; cases hw
  | moves _ hm hs =>
    rw [hs.worker_self]
    exact .inr ⟨hm, hs.deques, hs.ext, hs.global, hs.worker⟩
  | locks _ _ hl hs => rw [hs.worker_self, hl.not_looking] at hw; cases hw
  | unlocks _ hl hs => rw [hs.worker_self, hl.not_looking] at hw; cases hw
  | incSleeping _ _ hs | decSleeping _ _ hs => rw [hs.worker_self] at hw; cases hw

theorem Watching.effect (h : Watching s) (hs : Safe s) (hl : Locked s) (e : Effect s a s') : Watching s' := by
  intro w
  cases hw : (s'.worker w).looking with
  | false => exact watch_of_not_looking hw
  | true =>
    rcases e.to_looking hw with hsame | ⟨hm, hd, he, hg, hupd⟩
    · have hw₀ : (s.worker w).looking = true := by rw [← hsame]; exact hw
      rw [hsame]
      exact (h w).mono (e.ease hs hl hw₀) (e.globalOk hl hw₀)
    · have hcounted : (s.worker w).counted = true := by
        rw [← hm.counted_eq]; exact counted_of_looking hw
      refine (hm.watch hs (h w)).mono ?_ ?_
      · exact .of_worker (fun _ _ => by rw [hd]) hupd (by rw [hd]; exact hm.eases fun _ _ => hl.sleeping_pos hcounted)
      · intro hok
        unfold GlobalOk at *
        rw [hg, he]; exact hok

/-- A worker in an undecided pop is free. -/
theorem undecided_le_free (pc : WorkerPc n τ) : ind (undecided d pc) ≤ ind (free d pc) := by
  cases hu : undecided d pc with
  | false => exact ind_nonneg _
  | true =>
    unfold undecided at hu
    obtain ⟨hp, hn⟩ := Bool.and_eq_true_iff.1 hu
    have hawake : pc.awake = true := by cases pc <;> first | rfl | cases hp
    rw [free, hawake, hn]; exact le_refl _

/-- When a worker blocks, every queued task has a worker that will look for it or
an `enqueue` that will wake one. -/
theorem supply_of_blocks {w : Fin n} (hw : s.worker w = .wait) (hwatch : Watch s (.wait : WorkerPc n τ))
    (hw' : s'.worker = Function.update s.worker w .blocked) (hd : s'.deques = s.deques) (he : s'.ext = s.ext)
    (hg : s'.global = s.global) : 0 ≤ supply s' := by
  obtain ⟨hglobal, hchecked⟩ := hwatch
  have hspare : ∀ j, 0 ≤ spare (s'.deques j) (s'.worker j) := by
    intro j
    have hj := hchecked j
    unfold Checked at hj
    rw [hd, hw']
    by_cases e : j = w
    · subst e
      rw [Function.update_self]
      rw [hw] at hj
      exact sub_nonneg.2 hj
    · rw [Function.update_of_ne e]
      have hfree := undecided_le_free (d := s.deques j) (s.worker j)
      unfold cover at hj
      unfold spare
      omega
  have hsum : 0 ≤ ∑ j, spare (s'.deques j) (s'.worker j) := Finset.sum_nonneg fun j _ => hspare j
  unfold GlobalOk at hglobal
  unfold supply
  rw [he, hg]
  omega

theorem Locks.not_blocked {pc pc' : WorkerPc n τ} (h : Locks pc pc') : pc'.isBlocked = false := by
  cases h <;> rfl

theorem Unlocks.of_blocked {pc : WorkerPc n τ} (h : Unlocks pc .blocked) : pc = .wait := by
  cases h; rfl

/-- A worker blocks in `cv.wait`, with the mutex. -/
theorem Effect.to_blocked (e : Effect s a s') {w : Fin n} (hw : s'.worker w = .blocked) :
    s.worker w = .blocked ∨ s.worker w = .wait ∧ s'.worker = Function.update s.worker w .blocked ∧
      s'.deques = s.deques ∧ s'.ext = s.ext ∧ s'.global = s.global := by
  cases e.worker w with
  | stays h => exact .inl (h ▸ hw)
  | woken h => exact .inl h
  | works _ _ h => rw [hw] at h; cases h
  | moves _ hm hs =>
    have hb := hm.not_blocked
    rw [← hs.worker_self, hw] at hb; cases hb
  | locks _ _ hl hs =>
    have hb := hl.not_blocked
    rw [← hs.worker_self, hw] at hb; cases hb
  | unlocks _ hl hs =>
    obtain rfl := hs.worker_self.symm.trans hw
    exact .inr ⟨hl.of_blocked, hs.worker, hs.deques, hs.ext, hs.global⟩
  | incSleeping _ _ hs | decSleeping _ _ hs => rw [hs.worker_self] at hw; cases hw

/-- While `stop` is not set and some worker is blocked, the supply covers the
demand. -/
def Conserved (s : Impl n m τ) : Prop := s.stop = false → ∀ w, s.worker w = .blocked → 0 ≤ supply s

theorem Conserved.effect (h : Conserved s) (hs : Safe s) (hl : Locked s) (hst : Stopping s) (hwatch : Watching s)
    (e : Effect s a s') : Conserved s' := by
  intro hstop' w hw
  have hstop : s.stop = false := by
    by_contra hne
    rw [e.stop_mono (by simpa using hne)] at hstop'; cases hstop'
  have blocks : ∀ {v : Fin n}, s.worker v = .wait → s'.worker = Function.update s.worker v .blocked →
      s'.deques = s.deques → s'.ext = s.ext → s'.global = s.global → 0 ≤ supply s' := by
    intro v hv
    have hwv := hwatch v
    rw [hv] at hwv
    exact supply_of_blocks hv hwv
  rcases e.to_blocked hw with hw₀ | ⟨hv, hv', hd, he, hg⟩
  · rcases e.supply hs with hle | hlow
    · exact (h hstop w hw₀).trans hle
    · cases hlow with
      | stopped hs' => rw [hstop] at hs'; cases hs'
      | left v hv =>
        have := hst.left v (by rw [hv]; rfl)
        rw [hstop] at this; cases this
      | noSleepers hle =>
        have := hl.sleeping_pos (w := w) (by rw [hw₀]; rfl)
        omega
      | noWaiters hnone => exact absurd hw (hnone w)
      | blocks v hv hv' hd he hg => exact blocks hv hv' hd he hg
  · exact blocks hv hv' hd he hg

theorem watching_of_run [DecidableEq τ] {acts : List (Act n m τ)} (h : (machine n m τ).Run acts s) : Watching s :=
  inv_of_run (fun _ => trivial) (fun hr e hw => hw.effect (safe_of_run hr) (locked_of_run hr) e) h

theorem conserved_of_run [DecidableEq τ] {acts : List (Act n m τ)} (h : (machine n m τ).Run acts s) : Conserved s := by
  refine inv_of_run nofun (fun hr e hc => ?_) h
  exact hc.effect (safe_of_run hr) (locked_of_run hr) (stopping_of_run hr) (watching_of_run hr) e

/-! ## Work conservation -/

/-- The tasks in the global queue and in all deques. -/
def queued (s : Impl n m τ) : Nat := s.global.length + ∑ j, (tasksAt s (.deque j)).length

/-- The workers that are awake or notified and hold no task. -/
def ready (s : Impl n m τ) : Nat := (Finset.univ.filter fun w => free (s.deques w) (s.worker w) = true).card

/-- While `stop` is not set and no `enqueue` is in progress, if some worker is
blocked in `cv.wait` without having been notified, there are no more queued tasks
than workers that are awake or notified and hold no task. -/
theorem work_conserving [DecidableEq τ] {acts : List (Act n m τ)} (h : (machine n m τ).Run acts s)
    (hstop : s.stop = false) (hworker : ∀ w x e, s.worker w ≠ .running x (some e))
    (hext : ∀ i e, s.ext i ≠ .enqueue e) {w : Fin n} (hw : s.worker w = .blocked) : queued s ≤ ready s := by
  have hsupply := conserved_of_run h hstop w hw
  have hpub : ∀ w, (s.worker w).published = false := by
    intro w
    cases hpc : s.worker w with
    | running x e =>
      cases e with
      | none => rfl
      | some e => exact absurd hpc (hworker w x e)
    | _ => rfl
  have hcall : ∀ i, (s.ext i).published = false := by
    intro i
    cases hpc : s.ext i with
    | enqueue e => exact absurd hpc (hext i e)
    | _ => rfl
  have hready : (ready s : Int) = ∑ w, ind (free (s.deques w) (s.worker w)) := by
    rw [ready, Finset.card_filter]
    push_cast
    rfl
  have hqueued : (queued s : Int) = s.global.length + ∑ j, size (s.deques j) (s.worker j) := by
    rw [queued]
    push_cast
    rfl
  simp only [supply, spare, hpub, hcall, ind_false, add_zero, Finset.sum_const_zero, Finset.sum_sub_distrib] at hsupply
  omega

/-- Both workers search, spin and block. A task comes from outside and its
`enqueue` notifies worker `w`. -/
def oneNotified {n m : Nat} (i : Fin m) (w v : Fin n) : List (Act n m Nat) := List.flatten
  [List.replicate 254 (.step (.worker w)), List.replicate 254 (.step (.worker v)), [.enqueue (.ext i) 7],
   List.replicate 3 (.step (.ext i)), [.notify (.ext i) (some w)], [.step (.ext i)]]

theorem work_conserving_one_notified : ∃ s, (machine 2 1 Nat).Run (oneNotified 0 0 1) s ∧ s.worker 1 = .blocked ∧
    queued s = 1 ∧ queued s ≤ ready s := by
  have hexec : ((machine 2 1 Nat).exec (oneNotified 0 0 1)).any (fun s => decide (s.stop = false ∧
      (∀ w, (s.worker w).task = none) ∧ (∀ i, (s.ext i).isIdle = true) ∧ (s.worker 1).isBlocked = true ∧
      queued s = 1)) = true := by decide +kernel
  obtain ⟨s, hrun, hstop, htask, hidle, hblocked, hqueued⟩ := Machine.exists_run_of_exec hexec
  have hw := isBlocked_iff.1 hblocked
  refine ⟨s, hrun, hw, hqueued, work_conserving hrun hstop ?_ ?_ hw⟩
  · intro w x e hpc
    have := htask w
    rw [hpc] at this; cases this
  · intro i e hpc
    have := hidle i
    rw [hpc] at this; cases this

end AsyncRuntime.Pool
