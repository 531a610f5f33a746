import AsyncRuntime.Deque.Invariants
import AsyncRuntime.Pool.Effects
/-!
# The workers' deques

Worker `w` is the owner of deque `w` and a thief at the others, so each deque is
used as `Deque.Model` allows, and its invariants hold between any two steps of
the pool. A worker that is past its own deque has found it empty, and since
nobody else pushes to it, it stays empty until the worker runs a task.
-/

namespace AsyncRuntime.Pool
open Lib Deque
variable {n m : Nat} {τ : Type}

/-! ## The worker at its own deque and at another one -/

/-- The worker's call on its own deque. -/
def WorkerPc.owner : WorkerPc n τ → OwnerPc τ
  | .popping p => p
  | .running _ (some (.push p)) => p
  | _ => .idle

/-- The worker's steal: from which deque, and where it stands. -/
def WorkerPc.thief (w : Fin n) : WorkerPc n τ → Option (Fin n × ThiefPc τ)
  | .stealing _ start i (some q) => some (target w start i, q)
  | _ => none

/-- The worker is neither popping its deque nor running a task. -/
def WorkerPc.drained : WorkerPc n τ → Bool
  | .popping _ | .running _ _ => false
  | _ => true

/-- A pop calls `pop`, and an `enqueue` from a task calls `push`. -/
def WorkerPc.callOk : WorkerPc n τ → Bool
  | .popping p => p.isPop
  | .running _ (some (.push p)) => p.isPush
  | .running _ (some (.pushGlobal _)) => false
  | _ => true

/-! ## The invariant -/

/-- Every deque between two steps of the pool. -/
structure Safe (s : Impl n m τ) : Prop where
  inv : ∀ j, Inv (s.deques j) (s.worker j).owner
  thief : ∀ w j q, (s.worker w).thief w = some (j, q) → j ≠ w ∧ ThiefOk (s.deques j) (s.worker j).owner q
  call : ∀ w, (s.worker w).callOk = true
  drained : ∀ w, (s.worker w).drained = true → (s.deques w).top = (s.deques w).bottom

theorem safe_init : Safe (init n m τ) where
  inv _ := inv_new 1024 _
  thief _ _ _ h := by cases h
  call _ := rfl
  drained _ _ := rfl

variable {s s' : Impl n m τ} {a : Act n m τ}

theorem Safe.not_pushGlobal (h : Safe s) (w : Fin n) (x y : τ) : s.worker w ≠ .running x (some (.pushGlobal y)) := by
  intro e
  have := h.call w
  rw [e] at this; cases this

/-- A worker in a `pop` of its deque. -/
theorem Safe.popping (h : Safe s) {w : Fin n} {p : OwnerPc τ} (hw : s.worker w = .popping p) :
    Inv (s.deques w) p ∧ p.isPop = true := by
  have hi := h.inv w
  have hc := h.call w
  rw [hw] at hi hc
  exact ⟨hi, hc⟩

/-- Only a `pop` lowers `bottom_`. -/
theorem Safe.popping_of_pending (h : Safe s) {w : Fin n} (hp : (s.worker w).owner.pending = true) :
    ∃ p, s.worker w = .popping p := by
  have hc := h.call w
  cases hw : s.worker w with
  | popping p => exact ⟨p, rfl⟩
  | running x e =>
    rw [hw] at hp hc
    cases e with
    | none => cases hp
    | some e =>
      cases e with
      | push p =>
        have hp : p.pending = true := hp
        rw [pending_of_isPush hc] at hp; cases hp
      | _ => cases hp
  | _ => rw [hw] at hp; cases hp

/-- A worker in the `push` of an `enqueue`. -/
theorem Safe.pushing (h : Safe s) {w : Fin n} {x : τ} {p : OwnerPc τ} (hw : s.worker w = .running x (some (.push p))) :
    Inv (s.deques w) p ∧ p.isPush = true := by
  have hi := h.inv w
  have hc := h.call w
  rw [hw] at hi hc
  exact ⟨hi, hc⟩

/-- A worker in a `steal` from another deque. -/
theorem Safe.stealing (h : Safe s) {w : Fin n} {spin : Option Nat} {start i : Nat} {q : ThiefPc τ}
    (hw : s.worker w = .stealing spin start i (some q)) :
    target w start i ≠ w ∧ ThiefOk (s.deques (target w start i)) (s.worker (target w start i)).owner q :=
  h.thief w _ q (by rw [hw]; rfl)

/-! ## Steps that access no deque -/

/-- The worker leaves no call undecided, begins at most a new call, and does not
claim its deque empty unless it is. -/
structure Quiet (d : WorkStealingDeque τ) (w : Fin n) (pc pc' : WorkerPc n τ) : Prop where
  before : pc.owner.pending = false
  after : pc'.owner.pending = false
  at_pc : AtPc d pc'.owner
  thief : ∀ j q, pc'.thief w = some (j, q) → j ≠ w ∧ q = .loadTop
  call : pc'.callOk = true
  drained : pc'.drained = true → pc.drained = true ∨ d.top = d.bottom

/-- Moving workers quietly keeps the deques safe. -/
theorem Safe.of_quiet (h : Safe s) (hd : s'.deques = s.deques)
    (hq : ∀ w, s'.worker w = s.worker w ∨ Quiet (s.deques w) w (s.worker w) (s'.worker w)) : Safe s' := by
  have frame : ∀ j, Frame (s.deques j) (s.worker j).owner (s.deques j) (s'.worker j).owner := by
    intro j
    apply (h.inv j).frame_read
    rcases hq j with e | q
    · rw [e]
    · rw [back_of_not_pending q.before, back_of_not_pending q.after]
  constructor
  · intro j
    rw [hd]
    apply (frame j).inv (h.inv j)
    rcases hq j with e | q
    · rw [e]; exact (h.inv j).at_pc
    · exact q.at_pc
  · intro w j q hw
    rw [hd]
    rcases hq w with e | hw'
    · rw [e] at hw
      exact ⟨(h.thief w j q hw).1, (frame j).thief (h.thief w j q hw).2⟩
    · obtain ⟨hne, rfl⟩ := hw'.thief j q hw
      exact ⟨hne, trivial⟩
  · intro w
    rcases hq w with e | hw
    · rw [e]; exact h.call w
    · exact hw.call
  · intro w hw
    rw [hd]
    rcases hq w with e | hw'
    · rw [e] at hw; exact h.drained w hw
    · rcases hw'.drained hw with hdr | ht
      · exact h.drained w hdr
      · exact ht

/-- One worker moves. -/
theorem Safe.of_move (h : Safe s) {w : Fin n} {pc : WorkerPc n τ} (hd : s'.deques = s.deques)
    (hw : s'.worker = Function.update s.worker w pc) (hq : Quiet (s.deques w) w (s.worker w) pc) : Safe s' := by
  refine h.of_quiet hd fun v => ?_
  by_cases e : v = w
  · subst e; right; rw [hw, Function.update_self]; exact hq
  · left; rw [hw, Function.update_of_ne e]

/-- No worker moves. -/
theorem Safe.of_eq (h : Safe s) (hd : s'.deques = s.deques) (hw : s'.worker = s.worker) : Safe s' :=
  h.of_quiet hd fun v => .inl (by rw [hw])

theorem owner_of_searching {pc : WorkerPc n τ} (h : pc.searching = true) : pc.owner = .idle := by
  cases pc <;> first | rfl | cases h

theorem callOk_of_searching {pc : WorkerPc n τ} (h : pc.searching = true) : pc.callOk = true := by
  cases pc <;> first | rfl | cases h

theorem drained_of_searching {pc : WorkerPc n τ} (h : pc.searching = true) : pc.drained = true := by
  cases pc <;> first | rfl | cases h

theorem thief_of_searching {pc : WorkerPc n τ} (h : pc.searching = true) (w : Fin n) : pc.thief w = none := by
  cases pc with
  | stealing spin start i q => cases q <;> first | rfl | cases h
  | _ => rfl

/-- A move to a point with no steal under way, from one whose deque was as drained. -/
theorem Quiet.of_thief_none {d : WorkStealingDeque τ} {w : Fin n} {pc pc' : WorkerPc n τ}
    (hpc : pc.owner.pending = false) (hpc' : pc'.owner.pending = false) (hat : AtPc d pc'.owner)
    (hthief : pc'.thief w = none) (hcall : pc'.callOk = true) (hdrained : pc'.drained = pc.drained) :
    Quiet d w pc pc' where
  before := hpc
  after := hpc'
  at_pc := hat
  thief j q hq := by rw [hthief] at hq; cases hq
  call := hcall
  drained hd := .inl (by rw [← hdrained]; exact hd)

theorem Move.quiet {w : Fin n} {pc pc' : WorkerPc n τ} (hm : Move s w pc pc') {d : WorkStealingDeque τ}
    (hd : Inv d pc.owner) : Quiet d w pc pc' := by
  cases hm with
  | popMiss => exact ⟨rfl, rfl, trivial, nofun, rfl, fun _ => .inr (hd.at_pc rfl)⟩
  | search h1 h2 =>
    have ho := owner_of_searching h2
    refine ⟨by rw [owner_of_searching h1]; rfl, by rw [ho]; rfl, by rw [ho]; trivial, ?_, callOk_of_searching h2,
      fun _ => .inl (drained_of_searching h1)⟩
    intro j q hq
    rw [thief_of_searching h2] at hq; cases hq
  | steal hne =>
    refine ⟨rfl, rfl, trivial, ?_, rfl, fun _ => .inl rfl⟩
    rintro j q ⟨⟩
    exact ⟨hne, rfl⟩
  | boot | pushed | sleepers | noSleepers => exact ⟨rfl, rfl, trivial, nofun, rfl, nofun⟩
  | stealMiss | exit | leave | lookFirst | lookPred | stopPred | look | foundFirst | emptyFirst | foundPred
  | emptyPred => exact .of_thief_none rfl rfl trivial rfl rfl rfl

theorem Locks.quiet {pc pc' : WorkerPc n τ} (h : Locks pc pc') (d : WorkStealingDeque τ) (w : Fin n) :
    Quiet d w pc pc' := by
  cases h with
  | sleep | woken => exact .of_thief_none rfl rfl trivial rfl rfl rfl
  | notify => exact ⟨rfl, rfl, trivial, nofun, rfl, nofun⟩

theorem Unlocks.quiet {pc pc' : WorkerPc n τ} (h : Unlocks pc pc') (d : WorkStealingDeque τ) (w : Fin n) :
    Quiet d w pc pc' := by
  cases h with
  | leave | wait => exact .of_thief_none rfl rfl trivial rfl rfl rfl
  | again | notify => exact ⟨rfl, rfl, trivial, nofun, rfl, nofun⟩

/-- A worker that begins to run a task, wherever it got it. -/
theorem quiet_start {pc : WorkerPc n τ} (h : pc.owner.pending = false) (d : WorkStealingDeque τ) (w : Fin n) (x : τ) :
    Quiet d w pc (.running x none) := ⟨h, rfl, trivial, nofun, rfl, nofun⟩

theorem quiet_notified (d : WorkStealingDeque τ) (w : Fin n) : Quiet d w .blocked .notified :=
  .of_thief_none rfl rfl trivial rfl rfl rfl

theorem pending_of_got {pc : WorkerPc n τ} {x : τ} (h : pc.got = some x) : pc.owner.pending = false := by
  cases pc with
  | popping p => cases p <;> first | rfl | cases h
  | stealing => rfl
  | _ => cases h

/-! ## Steps on a deque -/

/-- The owner makes an access. -/
theorem Safe.of_owner (h : Safe s) {w : Fin n} {pc : WorkerPc n τ} {d : WorkStealingDeque τ}
    (hok : OwnerOk (s.deques w) (s.worker w).owner d pc.owner) (hpc : pc.callOk = true)
    (hdr : pc.drained = false) (hth : pc.thief w = none) : Safe ((s.setDeque w d).setWorker w pc) := by
  constructor
  · intro j
    by_cases e : j = w
    · subst e; simpa [Impl.setWorker, Impl.setDeque] using hok.inv
    · simpa [Impl.setWorker, Impl.setDeque, e] using h.inv j
  · intro v j q hv
    by_cases ev : v = w
    · subst ev; simp [Impl.setWorker, hth] at hv
    · simp only [Impl.setWorker, Function.update_of_ne ev] at hv
      obtain ⟨hne, hq⟩ := h.thief v j q hv
      refine ⟨hne, ?_⟩
      by_cases e : j = w
      · subst e; simpa [Impl.setWorker, Impl.setDeque] using hok.thief q hq
      · simpa [Impl.setWorker, Impl.setDeque, e] using hq
  · intro v
    by_cases e : v = w
    · subst e; simpa [Impl.setWorker] using hpc
    · simpa [Impl.setWorker, Impl.setDeque, e] using h.call v
  · intro v hv
    by_cases e : v = w
    · subst e; simp [Impl.setWorker, hdr] at hv
    · simp only [Impl.setWorker, Function.update_of_ne e] at hv
      simpa [Impl.setWorker, Impl.setDeque, e] using h.drained v hv

/-- A thief at deque `j` makes an access. -/
theorem Safe.of_thief (h : Safe s) {w j : Fin n} {pc : WorkerPc n τ} {d : WorkStealingDeque τ} {q q' : ThiefPc τ}
    (hpc : (s.worker w).thief w = some (j, q)) (hpc' : pc.thief w = some (j, q')) (ho : pc.owner = (s.worker w).owner)
    (hcall : pc.callOk = true) (hdr : (s.worker w).drained = true)
    (hok : ThiefStepOk (s.deques j) (s.worker j).owner q d q') : Safe ((s.setDeque j d).setWorker w pc) := by
  have howner : ∀ v, (((s.setDeque j d).setWorker w pc).worker v).owner = (s.worker v).owner := by
    intro v
    by_cases e : v = w
    · subst e; simpa [Impl.setWorker, Impl.setDeque] using ho
    · simp [Impl.setWorker, Impl.setDeque, e]
  have hle : d.top ≤ back d (s.worker j).owner := hok.inv.top_le
  constructor
  · intro v
    rw [howner]
    by_cases e : v = j
    · subst e; simpa [Impl.setWorker, Impl.setDeque] using hok.inv
    · simpa [Impl.setWorker, Impl.setDeque, e] using h.inv v
  · intro v k r hv
    rw [howner]
    have hr : k ≠ v ∧ (ThiefOk (s.deques k) (s.worker k).owner r ∨ k = j ∧ r = q') := by
      by_cases ev : v = w
      · subst ev
        simp only [Impl.setWorker, Function.update_self, hpc', Option.some.injEq, Prod.mk.injEq] at hv
        obtain ⟨rfl, rfl⟩ := hv
        exact ⟨(h.thief v j q hpc).1, .inr ⟨rfl, rfl⟩⟩
      · simp only [Impl.setWorker, Function.update_of_ne ev] at hv
        exact ⟨(h.thief v k r hv).1, .inl (h.thief v k r hv).2⟩
    refine ⟨hr.1, ?_⟩
    by_cases ek : k = j
    · subst ek
      simp only [Impl.setWorker, Impl.setDeque, Function.update_self]
      rcases hr.2 with hr | ⟨-, rfl⟩
      · exact hok.other r hr
      · exact hok.self
    · simp only [Impl.setWorker, Impl.setDeque, Function.update_of_ne ek]
      rcases hr.2 with hr | ⟨e, -⟩
      · exact hr
      · exact absurd e ek
  · intro v
    by_cases e : v = w
    · subst e; simpa [Impl.setWorker] using hcall
    · simpa [Impl.setWorker, Impl.setDeque, e] using h.call v
  · -- a thief cannot take anything from a deque that its owner has found empty
    intro v hv
    have hv' : (s.worker v).drained = true := by
      by_cases e : v = w
      · rw [e]; exact hdr
      · simpa [Impl.setWorker, Impl.setDeque, e] using hv
    have hvd := h.drained v hv'
    by_cases e : v = j
    · subst e
      simp only [Impl.setWorker, Impl.setDeque, Function.update_self]
      have hidle : back d (s.worker v).owner = d.bottom := by
        apply back_of_not_pending
        generalize s.worker v = pc at hv'
        cases pc <;> first | rfl | cases hv'
      have := hok.top; have := hok.bottom
      omega
    · simpa [Impl.setWorker, Impl.setDeque, e] using hvd

/-! ## Every step -/

theorem Safe.effect (h : Safe s) (e : Effect s a s') : Safe s' := by
  cases e with
  | pop w p hw =>
    obtain ⟨hi, hc⟩ := h.popping hw
    exact h.of_owner (by rw [hw]; exact ownerStep_ok hi) (isPop_ownerStep hc) rfl rfl
  | push w x p hw =>
    obtain ⟨hi, hc⟩ := h.pushing hw
    exact h.of_owner (by rw [hw]; exact ownerStep_ok hi) (isPush_ownerStep hc) rfl rfl
  | steal w spin start i q hw =>
    have hth : (s.worker w).thief w = some (target w start i, q) := by rw [hw]; rfl
    exact h.of_thief hth rfl (by rw [hw]; rfl) rfl (by rw [hw]; rfl)
      (thiefStep_ok (h.inv _) (h.stealing hw).2)
  | start w x hgot => exact h.of_move rfl rfl (quiet_start (pending_of_got hgot) _ w x)
  | take w x g hpg =>
    refine h.of_move rfl rfl (quiet_start ?_ _ w x)
    rw [owner_of_searching (searching_of_popsGlobal hpg)]; rfl
  | move w pc rng hm => exact h.of_move rfl rfl (hm.quiet (h.inv w))
  | lock w pc _ hl => exact h.of_move rfl rfl (hl.quiet _ w)
  | unlock w pc hl => exact h.of_move rfl rfl (hl.quiet _ w)
  | incSleeping w hw | decSleeping w hw | finish w _ hw | spawn w _ _ hw | notifyNone w _ hw =>
    exact h.of_move rfl rfl (by rw [hw]; exact .of_thief_none rfl rfl trivial rfl rfl rfl)
  | notify w x v hw hv =>
    have h₁ : Safe (s.setWorker v .notified) := h.of_move rfl rfl (by rw [hv]; exact quiet_notified _ v)
    have hne : w ≠ v := ne_of_running hw hv
    refine h₁.of_move rfl rfl ?_
    simp only [Impl.setWorker, Function.update_of_ne hne, hw]
    exact .of_thief_none rfl rfl trivial rfl rfl rfl
  | extNotify i v _ hv => exact h.of_move rfl rfl (by rw [hv]; exact quiet_notified _ v)
  | spurious v hv => exact h.of_move rfl rfl (by rw [hv]; exact quiet_notified _ v)
  | notifyAll =>
    refine h.of_quiet rfl fun w => ?_
    rcases notifyAll_worker s w with hw | ⟨hw, hw'⟩
    · exact .inl hw
    · exact .inr (by simp only [hw, hw']; exact quiet_notified _ w)
  | call | publish | extMove | extLock | extUnlock | extNotifyNone | dtorMove | storeStop | dtorLock | dtorUnlock
  | destroy | destroyGlobal => exact h.of_eq rfl rfl

theorem Safe.step [DecidableEq τ] (h : Safe s) (hs : step s a = some s') : Safe s' :=
  h.effect (step_effect hs h.not_pushGlobal)

/-- The deques are safe in every state the pool reaches. -/
theorem safe_of_run [DecidableEq τ] {acts : List (Act n m τ)} (h : (machine n m τ).Run acts s) : Safe s :=
  Machine.Run.inv Safe safe_init (fun _ _ _ hi hs => hi.step hs) h

/-- An invariant of the effects holds in every state the pool reaches. A step may use
what is known of the run before it. -/
theorem inv_of_run [DecidableEq τ] {P : Impl n m τ → Prop} (hinit : P (init n m τ))
    (hstep : ∀ {acts s a s'}, (machine n m τ).Run acts s → Effect s a s' → P s → P s') {acts : List (Act n m τ)}
    (h : (machine n m τ).Run acts s) : P s := by
  induction h with
  | nil => exact hinit
  | snoc hr _ hs ih => exact hstep hr (step_effect hs (safe_of_run hr).not_pushGlobal) ih

end AsyncRuntime.Pool
