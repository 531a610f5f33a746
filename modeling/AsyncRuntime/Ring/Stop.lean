import AsyncRuntime.Ring.Completion
/-!
# Whether `stop()` reaches `run()`

`stop()` clears `running` and posts a NOP, so that a `run()` that waits wakes up
and finds the flag. But `run()` sets the flag when it begins. A `stop()` that
clears it before that is forgotten: its NOP makes one batch, and the loop goes on
with `running` set.

If no `stop()` has cleared the flag before `run()` sets it, the flag stays clear,
and the NOP cannot have been used up: `run()` entered its wait having read the
flag as set, so before the store of `stop()` and before the NOP.
-/

namespace AsyncRuntime.Ring
open Lib

variable {s s' : RingImpl} {a : Act} {A : Nat}

/-- A `stop()` that returned after `run()` was invoked has been lost: `run()` is
blocked in `io_uring_wait_cqe`, and either it will go on waiting after any
completion, or no NOP is with the kernel to wake it. -/
structure StopLost (s : RingImpl) : Prop where
  returned : s.stopReturned = true
  waits : s.run = .wait
  blocked : s.cq = []
  lost : s.running = true ∨ ∀ e ∈ s.kernel, ∀ j, e.origin ≠ .nop j

/-! ## Assumptions -/

/-- There is one call of `run()`. -/
def RingImpl.oneRun (s : RingImpl) : Act → Bool
  | .run => decide (s.run = .notStarted)
  | _ => true

/-- `io_uring_submit` hands over all queued entries. -/
def RingImpl.fullSubmit (s : RingImpl) : Act → Bool
  | .submission k _ => decide (s.sq.length ≤ k)
  | _ => true

/-- When `run()` sets `running`, every `stop()` that has cleared it returned
before `run()` was invoked. -/
def NoEarlyStop (s : RingImpl) (a : Act) : Prop :=
  a = .runStep → s.run = .storeRunning → s.stopReturned = false ∧ ∀ j, s.stops j ≠ .nop

/-- The assumptions on the runs. -/
structure Regular (s : RingImpl) (a : Act) : Prop where
  oneRun : s.oneRun a
  fullSubmit : s.fullSubmit a

/-! ## The invariant -/

/-- `run()` has set `running`. -/
def RunPc.stored : RunPc → Bool
  | .notStarted | .storeRunning => false
  | _ => true

/-- A `stop()` has returned since `run()` was invoked, or is past its `io_uring_submit`. -/
def RingImpl.nopPosted (s : RingImpl) : Prop :=
  s.stopReturned = true ∨ ∃ u j ptr, s.submission = some u ∧ u.job = .nop j ∧ u.pc = .unlock ptr

/-- A NOP is with the kernel, or completed. -/
def RingImpl.nopHanded (s : RingImpl) : Prop :=
  (∃ e ∈ s.kernel, ∃ j, e.origin = .nop j) ∨ ∃ c ∈ s.cq, ∃ j, c.origin = .nop j

/-- A `stop()` that is about to call `io_uring_submit` has its NOP in the queue. -/
def RingImpl.nopQueued (s : RingImpl) : Prop :=
  ∀ u j ptr, s.submission = some u → u.job = .nop j → u.pc = .submit ptr → ∃ e ∈ s.sq, e.origin = .nop j

/-- The invariant: once cleared the flag stays clear, and while `run()` waits
a NOP posted has been handed over. -/
structure Wakes (s : RingImpl) : Prop where
  depth : 0 < s.depth
  before : s.run = .notStarted → s.stopReturned = false
  cleared : s.run.stored = true → (s.stopReturned = true ∨ ∃ j, s.stops j = .nop) → s.running = false
  drained : ∀ u, s.submission = some u → u.pc = .getSqeAgain → s.sq = []
  queued : s.nopQueued
  nop : s.run = .wait → s.nopPosted → s.nopHanded

theorem Wakes.init {depth : Nat} (h : 0 < depth) : Wakes (init depth) where
  depth := h
  before _ := rfl
  cleared h := Bool.noConfusion h
  drained _ h := absurd h.symm (Option.some_ne_none _)
  queued _ _ _ h := absurd h.symm (Option.some_ne_none _)
  nop h := RunPc.noConfusion h

/-- Steps that leave the flag, the calls of `stop()` and `run()` alone. -/
theorem Wakes.frame (h : Wakes s) (hdepth : s'.depth = s.depth) (hrun : s'.run = s.run)
    (hret : s'.stopReturned = s.stopReturned) (hstops : s'.stops = s.stops) (hrunning : s'.running = s.running)
    (hdrain : ∀ u, s'.submission = some u → u.pc = .getSqeAgain → s'.sq = []) (hqueued : s'.nopQueued)
    (hposted : s'.nopPosted → s.nopPosted ∨ s'.nopHanded) (hhanded : s.nopHanded → s'.nopHanded) : Wakes s' where
  depth := hdepth ▸ h.depth
  before hr := hret ▸ h.before (hrun ▸ hr)
  cleared hr hs := by
    rw [hret, hstops] at hs
    rw [hrunning]
    exact h.cleared (hrun ▸ hr) hs
  drained := hdrain
  queued := hqueued
  nop hr hs := by
    rcases hposted hs with hs | hs
    · exact hhanded (h.nop (hrun ▸ hr) hs)
    · exact hs

/-- Steps that leave the critical section alone as well. -/
theorem Wakes.frame_submission (h : Wakes s) (hdepth : s'.depth = s.depth) (hrun : s'.run = s.run)
    (hret : s'.stopReturned = s.stopReturned) (hstops : s'.stops = s.stops) (hrunning : s'.running = s.running)
    (hsub : s'.submission = s.submission) (hsq : s'.sq = s.sq) (hhanded : s.nopHanded → s'.nopHanded) :
    Wakes s' := by
  refine h.frame hdepth hrun hret hstops hrunning ?_ ?_ ?_ hhanded
  · rw [hsub, hsq]; exact h.drained
  · unfold RingImpl.nopQueued; rw [hsub, hsq]; exact h.queued
  · unfold RingImpl.nopPosted; rw [hret, hsub]; exact .inl

/-- Steps of `run()` inside its loop that do not enter the wait. -/
theorem Wakes.frame_run (h : Wakes s) (hold : s.run.stored = true) (hdepth : s'.depth = s.depth)
    (hnew : s'.run.stored = true) (hwait : s'.run ≠ .wait) (hret : s'.stopReturned = s.stopReturned)
    (hstops : s'.stops = s.stops) (hrunning : s'.running = s.running) (hsub : s'.submission = s.submission)
    (hsq : s'.sq = s.sq) : Wakes s' where
  depth := hdepth ▸ h.depth
  before hr := by rw [hr] at hnew; cases hnew
  cleared _ hs := by
    rw [hret, hstops] at hs
    rw [hrunning]
    exact h.cleared hold hs
  drained := by rw [hsub, hsq]; exact h.drained
  queued := by unfold RingImpl.nopQueued; rw [hsub, hsq]; exact h.queued
  nop hr := absurd hr hwait

/-- `run()` enters its wait having read `running` as set: nobody has cleared it. -/
theorem Wakes.not_posted (h : Wakes s) (hi : Issuing s) (hr : s.run.stored = true) (hrunning : s.running = true) :
    ¬ s.nopPosted := by
  have hno : ¬ (s.stopReturned = true ∨ ∃ j, s.stops j = .nop) := by
    intro hs
    rw [h.cleared hr hs] at hrunning
    cases hrunning
  rintro (hs | ⟨u, j, -, hu, hj, -⟩)
  · exact hno (.inl hs)
  · exact hno (.inr ⟨j, job_nop (hj ▸ hi.held u hu)⟩)

theorem RunMove.wakes {pc : RunPc} (h : Wakes s) (hi : Issuing s) (hm : RunMove s s.run pc) :
    Wakes { s with run := pc } := by
  have hold : s.run.stored = true := by generalize s.run = old at hm; cases hm <;> rfl
  have hnot := h.not_posted hi hold
  generalize hr : s.run = old at hm
  cases hm with
  | again hrunning =>
    exact { h with
      before := fun h => RunPc.noConfusion h
      cleared := fun _ hs => h.cleared hold hs
      nop := fun _ hs => absurd hs (hnot hrunning) }
  | leave | woken | found | batchEnd | interrupted | failed =>
    exact h.frame_run hold rfl rfl nofun rfl rfl rfl rfl rfl

/-- The holder of the mutex moves. The NOP is not given up: `get_sqe` finds room
in a queue that has just been handed over. -/
theorem SubmitMove.wakes {u : Submission} {pc : SubmitPc} (h : Wakes s) (hu : s.submission = some u)
    (hm : SubmitMove s u.job u.pc pc) : Wakes (s.setPc u pc) := by
  have hpc : pc.tagged = false ∧ pc ≠ .getSqeAgain := by
    have hdrained := h.drained u hu
    have hdepth := h.depth
    obtain ⟨c, job, old⟩ := u
    cases hm with
    | room | full | roomAgain => exact ⟨rfl, nofun⟩
    | noNop hle => rw [hdrained rfl] at hle; exact absurd hle (Nat.not_le_of_lt hdepth)
  refine h.frame rfl rfl rfl rfl rfl ?_ ?_ ?_ id
  · intro v hv hp; cases hv; exact absurd hp hpc.2
  · intro v j ptr hv _ hp
    cases hv
    rw [show pc = .submit ptr from hp] at hpc
    cases hpc.1
  · rintro (hs | ⟨v, j, ptr, hv, -, hp⟩)
    · exact .inl (.inl hs)
    · cases hv
      rw [show pc = .unlock ptr from hp] at hpc
      cases hpc.1

theorem Submits.wakes {u : Submission} {pc : SubmitPc} {k p : Nat} (h : Wakes s) (hu : s.submission = some u)
    (hfull : s.fullSubmit (.submission k p)) (hm : Submits u.pc pc) :
    Wakes ((ioUringSubmit s k).setPc u pc) := by
  have hk : s.sq.length ≤ k := of_decide_eq_true hfull
  refine h.frame rfl rfl rfl rfl rfl ?_ ?_ ?_ ?_
  · intro v _ _
    exact List.drop_eq_nil_of_le hk
  · intro v j ptr hv _ hp
    cases hv
    rw [show pc = .submit ptr from hp] at hm
    generalize u.pc = old at hm
    cases hm
  · rintro (hs | ⟨v, j, ptr, hv, hj, hp⟩)
    · exact .inl (.inl hs)
    · cases hv
      have hpc : u.pc = .submit ptr := by
        rw [show pc = .unlock ptr from hp] at hm
        generalize u.pc = old at hm
        cases hm
        rfl
      obtain ⟨e, he, ho⟩ := h.queued u j ptr hu hj hpc
      refine .inr (.inl ⟨e, List.mem_append_right _ ?_, j, ho⟩)
      rw [List.take_of_length_le hk]
      exact he
  · exact Or.imp_left fun ⟨e, he, ho⟩ => ⟨e, List.mem_append_left _ he, ho⟩

/-- An entry is queued; if it is that of `stop()`, it is a NOP. -/
theorem Wakes.queue (h : Wakes s) {u : Submission} {ptr : Option Nat} {e : Sqe}
    (hsub : s'.submission = some { u with pc := .submit ptr }) (hsq : s'.sq = s.sq ++ [e])
    (hnop : ∀ j, u.job = .nop j → e.origin = .nop j) (hk : s'.kernel = s.kernel) (hcq : s'.cq = s.cq)
    (hdepth : s'.depth = s.depth) (hrun : s'.run = s.run) (hret : s'.stopReturned = s.stopReturned)
    (hstops : s'.stops = s.stops) (hrunning : s'.running = s.running) : Wakes s' := by
  refine h.frame hdepth hrun hret hstops hrunning ?_ ?_ ?_ ?_
  · intro v hv hp; rw [hsub] at hv; cases hv; cases hp
  · intro v j ptr hv hj _
    rw [hsub] at hv
    cases hv
    exact ⟨e, by rw [hsq]; exact List.mem_append_right _ List.mem_cons_self, hnop j hj⟩
  · rintro (hs | ⟨v, j, ptr, hv, -, hp⟩)
    · exact .inl (.inl (hret ▸ hs))
    · rw [hsub] at hv; cases hv; cases hp
  · unfold RingImpl.nopHanded
    rw [hk, hcq]
    exact id

theorem Untagged.origin_nop {job prep origin} (h : Untagged job prep origin) (j : Nat) (hj : job = .nop j) :
    origin = .nop j := by
  cases h with
  | cancel => cases hj
  | nop => cases hj; rfl

/-- A call of `stop()` returns. -/
theorem Wakes.stopReturns (h : Wakes s) (hi : Issuing s) {u : Submission} {ptr : Option Nat} {j : Nat}
    (hu : s.submission = some u) (hpc : u.pc = .unlock ptr) (hc : u.caller = .stop j) :
    Wakes { s with
      submission := none
      stops := Function.update s.stops j .returned
      stopReturned := s.stopReturned || decide (s.run ≠ .notStarted) } := by
  obtain ⟨hstop, hjob⟩ := job_stop (hc ▸ hi.held u hu)
  refine ⟨h.depth, ?_, ?_, ?_, ?_, ?_⟩
  · intro hr
    have hr : s.run = .notStarted := hr
    simp only [h.before hr, hr, ne_eq, not_true_eq_false, decide_false, Bool.or_self]
  · intro hr _
    exact h.cleared hr (.inr ⟨j, hstop⟩)
  · intro v hv; cases hv
  · intro v _ _ hv; cases hv
  · intro hr _
    exact h.nop hr (.inr ⟨u, j, ptr, hu, hjob, hpc⟩)

/-- The kernel completes an entry. -/
theorem nopHanded_complete {i : Nat} {r : IoResult} {e : Sqe} (he : s.kernel[i]? = some e) (h : s.nopHanded) :
    RingImpl.nopHanded { s with kernel := s.kernel.eraseIdx i, cq := s.cq ++ [⟨e.userData, r, e.origin⟩] } := by
  obtain ⟨hlt, rfl⟩ := List.getElem?_eq_some_iff.1 he
  rcases h with ⟨e', he', ho⟩ | ⟨c, hc, ho⟩
  · rcases List.mem_cons.1 ((List.getElem_cons_eraseIdx_perm hlt).mem_iff.2 he') with rfl | he'
    · exact .inr ⟨_, List.mem_append_right _ List.mem_cons_self, ho⟩
    · exact .inl ⟨e', he', ho⟩
  · exact .inr ⟨c, List.mem_append_left _ hc, ho⟩

theorem Wakes.effect (h : Wakes s) (hi : Safe s) (hg : Regular s a) (hn : NoEarlyStop s a) (he : Effect s a s') :
    Wakes s' := by
  cases he with
  | op | nullSqe | dangling => exact h.frame_submission rfl rfl rfl rfl rfl rfl rfl id
  | lock =>
    refine h.frame rfl rfl rfl rfl rfl ?_ ?_ ?_ id
    · intro u hu hpc; cases hu; cases hpc
    · intro u _ _ hu _ hpc; cases hu; cases hpc
    · rintro (hs | ⟨u, j, ptr, hu, -, hpc⟩)
      · exact .inl (.inl hs)
      · cases hu; cases hpc
  | move hu hm => exact hm.wakes h hu
  | submit hu hm => exact hm.wakes h hu hg.fullSubmit
  | issue hu hpc hj _ =>
    refine h.queue (e := ⟨_, _, _⟩) rfl rfl (fun j hn => ?_) rfl rfl rfl rfl rfl rfl rfl
    cases hj.symm.trans hn
  | untagged hu hpc hj => exact h.queue (e := ⟨_, _, _⟩) rfl rfl hj.origin_nop rfl rfl rfl rfl rfl rfl rfl
  | unlock hu =>
    refine h.frame rfl rfl rfl rfl rfl ?_ ?_ ?_ id
    · intro u hu; cases hu
    · intro u _ _ hu; cases hu
    · rintro (hs | ⟨u, j, ptr, hu, -⟩)
      · exact .inl (.inl hs)
      · cases hu
  | stopReturns hu hpc hc => exact h.stopReturns hi.issuing hu hpc hc
  | @stopCall j hj =>
    refine { h with cleared := fun hr hs => h.cleared hr (hs.imp_right ?_) }
    rintro ⟨i, hi⟩
    have hij : i ≠ j := by rintro rfl; dsimp only at hi; rw [Function.update_self] at hi; cases hi
    dsimp only at hi
    rw [Function.update_of_ne hij] at hi
    exact ⟨i, hi⟩
  | stopStore => exact { h with cleared := fun _ _ => rfl }
  | invoke =>
    have hr : s.run = .notStarted := of_decide_eq_true hg.oneRun
    exact { h with
      before := fun hr => RunPc.noConfusion hr, cleared := fun hr => Bool.noConfusion hr
      nop := fun hr => RunPc.noConfusion hr }
  | run hm => exact hm.wakes h hi.issuing
  | runStore hr =>
    -- the store of `run()` would undo an earlier `stop()`, and there was none
    obtain ⟨hret, hstops⟩ := hn rfl hr
    exact { h with
      before := fun _ => hret
      cleared := fun _ hs => by
        rcases hs with hs | ⟨j, hj⟩
        · rw [hret] at hs; cases hs
        · exact absurd hj (hstops j)
      nop := fun hr => RunPc.noConfusion hr }
  | skip hr | call hr | free hr | advance hr =>
    exact h.frame_run (by rw [hr]; rfl) rfl rfl nofun rfl rfl rfl rfl rfl
  | complete he => exact h.frame_submission rfl rfl rfl rfl rfl rfl rfl (nopHanded_complete he)

/-- If every `stop()` that has cleared `running` before `run()` sets it also
returned before `run()` was invoked, then no `stop()` is lost. -/
theorem stop_not_lost {depth : Nat} {as : List Act} (hd : 0 < depth)
    (h : (machine depth).RunIn (fun s a => Regular s a ∧ NoEarlyStop s a) as s) : ¬ StopLost s := by
  have hw : Wakes s := inv_of_run (.init hd) (fun _ _ _ hi hw hg he => hw.effect hi hg.1 hg.2 he) h
  intro hl
  have hcleared := hw.cleared (by rw [hl.waits]; rfl) (.inl hl.returned)
  rcases hl.lost with hrunning | hno
  · rw [hcleared] at hrunning; cases hrunning
  · rcases hw.nop hl.waits (.inl hl.returned) with ⟨e, he, j, hj⟩ | ⟨c, hc, -⟩
    · exact hno e he j hj
    · rw [hl.blocked] at hc; cases hc

/-- `run()` begins and sets `running`. -/
def runBegun : List Act := [.run, .runStep]

theorem regular_of_decide (hs : s.oneRun a && s.fullSubmit a) : Regular s a := by
  rw [Bool.and_eq_true] at hs
  exact ⟨hs.1, hs.2⟩

/-- `stop()` is called while `run()` waits, and returns. -/
theorem stop_not_lost_while_waiting :
    ∃ s, (machine 8).RunIn (fun s a => Regular s a ∧ NoEarlyStop s a) (runBegun ++ .runStep :: stopCalled 0) s ∧
      s.run = .wait ∧ s.stopReturned = true ∧ ¬ StopLost s := by
  have hinvoked : (machine 8).RunIn (fun s a => Regular s a ∧ NoEarlyStop s a) [.run]
      { init 8 with run := .storeRunning } := .snoc .nil ⟨⟨rfl, rfl⟩, nofun⟩ rfl
  have hstart : (machine 8).RunIn (fun s a => Regular s a ∧ NoEarlyStop s a) runBegun
      { init 8 with run := .loadRunning, running := true } :=
    .snoc hinvoked ⟨⟨rfl, rfl⟩, fun _ _ => ⟨rfl, fun _ => nofun⟩⟩ rfl
  have hexec : ((machine 8).execIn (fun s a => (s.oneRun a && s.fullSubmit a) = true ∧ s.run ≠ .storeRunning)
      { init 8 with run := .loadRunning, running := true } (.runStep :: stopCalled 0)).any
      (fun s => decide (s.run = .wait ∧ s.stopReturned = true)) = true := by decide +kernel
  obtain ⟨s, hrun, hwait, hret⟩ := Machine.exists_runIn_of_exec
    (fun _ _ hs => ⟨regular_of_decide hs.1, fun _ hr => absurd hr hs.2⟩) hstart hexec
  exact ⟨s, hrun, hwait, hret, stop_not_lost (by decide) hrun⟩

/-- `run()` is invoked, and before its first store a whole call of `stop()` takes
place. `run()` then takes the completion of the NOP and goes back to waiting. -/
def stopBeforeStore : List Act := List.flatten
  [[.run], stopCalled 0, [.complete 0 ⟨0, 0⟩], List.replicate 7 .runStep]

/-- `run()` waits with `running` set and an empty queue, after `stop()` has
returned. -/
theorem early_stop_lost :
    ∃ s, (machine 8).RunIn Regular stopBeforeStore s ∧ s.running = true ∧ s.kernel = [] ∧ StopLost s := by
  have hexec : ((machine 8).execIn (fun s a => (s.oneRun a && s.fullSubmit a) = true) (init 8) stopBeforeStore).any
      (fun s => decide (s.running = true ∧ s.kernel = [] ∧ s.stopReturned = true ∧ s.run = .wait ∧ s.cq = [])) =
      true := by decide +kernel
  obtain ⟨s, hrun, hrunning, hkernel, hret, hwait, hcq⟩ :=
    Machine.exists_runIn_of_exec (fun _ _ => regular_of_decide) .nil hexec
  exact ⟨s, hrun, hrunning, hkernel, hret, hwait, hcq, .inl hrunning⟩

end AsyncRuntime.Ring
