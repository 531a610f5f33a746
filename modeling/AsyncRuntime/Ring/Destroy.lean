import AsyncRuntime.Ring.Completion
/-!
# Destroying the context

`~io_context` destroys `ring_impl`, and all that its destructor does is
`io_uring_queue_exit`. The queues go away with their entries. The callback of an
operation is reachable only through the `user_data` of its entry, so when that
entry is in the SQ, with the kernel or in the CQ at that moment, nobody calls or
frees the callback any more.

The destructor begins when nobody is inside a call: `run()`, every `stop()`,
every `start()` and every stop callback has returned.
-/

namespace AsyncRuntime.Ring
open Lib

/-- The context: alive, in `io_uring_queue_exit`, or destroyed. -/
inductive Life
  | alive
  | exiting
  | gone
deriving DecidableEq

/-- An `io_context` with its lifetime. The records: the operations started, the
calls of `stop()`, and what was in flight when the destructor began. -/
structure Context where
  ring : RingImpl
  begun : List Nat
  stopCalls : List Nat
  life : Life
  abandoned : List Tag

/-- The operation that an action starts. -/
def Act.begins : Act → List Nat
  | .begin A _ _ => [A]
  | _ => []

/-- The call of `stop()` that an action is. -/
def Act.stops : Act → List Nat
  | .stopCall j => [j]
  | _ => []

namespace Context

/-- Nobody is inside a call of the context. -/
def idle (c : Context) : Bool :=
  c.ring.submission.isNone &&
  (c.ring.run = .notStarted || c.ring.run = .returned) &&
  c.begun.all (fun A => (c.ring.ops A).start.outside &&
    ((c.ring.ops A).onStop = .idle || (c.ring.ops A).onStop = .returned)) &&
  c.stopCalls.all (fun j => c.ring.stops j = .idle || c.ring.stops j = .returned)

/-- An action of the context alive, the beginning of the destructor, and
`io_uring_queue_exit`. -/
inductive Act
  | ring (a : Ring.Act)
  | destroy
  | queueExit

/-- One action. While the destructor runs only the kernel acts on the ring. -/
def step (c : Context) : Act → Option Context
  | .ring a =>
    match c.life, a with
    | .alive, a => (Ring.step c.ring a).map fun r =>
        { c with ring := r, begun := a.begins ++ c.begun, stopCalls := a.stops ++ c.stopCalls }
    | .exiting, .complete i r => (Ring.step c.ring (.complete i r)).map fun r => { c with ring := r }
    | _, _ => none
  | .destroy =>
    if c.life = .alive ∧ c.idle = true then some { c with life := .exiting, abandoned := c.ring.tags } else none
  | .queueExit =>
    if c.life = .exiting then some { c with ring := { c.ring with sq := [], kernel := [], cq := [] }, life := .gone }
    else none

def init (depth : Nat) : Context := ⟨Ring.init depth, [], [], .alive, []⟩

/-- A context from its construction to its destruction. -/
def machine (depth : Nat) : Machine Context Act := ⟨init depth, step⟩

end Context

variable {s s' : RingImpl} {A : Nat}

/-! ## Who has been started -/

theorem start_setOp {B : Nat} {o : Operation} (h : (s.ops A).start = .notStarted) (ho : o.start = (s.ops B).start) :
    ((s.setOp B o).ops A).start = .notStarted := by
  by_cases e : A = B
  · subst e; rw [setOp_self, ho]; exact h
  · rw [setOp_ne e]; exact h

theorem submission_start {k p : Nat} (hi : Issuing s) (h : submissionStep s k p = some s')
    (h0 : (s.ops A).start = .notStarted) : (s'.ops A).start = .notStarted := by
  unfold submissionStep at h
  split at h
  · cases h
  · next u hu =>
    have hheld := hi.held u hu
    split at h
    · cases h; exact h0
    · cases h; exact h0
    · cases h
      split
      · exact h0
      · unfold nullSqe; split <;> exact h0
    · unfold prepare at h
      split at h
      · split at h <;> cases h
        exact start_setOp h0 rfl
      · cases h; exact h0
      · cases h; exact h0
    · cases h; exact h0
    · cases h
      unfold resume
      split
      · next B hB =>
        have hne : A ≠ B := by
          rintro rfl
          rw [hB] at hheld
          rcases job_start hheld with hs | ⟨ptr, hs⟩ <;> rw [h0] at hs <;> cases hs
        split <;> rw [setOp_ne hne] <;> exact h0
      · exact start_setOp h0 rfl
      · exact h0

theorem runStep_start (h : runStep s = some s') (h0 : (s.ops A).start = .notStarted) :
    (s'.ops A).start = .notStarted := by
  unfold runStep at h
  split at h
  · cases h; exact h0
  · cases h; exact h0
  · split at h <;> cases h; exact h0
  · split at h
    · cases h; exact h0
    · split at h <;> cases h <;> exact h0
  · split at h
    · cases h; exact start_setOp h0 rfl
    · cases h; exact h0
    · cases h
  · split at h <;> cases h; exact h0
  · cases h; exact h0
  · cases h

/-- Only the call of its `start()` starts an operation. -/
theorem start_of_step {a : Act} (hi : Issuing s) (h : step s a = some s') (h0 : (s.ops A).start = .notStarted)
    (hA : A ∉ a.begins) : (s'.ops A).start = .notStarted := by
  unfold step at h
  split at h
  case isFalse => cases h
  case isTrue =>
    cases a with
    | begin B r possible =>
      obtain ⟨o, -, rfl⟩ := begin_effect h
      rw [setOp_ne (fun e => hA (List.mem_singleton.2 e))]
      exact h0
    | requestStop B =>
      dsimp only [requestStop] at h
      split at h
      · split at h <;> cases h <;> exact start_setOp h0 rfl
      · cases h
    | start B =>
      by_cases e : A = B
      · subst e; simp only [startStep, h0] at h; cases h
      · obtain ⟨o, -, rfl⟩ := startStep_effect h
        rw [setOp_ne e]; exact h0
    | callback B =>
      dsimp only [callbackStep] at h
      split at h
      · cases h; exact start_setOp h0 rfl
      · split at h <;> cases h <;> exact start_setOp h0 rfl
      · cases h; exact start_setOp h0 rfl
      · cases h
    | lock c =>
      dsimp only [lock] at h
      split at h <;> cases h
      exact h0
    | submission k p => exact submission_start hi h h0
    | stopCall j => dsimp only at h; split at h <;> cases h; exact h0
    | stop j => dsimp only [stopStep] at h; split at h <;> cases h; exact h0
    | run => dsimp only at h; split at h <;> cases h; exact h0
    | runStep => exact runStep_start h h0
    | waitError eintr => dsimp only [waitError] at h; split at h <;> cases h; exact h0
    | complete i r => dsimp only [complete] at h; split at h <;> cases h; exact h0

/-! ## The invariant -/

namespace Context
variable {c c' : Context} {depth : Nat}

/-- While the context is alive: its ring is safe, and every operation started is
on record. -/
structure Alive (c : Context) : Prop where
  safe : Safe c.ring
  begun : ∀ A, (c.ring.ops A).start ≠ .notStarted → A ∈ c.begun

theorem Alive.init (depth : Nat) : Alive (init depth) := ⟨safe_init depth, fun _ h => absurd rfl h⟩

/-- Once the destructor has begun, operations are as the idle context `c₀` left
them. -/
structure Left (c₀ c : Context) : Prop where
  alive : Alive c₀
  idle : c₀.idle = true
  ops : c.ring.ops = c₀.ring.ops
  freed : c.ring.freed = c₀.ring.freed
  abandoned : c.abandoned = c₀.ring.tags

/-- What is true of a context in each part of its life. -/
def Inv (c : Context) : Prop :=
  match c.life with
  | .alive => Alive c
  | _ => ∃ c₀, Left c₀ c

theorem Alive.step {a : Ring.Act} {r : RingImpl} (h : Alive c) (hs : Ring.step c.ring a = some r) :
    Alive { c with ring := r, begun := a.begins ++ c.begun, stopCalls := a.stops ++ c.stopCalls } := by
  refine ⟨h.safe.effect (step_effect hs).2, fun A hA => ?_⟩
  by_contra hno
  obtain ⟨hno, hb⟩ := not_or.1 (mt List.mem_append.2 hno)
  exact hA (start_of_step h.safe.issuing hs (by_contra fun h0 => hb (h.begun A h0)) hno)

theorem complete_frame {i : Nat} {r : IoResult} (h : Ring.step s (.complete i r) = some s') :
    s'.ops = s.ops ∧ s'.freed = s.freed := by
  unfold Ring.step complete at h
  split at h
  · dsimp only at h
    split at h <;> cases h
    exact ⟨rfl, rfl⟩
  · cases h

theorem Inv.step {a : Act} (h : Inv c) (hs : step c a = some c') : Inv c' := by
  unfold Inv at h
  unfold Context.step at hs
  cases a with
  | ring a =>
    dsimp only at hs
    split at hs
    · next hl =>
      rw [hl] at h
      obtain ⟨r, hr, rfl⟩ := Option.map_eq_some_iff.1 hs
      have hstep := h.step hr
      simp only [Inv, hl] at hstep ⊢
      exact hstep
    · next hl =>
      rw [hl] at h
      obtain ⟨r, hr, rfl⟩ := Option.map_eq_some_iff.1 hs
      obtain ⟨hops, hfreed⟩ := complete_frame hr
      simp only [Inv, hl]
      exact h.imp fun _ hl => { hl with ops := hops.trans hl.ops, freed := hfreed.trans hl.freed }
    · cases hs
  | destroy =>
    dsimp only at hs
    split at hs <;> cases hs
    next hc =>
    rw [hc.1] at h
    exact ⟨c, h, hc.2, rfl, rfl, rfl⟩
  | queueExit =>
    dsimp only at hs
    split at hs <;> cases hs
    next hl =>
    rw [hl] at h
    exact h.imp fun _ hl => { hl with }

theorem inv_of_run {as : List Act} (h : (machine depth).Run as c) : Inv c :=
  Machine.Run.inv (M := machine depth) Inv (Alive.init depth) (fun _ _ _ hi hs => hi.step hs) h

/-! ## Settled operations -/

/-- The receiver of `A` has been completed on one channel, and its callback, if it
was made, has been freed. -/
def Settled (c : Context) (A : Nat) : Prop :=
  (c.ring.ops A).completions.length = 1 ∧ c.ring.freed.count A = (c.ring.ops A).issues

theorem channels_length (s : RingImpl) (A : Nat) : (s.channels A).length = s.calls A := by
  simp only [RingImpl.channels, RingImpl.calls, List.length_map, List.countP_eq_length_filter]

theorem Alive.outside (h : Alive c) (hidle : c.idle = true) (hs : (c.ring.ops A).start ≠ .notStarted) :
    (c.ring.ops A).start = .returned ∨ (c.ring.ops A).start = .stoppedEarly := by
  simp only [idle, Bool.and_eq_true, List.all_eq_true] at hidle
  have hout := (hidle.1.2 A (h.begun A hs)).1
  generalize (c.ring.ops A).start = pc at hs hout
  cases pc with
  | notStarted => exact absurd rfl hs
  | returned => exact .inl rfl
  | stoppedEarly => exact .inr rfl
  | _ => cases hout

theorem inCall_of_idle (hidle : c.idle = true) : c.ring.inCall = none := by
  simp only [idle, Bool.and_eq_true, Bool.or_eq_true, decide_eq_true_eq] at hidle
  refine inCall_none fun i k p hr => ?_
  rcases hidle.1.1.2 with h | h <;> rw [hr] at h <;> cases h

/-- In an idle context an operation is settled exactly if it has nothing in
flight. -/
theorem Alive.settled_iff (h : Alive c) (hidle : c.idle = true) (hs : (c.ring.ops A).start ≠ .notStarted) :
    Settled c A ↔ c.ring.flying A = 0 := by
  have hcount := h.safe.lifecycle.count A
  have hfreed := h.safe.lifecycle.freed A
  have hcomp := congrArg List.length (h.safe.lifecycle.completions A)
  rw [inCall_of_idle hidle, if_neg nofun] at hfreed
  rw [List.length_append, channels_length] at hcomp
  unfold Settled
  rcases h.outside hidle hs with hr | he
  · have hcb := (h.safe.issuing.op A).issued (by rw [hr]; rfl)
    obtain ⟨p, hp⟩ := Option.ne_none_iff_exists'.1 hcb
    have hearly : (c.ring.ops A).early = [] := by unfold Operation.early; rw [hr, if_neg nofun]
    rw [hearly, List.length_nil] at hcomp
    rw [Operation.issues_eq_one hp] at hcount ⊢
    omega
  · have hcb := (h.safe.issuing.op A).unissued (by rw [he]; rfl)
    have hearly : (c.ring.ops A).early = [.stopped] := by unfold Operation.early; rw [if_pos he]
    rw [hearly, List.length_singleton] at hcomp
    rw [Operation.issues_eq_zero hcb] at hcount ⊢
    omega

/-- When the destructor has finished, every operation ever started is settled
exactly if no entry of an operation was in the SQ, with the kernel or unread in
the CQ when the destructor began. -/
theorem operations_settled_iff {as : List Act} (h : (machine depth).Run as c) (hgone : c.life = .gone) :
    (∀ A, (c.ring.ops A).start ≠ .notStarted → Settled c A) ↔ ∀ t ∈ c.abandoned, ∀ A, t.origin ≠ .op A := by
  have hinv := inv_of_run h
  simp only [Inv, hgone] at hinv
  obtain ⟨c₀, hl⟩ := hinv
  have hsettled : ∀ A, Settled c A ↔ Settled c₀ A := fun A => by simp only [Settled, hl.ops, hl.freed]
  simp only [hsettled, hl.ops, hl.abandoned]
  constructor
  · intro hall t ht A ho
    obtain ⟨p, -, hp⟩ := (hl.alive.safe.lifecycle.tag t ht).op ho
    have hcb := (hl.alive.safe.lifecycle.heap p A hp).1
    have hs : (c₀.ring.ops A).start ≠ .notStarted := by
      intro hs
      rw [(hl.alive.safe.issuing.op A).unissued (by rw [hs]; rfl)] at hcb; cases hcb
    have := (hl.alive.settled_iff hl.idle hs).1 (hall A hs)
    exact absurd (flying_pos ht ho) (by omega)
  · intro hnone A hs
    refine (hl.alive.settled_iff hl.idle hs).2 (List.countP_eq_zero.2 fun t ht ho => ?_)
    exact hnone t ht A (of_decide_eq_true ho)

/-- `run()` delivers the only operation and is stopped. The NOP of `stop()` stays
with the kernel. -/
def deliveredThenDestroyed : List Act :=
  (List.flatten [startAt 0 10, [.run, .runStep, .runStep, .complete 0 ⟨5, 0⟩], List.replicate 6 .runStep, stopCalled 0,
    [.runStep]]).map .ring ++ [.destroy, .queueExit]

theorem operations_settled_iff_delivered : ∃ c, (machine 8).Run deliveredThenDestroyed c ∧ c.life = .gone ∧
    (c.ring.ops 0).start = .returned ∧ ∀ A, (c.ring.ops A).start ≠ .notStarted → Settled c A := by
  have hexec : ((machine 8).exec deliveredThenDestroyed).any (fun c => decide (c.life = .gone ∧
      (c.ring.ops 0).start = .returned ∧ c.abandoned = [⟨none, .nop 0⟩])) = true := by decide +kernel
  obtain ⟨c, hrun, hgone, h0, hleft⟩ := Machine.exists_run_of_exec hexec
  exact ⟨c, hrun, hgone, h0, (operations_settled_iff hrun hgone).2 (by simp [hleft])⟩

/-- Operation 0 is with the kernel and the completion of operation 1 is posted
when `run()` finds that `stop()` has been called and returns. -/
def stoppedWithTwo : List Act :=
  (List.flatten [startAt 0 10, startAt 1 20, [.run, .runStep], stopCalled 0,
    [.runStep, .complete 1 ⟨5, 0⟩]]).map .ring ++
    [.destroy, .queueExit]

/-- Both receivers are never completed, and both callbacks stay allocated. -/
theorem operations_abandoned : ∃ c, (machine 8).Run stoppedWithTwo c ∧ c.life = .gone ∧ c.ring.run = .returned ∧
    (c.ring.ops 0).start = .returned ∧ (c.ring.ops 0).completions = [] ∧
    (c.ring.ops 1).start = .returned ∧ (c.ring.ops 1).completions = [] ∧
    c.ring.freed = [] ∧ c.ring.heap 10 = some 0 ∧ c.ring.heap 20 = some 1 := by
  have hexec : ((machine 8).exec stoppedWithTwo).any (fun c => decide (c.life = .gone ∧ c.ring.run = .returned ∧
      (c.ring.ops 0).start = .returned ∧ (c.ring.ops 0).completions = [] ∧
      (c.ring.ops 1).start = .returned ∧ (c.ring.ops 1).completions = [] ∧
      c.ring.freed = [] ∧ c.ring.heap 10 = some 0 ∧ c.ring.heap 20 = some 1)) = true := by decide +kernel
  exact Machine.exists_run_of_exec hexec

end Context

end AsyncRuntime.Ring
