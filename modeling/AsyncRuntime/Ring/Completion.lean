import AsyncRuntime.Ring.Lifecycle
import AsyncRuntime.Lib.Sums
/-!
# Every operation completes at most once, through its own completion

The stages of an operation partition the counts of `Lifecycle`. Between them the
operation moves in one direction, and only two of them are behind a completion
of its receiver: `start()` found the stop already requested, or `run()` called
the callback with the completion of the operation's own entry.
-/

namespace AsyncRuntime.Ring
open Lib

/-- Where a started operation is. Before `starting` ends, its `start()` has
neither completed the receiver nor queued an entry. -/
inductive Stage
  | starting
  | stoppedEarly
  | queued
  | inKernel
  | unread
  | delivering
  | delivered
deriving DecidableEq

instance : Fintype Stage where
  elems := {.starting, .stoppedEarly, .queued, .inKernel, .unread, .delivering, .delivered}
  complete st := by cases st <;> decide

/-- How many completions of the queue `run()` has looked at. -/
def RunPc.taken : RunPc → Nat
  | .calling head _ _ | .inCallback head _ _ => head + 1
  | pc => pc.head

/-- `start()` has not returned from `submit()`. -/
def StartPc.submitting : StartPc → Bool
  | .checkStop | .register | .emplacing | .submit => true
  | _ => false

/-- The completion that `run()` has taken, and whose callback it is about to
call. -/
def RingImpl.takenEntry (s : RingImpl) : Option Cqe :=
  match s.run with
  | .calling head _ _ => s.cq[head]?
  | _ => none

/-- How often operation `A` is at a stage. -/
def RingImpl.stageCount (s : RingImpl) (A : Nat) : Stage → Nat
  | .starting => if (s.ops A).start.submitting ∧ (s.ops A).callback = none then 1 else 0
  | .stoppedEarly => if (s.ops A).start = .stoppedEarly then 1 else 0
  | .queued => s.sq.countP (fun e => e.origin = .op A)
  | .inKernel => s.kernel.countP (fun e => e.origin = .op A)
  | .unread => (s.cq.drop s.run.taken).countP (fun e => e.origin = .op A)
  | .delivering => s.takenEntry.toList.countP (fun e => e.origin = .op A)
  | .delivered => s.calls A

/-- What is true of operation `A` at stage `st`: when its receiver has been
completed and on which channel, and when its callback has been freed. -/
structure Outcome (s : RingImpl) (A : Nat) (st : Stage) : Prop where
  completed : (s.ops A).completions.length = if st = .stoppedEarly ∨ st = .delivered then 1 else 0
  early : st = .stoppedEarly → (s.ops A).completions = [.stopped]
  channel : st = .delivered →
    ∃ e, (A, e) ∈ s.delivered ∧ e.origin = .op A ∧ (s.ops A).completions = [makeIoCallback e.result]
  unfreed : st ≠ .delivered → s.freed.count A = 0
  freed : st = .delivered → s.freed.count A = if s.inCall = some A then 0 else 1

variable {s s' : RingImpl} {A : Nat}

/-! ## The stages add up -/

theorem drop_eq_toList {α : Type} (l : List α) (i : Nat) : l.drop i = l[i]?.toList ++ l.drop (i + 1) := by
  cases h : l[i]? with
  | none =>
    have hle := List.getElem?_eq_none_iff.1 h
    rw [List.drop_eq_nil_of_le hle, List.drop_eq_nil_of_le (Nat.le_succ_of_le hle)]
    rfl
  | some x =>
    obtain ⟨hlt, rfl⟩ := List.getElem?_eq_some_iff.1 h
    exact (List.getElem_cons_drop hlt).symm

/-- The completions that are pending are the one `run()` has taken and the
unread ones. -/
theorem pending_eq (s : RingImpl) : s.pending = s.takenEntry.toList ++ s.cq.drop s.run.taken := by
  unfold RingImpl.pending RingImpl.takenEntry
  cases s.run with
  | calling head count p => exact drop_eq_toList s.cq head
  | _ => rfl

theorem flying_eq (s : RingImpl) (A : Nat) :
    s.flying A = s.stageCount A .queued + s.stageCount A .inKernel +
      (s.stageCount A .delivering + s.stageCount A .unread) := by
  simp only [RingImpl.flying, RingImpl.tags, pending_eq, List.countP_append, List.countP_map, List.map_append]
  rfl

theorem sum_stages (f : Stage → Nat) :
    ∑ st, f st = f .starting + f .stoppedEarly +
      (f .queued + f .inKernel + (f .delivering + f .unread) + f .delivered) := by
  have huniv : (Finset.univ : Finset Stage) =
      {.starting, .stoppedEarly, .queued, .inKernel, .unread, .delivering, .delivered} := rfl
  rw [huniv]
  simp only [Finset.sum_insert, Finset.sum_singleton, Finset.mem_insert, Finset.mem_singleton, reduceCtorEq,
    or_self, not_false_eq_true]
  omega

/-- A started operation has a callback, or is still in `submit()`, or was
stopped before it. -/
theorem OpInv.before {o : Operation} (h : OpInv o) (hs : o.start ≠ .notStarted) :
    (if o.start.submitting ∧ o.callback = none then 1 else 0) +
      (if o.start = .stoppedEarly then 1 else 0) + o.issues = 1 := by
  have hun := h.unissued
  have his := h.issued
  cases hc : o.callback with
  | none =>
    rw [Operation.issues_eq_zero hc]
    cases hpc : o.start with
    | notStarted => exact absurd hpc hs
    | checkStop | register | emplacing | submit | stoppedEarly => rfl
    | storeCbPtr ptr | loadStopCalled ptr | readCtx ptr | cancel ptr | returned =>
      rw [hpc] at his; exact absurd hc (his rfl)
  | some p =>
    have hne : o.start ≠ .stoppedEarly := by
      intro he
      rw [he] at hun
      cases hc.symm.trans (hun rfl)
    rw [Operation.issues_eq_one hc, if_neg (fun hb => nomatch hb.2), if_neg hne]

theorem Safe.stages (h : Safe s) (hs : (s.ops A).start ≠ .notStarted) : ∑ st, s.stageCount A st = 1 := by
  have hbefore := (h.issuing.op A).before hs
  have hcount := h.lifecycle.count A
  rw [flying_eq] at hcount
  rw [sum_stages]
  have h1 : s.stageCount A .starting = if (s.ops A).start.submitting ∧ (s.ops A).callback = none then 1 else 0 := rfl
  have h2 : s.stageCount A .stoppedEarly = if (s.ops A).start = .stoppedEarly then 1 else 0 := rfl
  have h3 : s.stageCount A .delivered = s.calls A := rfl
  omega

/-! ## What each stage means -/

theorem channels_of_calls (h : s.calls A = 1) :
    ∃ e, (A, e) ∈ s.delivered ∧ s.channels A = [makeIoCallback e.result] := by
  unfold RingImpl.calls at h
  rw [List.countP_eq_length_filter, List.length_eq_one_iff] at h
  obtain ⟨⟨B, e⟩, hd⟩ := h
  have hmem : (B, e) ∈ s.delivered.filter (fun d => d.1 = A) := by rw [hd]; exact List.mem_singleton_self _
  obtain ⟨hdel, hB⟩ := List.mem_filter.1 hmem
  obtain rfl : B = A := of_decide_eq_true hB
  refine ⟨e, hdel, ?_⟩
  unfold RingImpl.channels
  rw [hd]
  rfl

theorem Safe.outcome (h : Safe s) {st : Stage} (hst : s.stageCount A st = 1)
    (hrest : ∀ st', st' ≠ st → s.stageCount A st' = 0) : Outcome s A st := by
  have hcomp := h.lifecycle.completions A
  have hfreed := h.lifecycle.freed A
  have hcalls : s.calls A = if st = .delivered then 1 else 0 := by
    split
    · next hd => subst hd; exact hst
    · next hd => exact hrest .delivered (Ne.symm hd)
  have hearly : (s.ops A).early = if st = .stoppedEarly then [.stopped] else [] := by
    unfold Operation.early
    split
    · next hs =>
      rw [if_pos]
      by_contra hne
      have h0 := hrest .stoppedEarly (Ne.symm hne)
      simp only [RingImpl.stageCount, if_pos hs] at h0
      omega
    · next hs =>
      rw [if_neg]
      rintro rfl
      simp only [RingImpl.stageCount, if_neg hs] at hst
      omega
  -- the receiver is completed by the delivery or by the early stop, and by nothing else
  by_cases hd : st = .delivered
  · subst hd
    rw [if_pos rfl] at hcalls
    obtain ⟨e, he, hch⟩ := channels_of_calls hcalls
    rw [hearly, if_neg nofun, hch] at hcomp
    refine ⟨by rw [hcomp]; rfl, nofun, fun _ => ⟨e, he, h.lifecycle.own _ he, hcomp⟩, fun hn => absurd rfl hn, ?_⟩
    intro _
    rw [hcalls] at hfreed
    split at hfreed <;> rename_i hc
    · rw [if_pos hc]; omega
    · rw [if_neg hc]; omega
  · rw [if_neg hd] at hcalls
    rw [channels_eq_nil hcalls, hearly, List.append_nil] at hcomp
    refine ⟨?_, ?_, fun he => absurd he hd, fun _ => by omega, fun he => absurd he hd⟩
    · rw [hcomp]
      by_cases hs : st = .stoppedEarly
      · rw [if_pos hs, if_pos (.inl hs)]; rfl
      · rw [if_neg hs, if_neg (not_or.2 ⟨hs, hd⟩)]; rfl
    · intro hs; rw [hcomp, if_pos hs]

/-- `io_uring_cq_advance` retires what the batch has handled, and leaves what is
pending. -/
theorem Safe.advance (h : Safe s) {count : Nat} (hr : s.run = .advance count)
    (hs' : step s .runStep = some s') : s.cq = s.batch ++ s'.cq ∧ s'.cq = s.pending := by
  have hcq : s'.cq = s.cq.drop count := by
    simp only [step, runStep, hr] at hs'
    split at hs' <;> cases hs'
    rfl
  have hbatch := h.batch.batch
  rw [hr] at hbatch
  refine ⟨?_, ?_⟩
  · rw [hbatch, hcq]
    exact (List.take_append_drop count s.cq).symm
  · unfold RingImpl.pending
    rw [hcq, hr]
    rfl

/-- A callback is called at most once, and not while its entry is in flight. -/
theorem Lifecycle.calls_le (h : Lifecycle s) (A : Nat) : s.flying A + s.calls A ≤ 1 :=
  h.count A ▸ (s.ops A).issues_le

/-- After any run a started operation is at exactly one stage. Its receiver has
been completed once if it was stopped early or delivered, on the channel that the
result of its own completion gives, and its callback is freed once, when the call
of it has returned. An advance retires exactly the completions the batch has
handled: those of operations have been delivered and their callbacks freed, and
no callback has been called for one that stays. No freed callback is ever
called. -/
theorem operation_completes_once {depth : Nat} {as : List Act} (h : (machine depth).Run as s) :
    (∀ A, (s.ops A).start ≠ .notStarted →
      ∃ st, s.stageCount A st = 1 ∧ (∀ st', st' ≠ st → s.stageCount A st' = 0) ∧ Outcome s A st) ∧
    (∀ count s', s.run = .advance count → step s .runStep = some s' →
      s.cq = s.batch ++ s'.cq ∧
      (∀ e ∈ s.batch, ∀ A, e.origin = .op A → (A, e) ∈ s.delivered ∧ s.freed.count A = 1) ∧
      (∀ e ∈ s'.cq, ∀ A, e.origin = .op A → s.calls A = 0)) ∧
    s.fault ≠ some .dangling := by
  have hsafe := safe_of_run h
  refine ⟨fun A hs => ?_, fun count s' hr hs' => ?_, hsafe.lifecycle.fault⟩
  · obtain ⟨st, hst, hrest⟩ := exists_of_sum_eq_one (hsafe.stages hs)
    exact ⟨st, hst, hrest, hsafe.outcome hst hrest⟩
  · obtain ⟨hcq, hpend⟩ := hsafe.advance hr hs'
    refine ⟨hcq, fun e he A ho => ?_, fun e he A ho => ?_⟩
    · obtain ⟨hd, hf⟩ := hsafe.lifecycle.batch e he A ho
      have hcount := hsafe.lifecycle.freed A
      have hle := hsafe.lifecycle.calls_le A
      have hpos : 0 < s.freed.count A := List.count_pos_iff.2 hf
      exact ⟨hd, by omega⟩
    · have hmem : e.tag ∈ s.tags := List.mem_append_right _ (List.mem_map_of_mem (hpend ▸ he))
      have hpos := flying_pos hmem ho
      have hle := hsafe.lifecycle.calls_le A
      omega

/-- The whole `start()` of operation `A`; its callback is allocated at `p`. -/
def startAt (A p : Nat) : List Act :=
  [.begin A (.accept 3) true, .start A, .start A, .lock (.start A), .submission 0 p, .submission 0 p,
   .submission 1 p, .submission 0 p, .start A, .start A]

/-- The whole call `j` of `stop()`. -/
def stopCalled (j : Nat) : List Act :=
  [.stopCall j, .stop j, .lock (.stop j), .submission 0 0, .submission 0 0, .submission 1 0, .submission 0 0]

/-- The first completion makes a batch. Its callback starts another operation and
calls `stop()`, and the kernel completes both before the callback returns. -/
def batchOfThree : List Act := List.flatten
  [startAt 0 10, [.run, .runStep, .runStep, .complete 0 ⟨5, 0⟩], List.replicate 3 .runStep,
   startAt 1 20, [.complete 0 ⟨-125, 0⟩], stopCalled 0, [.complete 0 ⟨0, 0⟩], List.replicate 6 .runStep]

theorem operation_completes_once_batch_of_three : ∃ s, (machine 8).Run batchOfThree s ∧
    s.run = .advance 3 ∧
    (∀ A ∈ [0, 1], ∃ st, s.stageCount A st = 1 ∧ (∀ st', st' ≠ st → s.stageCount A st' = 0) ∧ Outcome s A st) ∧
    (s.ops 0).completions = [.value ⟨5, 0⟩] ∧ (s.ops 1).completions = [.stopped] ∧ s.freed = [0, 1] ∧
    ∃ s', step s .runStep = some s' ∧ s.cq = s.batch ++ s'.cq := by
  have hexec : ((machine 8).exec batchOfThree).any (fun s => decide (s.run = .advance 3 ∧
      (s.ops 0).start = .returned ∧ (s.ops 1).start = .returned ∧
      (s.ops 0).completions = [.value ⟨5, 0⟩] ∧ (s.ops 1).completions = [.stopped] ∧ s.freed = [0, 1] ∧
      (step s .runStep).isSome = true)) = true := by decide +kernel
  obtain ⟨s, hrun, hadv, h0, h1, hc0, hc1, hfreed, hsome⟩ := Machine.exists_run_of_exec hexec
  obtain ⟨s', hs'⟩ := Option.isSome_iff_exists.1 hsome
  obtain ⟨hops, hbatch, -⟩ := operation_completes_once hrun
  refine ⟨s, hrun, hadv, ?_, hc0, hc1, hfreed, s', hs', (hbatch 3 s' hadv hs').1⟩
  intro A hA
  rcases List.mem_cons.1 hA with rfl | hA
  · exact hops 0 (by rw [h0]; nofun)
  · cases List.mem_singleton.1 hA
    exact hops 1 (by rw [h1]; nofun)

end AsyncRuntime.Ring
