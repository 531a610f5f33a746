import AsyncRuntime.Ring.Completion
/-!
# A ring that does not drain

When the SQ is full, `get_sqe` calls `io_uring_submit` once and asks again. The
result of the submission is not looked at, and of the nine callers only `stop()`
looks at the pointer. So everything rests on that one submission: if it leaves
the SQ full, the entry that is prepared next is null.

If it does not, every operation whose `submit_*` has returned has an entry of its
own: with its arguments and with its callback, in the SQ or with the kernel,
until its completion comes back.
-/

namespace AsyncRuntime.Ring
open Lib

/-- The `io_uring_submit` of `get_sqe` leaves room in the SQ, unless the caller is
`stop()`. -/
def RingImpl.leavesRoom (s : RingImpl) : Act → Bool
  | .submission k _ =>
    match s.submission with
    | some ⟨_, .nop _, _⟩ => true
    | some ⟨_, _, .submitFull⟩ => decide ((s.sq.drop k).length < s.depth)
    | _ => true
  | _ => true

/-- The entry of operation `A`: the arguments of its request, tagged with its
callback. -/
def RingImpl.entry (s : RingImpl) (A : Nat) : Sqe := ⟨(s.ops A).request.prep, (s.ops A).callback, .op A⟩

/-- Where an operation whose `submit_*` has returned is found: its own entry is in
the SQ or with the kernel, its completion is in the CQ, or its receiver has been
completed by it. -/
inductive Accounted (s : RingImpl) (A : Nat) : Prop
  | queued : s.entry A ∈ s.sq → Accounted s A
  | inKernel : s.entry A ∈ s.kernel → Accounted s A
  | posted (e : Cqe) : e ∈ s.pending → e.userData = (s.ops A).callback → e.origin = .op A → Accounted s A
  | completed (e : Cqe) : (A, e) ∈ s.delivered → e.origin = .op A →
      (s.ops A).completions = [makeIoCallback e.result] → Accounted s A

variable {s s' : RingImpl} {a : Act} {A : Nat}

/-! ## No null entry -/

/-- After the second `io_uring_get_sqe` there is room, and no null entry has been
prepared. -/
structure Room (s : RingImpl) : Prop where
  again : ∀ u, s.submission = some u → u.pc = .getSqeAgain → (∀ j, u.job ≠ .nop j) → s.sq.length < s.depth
  fault : s.fault ≠ some .nullSqe

theorem Room.init (depth : Nat) : Room (init depth) where
  again _ h := absurd h.symm (Option.some_ne_none _)
  fault h := Option.some_ne_none _ h.symm

theorem leavesRoom_full {k p : Nat} {u : Submission} (h : s.leavesRoom (.submission k p) = true)
    (hu : s.submission = some u) (hpc : u.pc = .submitFull) (hn : ∀ j, u.job ≠ .nop j) :
    (s.sq.drop k).length < s.depth := by
  obtain ⟨caller, job, pc⟩ := u
  subst hpc
  simp only [RingImpl.leavesRoom, hu] at h
  cases job with
  | nop j => exact absurd rfl (hn j)
  | op | cancel => exact of_decide_eq_true h

theorem SubmitMove.ne_getSqeAgain {job : Job} {pc pc' : SubmitPc} (h : SubmitMove s job pc pc') :
    pc' ≠ .getSqeAgain := by
  cases h <;> nofun

/-- The holder of the mutex moves to a place other than the second
`io_uring_get_sqe`. -/
theorem Room.moved (h : Room s) {u : Submission} (hu : s'.submission = some u) (hpc : u.pc ≠ .getSqeAgain)
    (hfault : s'.fault = s.fault) : Room s' where
  again v hv hv' := by
    cases hu.symm.trans hv
    exact absurd hv' hpc
  fault := hfault ▸ h.fault

theorem Room.effect (h : Room s) (hg : s.leavesRoom a = true) (he : Effect s a s') : Room s' := by
  have hfault := h.fault
  cases he with
  | lock => exact h.moved rfl nofun rfl
  | move _ hm => exact h.moved rfl hm.ne_getSqeAgain rfl
  | @submit k p u pc hu hm =>
    generalize hpc : u.pc = old at hm
    cases hm with
    | full =>
      refine ⟨fun v hv _ hn => ?_, hfault⟩
      cases hv
      exact leavesRoom_full hg hu hpc hn
    | entry => exact h.moved rfl nofun rfl
  | issue | untagged => exact h.moved rfl nofun rfl
  | nullSqe hu hpc hfull hn => exact absurd (h.again _ hu hpc hn) (Nat.not_lt.2 hfull)
  | unlock | stopReturns => exact ⟨fun _ hv => absurd hv.symm (Option.some_ne_none _), hfault⟩
  | dangling => exact ⟨h.again, nofun⟩
  | op | stopCall | stopStore | invoke | run | runStore | skip | call | free | advance | complete =>
    exact ⟨h.again, hfault⟩

/-! ## The entries of operations -/

/-- The entry of an operation in the SQ or with the kernel is its own. -/
def Own (s : RingImpl) : Prop := ∀ e ∈ s.sq ++ s.kernel, ∀ A, e.origin = .op A → e = s.entry A

theorem Own.init (depth : Nat) : Own (init depth) := fun _ he => absurd he List.not_mem_nil

theorem job_prep {c : Caller} {prep : Prep} (h : s.job c = some (.op A prep)) : prep = (s.ops A).request.prep := by
  obtain ⟨rfl, hs⟩ := job_op h
  simp only [RingImpl.job, hs] at h
  cases h
  rfl

/-- An operation with an entry in the SQ or with the kernel has its callback. -/
theorem Lifecycle.callback_of_entry (h : Lifecycle s) {e : Sqe} (he : e ∈ s.sq ++ s.kernel) (ho : e.origin = .op A) :
    (s.ops A).callback ≠ none := by
  have hmem : e.tag ∈ s.tags := by
    refine List.mem_append_left _ ?_
    rw [← List.map_append]
    exact List.mem_map_of_mem he
  obtain ⟨p, -, hp⟩ := (h.tag _ hmem).op ho
  rw [(h.heap p A hp).1]
  nofun

/-- The entries stay, and so do their operations. -/
theorem Own.keep (h : Own s) (hl : Lifecycle s) (hq : ∀ e ∈ s'.sq ++ s'.kernel, e ∈ s.sq ++ s.kernel)
    (hops : ∀ B, (s.ops B).callback ≠ none → s'.entry B = s.entry B) : Own s' := by
  intro e he B ho
  rw [hops B (hl.callback_of_entry (hq e he) ho)]
  exact h e (hq e he) B ho

/-- One operation changes. -/
theorem entry_update {o : Operation} (hops : s'.ops = Function.update s.ops A o)
    (ho : (s.ops A).callback ≠ none → o.request = (s.ops A).request ∧ o.callback = (s.ops A).callback) (B : Nat)
    (hB : (s.ops B).callback ≠ none) : s'.entry B = s.entry B := by
  unfold RingImpl.entry
  rw [hops]
  by_cases e : B = A
  · subst e
    obtain ⟨hr, hc⟩ := ho hB
    rw [Function.update_self, hr, hc]
  · rw [Function.update_of_ne e]

/-- A request does not change once it has been submitted. -/
theorem OpStep.request_eq {o o' : Operation} (h : OpInv o) (ho : OpStep o o') (hc : o.callback ≠ none) :
    o'.request = o.request := by
  cases ho with
  | begin hs => exact absurd (h.unissued (by rw [hs]; rfl)) hc
  | _ => rfl

theorem Returns.request_eq {o o' : Operation} {ptr : Option Nat} {c : Caller} (h : Returns o A ptr c o') :
    o'.request = o.request := by
  cases h <;> rfl

theorem Own.effect (h : Own s) (hs : Safe s) (he : Effect s a s') : Own s' := by
  have same : (∀ e ∈ s'.sq ++ s'.kernel, e ∈ s.sq ++ s.kernel) → _ → Own s' := h.keep hs.lifecycle
  cases he with
  | @op _ A o ho =>
    refine same (fun _ => id) (entry_update rfl fun hc => ?_)
    exact ⟨ho.request_eq (hs.issuing.op A) hc, ho.callback_eq⟩
  | @submit k =>
    refine same (fun e he => ?_) fun _ _ => rfl
    have he : e ∈ s.sq.drop k ++ (s.kernel ++ s.sq.take k) := he
    simp only [List.mem_append] at he ⊢
    rcases he with he | he | he
    · exact .inl (List.mem_of_mem_drop he)
    · exact .inr he
    · exact .inl (List.mem_of_mem_take he)
  | @issue k p u A prep hu hpc hj hp =>
    have hnone := hs.issuing.callback_eq_none hu hpc hj
    have hprep := job_prep (hj ▸ hs.issuing.held u hu)
    intro e he B ho
    have he : e ∈ (s.sq ++ [⟨prep, some p, .op A⟩]) ++ s.kernel := he
    rw [List.append_assoc, List.mem_append, List.mem_append, List.mem_singleton] at he
    by_cases hB : e ∈ s.sq ++ s.kernel
    · have hne : B ≠ A := by rintro rfl; exact hs.lifecycle.callback_of_entry hB ho hnone
      rw [h e hB B ho]
      simp only [RingImpl.entry, RingImpl.setPc, Function.update_of_ne hne]
    · obtain rfl : e = ⟨prep, some p, .op A⟩ := by
        rw [List.mem_append, not_or] at hB
        exact (he.resolve_left hB.1).resolve_right hB.2
      cases ho
      simp only [RingImpl.entry, RingImpl.setPc, Function.update_self, hprep]
  | @untagged k p u prep origin hu hpc hj =>
    intro e he B ho
    have he : e ∈ (s.sq ++ [⟨prep, none, origin⟩]) ++ s.kernel := he
    rw [List.append_assoc, List.mem_append, List.mem_append, List.mem_singleton] at he
    rcases he with he | rfl | he
    · exact h e (List.mem_append_left _ he) B ho
    · exact absurd ho (hj.origin_ne B)
    · exact h e (List.mem_append_right _ he) B ho
  | @unlock k p u ptr A o hu hpc hr =>
    exact same (fun _ => id) (entry_update rfl fun _ => ⟨hr.request_eq, hr.callback_eq⟩)
  | call => exact same (fun _ => id) (entry_update rfl fun _ => ⟨rfl, rfl⟩)
  | @complete i r e he =>
    refine same (fun e he => ?_) fun _ _ => rfl
    have he : e ∈ s.sq ++ s.kernel.eraseIdx i := he
    rw [List.mem_append] at he ⊢
    exact he.imp_right List.mem_of_mem_eraseIdx
  | lock | move | nullSqe | stopReturns | stopCall | stopStore | invoke | run | runStore | skip | dangling | free
  | advance => exact same (fun _ => id) fun _ _ => rfl

/-- An operation whose `submit_*` has returned is accounted for. -/
theorem Safe.accounted (hs : Safe s) (ho : Own s) (hi : (s.ops A).start.issued = true) : Accounted s A := by
  have hcb := (hs.issuing.op A).issued hi
  obtain ⟨p, hp⟩ := Option.ne_none_iff_exists'.1 hcb
  have hcount := hs.lifecycle.count A
  rw [Operation.issues_eq_one hp] at hcount
  by_cases hcalls : s.calls A = 1
  · obtain ⟨e, he, hch⟩ := channels_of_calls hcalls
    have hcomp := hs.lifecycle.completions A
    have hearly : (s.ops A).early = [] := by
      unfold Operation.early
      rw [if_neg]
      intro h
      rw [h] at hi; cases hi
    rw [hearly, hch] at hcomp
    exact .completed e he (hs.lifecycle.own _ he) hcomp
  · have hfly : 0 < s.flying A := by omega
    obtain ⟨t, ht, hto⟩ := List.countP_pos_iff.1 hfly
    have hto := of_decide_eq_true hto
    obtain ⟨q, hq, hheap⟩ := (hs.lifecycle.tag t ht).op hto
    unfold RingImpl.tags at ht
    rcases List.mem_append.1 ht with ht | ht
    · rw [← List.map_append] at ht
      obtain ⟨e, he, rfl⟩ := List.mem_map.1 ht
      obtain rfl := ho e he A hto
      rcases List.mem_append.1 he with he | he
      · exact .queued he
      · exact .inKernel he
    · obtain ⟨e, he, rfl⟩ := List.mem_map.1 ht
      exact .posted e he (by rw [(hs.lifecycle.heap q A hheap).1]; exact hq) hto

/-- If the submission that `get_sqe` makes on a full queue leaves room in it, then
no null entry is ever prepared, and every operation whose `submit_*` has returned
is accounted for, whatever the other submissions do. -/
theorem submission_survives {depth : Nat} {as : List Act}
    (h : (machine depth).RunIn (fun s a => s.leavesRoom a) as s) :
    s.fault ≠ some .nullSqe ∧ ∀ A, (s.ops A).start.issued = true → Accounted s A := by
  have hroom : Room s := inv_of_run (.init depth) (fun _ _ _ _ hr hg he => hr.effect hg he) h
  have hown : Own s := inv_of_run (.init depth) (fun _ _ _ hs ho _ he => ho.effect hs he) h
  exact ⟨hroom.fault, fun A hi => (safe_of_run h).accounted hown hi⟩

/-- The `start()` of operation `A`, up to its lock. -/
def startedTo (A : Nat) : List Act := [.begin A (.accept 3) false, .start A, .start A, .lock (.start A)]

/-- Operation 0 is queued in a ring of one entry. Its own submission hands nothing
to the kernel. -/
def leftInQueue : List Act :=
  startedTo 0 ++ [.submission 0 10, .submission 0 10, .submission 0 0, .submission 0 0, .start 0, .start 0]

/-- Operation 1 finds the SQ full, and the submission of `get_sqe` hands over the
entry of operation 0. -/
def drainedByRetry : List Act :=
  leftInQueue ++ startedTo 1 ++ [.submission 0 0, .submission 1 0, .submission 0 0, .submission 0 20, .submission 0 0,
    .submission 0 0]

theorem submission_survives_retry : ∃ s, (machine 1).RunIn (fun s a => s.leavesRoom a) drainedByRetry s ∧
    s.sq = [⟨.accept 3, some 20, .op 1⟩] ∧ s.kernel = [⟨.accept 3, some 10, .op 0⟩] ∧
    s.fault ≠ some .nullSqe ∧ Accounted s 0 ∧ Accounted s 1 := by
  have hexec : ((machine 1).execIn (fun s a => s.leavesRoom a = true) (init 1) drainedByRetry).any
      (fun s => decide (s.sq = [⟨.accept 3, some 20, .op 1⟩] ∧ s.kernel = [⟨.accept 3, some 10, .op 0⟩] ∧
        (s.ops 0).start.issued = true ∧ (s.ops 1).start.issued = true)) = true := by decide +kernel
  obtain ⟨s, hrun, hsq, hkernel, h0, h1⟩ := Machine.exists_runIn_of_exec (fun _ _ => id) .nil hexec
  obtain ⟨hfault, hacc⟩ := submission_survives hrun
  exact ⟨s, hrun, hsq, hkernel, hfault, hacc 0 h0, hacc 1 h1⟩

/-- Operation 1 finds the SQ full, and the submission of `get_sqe` hands over
nothing. -/
def stillFull : List Act := leftInQueue ++ startedTo 1 ++ [.submission 0 0, .submission 0 0, .submission 0 0]

/-- `submit_accept` goes on to prepare the null entry: operation 1 has been
started, and has neither an entry nor a completion. -/
theorem full_ring_prepares_null : ∃ s, (machine 1).Run stillFull s ∧ s.fault = some .nullSqe ∧
    (s.ops 1).start = .submit ∧ (s.ops 1).completions = [] ∧ s.sq = [⟨.accept 3, some 10, .op 0⟩] ∧
    s.kernel = [] := by
  have hexec : ((machine 1).exec stillFull).any (fun s => decide (s.fault = some .nullSqe ∧
      (s.ops 1).start = .submit ∧ (s.ops 1).completions = [] ∧ s.sq = [⟨.accept 3, some 10, .op 0⟩] ∧
      s.kernel = [])) = true := by decide +kernel
  exact Machine.exists_run_of_exec hexec

end AsyncRuntime.Ring
