import AsyncRuntime.Ring.Completion
/-!
# Whom a cancellation hits

A cancellation names its target by the address of the heap callback.
`stop_helper` keeps that address in `cb_ptr` for as long as the operation state
lives, while `run()` frees the callback with the completion. From then on the
allocator may give the address to another operation, and a late stop request
cancels that one.

As long as the callback of the operation is still there when its cancellation is
prepared, no other operation can have the address: the new callback would have
to be allocated inside the same critical section. An entry that `io_uring_submit` leaves
in the queue reaches the kernel later, but before any entry that is queued after it.
-/

namespace AsyncRuntime.Ring
open Lib

variable {s s' : RingImpl} {a : Act} {A : Nat}

/-- When `submit_cancel` prepares the entry for an operation, `run()` has not
deleted the callback of that operation. -/
def RingImpl.cancelsLive (s : RingImpl) : Act → Bool
  | .submission _ _ =>
    match s.submission with
    | some ⟨_, .cancel A _, .prep⟩ => decide (A ∉ s.freed)
    | _ => true
  | _ => true

theorem not_freed_of_cancelsLive {k q : Nat} {u : Submission} {ptr : Option Nat}
    (h : s.cancelsLive (.submission k q)) (hu : s.submission = some u) (hpc : u.pc = .prep)
    (hj : u.job = .cancel A ptr) : A ∉ s.freed := by
  obtain ⟨c, job, pc⟩ := u
  cases hpc
  cases hj
  simp only [RingImpl.cancelsLive, hu] at h
  exact of_decide_eq_true h

/-- The callback that a new cancellation names is that of its operation. -/
theorem Safe.heap_of_cancel (hsafe : Safe s) {k q p : Nat} {u : Submission} (h : s.cancelsLive (.submission k q))
    (hu : s.submission = some u) (hpc : u.pc = .prep) (hj : u.job = .cancel A (some p)) : s.heap p = some A :=
  hsafe.lifecycle.live A p (hsafe.issuing.cancel_ptr hu hj).1.symm (not_freed_of_cancelsLive h hu hpc hj)

/-- The target of a cancellation in the critical section belongs to nobody else. -/
def Targeted (s : RingImpl) : Prop :=
  ∀ u A p, s.submission = some u → u.job = .cancel A (some p) → u.pc.tagged = true →
    ∀ B, s.heap p = some B → B = A

/-- The holder moves without preparing an entry, and nobody is allocated. -/
theorem Targeted.setPc (h : Targeted s) {u : Submission} {pc : SubmitPc} (hu : s.submission = some u)
    (hsub : s'.submission = some { u with pc := pc }) (hheap : s'.heap = s.heap)
    (htag : pc.tagged = true → ∀ A ptr, u.job = .cancel A ptr → u.pc.tagged = true) : Targeted s' := by
  intro v A p hv hj ht B hB
  rw [hsub] at hv
  cases hv
  exact h u A p hu hj (htag ht A (some p) hj) B (hheap ▸ hB)

theorem Targeted.of_submission (h : Targeted s) (hsub : s'.submission = s.submission)
    (hheap : ∀ p B, s'.heap p = some B → s.heap p = some B) : Targeted s' :=
  fun u A p hu hj ht B hB => h u A p (hsub ▸ hu) hj ht B (hheap p B hB)

theorem Targeted.of_none (h : s.submission = none) : Targeted s :=
  fun _ _ _ hu => absurd (h.symm.trans hu).symm (Option.some_ne_none _)

theorem SubmitMove.cancel_tagged {job pc pc'} (h : SubmitMove s job pc pc') (ht : pc'.tagged = true)
    (A : Nat) (ptr : Option Nat) (hj : job = .cancel A ptr) : pc.tagged = true := by
  cases h with
  | room | full | roomAgain => cases ht
  | noNop => cases hj

theorem Targeted.effect (h : Targeted s) (hsafe : Safe s) (hg : s.cancelsLive a) (he : Effect s a s') :
    Targeted s' := by
  cases he with
  | op | nullSqe | stopCall | stopStore | invoke | run | runStore | skip | call | dangling | advance | complete =>
    exact h.of_submission rfl (fun _ _ => id)
  | lock => intro u A p hu _ ht; cases hu; cases ht
  | move hu hm => exact h.setPc hu rfl rfl hm.cancel_tagged
  | submit hu hm => exact h.setPc hu rfl rfl (fun ht _ _ _ => hm.tagged ht)
  | issue hu hpc hj _ =>
    intro v A p hv hj' _
    cases hv
    cases hj.symm.trans hj'
  | untagged hu hpc hj =>
    intro v A p hv hj' _ B hB
    cases hv
    exact Option.some.inj (hB.symm.trans (hsafe.heap_of_cancel hg hu hpc hj'))
  | unlock | stopReturns => exact .of_none rfl
  | @free _ _ q _ _ =>
    refine h.of_submission rfl (fun p B hB => ?_)
    have hne : p ≠ q := by rintro rfl; dsimp only at hB; rw [Function.update_self] at hB; cases hB
    dsimp only at hB
    rwa [Function.update_of_ne hne] at hB

/-- An entry in flight is that of a live callback. -/
theorem Lifecycle.heap_of_flying (h : Lifecycle s) {B p : Nat} (hfly : 0 < s.flying B)
    (hc : (s.ops B).callback = some p) : s.heap p = some B := by
  obtain ⟨t, ht, ho⟩ := List.countP_pos_iff.1 hfly
  obtain ⟨q, -, hq⟩ := (h.tag t ht).op (of_decide_eq_true ho)
  cases hc.symm.trans (h.heap q B hq).1
  exact hq

/-- What is in the queue before a cancellation, or with the kernel, does not have the
address it names, unless it belongs to the operation that is cancelled. -/
def Precedes (s : RingImpl) : Prop :=
  ∀ A p l₁ l₂, s.sq = l₁ ++ ⟨.cancel (some p), none, .cancel A⟩ :: l₂ →
    ∀ e ∈ s.kernel ++ l₁, ∀ B, e.origin = .op B → e.userData = some p → B = A

/-- Entries go from the front of the queue to the kernel, and from there. -/
theorem Precedes.shift (h : Precedes s) {l : List Sqe} (hsq : s.sq = l ++ s'.sq)
    (hk : ∀ e ∈ s'.kernel, e ∈ s.kernel ++ l) : Precedes s' := by
  intro A p l₁ l₂ hl e he
  refine h A p (l ++ l₁) l₂ (by rw [hsq, hl, List.append_assoc]) e ?_
  rw [← List.append_assoc]
  rcases List.mem_append.1 he with he | he
  · exact List.mem_append_left _ (hk e he)
  · exact List.mem_append_right _ he

/-- An entry is queued. -/
theorem Precedes.queue (h : Precedes s) {e₀ : Sqe} (hsq : s'.sq = s.sq ++ [e₀]) (hk : s'.kernel = s.kernel)
    (hnew : ∀ A p, e₀ = ⟨.cancel (some p), none, .cancel A⟩ →
      ∀ e ∈ s.kernel ++ s.sq, ∀ B, e.origin = .op B → e.userData = some p → B = A) : Precedes s' := by
  intro A p l₁ l₂ hl
  rw [hk]
  rw [hsq] at hl
  rcases List.eq_nil_or_concat l₂ with rfl | ⟨l₃, e₁, rfl⟩
  · obtain ⟨rfl, he⟩ := List.append_inj' hl rfl
    exact hnew A p (List.singleton_inj.1 he)
  · rw [List.concat_eq_append, ← List.cons_append, ← List.append_assoc] at hl
    exact h A p l₁ l₃ (List.append_inj' hl rfl).1

/-- An entry of an operation, in the queue or with the kernel, has the address of its callback. -/
theorem Lifecycle.heap_of_entry (h : Lifecycle s) {e : Sqe} (he : e ∈ s.kernel ++ s.sq) {B p : Nat}
    (ho : e.origin = .op B) (hp : e.userData = some p) : s.heap p = some B := by
  have ht : e.tag ∈ s.tags := by
    refine List.mem_append_left _ ?_
    rw [← List.map_append]
    exact List.mem_map_of_mem (List.mem_append.2 (List.mem_append.1 he).symm)
  obtain ⟨q, hq, hB⟩ := (h.tag e.tag ht).op ho
  cases hp.symm.trans hq
  exact hB

theorem Precedes.effect (h : Precedes s) (hsafe : Safe s) (hg : s.cancelsLive a) (he : Effect s a s') :
    Precedes s' := by
  cases he with
  | op | lock | move | nullSqe | unlock | stopReturns | stopCall | stopStore | invoke | run | runStore | skip | call
  | dangling | free | advance =>
    exact h.shift (l := []) rfl fun e he => List.mem_append_left _ he
  | @submit k => exact h.shift (List.take_append_drop k s.sq).symm fun _ => id
  | issue => exact h.queue rfl rfl fun A p he => by cases he
  | @untagged _ _ u _ _ hu hpc hj =>
    refine h.queue rfl rfl fun A p he e hin B ho hp => ?_
    generalize hjob : u.job = job at hj
    cases hj with
    | cancel =>
      cases he
      exact Option.some.inj ((hsafe.lifecycle.heap_of_entry hin ho hp).symm.trans (hsafe.heap_of_cancel hg hu hpc hjob))
    | nop => cases he
  | @complete i => exact h.shift (l := []) rfl fun e he => List.mem_append_left _ (List.mem_of_mem_eraseIdx he)

/-- If no cancellation is prepared after the callback of its operation was
deleted, then from the moment its entry is in the queue to the end of the
critical section in which it is submitted, the address it names is not that of
another operation in flight. If the entry is handed over later, then before any entry
of another operation with that address. -/
theorem cancel_hits_own_operation {depth : Nat} {as : List Act}
    (h : (machine depth).RunIn (fun s a => s.cancelsLive a) as s) :
    (∀ {u A ptr}, s.submission = some u → u.job = .cancel A ptr → u.pc.tagged = true →
      ∀ B, B ≠ A → 0 < s.flying B → (s.ops B).callback ≠ ptr) ∧
    ∀ A p l₁ l₂, s.sq = l₁ ++ ⟨.cancel (some p), none, .cancel A⟩ :: l₂ →
      ∀ e ∈ s.kernel ++ l₁, ∀ B, B ≠ A → e.origin = .op B → e.userData ≠ some p := by
  have hsafe := safe_of_run h
  constructor
  · intro u A ptr hu hj ht B hB hfly
    have htarget : Targeted s :=
      inv_of_run (Targeted.of_none rfl) (fun _ _ _ hs hi hg he => hi.effect hs hg he) h
    obtain ⟨hptr, hne⟩ := hsafe.issuing.cancel_ptr hu hj
    obtain ⟨p, hp⟩ := Option.ne_none_iff_exists'.1 hne
    intro hc
    rw [hptr, hp] at hc hj
    exact hB (htarget u A p hu hj ht B (hsafe.lifecycle.heap_of_flying hfly hc))
  · intro A p l₁ l₂ hsq e he B hB ho hp
    have hfirst : Precedes s := by
      refine inv_of_run ?_ (fun _ _ _ hs hi hg he => hi.effect hs hg he) h
      intro A p l₁ l₂ hl
      exact absurd hl (by simp [init])
    exact hB (hfirst A p l₁ l₂ hsq e he B ho hp)

/-- A stop request on `A` runs its callback, up to the point where the entry of
`submit_cancel` is in the queue. -/
def cancelQueued (A : Nat) : List Act :=
  [.requestStop A, .callback A, .callback A, .callback A, .lock (.callback A), .submission 0 0, .submission 0 0]

/-- Two operations are in the kernel when the first is stopped. -/
def stopFirst : List Act := List.flatten [startAt 0 10, startAt 1 20, cancelQueued 0]

theorem cancel_hits_own_operation_stop_first :
    ∃ s, (machine 8).RunIn (fun s a => s.cancelsLive a) stopFirst s ∧
      s.sq = [⟨.cancel (some 10), none, .cancel 0⟩] ∧ 0 < s.flying 1 ∧ (s.ops 1).callback ≠ some 10 := by
  have hexec : ((machine 8).execIn (fun s a => s.cancelsLive a) (init 8) stopFirst).any (fun s => decide
      (s.submission = some ⟨.callback 0, .cancel 0 (some 10), .submit none⟩ ∧
        s.sq = [⟨.cancel (some 10), none, .cancel 0⟩] ∧ 0 < s.flying 1)) = true := by decide +kernel
  obtain ⟨s, hrun, hsub, hsq, hfly⟩ := Machine.exists_runIn_of_exec (fun _ _ => id) .nil hexec
  exact ⟨s, hrun, hsq, hfly, (cancel_hits_own_operation hrun).1 hsub rfl rfl 1 nofun hfly⟩

/-- The first operation completes, `run()` frees its callback, and the next
operation gets the address. Then the first one, whose operation state is still
alive, is stopped. -/
def stopAfterReuse : List Act := List.flatten
  [startAt 0 10, [.run, .runStep, .runStep, .complete 0 ⟨5, 0⟩], List.replicate 4 .runStep,
   startAt 1 10, cancelQueued 0]

/-- The entry that is about to be submitted for operation 0 names the callback of
operation 1, which is in the kernel. -/
theorem late_cancel_hits_reused_address :
    ∃ s, (machine 8).Run stopAfterReuse s ∧
      s.submission = some ⟨.callback 0, .cancel 0 (some 10), .submit none⟩ ∧
      s.sq = [⟨.cancel (some 10), none, .cancel 0⟩] ∧
      (s.ops 0).completions = [.value ⟨5, 0⟩] ∧
      (s.ops 1).callback = some 10 ∧ s.kernel = [⟨.accept 3, some 10, .op 1⟩] := by
  have hexec : ((machine 8).exec stopAfterReuse).any (fun s => decide
      (s.submission = some ⟨.callback 0, .cancel 0 (some 10), .submit none⟩ ∧
        s.sq = [⟨.cancel (some 10), none, .cancel 0⟩] ∧ (s.ops 0).completions = [.value ⟨5, 0⟩] ∧
        (s.ops 1).callback = some 10 ∧ s.kernel = [⟨.accept 3, some 10, .op 1⟩])) = true := by decide +kernel
  exact Machine.exists_run_of_exec hexec

end AsyncRuntime.Ring
