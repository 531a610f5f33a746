import AsyncRuntime.Ring.Operations
import AsyncRuntime.Ring.Batch
/-!
# The life of an operation

The heap callback of an operation travels as a raw pointer: tagged onto an entry
of the SQ, through the kernel, onto a completion, and into `run()`, which calls
and frees it. `Lifecycle` counts: an operation with a callback has exactly one
entry in flight or one call behind it. The address may be used again as soon as
it is freed, so the count is per operation, and `tag` says that the pointer of an
entry in flight is still the one of its own operation.
-/

namespace AsyncRuntime.Ring
open Lib

/-! ## Counting -/

/-- The entries of operation `A` that have not reached a callback. -/
def RingImpl.flying (s : RingImpl) (A : Nat) : Nat := s.tags.countP (fun t => t.origin = .op A)

/-- How often the callback of `A` was called. -/
def RingImpl.calls (s : RingImpl) (A : Nat) : Nat := s.delivered.countP (fun d => d.1 = A)

/-- The channels on which those calls completed the receiver. -/
def RingImpl.channels (s : RingImpl) (A : Nat) : List Channel :=
  (s.delivered.filter (fun d => d.1 = A)).map (fun d => makeIoCallback d.2.result)

/-- The operation whose callback is running. -/
def RingImpl.inCall (s : RingImpl) : Option Nat :=
  match s.run with
  | .inCallback _ _ p => s.heap p
  | _ => none

/-- Whether a callback was made for the operation. -/
def Operation.issues (o : Operation) : Nat := if o.callback.isSome then 1 else 0

/-- The completion by `start()` itself. -/
def Operation.early (o : Operation) : List Channel := if o.start = .stoppedEarly then [.stopped] else []

/-- The tag of an operation's entry is its live callback; the others are null. -/
def Tag.Ok (heap : Nat → Option Nat) (t : Tag) : Prop :=
  match t.origin with
  | .op A => ∃ p, t.userData = some p ∧ heap p = some A
  | _ => t.userData = none

/-- The invariant. -/
structure Lifecycle (s : RingImpl) : Prop where
  tag : ∀ t ∈ s.tags, t.Ok s.heap
  count : ∀ A, s.flying A + s.calls A = (s.ops A).issues
  heap : ∀ p A, s.heap p = some A → (s.ops A).callback = some p ∧ A ∉ s.freed
  live : ∀ A p, (s.ops A).callback = some p → A ∉ s.freed → s.heap p = some A
  freed : ∀ A, s.freed.count A + (if s.inCall = some A then 1 else 0) = s.calls A
  own : ∀ d ∈ s.delivered, d.2.origin = .op d.1
  completions : ∀ A, (s.ops A).completions = (s.ops A).early ++ s.channels A
  current : ∀ h c p, s.run = .inCallback h c p →
    ∃ e A, s.cq[h]? = some e ∧ s.heap p = some A ∧ (A, e) ∈ s.delivered
  batch : ∀ e ∈ s.batch, ∀ A, e.origin = .op A → (A, e) ∈ s.delivered ∧ A ∈ s.freed
  fault : s.fault ≠ some .dangling

theorem Lifecycle.init (depth : Nat) : Lifecycle (init depth) where
  tag _ h := absurd h List.not_mem_nil
  count _ := rfl
  heap _ _ h := absurd h.symm (Option.some_ne_none _)
  live _ _ h := absurd h.symm (Option.some_ne_none _)
  freed _ := rfl
  own _ h := absurd h List.not_mem_nil
  completions _ := rfl
  current _ _ _ h := RunPc.noConfusion h
  batch _ h := absurd h List.not_mem_nil
  fault h := Option.some_ne_none _ h.symm

variable {s s' : RingImpl} {a : Act} {A : Nat} {o o' : Operation} {t : Tag}

/-! ## What the tags say -/

theorem Tag.Ok.op {heap : Nat → Option Nat} (h : t.Ok heap) (ho : t.origin = .op A) :
    ∃ p, t.userData = some p ∧ heap p = some A := by
  unfold Tag.Ok at h; rw [ho] at h; exact h

theorem Tag.Ok.null {heap : Nat → Option Nat} (ht : t.userData = none) (hno : ∀ A, t.origin ≠ .op A) : t.Ok heap := by
  unfold Tag.Ok
  split
  · next A ho => exact absurd ho (hno A)
  · exact ht

theorem Tag.Ok.owner {heap : Nat → Option Nat} {p : Nat} (h : t.Ok heap) (hp : t.userData = some p) :
    ∃ A, t.origin = .op A ∧ heap p = some A := by
  cases ho : t.origin with
  | op A =>
    obtain ⟨q, hq, hA⟩ := h.op ho
    cases hp.symm.trans hq
    exact ⟨A, rfl, hA⟩
  | cancel B | nop j => unfold Tag.Ok at h; rw [ho] at h; rw [hp] at h; cases h

/-- The tags survive a change of the heap that keeps the owners of entries in
flight. -/
theorem Tag.Ok.mono {heap heap' : Nat → Option Nat} (h : t.Ok heap)
    (hh : ∀ p A, t.origin = .op A → heap p = some A → heap' p = some A) : t.Ok heap' := by
  cases ho : t.origin with
  | op A =>
    obtain ⟨p, hp, hA⟩ := h.op ho
    unfold Tag.Ok
    rw [ho]
    exact ⟨p, hp, hh p A ho hA⟩
  | cancel B | nop j => unfold Tag.Ok at h ⊢; rw [ho] at h ⊢; exact h

theorem flying_cons (h : s'.tags.Perm (t :: s.tags)) (A : Nat) :
    s'.flying A = s.flying A + if t.origin = .op A then 1 else 0 := by
  unfold RingImpl.flying
  rw [h.countP_eq, List.countP_cons]
  simp only [decide_eq_true_eq]

theorem flying_pos (h : t ∈ s.tags) (ho : t.origin = .op A) : 0 < s.flying A :=
  List.countP_pos_iff.2 ⟨t, h, decide_eq_true ho⟩

theorem Operation.issues_le (o : Operation) : o.issues ≤ 1 := by
  unfold Operation.issues; split <;> omega

theorem Operation.issues_eq_zero (h : o.callback = none) : o.issues = 0 := by
  unfold Operation.issues; rw [h]; rfl

theorem Operation.issues_eq_one {p : Nat} (h : o.callback = some p) : o.issues = 1 := by
  unfold Operation.issues; rw [h]; rfl

theorem calls_congr (h : s'.delivered = s.delivered) (A : Nat) : s'.calls A = s.calls A := by
  unfold RingImpl.calls; rw [h]

theorem channels_congr (h : s'.delivered = s.delivered) (A : Nat) : s'.channels A = s.channels A := by
  unfold RingImpl.channels; rw [h]

theorem Operation.issues_congr (h : o'.callback = o.callback) : o'.issues = o.issues := by
  unfold Operation.issues; rw [h]

theorem channels_eq_nil (h : s.calls A = 0) : s.channels A = [] := by
  unfold RingImpl.channels
  rw [List.map_eq_nil_iff, List.filter_eq_nil_iff]
  exact List.countP_eq_zero.1 h

/-- An operation without a callback has not been freed. -/
theorem Lifecycle.not_freed (h : Lifecycle s) (hc : (s.ops A).callback = none) :
    s.calls A = 0 ∧ A ∉ s.freed := by
  have hcount := h.count A
  have hfreed := h.freed A
  rw [Operation.issues_eq_zero hc] at hcount
  refine ⟨by omega, ?_⟩
  rw [← List.count_eq_zero]
  omega

/-- The running callback is not that of any entry in flight. -/
theorem Lifecycle.flying_eq_zero (h : Lifecycle s) (hA : s.inCall = some A) : s.flying A = 0 := by
  have hcount := h.count A
  have hfreed := h.freed A
  have hle := (s.ops A).issues_le
  rw [if_pos hA] at hfreed
  omega

theorem inCall_eq {head count p : Nat} (h : s.run = .inCallback head count p) : s.inCall = s.heap p := by
  unfold RingImpl.inCall; rw [h]

theorem inCall_none (h : ∀ head count p, s.run ≠ .inCallback head count p) : s.inCall = none := by
  unfold RingImpl.inCall
  split
  · next hr => exact absurd hr (h _ _ _)
  · rfl

theorem inCall_congr (hheap : s'.heap = s.heap)
    (hrun : ∀ h c p, s'.run = .inCallback h c p ↔ s.run = .inCallback h c p) : s'.inCall = s.inCall := by
  by_cases hr : ∃ h c p, s.run = .inCallback h c p
  · obtain ⟨h, c, p, hr⟩ := hr
    rw [inCall_eq hr, inCall_eq ((hrun h c p).2 hr), hheap]
  · have hno : ∀ h c p, s.run ≠ .inCallback h c p := fun h c p he => hr ⟨h, c, p, he⟩
    rw [inCall_none hno, inCall_none (fun h c p he => hno h c p ((hrun h c p).1 he))]

/-! ## Every step keeps it -/

/-- Steps that at most shift entries between the queues, and queue entries `l`
with a null `user_data`. -/
theorem Lifecycle.frame (h : Lifecycle s) (l : List Tag) (hl : ∀ t ∈ l, t.userData = none ∧ ∀ A, t.origin ≠ .op A)
    (htags : s'.tags.Perm (l ++ s.tags)) (hheap : s'.heap = s.heap)
    (hops : ∀ A, (s'.ops A).callback = (s.ops A).callback ∧ (s'.ops A).completions = (s.ops A).completions ∧
      (s'.ops A).early = (s.ops A).early)
    (hdel : s'.delivered = s.delivered) (hfreed : s'.freed = s.freed) (hbatch : ∀ e ∈ s'.batch, e ∈ s.batch)
    (hrun : ∀ h c p, s'.run = .inCallback h c p ↔ s.run = .inCallback h c p)
    (hcq : ∀ h c p e, s.run = .inCallback h c p → s.cq[h]? = some e → s'.cq[h]? = some e)
    (hfault : s'.fault ≠ some .dangling) : Lifecycle s' where
  tag t ht := by
    rw [hheap]
    rcases List.mem_append.1 (htags.mem_iff.1 ht) with ht | ht
    · exact .null (hl t ht).1 (hl t ht).2
    · exact h.tag t ht
  count A := by
    have hnone : l.countP (fun t => t.origin = .op A) = 0 :=
      List.countP_eq_zero.2 (fun t ht ho => (hl t ht).2 A (of_decide_eq_true ho))
    have hfly : s'.flying A = s.flying A := by
      unfold RingImpl.flying
      rw [htags.countP_eq, List.countP_append, hnone, Nat.zero_add]
    rw [hfly, calls_congr hdel, Operation.issues_congr (hops A).1]
    exact h.count A
  heap p A hp := by rw [(hops A).1, hfreed]; exact h.heap p A (hheap ▸ hp)
  live A p hc hf := by
    rw [(hops A).1] at hc
    rw [hfreed] at hf
    rw [hheap]
    exact h.live A p hc hf
  freed A := by
    rw [hfreed, inCall_congr hheap hrun, calls_congr hdel]
    exact h.freed A
  own d hd := h.own d (hdel ▸ hd)
  completions A := by
    obtain ⟨-, hcomp, hearly⟩ := hops A
    rw [hcomp, hearly, channels_congr hdel]
    exact h.completions A
  current i c p hr := by
    have hr := (hrun i c p).1 hr
    obtain ⟨e, A, he, hp, hd⟩ := h.current i c p hr
    exact ⟨e, A, hcq i c p e hr he, hheap ▸ hp, hdel ▸ hd⟩
  batch e he A ho := by
    obtain ⟨hd, hf⟩ := h.batch e (hbatch e he) A ho
    exact ⟨hdel ▸ hd, hfreed ▸ hf⟩
  fault := hfault

/-- Steps that at most shift entries between the queues. -/
theorem Lifecycle.shift (h : Lifecycle s) (htags : s'.tags.Perm s.tags) (hheap : s'.heap = s.heap)
    (hops : s'.ops = s.ops) (hdel : s'.delivered = s.delivered) (hfreed : s'.freed = s.freed)
    (hbatch : ∀ e ∈ s'.batch, e ∈ s.batch)
    (hrun : ∀ h c p, s'.run = .inCallback h c p ↔ s.run = .inCallback h c p)
    (hcq : ∀ h c p e, s.run = .inCallback h c p → s.cq[h]? = some e → s'.cq[h]? = some e)
    (hfault : s'.fault ≠ some .dangling) : Lifecycle s' := by
  refine h.frame [] (fun t ht => absurd ht List.not_mem_nil) htags hheap ?_ hdel hfreed hbatch hrun hcq hfault
  rw [hops]
  exact fun _ => ⟨rfl, rfl, rfl⟩

/-- Steps that only touch the program points of the threads. -/
theorem Lifecycle.frame_pcs (h : Lifecycle s) (htags : s'.tags = s.tags) (hheap : s'.heap = s.heap)
    (hops : s'.ops = s.ops) (hdel : s'.delivered = s.delivered) (hfreed : s'.freed = s.freed)
    (hbatch : s'.batch = s.batch) (hrun : s'.run = s.run) (hcq : s'.cq = s.cq)
    (hfault : s'.fault ≠ some .dangling) : Lifecycle s' := by
  refine h.shift (.of_eq htags) hheap hops hdel hfreed ?_ ?_ ?_ hfault
  · rw [hbatch]; exact fun _ => id
  · rw [hrun]; exact fun _ _ _ => Iff.rfl
  · rw [hcq]; exact fun _ _ _ _ _ => id

/-- A step inside `start()` completes the receiver in one place only. -/
theorem OpStep.completions (ho : OpStep o o') :
    o'.completions = o.completions ∧ o'.early = o.early ∨
      o.start = .checkStop ∧ o'.start = .stoppedEarly ∧ o'.completions = o.completions ++ [.stopped] := by
  have hne {pc : StartPc} (hpc : o.start = pc) (h : pc ≠ .stoppedEarly) : o.early = [] := by
    unfold Operation.early; rw [hpc, if_neg h]
  cases ho with
  | stopped hs _ => exact .inr ⟨hs, rfl, rfl⟩
  | begin hs | checked hs | emplaceRequested hs | emplace hs | unstoppable hs | emplaced hs | storeCbPtr hs
  | stopCalled hs | notCalled hs | readCtx hs => exact .inl ⟨rfl, (hne hs nofun).symm⟩
  | request | requestCallback | storeStopCalled | noCbPtr | loadCbPtr | callbackCtx => exact .inl ⟨rfl, rfl⟩

/-- A change of one operation state. -/
theorem Lifecycle.setOp (h : Lifecycle s) (hcb : o.callback = (s.ops A).callback)
    (hcomp : o.completions = o.early ++ s.channels A) : Lifecycle (s.setOp A o) := by
  have hcall (B : Nat) : ((s.setOp A o).ops B).callback = (s.ops B).callback := by
    by_cases hB : B = A
    · subst hB; rw [setOp_self, hcb]
    · rw [setOp_ne hB]
  exact { h with
    count := fun B => by rw [Operation.issues_congr (hcall B)]; exact h.count B
    heap := fun p B hp => by rw [hcall]; exact h.heap p B hp
    live := fun B p hc hf => h.live B p (hcall B ▸ hc) hf
    completions := fun B => by
      by_cases hB : B = A
      · subst hB; rw [setOp_self]; exact hcomp
      · rw [setOp_ne hB]; exact h.completions B }

theorem Lifecycle.op_step (h : Lifecycle s) (hi : OpInv (s.ops A)) (ho : OpStep (s.ops A) o) :
    Lifecycle (s.setOp A o) := by
  refine h.setOp ho.callback_eq ?_
  rcases ho.completions with ⟨hcomp, hearly⟩ | ⟨hs, hs', hcomp⟩
  · rw [hcomp, hearly]; exact h.completions A
  · -- completed before it had a callback, so by nobody else
    have hnil : s.channels A = [] :=
      channels_eq_nil (h.not_freed (hi.unissued (by rw [hs]; rfl))).1
    rw [hcomp, h.completions A, hnil, Operation.early, Operation.early, if_neg (by rw [hs]; nofun), if_pos hs']
    rfl

theorem Lifecycle.unlock (h : Lifecycle s) (hi : Issuing s) {u : Submission} {ptr : Option Nat}
    (hu : s.submission = some u) (hr : Returns (s.ops A) A ptr u.caller o) :
    Lifecycle (RingImpl.setOp { s with submission := none } A o) := by
  have hfree : Lifecycle { s with submission := none } := h.frame_pcs rfl rfl rfl rfl rfl rfl rfl rfl h.fault
  refine hfree.setOp hr.callback_eq ?_
  have hheld := hi.held u hu
  have hcomp := h.completions A
  have hnot {q} (hs : (s.ops A).start = .submit ∨ (s.ops A).start = .cancel q) : (s.ops A).early = [] := by
    unfold Operation.early
    rcases hs with hs | hs <;> rw [hs, if_neg nofun]
  generalize u.caller = c at hr hheld
  cases hr with
  | submit hs => rw [hnot (q := none) (.inl hs)] at hcomp; exact hcomp
  | cancel hs =>
    obtain hs' | ⟨q, hs'⟩ := job_start hheld
    · exact absurd hs' hs
    · rw [hnot (.inr hs')] at hcomp; exact hcomp
  | callback => exact hcomp

theorem Untagged.origin_ne {job prep origin} (h : Untagged job prep origin) (A : Nat) : origin ≠ .op A := by
  cases h <;> nofun

/-- The callback of `A` is allocated at `p` and its entry is queued. -/
theorem Lifecycle.issue (h : Lifecycle s) {p : Nat} (hcb : (s.ops A).callback = none) (hp : s.heap p = none)
    (ht : t = ⟨some p, .op A⟩) (htags : s'.tags.Perm (t :: s.tags))
    (hheap : s'.heap = Function.update s.heap p (some A))
    (hops : s'.ops = Function.update s.ops A { s.ops A with callback := some p })
    (hdel : s'.delivered = s.delivered) (hfreed : s'.freed = s.freed) (hbatch : s'.batch = s.batch)
    (hrun : s'.run = s.run) (hcq : s'.cq = s.cq) (hfault : s'.fault = s.fault) : Lifecycle s' := by
  subst ht
  have hcalls := calls_congr hdel
  have hch := channels_congr hdel
  obtain ⟨hcall0, hfree0⟩ := h.not_freed hcb
  have hkeep (q B : Nat) (hq : s.heap q = some B) : s'.heap q = some B := by
    have hne : q ≠ p := by rintro rfl; rw [hp] at hq; cases hq
    rw [hheap, Function.update_of_ne hne]
    exact hq
  have hself : s'.heap p = some A := by rw [hheap, Function.update_self]
  have hopA : (s'.ops A).callback = some p := by rw [hops, Function.update_self]
  have hopB {B : Nat} (hB : B ≠ A) : s'.ops B = s.ops B := by rw [hops, Function.update_of_ne hB]
  -- the address is new, so the callback that `run()` may be inside is another one
  have hcallNow : s'.inCall = s.inCall := by
    by_cases hr : ∃ i c q, s.run = .inCallback i c q
    · obtain ⟨i, c, q, hr⟩ := hr
      obtain ⟨e, B, -, hq, -⟩ := h.current i c q hr
      rw [inCall_eq hr, inCall_eq (hrun ▸ hr), hq, hkeep q B hq]
    · have hno : ∀ i c q, s.run ≠ .inCallback i c q := fun i c q he => hr ⟨i, c, q, he⟩
      rw [inCall_none hno, inCall_none (hrun ▸ hno)]
  refine ⟨?_, ?_, ?_, ?_, ?_, hdel ▸ h.own, ?_, ?_, ?_, hfault ▸ h.fault⟩
  · intro t' ht'
    rcases List.mem_cons.1 (htags.mem_iff.1 ht') with rfl | ht'
    · exact ⟨p, rfl, hself⟩
    · exact (h.tag t' ht').mono (fun q B _ hq => hkeep q B hq)
  · intro B
    rw [flying_cons htags, hcalls]
    have hcount := h.count B
    by_cases hB : B = A
    · subst hB
      rw [Operation.issues_eq_zero hcb] at hcount
      rw [if_pos rfl, Operation.issues_eq_one hopA]
      omega
    · rw [if_neg (by rintro ⟨⟩; exact hB rfl), hopB hB]
      exact hcount
  · intro q B hq
    rw [hfreed]
    by_cases hqp : q = p
    · subst hqp
      cases hself.symm.trans hq
      exact ⟨hopA, hfree0⟩
    · rw [hheap, Function.update_of_ne hqp] at hq
      have hB : B ≠ A := by rintro rfl; rw [(h.heap q B hq).1] at hcb; cases hcb
      rw [hopB hB]
      exact h.heap q B hq
  · intro B q hc hf
    by_cases hB : B = A
    · subst hB
      cases hopA.symm.trans hc
      exact hself
    · rw [hopB hB] at hc
      rw [hfreed] at hf
      exact hkeep q B (h.live B q hc hf)
  · intro B; rw [hfreed, hcalls, hcallNow]; exact h.freed B
  · intro B
    rw [hch]
    by_cases hB : B = A
    · subst hB; rw [hops, Function.update_self]; exact h.completions B
    · rw [hopB hB]; exact h.completions B
  · intro i c q hr
    obtain ⟨e, B, he, hq, hd⟩ := h.current i c q (hrun ▸ hr)
    exact ⟨e, B, hcq ▸ he, hkeep q B hq, hdel ▸ hd⟩
  · rw [hbatch, hdel, hfreed]; exact h.batch

theorem calls_append {d : Nat × Cqe} (h : s'.delivered = s.delivered ++ [d]) (B : Nat) :
    s'.calls B = s.calls B + if d.1 = B then 1 else 0 := by
  unfold RingImpl.calls
  rw [h, List.countP_append, List.countP_singleton]
  simp only [decide_eq_true_eq]

theorem channels_append {d : Nat × Cqe} (h : s'.delivered = s.delivered ++ [d]) (B : Nat) :
    s'.channels B = s.channels B ++ if d.1 = B then [makeIoCallback d.2.result] else [] := by
  unfold RingImpl.channels
  rw [h, List.filter_append, List.map_append]
  by_cases hB : d.1 = B <;> simp [hB]

/-- The completion that `run()` stands at is that of the operation whose callback
it has in its hand. -/
theorem Lifecycle.origin_at (h : Lifecycle s) (hb : Batch s) {head count p : Nat} {e : Cqe}
    (hr : s.run = .calling head count p) (he : s.cq[head]? = some e) :
    ∃ A, e.origin = .op A ∧ s.heap p = some A := by
  obtain ⟨e', he', hu⟩ := hb.entry p (by rw [hr]; rfl)
  rw [hr] at he'
  cases he.symm.trans he'
  have hmem : e.tag ∈ s.tags := by
    refine List.mem_append_right _ (List.mem_map_of_mem ?_)
    have hpend : s.pending = e :: s.cq.drop (head + 1) := by
      obtain ⟨hlt, rfl⟩ := List.getElem?_eq_some_iff.1 he
      unfold RingImpl.pending
      rw [hr]
      exact (List.getElem_cons_drop hlt).symm
    rw [hpend]
    exact List.mem_cons_self
  exact (h.tag _ hmem).owner hu

theorem Lifecycle.call (h : Lifecycle s) (hb : Batch s) {head count p : Nat} {e : Cqe}
    (hr : s.run = .calling head count p) (he : s.cq[head]? = some e) (hp : s.heap p = some A)
    (hs' : s' = { s with
      run := .inCallback head count p
      delivered := s.delivered ++ [(A, e)]
      ops := Function.update s.ops A
        { s.ops A with completions := (s.ops A).completions ++ [makeIoCallback e.result] } }) :
    Lifecycle s' := by
  have horigin : e.origin = .op A := by
    obtain ⟨B, ho, hB⟩ := h.origin_at hb hr he
    cases hp.symm.trans hB
    exact ho
  have hdel : s'.delivered = s.delivered ++ [(A, e)] := by rw [hs']
  have hrun : s'.run = .inCallback head count p := by rw [hs']
  have hheap : s'.heap = s.heap := by rw [hs']
  have htags : s.tags.Perm (e.tag :: s'.tags) := by
    refine tags_perm_cons (by rw [hr]; rfl) he ?_ ?_ ?_ (by rw [hrun]; rfl) <;> rw [hs']
  have hcb (B : Nat) : (s'.ops B).callback = (s.ops B).callback := by
    rw [hs']
    by_cases hB : B = A
    · subst hB; dsimp only; rw [Function.update_self]
    · dsimp only; rw [Function.update_of_ne hB]
  have hnow : s'.inCall = some A := by rw [inCall_eq hrun, hheap, hp]
  have hbefore : s.inCall = none := inCall_none (by rw [hr]; nofun)
  have hfreed : s'.freed = s.freed := by rw [hs']
  refine ⟨?_, ?_, ?_, ?_, ?_, ?_, ?_, ?_, ?_, by rw [hs']; exact h.fault⟩
  · intro t ht
    rw [hheap]
    exact h.tag t (htags.mem_iff.2 (List.mem_cons_of_mem _ ht))
  · intro B
    have hcount := h.count B
    rw [flying_cons htags, show e.tag.origin = .op A from horigin] at hcount
    rw [calls_append hdel, Operation.issues_congr (hcb B), ← hcount]
    simp only [Origin.op.injEq]
    omega
  · intro q B hq; rw [hcb, hfreed]; exact h.heap q B (hheap ▸ hq)
  · intro B q hc hf; rw [hheap]; exact h.live B q (hcb B ▸ hc) (hfreed ▸ hf)
  · intro B
    have hf := h.freed B
    rw [hbefore, if_neg nofun] at hf
    rw [calls_append hdel, hfreed, hnow, ← hf]
    simp only [Option.some.injEq, Nat.add_zero]
  · intro d hd
    rw [hdel] at hd
    rcases List.mem_append.1 hd with hd | hd
    · exact h.own d hd
    · rw [List.mem_singleton.1 hd]; exact horigin
  · intro B
    rw [channels_append hdel, hs']
    by_cases hB : B = A
    · subst hB
      dsimp only
      rw [Function.update_self, if_pos rfl, ← List.append_assoc]
      exact congrArg (· ++ _) (h.completions B)
    · dsimp only
      rw [Function.update_of_ne hB, if_neg (Ne.symm hB), List.append_nil]
      exact h.completions B
  · intro i c q hi
    cases hrun.symm.trans hi
    refine ⟨e, A, by rw [hs']; exact he, hheap ▸ hp, ?_⟩
    rw [hdel]
    exact List.mem_append_right _ (List.mem_singleton_self _)
  · intro e' he' B hB
    rw [hfreed, hdel]
    obtain ⟨hd, hf⟩ := h.batch e' (by rw [hs'] at he'; exact he') B hB
    exact ⟨List.mem_append_left _ hd, hf⟩

/-- A completion with a null `user_data` is passed over. -/
theorem Lifecycle.skip (h : Lifecycle s) {head count : Nat} {e : Cqe} (hr : s.run = .next head count)
    (he : s.cq[head]? = some e) (hu : e.userData = none)
    (hs' : s' = { s with run := .next (head + 1) (count + 1), batch := s.batch ++ [e] }) : Lifecycle s' := by
  have htags : s.tags.Perm (e.tag :: s'.tags) := by
    refine tags_perm_cons (by rw [hr]; rfl) he ?_ ?_ ?_ ?_ <;> rw [hs']
    rfl
  have hno (A : Nat) : e.tag.origin ≠ .op A := by
    intro ho
    obtain ⟨p, hp, -⟩ := (h.tag e.tag (htags.mem_iff.2 List.mem_cons_self)).op ho
    cases hu.symm.trans hp
  have hnow : s'.inCall = s.inCall := by
    rw [inCall_none (by rw [hs']; nofun), inCall_none (by rw [hr]; nofun)]
  have hfly (A : Nat) : s'.flying A = s.flying A := by
    rw [flying_cons htags, if_neg (hno A), Nat.add_zero]
  refine ⟨?_, ?_, ?_, ?_, ?_, ?_, ?_, ?_, ?_, by rw [hs']; exact h.fault⟩
  · intro t ht
    have hok := h.tag t (htags.mem_iff.2 (List.mem_cons_of_mem _ ht))
    rw [hs']
    exact hok
  · intro A; rw [hfly, hs']; exact h.count A
  · rw [hs']; exact h.heap
  · rw [hs']; exact h.live
  · intro A; rw [hnow, hs']; exact h.freed A
  · rw [hs']; exact h.own
  · intro A; rw [hs']; exact h.completions A
  · rw [hs']; exact fun _ _ _ => RunPc.noConfusion
  · intro e' he' A hA
    rw [hs'] at he' ⊢
    rcases List.mem_append.1 he' with he' | he'
    · exact h.batch e' he' A hA
    · rw [List.mem_singleton.1 he'] at hA; exact absurd hA (hno A)

/-- The callback has returned and is deleted. -/
theorem Lifecycle.free (h : Lifecycle s) {head count p : Nat} {e : Cqe}
    (hr : s.run = .inCallback head count p) (he : s.cq[head]? = some e) (hp : s.heap p = some A)
    (hs' : s' = { s with
      run := .next (head + 1) (count + 1)
      heap := Function.update s.heap p none
      freed := s.freed ++ [A]
      batch := s.batch ++ [e] }) : Lifecycle s' := by
  have hnow : s.inCall = some A := by rw [inCall_eq hr, hp]
  have hdel : (A, e) ∈ s.delivered := by
    obtain ⟨e', B, he', hB, hd⟩ := h.current head count p hr
    cases he.symm.trans he'
    cases hp.symm.trans hB
    exact hd
  have htags : s'.tags = s.tags := by
    simp only [hs', RingImpl.tags, RingImpl.pending, hr, RunPc.passed, RunPc.head]
  -- no other operation has its callback at this address
  have hheap (q B : Nat) (hB : B ≠ A) (hq : s.heap q = some B) : s'.heap q = some B := by
    have hqp : q ≠ p := by rintro rfl; cases hp.symm.trans hq; exact hB rfl
    rw [hs']
    dsimp only
    rw [Function.update_of_ne hqp]
    exact hq
  have hfreed : s'.freed = s.freed ++ [A] := by rw [hs']
  refine ⟨?_, ?_, ?_, ?_, ?_, ?_, ?_, ?_, ?_, by rw [hs']; exact h.fault⟩
  · intro t ht
    rw [htags] at ht
    refine (h.tag t ht).mono (fun q B ho hq => hheap q B ?_ hq)
    rintro rfl
    exact absurd (h.flying_eq_zero hnow) (Nat.ne_of_gt (flying_pos ht ho))
  · intro B
    have hfly : s'.flying B = s.flying B := by unfold RingImpl.flying; rw [htags]
    rw [hfly, hs']
    exact h.count B
  · intro q B hq
    have hqp : q ≠ p := by
      rintro rfl; rw [hs'] at hq; dsimp only at hq; rw [Function.update_self] at hq; cases hq
    have hq' : s.heap q = some B := by rw [hs'] at hq; dsimp only at hq; rwa [Function.update_of_ne hqp] at hq
    obtain ⟨hc, hf⟩ := h.heap q B hq'
    refine ⟨by rw [hs']; exact hc, ?_⟩
    rw [hfreed, List.mem_append, List.mem_singleton]
    rintro (hf' | rfl)
    · exact hf hf'
    · exact hqp (Option.some.inj (hc.symm.trans (h.heap p B hp).1))
  · intro B q hc hf
    rw [hfreed, List.mem_append, List.mem_singleton, not_or] at hf
    exact hheap q B hf.2 (h.live B q (by rw [hs'] at hc; exact hc) hf.1)
  · intro B
    have hf := h.freed B
    have hnone : s'.inCall = none := inCall_none (by rw [hs']; simp)
    rw [hfreed, hnone, calls_congr (s := s) (by rw [hs']), ← hf, hnow, if_neg (Option.some_ne_none B).symm,
      List.count_append, List.count_singleton]
    simp only [Option.some.injEq, beq_iff_eq, Nat.add_zero]
  · rw [hs']; exact h.own
  · intro B; rw [hs']; exact h.completions B
  · rw [hs']; exact fun _ _ _ => RunPc.noConfusion
  · intro e' he' B hB
    have hd : (B, e') ∈ s.delivered ∧ (B ∈ s.freed ∨ B = A) := by
      rw [hs'] at he'
      rcases List.mem_append.1 he' with he' | he'
      · exact ⟨(h.batch e' he' B hB).1, .inl (h.batch e' he' B hB).2⟩
      · cases List.mem_singleton.1 he'
        cases (h.own _ hdel).symm.trans hB
        exact ⟨hdel, .inr rfl⟩
    rw [hfreed, List.mem_append, List.mem_singleton]
    exact ⟨by rw [hs']; exact hd.1, hd.2⟩

/-- Steps of the thread in `run()` between two completions. -/
theorem RunMove.lifecycle {pc : RunPc} (h : Lifecycle s) (hb : Batch s) (hm : RunMove s s.run pc) :
    Lifecycle { s with run := pc } := by
  have hpassed : pc.passed = s.run.passed := by
    have hcount := hb.count
    generalize s.run = old at hm hcount
    cases hm with
    | batchEnd => exact hcount
    | _ => rfl
  have hno : (∀ i c p, pc ≠ .inCallback i c p) ∧ ∀ i c p, s.run ≠ .inCallback i c p := by
    generalize s.run = old at hm
    cases hm <;> exact ⟨nofun, nofun⟩
  refine h.shift (.of_eq ?_) rfl rfl rfl rfl (fun _ => id) ?_ (fun _ _ _ _ _ => id) h.fault
  · simp only [RingImpl.tags, RingImpl.pending, hpassed]
  · exact fun i c p => ⟨fun hi => absurd hi (hno.1 i c p), fun hi => absurd hi (hno.2 i c p)⟩

theorem Lifecycle.effect (h : Lifecycle s) (hi : Issuing s) (hb : Batch s) (he : Effect s a s') :
    Lifecycle s' := by
  have hfault : s.fault ≠ some .dangling := h.fault
  have houtside {pc pc' : RunPc} (hr : s.run = pc) (h1 : ∀ i c p, pc ≠ .inCallback i c p)
      (h2 : ∀ i c p, pc' ≠ .inCallback i c p) (i c p : Nat) :
      pc' = .inCallback i c p ↔ s.run = .inCallback i c p :=
    ⟨fun hp => absurd hp (h2 i c p), fun hp => absurd (hr.symm.trans hp) (h1 i c p)⟩
  cases he with
  | op ho => exact h.op_step (hi.op _) ho
  | lock | move | stopReturns | stopCall | stopStore => exact h.frame_pcs rfl rfl rfl rfl rfl rfl rfl rfl hfault
  | nullSqe => exact h.frame_pcs rfl rfl rfl rfl rfl rfl rfl rfl (by simp)
  | submit =>
    exact h.shift (tags_submit rfl rfl rfl) rfl rfl rfl rfl (fun _ => id) (fun _ _ _ => Iff.rfl)
      (fun _ _ _ _ _ => id) hfault
  | issue hu hpc hj hp =>
    exact h.issue (hi.callback_eq_none hu hpc hj) hp rfl (tags_queue (e := ⟨_, _, _⟩) rfl rfl rfl)
      rfl rfl rfl rfl rfl rfl rfl rfl
  | @untagged _ _ _ _ origin hu hpc hj =>
    refine h.frame [⟨none, origin⟩] ?_ (tags_queue (e := ⟨_, _, _⟩) rfl rfl rfl) rfl (fun _ => ⟨rfl, rfl, rfl⟩)
      rfl rfl (fun _ => id) (fun _ _ _ => Iff.rfl) (fun _ _ _ _ _ => id) hfault
    intro t ht
    rw [List.mem_singleton.1 ht]
    exact ⟨rfl, hj.origin_ne⟩
  | unlock hu _ hr => exact h.unlock hi hu hr
  | run hm => exact hm.lifecycle h hb
  | invoke hr =>
    rcases hr with hr | hr
    all_goals
      refine h.shift (.of_eq ?_) rfl rfl rfl rfl (fun _ => id) (houtside hr (by simp) (by simp))
        (fun _ _ _ _ _ => id) hfault
      simp only [RingImpl.tags, RingImpl.pending, hr, RunPc.passed, RunPc.head]
  | runStore hr =>
    refine h.shift (.of_eq ?_) rfl rfl rfl rfl (fun _ => id) (houtside hr (by simp) (by simp))
      (fun _ _ _ _ _ => id) hfault
    simp only [RingImpl.tags, RingImpl.pending, hr, RunPc.passed, RunPc.head]
  | skip hr he hu => exact h.skip hr he hu rfl
  | call hr he hp => exact h.call hb hr he hp rfl
  | dangling hr hp =>
    obtain ⟨e, he, -⟩ := hb.entry _ (by rw [hr]; rfl)
    rw [hr] at he
    obtain ⟨A, -, hA⟩ := h.origin_at hb hr he
    cases hp.symm.trans hA
  | free hr he hp => exact h.free hr he hp rfl
  | advance hr =>
    refine h.shift (.of_eq ?_) rfl rfl rfl rfl (fun _ he => absurd he List.not_mem_nil)
      (houtside hr (by simp) (by simp)) (fun i c p e hp => by cases hr.symm.trans hp) hfault
    simp only [RingImpl.tags, RingImpl.pending, hr, RunPc.passed, RunPc.head, List.drop_zero]
  | complete he =>
    refine h.shift (tags_complete hb.passed_le he rfl rfl rfl rfl rfl) rfl rfl rfl rfl (fun _ => id)
      (fun _ _ _ => Iff.rfl) (fun i c p e hr hc => ?_) hfault
    dsimp only
    rw [List.getElem?_append_left (lt_of_getElem? hc)]
    exact hc

/-! ## Every reachable state -/

/-- The invariants of the context together. -/
structure Safe (s : RingImpl) : Prop where
  issuing : Issuing s
  batch : Batch s
  lifecycle : Lifecycle s

theorem Safe.effect (h : Safe s) (he : Effect s a s') : Safe s' :=
  ⟨h.issuing.effect he, h.batch.effect he, h.lifecycle.effect h.issuing h.batch he⟩

theorem safe_init (depth : Nat) : Safe (init depth) := ⟨.init depth, .init depth, .init depth⟩

/-- What every step keeps in a safe state holds after every run. -/
theorem inv_of_run {P : RingImpl → Act → Prop} {I : RingImpl → Prop} {depth : Nat} {as : List Act}
    (h0 : I (init depth)) (hstep : ∀ s a s', Safe s → I s → P s a → Effect s a s' → I s')
    (h : (machine depth).RunIn P as s) : I s := by
  refine (Machine.RunIn.inv (fun s => Safe s ∧ I s) ⟨safe_init depth, h0⟩ ?_ h).2
  intro s a s' hs hp hst
  have he := (step_effect hst).2
  exact ⟨hs.1.effect he, hstep s a s' hs.1 hs.2 hp he⟩

theorem safe_of_run {P : RingImpl → Act → Prop} {depth : Nat} {as : List Act}
    (h : (machine depth).RunIn P as s) : Safe s :=
  inv_of_run (safe_init depth) (fun _ _ _ hs _ _ he => hs.effect he) h

end AsyncRuntime.Ring
