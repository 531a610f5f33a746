import AsyncRuntime.Ring.Effects
import Mathlib.Data.List.Perm.Basic
/-!
# A batch of completions, and what is in flight

The CQ is advanced once per batch, while the kernel keeps appending to it.
`Batch` says how the loop variables of `run()` stand to the queue: `count` is
`head`, and the entries before `head` are the ones handled since the last
advance.

`tags` are the entries of the three queues that `run()` has not handed to a
callback. A step permutes them, adds one or takes one away.
-/

namespace AsyncRuntime.Ring
open Lib

/-! ## The loop variables -/

/-- How many entries of the queue the batch has handled. -/
def RunPc.head : RunPc → Nat
  | .next head _ | .calling head _ _ | .inCallback head _ _ => head
  | .advance count => count
  | _ => 0

/-- The `count` of the batch. -/
def RunPc.count : RunPc → Nat
  | .next _ count | .calling _ count _ | .inCallback _ count _ | .advance count => count
  | _ => 0

/-- The callback that is about to be called, or that is running. -/
def RunPc.target : RunPc → Option Nat
  | .calling _ _ p | .inCallback _ _ p => some p
  | _ => none

/-- How many entries of the queue have been handed to a callback or skipped. -/
def RunPc.passed : RunPc → Nat
  | .inCallback head _ _ => head + 1
  | pc => pc.head

/-- How the loop variables stand to the queue. -/
structure Batch (s : RingImpl) : Prop where
  count : s.run.count = s.run.head
  le : s.run.head ≤ s.cq.length
  batch : s.batch = s.cq.take s.run.head
  entry : ∀ p, s.run.target = some p → ∃ e, s.cq[s.run.head]? = some e ∧ e.userData = some p

variable {s s' : RingImpl} {a : Act} {A : Nat}

theorem Batch.init (depth : Nat) : Batch (init depth) := ⟨rfl, Nat.le_refl _, rfl, nofun⟩

/-- Outside a batch nothing has been handled. -/
theorem Batch.outside (hb : s'.batch = s'.cq.take s'.run.head) (h0 : s'.run.head = 0) (hc : s'.run.count = 0)
    (ht : s'.run.target = none) : Batch s' where
  count := hc.trans h0.symm
  le := h0 ▸ Nat.zero_le _
  batch := hb
  entry _ hp := absurd (ht.symm.trans hp) nofun

theorem RunMove.batch {pc : RunPc} (h : Batch s) (hm : RunMove s s.run pc) : Batch { s with run := pc } := by
  obtain ⟨hcount, hle, hbatch, hentry⟩ := h
  generalize s.run = old at hm hcount hle hbatch hentry
  cases hm with
  | again | leave | woken | interrupted | failed => exact .outside hbatch rfl rfl rfl
  | found he hp => exact ⟨hcount, hle, hbatch, fun q hq => by cases hq; exact ⟨_, he, hp⟩⟩
  | @batchEnd head count he =>
    obtain rfl : count = head := hcount
    exact ⟨rfl, hle, hbatch, nofun⟩

theorem take_snoc {α : Type} {l : List α} {i : Nat} {x : α} (h : l[i]? = some x) :
    l.take i ++ [x] = l.take (i + 1) := by
  rw [List.take_add_one, h]; rfl

theorem lt_of_getElem? {α : Type} {l : List α} {i : Nat} {x : α} (h : l[i]? = some x) : i + 1 ≤ l.length :=
  (List.getElem?_eq_some_iff.1 h).1

theorem Batch.effect (h : Batch s) (he : Effect s a s') : Batch s' := by
  cases he with
  | op | lock | move | submit | issue | untagged | nullSqe | unlock | stopReturns | stopCall | stopStore
  | dangling => exact ⟨h.count, h.le, h.batch, h.entry⟩
  | run hm => exact hm.batch h
  | invoke hr =>
    refine .outside ?_ rfl rfl rfl
    rw [h.batch]
    rcases hr with hr | hr <;> rw [hr] <;> rfl
  | runStore hr =>
    refine .outside ?_ rfl rfl rfl
    rw [h.batch, hr]
    rfl
  | skip hr he _ | free hr he _ =>
    have hcount := h.count
    have hbatch := h.batch
    rw [hr] at hcount hbatch
    refine ⟨congrArg (· + 1) hcount, lt_of_getElem? he, ?_, nofun⟩
    simp only [RunPc.head] at hbatch ⊢
    rw [hbatch, take_snoc he]
  | call hr he _ =>
    have hh := h
    obtain ⟨hcount, hle, hbatch, hentry⟩ := hh
    rw [hr] at hcount hle hbatch hentry
    exact ⟨hcount, hle, hbatch, hentry⟩
  | advance hr => exact .outside rfl rfl rfl rfl
  | complete he =>
    refine ⟨h.count, ?_, ?_, ?_⟩
    · dsimp only
      rw [List.length_append]
      exact Nat.le_add_right_of_le h.le
    · dsimp only
      rw [List.take_append_of_le_length h.le]
      exact h.batch
    · intro p hp
      obtain ⟨e, he', hu⟩ := h.entry p hp
      exact ⟨e, by dsimp only; rw [List.getElem?_append_left (lt_of_getElem? he')]; exact he', hu⟩

/-! ## What is in flight -/

/-- What an entry carries to the end of its way. -/
structure Tag where
  userData : Option Nat
  origin : Origin
deriving DecidableEq

/-- The tag of a queued or consumed submission. -/
def Sqe.tag (e : Sqe) : Tag := ⟨e.userData, e.origin⟩

/-- The tag of a completion. -/
def Cqe.tag (e : Cqe) : Tag := ⟨e.userData, e.origin⟩

/-- The completions that `run()` has not handed to a callback. -/
def RingImpl.pending (s : RingImpl) : List Cqe := s.cq.drop s.run.passed

/-- Everything between `get_sqe` and the callback. -/
def RingImpl.tags (s : RingImpl) : List Tag :=
  s.sq.map Sqe.tag ++ s.kernel.map Sqe.tag ++ s.pending.map Cqe.tag

theorem pending_eq_cons {head : Nat} {e : Cqe} (hr : s.run.passed = head) (he : s.cq[head]? = some e)
    (hcq : s'.cq = s.cq) (hr' : s'.run.passed = head + 1) : s.pending = e :: s'.pending := by
  obtain ⟨hlt, rfl⟩ := List.getElem?_eq_some_iff.1 he
  simp only [RingImpl.pending, hr, hr', hcq]
  exact (List.getElem_cons_drop hlt).symm

/-- The entry at `head` is the first that is pending. -/
theorem tags_perm_cons {head : Nat} {e : Cqe} (hr : s.run.passed = head) (he : s.cq[head]? = some e)
    (hsq : s'.sq = s.sq) (hk : s'.kernel = s.kernel) (hcq : s'.cq = s.cq) (hr' : s'.run.passed = head + 1) :
    s.tags.Perm (e.tag :: s'.tags) := by
  simp only [RingImpl.tags, pending_eq_cons hr he hcq hr', hsq, hk, List.map_cons]
  exact List.perm_middle

theorem tags_queue {e : Sqe} (hsq : s'.sq = s.sq ++ [e]) (hk : s'.kernel = s.kernel)
    (hcq : s'.pending = s.pending) : s'.tags.Perm (e.tag :: s.tags) := by
  simp only [RingImpl.tags, hsq, hk, hcq, List.map_append, List.map_cons, List.map_nil, List.append_assoc]
  exact List.perm_middle

theorem tags_submit {k : Nat} (hsq : s'.sq = s.sq.drop k) (hk : s'.kernel = s.kernel ++ s.sq.take k)
    (hcq : s'.pending = s.pending) : s'.tags.Perm s.tags := by
  have hmove : (s.sq.drop k ++ (s.kernel ++ s.sq.take k)).Perm (s.sq ++ s.kernel) := by
    calc (s.sq.drop k ++ (s.kernel ++ s.sq.take k)).Perm ((s.kernel ++ s.sq.take k) ++ s.sq.drop k) :=
          List.perm_append_comm
      _ = s.kernel ++ s.sq := by rw [List.append_assoc, List.take_append_drop]
      (s.kernel ++ s.sq).Perm (s.sq ++ s.kernel) := List.perm_append_comm
  simp only [RingImpl.tags, hsq, hk, hcq, ← List.map_append]
  exact (hmove.map _).append_right _

theorem tags_complete {i : Nat} {e : Sqe} {c : Cqe} (hb : s.run.passed ≤ s.cq.length)
    (he : s.kernel[i]? = some e) (htag : c.tag = e.tag) (hsq : s'.sq = s.sq)
    (hk : s'.kernel = s.kernel.eraseIdx i) (hcq : s'.cq = s.cq ++ [c]) (hr : s'.run = s.run) :
    s'.tags.Perm s.tags := by
  obtain ⟨hlt, rfl⟩ := List.getElem?_eq_some_iff.1 he
  have hpend : s'.pending = s.pending ++ [c] := by
    simp only [RingImpl.pending, hcq, hr]
    exact List.drop_append_of_le_length hb
  have hker : (s.kernel.map Sqe.tag).Perm (c.tag :: s'.kernel.map Sqe.tag) := by
    rw [htag, hk]
    exact ((List.getElem_cons_eraseIdx_perm hlt).map Sqe.tag).symm
  simp only [RingImpl.tags, hsq, hpend, List.map_append, List.map_cons, List.map_nil, List.append_assoc]
  refine List.Perm.append_left _ ?_
  calc (s'.kernel.map Sqe.tag ++ (s.pending.map Cqe.tag ++ [c.tag])).Perm
        (c.tag :: s'.kernel.map Sqe.tag ++ s.pending.map Cqe.tag) := by
          rw [← List.append_assoc]
          exact List.perm_append_singleton _ _
    (c.tag :: s'.kernel.map Sqe.tag ++ s.pending.map Cqe.tag).Perm
        (s.kernel.map Sqe.tag ++ s.pending.map Cqe.tag) := hker.symm.append_right _

theorem Batch.passed_le (h : Batch s) : s.run.passed ≤ s.cq.length := by
  obtain ⟨_, hle, _, hentry⟩ := h
  generalize s.run = pc at hle hentry
  cases pc with
  | inCallback head count p =>
    obtain ⟨e, he, _⟩ := hentry p rfl
    exact lt_of_getElem? he
  | _ => exact hle

end AsyncRuntime.Ring
