import AsyncRuntime.Lib.Simulation
import AsyncRuntime.Deque.Growth
/-!
# The deque under store buffers

The owner's relaxed and release stores (the slots, the arrays that `grow` makes and
`array_`) go into a FIFO buffer and reach memory later. Its `seq_cst` stores and its
`compare_exchange_strong` wait until the buffer is empty, and so does nothing else: a load
sees the owner's own buffered stores. Thieves have no plain stores. They see memory
only, so a thief may find the old array, or an array without the newest tasks, for a
while after `push` has replaced it.

Every store that may be late is made between the load of `array_` in `push` and its store of
`bottom_`. There the owner reads nothing that thieves write. So an owner of the deque without
buffers that has not come as far makes the same stores later (`Behind`), and every
history under store buffers is one without them.
-/

namespace AsyncRuntime.Deque.Buffered
open Lib
variable {τ : Type}

/-! ## The buffer -/

/-- A store that may be late. No thief reaches an array before `array_` is stored, so the
stores of the constructor of `circular_array` are one entry. -/
inductive Store (τ : Type) where
  | alloc (n : Nat) (a : CircularArray τ)
  | slot (a : Nat) (i : Int) (x : Option τ)
  | array (a n : Nat)

/-- A store reaches memory. `history_` is stored with `array_`. -/
def write (d : WorkStealingDeque τ) : Store τ → WorkStealingDeque τ
  | .alloc n a => { d with heap := Function.update d.heap n a, next := d.next + 1 }
  | .slot a i x => d.storeSlot a i x
  | .array a n => { d with history := d.history ++ [a], array := n }

/-- The relaxed or release store that the owner makes at a program point. -/
def delayed (d : WorkStealingDeque τ) : OwnerPc τ → Option (Store τ)
  | .pushLoadArray _ b t =>
    if d.cur.capacity - 1 ≤ b - t then some (.alloc d.next (d.heap d.array).double) else none
  | .growStore _ _ _ _ n i v => some (.slot n i v)
  | .pushStoreArray _ _ _ a n => some (.array a n)
  | .pushStoreSlot x b a => some (.slot a b (some x))
  | _ => none

/-- The `seq_cst` stores of the owner, and its `compare_exchange_strong`. -/
def fenced : OwnerPc τ → Bool
  | .pushStoreBottom _ _ | .popStoreBottom _ _ | .popUndo _ | .popCas _ _ _ | .popReset _ _ => true
  | _ => false

/-! ## The machine -/

/-- The deque in memory, the owner's buffer, and the calls. -/
structure Sys (τ : Type) where
  mem : WorkStealingDeque τ
  buf : List (Store τ)
  owner : OwnerPc τ
  thief : Nat → Option (ThiefPc τ)

/-- One access of the owner at `p`, with the deque `d` in memory. -/
def access (d : WorkStealingDeque τ) (buf : List (Store τ)) (p : OwnerPc τ) :
    Option (WorkStealingDeque τ × List (Store τ) × OwnerPc τ) :=
  let view := buf.foldl write d
  match delayed view p with
  | some w => some (d, buf ++ [w], (ownerStep view p).2)
  | none =>
    if fenced p then
      if buf.isEmpty then some ((ownerStep d p).1, [], (ownerStep d p).2) else none
    else some (d, buf, (ownerStep view p).2)

/-- What the scheduler may pick: what it may pick without buffers, or the oldest buffered
store to reach memory. -/
inductive Act (τ : Type) where
  | access (a : Deque.Act τ)
  | drain

section Machine
variable [DecidableEq τ]

/-- One step. The calls, the returns and the accesses of thieves are those of the deque
in memory. -/
def step (s : Sys τ) : Act τ → Option (Sys τ)
  | .access .owner => (access s.mem s.buf s.owner).map fun (d, buf, p) => { s with mem := d, buf := buf, owner := p }
  | .access a => (Deque.step ⟨s.mem, s.owner, s.thief⟩ a).map fun u =>
      { s with mem := u.d, owner := u.owner, thief := u.thief }
  | .drain => match s.buf with
    | [] => none
    | w :: buf => some { s with mem := write s.mem w, buf := buf }

/-- A deque of initial capacity `cap` with no call in progress. -/
def machine (cap : Int) (h : ∃ k : Nat, cap = 2 ^ k) : Machine (Sys τ) (Act τ) where
  init := ⟨.new cap h, [], .idle, fun _ => none⟩
  step := step

end Machine

/-- What a caller sees. -/
def obs : Act τ → Option (Event Thread (Op τ) (Option τ))
  | .access a => Deque.obs a
  | .drain => none

/-! ## An owner that is behind -/

variable {d : WorkStealingDeque τ} {p p₀ : OwnerPc τ} {w : Store τ} {buf : List (Store τ)}

/-- A delayed store does to memory what the access does without buffers. -/
theorem write_delayed (h : delayed d p = some w) : (ownerStep d p).1 = write d w := by
  cases p with
  | pushLoadArray x b t =>
    simp only [delayed] at h
    split at h
    · next hs =>
      obtain rfl := Option.some.inj h
      simp only [ownerStep, hs, if_true, WorkStealingDeque.alloc, write]
    · cases h
  | growStore x b t a n i v => obtain rfl := Option.some.inj h; rfl
  | pushStoreArray x b t a n => obtain rfl := Option.some.inj h; rfl
  | pushStoreSlot x b a => obtain rfl := Option.some.inj h; rfl
  | _ => cases h

/-- What is neither delayed nor fenced is a load. -/
theorem ownerStep_load (h : delayed d p = none) (hf : fenced p = false) : (ownerStep d p).1 = d := by
  cases p with
  | pushLoadArray x b t =>
    simp only [delayed] at h
    split at h
    · cases h
    · next hs => simp only [ownerStep, hs, if_false]
  | popLoadTop b a => simp only [ownerStep]; split <;> rfl
  | popLoadSlot b a t => simp only [ownerStep]; split <;> rfl
  | growStore | pushStoreArray | pushStoreSlot => cases h
  | pushStoreBottom | popStoreBottom | popUndo | popCas | popReset => cases hf
  | _ => rfl

/-- The loads of the copy loop of `grow`. -/
def copies : OwnerPc τ → Bool
  | .growLoad _ _ _ _ _ _ => true
  | _ => false

/-- Between the load of `array_` in `push` and its store of `bottom_`. -/
def writing : OwnerPc τ → Bool
  | .growLoad _ _ _ _ _ _ | .growStore _ _ _ _ _ _ _ | .pushStoreArray _ _ _ _ _ | .pushStoreSlot _ _ _
  | .pushStoreBottom _ _ => true
  | _ => false

/-- The owner at `p₀` with the deque `d` makes exactly the stores `buf` on its way to `p`. -/
inductive Behind : WorkStealingDeque τ → OwnerPc τ → List (Store τ) → OwnerPc τ → Prop
  | refl (d : WorkStealingDeque τ) (p : OwnerPc τ) : Behind d p [] p
  | load {d : WorkStealingDeque τ} {p₀ p : OwnerPc τ} {buf : List (Store τ)} : copies p₀ = true →
      Behind d (ownerStep d p₀).2 buf p → Behind d p₀ buf p
  | store {d : WorkStealingDeque τ} {p₀ p : OwnerPc τ} {w : Store τ} {buf : List (Store τ)} :
      delayed d p₀ = some w → Behind (write d w) (ownerStep d p₀).2 buf p → Behind d p₀ (w :: buf) p

/-- The owner gets from one point of its call to another without returning. -/
inductive Catches : WorkStealingDeque τ → OwnerPc τ → WorkStealingDeque τ → OwnerPc τ → Prop
  | refl (d : WorkStealingDeque τ) (p : OwnerPc τ) : Catches d p d p
  | step {d d' : WorkStealingDeque τ} {p p' : OwnerPc τ} : p ≠ .pushDone →
      Catches (ownerStep d p).1 (ownerStep d p).2 d' p' → Catches d p d' p'

theorem Catches.snoc {d' : WorkStealingDeque τ} {p' : OwnerPc τ} (h : Catches d p d' p') (hp : p' ≠ .pushDone) :
    Catches d p (ownerStep d' p').1 (ownerStep d' p').2 := by
  induction h with
  | refl d p => exact .step hp (.refl ..)
  | step hne _ ih => exact .step hne (ih hp)

theorem load_of_copies (h : copies p = true) (d : WorkStealingDeque τ) : (ownerStep d p).1 = d := by
  cases p <;> first | rfl | cases h

theorem writing_growNext (x : τ) (b t : Int) (a n : Nat) (i : Int) : writing (growNext x b t a n i) = true := by
  unfold growNext
  split <;> rfl

theorem writing_of_copies (h : copies p = true) (d : WorkStealingDeque τ) : writing (ownerStep d p).2 = true := by
  cases p <;> first | rfl | cases h

theorem writing_of_delayed (h : delayed d p = some w) : writing (ownerStep d p).2 = true := by
  cases p with
  | pushLoadArray x b t =>
    simp only [delayed] at h
    split at h
    · next hs => simp only [ownerStep, hs, if_true, writing_growNext]
    · cases h
  | growStore x b t a n i v => exact writing_growNext ..
  | pushStoreArray | pushStoreSlot => rfl
  | _ => cases h

namespace Behind

/-- Elsewhere in its calls the owner is not behind. -/
theorem eq_or_writing (h : Behind d p₀ buf p) : (p₀ = p ∧ buf = []) ∨ writing p = true := by
  induction h with
  | refl d p => exact .inl ⟨rfl, rfl⟩
  | @load d p₀ p buf hc _ ih =>
    rcases ih with ⟨rfl, -⟩ | hw
    · exact .inr (writing_of_copies hc d)
    · exact .inr hw
  | store hd _ ih =>
    rcases ih with ⟨rfl, -⟩ | hw
    · exact .inr (writing_of_delayed hd)
    · exact .inr hw

theorem of_not_writing (h : Behind d p₀ buf p) (hw : writing p = false) : p₀ = p ∧ buf = [] := by
  rcases h.eq_or_writing with heq | hw'
  · exact heq
  · rw [hw] at hw'; cases hw'

/-- The owner under buffers loads a slot in `grow`. -/
theorem snoc_load (h : Behind d p₀ buf p) (hc : copies p = true) :
    Behind d p₀ buf (ownerStep (buf.foldl write d) p).2 := by
  induction h with
  | refl d p => exact .load hc (.refl ..)
  | load hc₀ _ ih => exact .load hc₀ (ih hc)
  | store hd _ ih => exact .store hd (ih hc)

/-- The owner under buffers makes a store. -/
theorem snoc_store (h : Behind d p₀ buf p) (hd : delayed (buf.foldl write d) p = some w) :
    Behind d p₀ (buf ++ [w]) (ownerStep (buf.foldl write d) p).2 := by
  induction h with
  | refl d p => exact .store hd (.refl ..)
  | load hc _ ih => exact .load hc (ih hd)
  | store hd₀ _ ih => exact .store hd₀ (ih hd)

/-- Thieves write `top_` only, which no store here depends on. -/
theorem of_top (h : Behind d p₀ buf p) (t : Int) : Behind { d with top := t } p₀ buf p := by
  induction h with
  | refl d p => exact .refl ..
  | @load d p₀ p buf hc _ ih =>
    refine .load hc ?_
    have heq : (ownerStep { d with top := t } p₀).2 = (ownerStep d p₀).2 := by
      cases p₀ <;> first | rfl | cases hc
    rw [heq]
    exact ih
  | @store d p₀ p w buf hd _ ih =>
    have hsame : delayed { d with top := t } p₀ = delayed d p₀ := by cases p₀ <;> rfl
    have hpc : (ownerStep { d with top := t } p₀).2 = (ownerStep d p₀).2 := by
      cases p₀ with
      | pushLoadArray x b t' =>
        have hcur : WorkStealingDeque.cur { d with top := t } = d.cur := rfl
        simp only [ownerStep, hcur]
        split <;> rfl
      | growStore | pushStoreArray | pushStoreSlot => rfl
      | _ => cases hd
    have hwrite : write { d with top := t } w = { write d w with top := t } := by cases w <;> rfl
    refine .store (hsame.trans hd) ?_
    rw [hpc, hwrite]
    exact ih

/-- When the buffer is empty the owner that is behind has only loads to make. -/
theorem catch_up (h : Behind d p₀ [] p) : Catches d p₀ d p := by
  generalize hbuf : ([] : List (Store τ)) = buf at h
  induction h with
  | refl d p => exact .refl d p
  | @load d p₀ p buf hc _ ih =>
    refine .step (by rintro rfl; cases hc) ?_
    rw [load_of_copies hc]
    exact ih hbuf
  | store => cases hbuf

/-- The oldest buffered store reaches memory: the owner that is behind makes it. -/
theorem drain (h : Behind d p₀ (w :: buf) p) : ∃ p₁, Catches d p₀ (write d w) p₁ ∧ Behind (write d w) p₁ buf p := by
  generalize hbuf : w :: buf = buf' at h
  induction h with
  | refl => cases hbuf
  | @load d p₀ p buf' hc _ ih =>
    obtain ⟨p₁, hcatch, hb⟩ := ih hbuf
    refine ⟨p₁, .step (by rintro rfl; cases hc) ?_, hb⟩
    rw [load_of_copies hc]
    exact hcatch
  | @store d p₀ p w' buf' hd hb =>
    obtain ⟨rfl, rfl⟩ := List.cons.inj hbuf
    refine ⟨_, .step (by rintro rfl; cases hd) ?_, hb⟩
    rw [write_delayed hd]
    exact .refl ..

/-- An access under buffers leaves the owner without buffers behind, after it has made the
accesses that it can no longer put off. -/
theorem access {d' : WorkStealingDeque τ} {buf' : List (Store τ)} {p' : OwnerPc τ} (h : Behind d p₀ buf p)
    (ha : access d buf p = some (d', buf', p')) : ∃ p₁, Catches d p₀ d' p₁ ∧ Behind d' p₁ buf' p' := by
  simp only [Buffered.access] at ha
  split at ha
  · next w hd =>
    cases ha
    exact ⟨p₀, .refl .., h.snoc_store hd⟩
  · next hd =>
    split at ha
    · next hf =>
      -- the buffer is empty: the owner catches up, and its access is the same
      split at ha
      · next hempty =>
        cases ha
        obtain rfl := List.isEmpty_iff.1 hempty
        exact ⟨_, h.catch_up.snoc (by rintro rfl; cases hf), .refl ..⟩
      · cases ha
    · next hf =>
      cases ha
      by_cases hc : copies p = true
      · exact ⟨p₀, .refl .., h.snoc_load hc⟩
      · -- no other load is made while stores are late
        have hw : writing p = false := by
          cases p with
          | growLoad => exact absurd rfl hc
          | growStore | pushStoreArray | pushStoreSlot => cases hd
          | pushStoreBottom => exact absurd rfl hf
          | _ => rfl
        obtain ⟨rfl, rfl⟩ := h.of_not_writing hw
        by_cases hdone : p₀ = .pushDone
        · subst hdone
          exact ⟨_, .refl .., .refl ..⟩
        · have hload := ownerStep_load hd (Bool.eq_false_of_not_eq_true hf)
          refine ⟨_, .step hdone ?_, .refl ..⟩
          simp only [List.foldl_nil] at hload
          rw [hload]
          exact .refl ..

end Behind

/-! ## The refinement -/

/-- The deque without buffers has the memory, and its owner is behind by the buffer. -/
structure Lags (s : Sys τ) (t : Deque.Sys τ) : Prop where
  mem : t.d = s.mem
  thief : t.thief = s.thief
  owner : Behind s.mem t.owner s.buf s.owner

theorem filterMap_obs_replicate (k : Nat) :
    (List.replicate k (Deque.Act.owner : Deque.Act τ)).filterMap Deque.obs = [] := by
  induction k with
  | zero => rfl
  | succ k ih => rw [List.replicate_succ, List.filterMap_cons]; exact ih

variable [DecidableEq τ] {cap : Int} {s s' : Sys τ} {t : Deque.Sys τ}

theorem Catches.repeats {d' : WorkStealingDeque τ} {p' : OwnerPc τ} (h : Catches d p d' p')
    (hcap : ∃ k : Nat, cap = 2 ^ k) (th : Nat → Option (ThiefPc τ)) :
    (Deque.machine cap hcap).Repeats .owner ⟨d, p, th⟩ ⟨d', p', th⟩ := by
  induction h with
  | refl d p => exact .refl ..
  | step _ _ ih => exact .head rfl ih

/-- A call, a return or an access of a thief. -/
theorem Lags.other_access (h : Lags s t) {a : Deque.Act τ} (ha : a ≠ .owner) {u : Deque.Sys τ}
    (hs : Deque.step ⟨s.mem, s.owner, s.thief⟩ a = some u) :
    ∃ t', Deque.step t a = some t' ∧ Lags { s with mem := u.d, owner := u.owner, thief := u.thief } t' := by
  obtain ⟨d, p₀, th⟩ := t
  obtain ⟨mem, buf, p, th'⟩ := s
  obtain ⟨rfl, rfl, hb⟩ := h
  cases a with
  | owner => exact absurd rfl ha
  | push | pop | pushRet | popRet =>
    have hw : writing p = false := by cases p <;> first | rfl | cases hs
    obtain ⟨rfl, rfl⟩ := hb.of_not_writing hw
    exact ⟨u, hs, rfl, rfl, .refl ..⟩
  | steal i =>
    simp only [Deque.step] at hs ⊢
    split at hs
    · cases hs; exact ⟨_, rfl, rfl, rfl, hb⟩
    · cases hs
  | thief i =>
    simp only [Deque.step] at hs ⊢
    split at hs
    · cases hs
    · next q hq =>
      cases hs
      obtain ⟨top, htop⟩ := thiefStep_top d q
      refine ⟨_, rfl, rfl, rfl, ?_⟩
      simp only [htop]
      exact hb.of_top top
  | stealRet i r =>
    simp only [Deque.step] at hs ⊢
    split at hs
    · next task hi =>
      split at hs
      · next hr => cases hs; rw [if_pos hr]; exact ⟨_, rfl, rfl, rfl, hb⟩
      · cases hs
    · cases hs

/-- Every step under store buffers is matched by steps without them. -/
theorem refines (cap : Int) (hcap : ∃ k : Nat, cap = 2 ^ k) :
    Refines (machine (τ := τ) cap hcap) (Deque.machine cap hcap) obs Deque.obs Lags where
  init := ⟨rfl, rfl, .refl ..⟩
  step {s a s' bs t} _ h hs := by
    cases a with
    | drain =>
      simp only [machine, step] at hs
      split at hs
      · cases hs
      · next w buf hbuf =>
        cases hs
        obtain ⟨d, p₀, th⟩ := t
        obtain ⟨rfl, rfl, hb⟩ := h
        rw [hbuf] at hb
        obtain ⟨p₁, hcatch, hb'⟩ := hb.drain
        obtain ⟨k, hk⟩ := hcatch.repeats hcap s.thief
        exact ⟨_, _, hk, filterMap_obs_replicate k, rfl, rfl, hb'⟩
    | access a =>
      by_cases ha : a = .owner
      · subst ha
        obtain ⟨⟨d', buf', p'⟩, hacc, rfl⟩ := Option.map_eq_some_iff.1 hs
        obtain ⟨d, p₀, th⟩ := t
        obtain ⟨rfl, rfl, hb⟩ := h
        obtain ⟨p₁, hcatch, hb'⟩ := hb.access hacc
        obtain ⟨k, hk⟩ := hcatch.repeats hcap s.thief
        exact ⟨_, _, hk, filterMap_obs_replicate k, rfl, rfl, hb'⟩
      · have hstep : (Deque.step ⟨s.mem, s.owner, s.thief⟩ a).map (fun u =>
            ({ s with mem := u.d, owner := u.owner, thief := u.thief } : Sys τ)) = some s' := by
          cases a <;> first | exact hs | exact absurd rfl ha
        obtain ⟨u, hu, rfl⟩ := Option.map_eq_some_iff.1 hstep
        obtain ⟨t', ht, hl⟩ := h.other_access ha hu
        refine ⟨[a], t', Machine.execFrom_singleton ht, ?_, hl⟩
        simp only [obs]
        cases hobs : Deque.obs a <;> simp [hobs]

omit [DecidableEq τ] in
theorem pushes_of_owner {as : List (Act τ)} {u : Thread} {x : τ} (h : Event.call u (.push x) ∈ as.filterMap obs) :
    u = .owner := by
  obtain ⟨a, -, ha⟩ := List.mem_filterMap.1 h
  cases a with
  | drain => cases ha
  | access a => exact Deque.pushes_of_owner (List.mem_filterMap.2 ⟨a, List.mem_singleton_self a, ha⟩)

/-- **The memory orders of the deque suffice under store buffers.** For every initial
capacity, every sequence of pushes and pops by the owner and any number of thieves,
interleaved access by access, with the owner's relaxed and release stores reaching memory
at any later time in their order: the history is one of the atomic double-ended list, no
task is returned more often than it was pushed, and when the owner is between two calls its
buffer is empty and the tasks of the list are the slots from `top_` to `bottom_`. -/
theorem buffered_refines_list (k : Nat) (as : List (Act τ)) (s : Sys τ) (h : (machine (2 ^ k) ⟨k, rfl⟩).Run as s) :
    (∃ A, Atomic.History (spec τ) (as.filterMap obs) A ∧
      (s.owner = .idle → s.buf = [] ∧ slots s.mem = A.val.map some)) ∧
    ∀ x, (returned (as.filterMap obs)).count x ≤ (pushed (as.filterMap obs)).count x := by
  obtain ⟨bs, t, hrun, hobs, hl⟩ := (refines _ _).trace h
  obtain ⟨A, hh, r⟩ := (simulates _ _).trace hrun
  rw [hobs] at hh
  constructor
  · refine ⟨A, hh, fun hidle => ?_⟩
    obtain ⟨hp, hbuf⟩ := hl.owner.of_not_writing (by rw [hidle]; rfl)
    rw [hidle] at hp
    have hinv := r.inv
    rw [hp] at hinv
    refine ⟨hbuf, ?_⟩
    rw [← hl.mem, slots_idle hinv, r.val, hp]
  · intro x
    obtain ⟨ins, out, b⟩ := books_of_history hh (fun _ _ => pushes_of_owner)
    have hcount := b.balance.count_eq x
    simp only [List.count_append] at hcount
    rw [b.pushed, List.count_append]
    omega

/-- From capacity 1: the second push has replaced the array, none of its four stores has
reached memory, and a thief takes the oldest task from the array it still finds there. -/
def lateArray : List (Act Nat) := List.flatten
  [[.access (.push 7)], List.replicate 5 (.access .owner), [.drain, .drain, .drain, .access .owner, .access .pushRet],
    [.access (.push 8)], List.replicate 7 (.access .owner), [.access (.steal 0)], List.replicate 5 (.access (.thief 0)),
    [.access (.stealRet 0 (some 7))]]

theorem buffered_refines_list_late_array : ∃ s, (machine (2 ^ 0) ⟨0, rfl⟩).Run lateArray s ∧
    (s.buf.length, s.mem.array, (s.buf.foldl write s.mem).array) = (4, 1, 2) ∧
    returned (lateArray.filterMap obs) = [7] ∧ ∃ A, Atomic.History (spec Nat) (lateArray.filterMap obs) A := by
  have hexec : ((machine (2 ^ 0) ⟨0, rfl⟩).exec lateArray).any
      (fun s => decide ((s.buf.length, s.mem.array, (s.buf.foldl write s.mem).array) = (4, 1, 2))) = true := by
    decide +kernel
  obtain ⟨s, hrun, hlate⟩ := Machine.exists_run_of_exec hexec
  obtain ⟨⟨A, hh, -⟩, -⟩ := buffered_refines_list 0 lateArray s hrun
  exact ⟨s, hrun, hlate, by decide, A, hh⟩

end AsyncRuntime.Deque.Buffered
