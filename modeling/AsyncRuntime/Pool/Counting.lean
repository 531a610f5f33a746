import AsyncRuntime.Pool.Barrier
/-!
# What a pass over the queues counts

`empty()` looks at the global queue and then at `bottom_` and `top_` of each deque, while
the workers go on. A task that is queued keeps its place in its queue until a worker
takes it. So a pass finds every task that was queued when it began, except those that
came into the hands of a worker meanwhile.
-/

namespace AsyncRuntime.Pool
open Lib Deque
variable {n m : Nat} {τ : Type} {s s' : Impl n m τ} {a : Act n m τ} {d d' : WorkStealingDeque τ} {p : OwnerPc τ}
  {x : τ} {i : Int} {j : Fin n}

/-! ## A task in a deque -/

/-- The task is in the deque, at index `i`. -/
def Lies (d : WorkStealingDeque τ) (p : OwnerPc τ) (i : Int) (x : τ) : Prop :=
  ∃ k : Nat, (contents d p)[k]? = some x ∧ i = d.top + k

theorem Lies.top_le (h : Lies d p i x) : d.top ≤ i := by
  obtain ⟨k, -, rfl⟩ := h
  omega

theorem lies_of_mem (h : x ∈ contents d p) : ∃ i, Lies d p i x := by
  obtain ⟨k, hk⟩ := List.mem_iff_getElem?.1 h
  exact ⟨d.top + k, k, hk, rfl⟩

/-- The owner leaves the task where it is or takes it. -/
theorem Lies.owner (h : Lies d p i x) (hinv : Inv d p) :
    Lies (ownerStep d p).1 (ownerStep d p).2 i x ∨ taken (ownerStep d p).1 (ownerStep d p).2 = some x := by
  obtain ⟨k, hk, rfl⟩ := h
  have htop := ownerStep_top hinv
  have heff := (ownerStep_ok hinv).effect
  generalize (ownerStep d p).1 = d' at *
  generalize (ownerStep d p).2 = p' at *
  have hstays (hk' : (contents d' p')[k]? = some x) : Lies d' p' (d.top + k) x := by
    rcases htop with htop | hnil
    · exact ⟨k, hk', by rw [htop]⟩
    · rw [hnil] at hk'; cases hk'
  cases heff with
  | quiet hc =>
    rw [← hc] at hk
    exact .inl (hstays hk)
  | push y hc =>
    refine .inl (hstays ?_)
    obtain ⟨hlt, -⟩ := List.getElem?_eq_some_iff.1 hk
    rw [hc, List.getElem?_append_left hlt]
    exact hk
  | pop y hc _ _ _ ht =>
    rw [hc, List.getElem?_append] at hk
    split at hk
    · exact .inl (hstays hk)
    · rw [List.getElem?_singleton] at hk
      split at hk <;> cases hk
      exact .inr ht

/-- A thief leaves the task where it is or takes it. -/
theorem Lies.stolen (h : Lies d p i x) {q q' : ThiefPc τ} (hinv : Inv d p) (hok : ThiefStepOk d p q d' q') :
    Lies d' p i x ∨ q'.taken = some x := by
  obtain ⟨k, hk, rfl⟩ := h
  have hlen := hinv.length_contents
  have hlen' := hok.inv.length_contents
  have hback : back d' p = back d p := by simp only [back, hok.bottom]
  cases hok.effect with
  | quiet hc =>
    rw [hc] at hlen'
    exact .inl ⟨k, by rw [hc]; exact hk, by omega⟩
  | steal y hc _ ht =>
    rw [hc, List.length_cons] at hlen
    rw [hc] at hk
    cases k with
    | zero =>
      cases hk
      exact .inr ht
    | succ k => exact .inl ⟨k, hk, by push_cast at hlen ⊢; omega⟩

/-! ## In whose hands a task is -/

variable [DecidableEq τ]

/-- The task is in the hands of worker `w`: the worker holds or runs it, or its pop has
lowered `bottom_` over it. -/
def handles (s : Impl n m τ) (w : Fin n) (x : τ) : Bool :=
  decide (held (s.deques w) (s.worker w) = some x) ||
    undecided (s.deques w) (s.worker w) &&
      decide ((contents (s.deques w) (s.worker w).owner).getLast? = some x)

/-- Some worker has the task in its hands. -/
def Impl.inHands (s : Impl n m τ) (x : τ) : Bool := decide (∃ w, handles s w x = true)

/-- The task is past its `enqueue`. -/
def Impl.placed (s : Impl n m τ) (x : τ) : Bool :=
  decide ((∀ w, x ∉ tasksAt s (.spawning w)) ∧ ∀ i, x ∉ tasksAt s (.calling i))

theorem inHands_of_held {w : Fin n} (h : held (s.deques w) (s.worker w) = some x) : s.inHands x = true :=
  decide_eq_true ⟨w, by simp [handles, h]⟩

/-- `bottom_` is above a task of the deque that is in no worker's hands. -/
theorem Safe.lt_bottom (h : Safe s) (hx : Lies (s.deques j) (s.worker j).owner i x) (hfree : s.inHands x = false) :
    i < (s.deques j).bottom := by
  obtain ⟨k, hk, rfl⟩ := hx
  have hinv := h.inv j
  have hlen := hinv.length_contents
  obtain ⟨hlt, -⟩ := List.getElem?_eq_some_iff.1 hk
  cases hp : (s.worker j).owner.pending with
  | false =>
    have := back_of_not_pending (d := s.deques j) hp
    omega
  | true =>
    have hback : back (s.deques j) (s.worker j).owner = (s.deques j).bottom + 1 := by rw [back, if_pos hp]
    have hhands : handles s j x = false := by
      by_contra hj
      rw [Impl.inHands, decide_eq_false_iff_not] at hfree
      exact hfree ⟨j, by simpa using hj⟩
    simp only [handles, undecided, hp, Bool.true_and, Bool.or_eq_false_iff, Bool.and_eq_false_iff,
      decide_eq_false_iff_not] at hhands
    rcases hhands.2 with hheld | hlast
    · obtain ⟨p, hpc⟩ := h.popping_of_pending hp
      rw [hpc] at hp hheld hinv hlen hback
      have := hinv.back_of_taken hp (by simpa [held, WorkerPc.owner] using hheld)
      rw [hpc] at hlt
      omega
    · have hne : k + 1 ≠ (contents (s.deques j) (s.worker j).owner).length := by
        intro hlen
        rw [List.getLast?_eq_getElem?, ← hlen, Nat.add_sub_cancel] at hlast
        exact hlast hk
      omega

omit [DecidableEq τ] in
/-- Worker `w` makes an access to its own deque. -/
theorem Lies.access (hx : Lies (s.deques j) (s.worker j).owner i x) {w : Fin n} {pc : WorkerPc n τ}
    (hinv : Inv (s.deques w) p) (hp : (s.worker w).owner = p) (hpc : pc.owner = (ownerStep (s.deques w) p).2) :
    Lies (((s.setDeque w (ownerStep (s.deques w) p).1).setWorker w pc).deques j)
        (((s.setDeque w (ownerStep (s.deques w) p).1).setWorker w pc).worker j).owner i x ∨
      taken (ownerStep (s.deques w) p).1 (ownerStep (s.deques w) p).2 = some x := by
  simp only [Impl.setWorker, Impl.setDeque]
  by_cases hj : j = w
  · subst hj
    rw [hp] at hx
    rw [Function.update_self, Function.update_self, hpc]
    exact hx.owner hinv
  · rw [Function.update_of_ne hj, Function.update_of_ne hj]
    exact .inl hx

omit [DecidableEq τ] in
/-- A task stays in its deque until a worker holds it. -/
theorem Effect.stays_queued (e : Effect s a s') (h : Safe s) (hx : Lies (s.deques j) (s.worker j).owner i x) :
    Lies (s'.deques j) (s'.worker j).owner i x ∨ ∃ w, held (s'.deques w) (s'.worker w) = some x := by
  have hstays {t : Impl n m τ} (hd : t.deques j = s.deques j)
      (hc : contents (s.deques j) (t.worker j).owner = contents (s.deques j) (s.worker j).owner) :
      Lies (t.deques j) (t.worker j).owner i x := by
    rw [Lies, hd, hc]
    exact hx
  have hmove {t : Impl n m τ} {w : Fin n} {pc : WorkerPc n τ} (hd : t.deques = s.deques)
      (hw : t.worker = Function.update s.worker w pc) (hp : (s.worker w).owner.pending = false)
      (hp' : pc.owner.pending = false) : Lies (t.deques j) (t.worker j).owner i x := by
    refine hstays (by rw [hd]) ?_
    rw [hw]
    refine observe_update (fun pc : WorkerPc n τ => contents (s.deques j) pc.owner) ?_ j
    rw [contents, contents, back_of_not_pending hp, back_of_not_pending hp']
  cases e with
  | pop w p hw =>
    refine (hx.access (h.popping hw).1 (by rw [hw]; rfl) rfl).imp_right fun htaken => ⟨w, ?_⟩
    simpa only [Impl.setWorker, Impl.setDeque, Function.update_self, held] using htaken
  | push w y p hw =>
    obtain ⟨hinv, hpush⟩ := h.pushing hw
    refine (hx.access hinv (by rw [hw]; rfl) rfl).imp_right fun htaken => ?_
    rw [taken_of_isPush (isPush_ownerStep hpush)] at htaken
    cases htaken
  | steal w spin start k q hw =>
    obtain ⟨hne, hq⟩ := h.stealing hw
    by_cases hj : j = target w start k
    · rw [hj] at hx ⊢
      rcases hx.stolen (h.inv _) (thiefStep_ok (h.inv _) hq) with hlies | htaken
      · left
        simpa only [Impl.setWorker, Impl.setDeque, Function.update_self, Function.update_of_ne hne] using hlies
      · right
        refine ⟨w, ?_⟩
        simp only [Impl.setWorker, Function.update_self]
        exact htaken
    · refine .inl (hstays (Function.update_of_ne hj ..) ?_)
      exact observe_update (fun pc : WorkerPc n τ => contents (s.deques j) pc.owner) (g := s.worker) (by rw [hw]; rfl) j
  | start w y hgot => exact .inl (hmove rfl rfl (pending_of_got hgot) rfl)
  | take w y g hpg =>
    refine .inl (hmove rfl rfl ?_ rfl)
    rw [owner_of_searching (searching_of_popsGlobal hpg)]
    rfl
  | move w pc rng hm =>
    have hq := hm.quiet (h.inv w)
    exact .inl (hmove rfl rfl hq.before hq.after)
  | lock w pc _ hl =>
    have hq := hl.quiet (s.deques w) w
    exact .inl (hmove rfl rfl hq.before hq.after)
  | unlock w pc hl =>
    have hq := hl.quiet (s.deques w) w
    exact .inl (hmove rfl rfl hq.before hq.after)
  | incSleeping w hw | decSleeping w hw | finish w y hw | spawn w y z hw | notifyNone w y hw | spurious w hw =>
    exact .inl (hmove rfl rfl (by rw [hw]; rfl) rfl)
  | extNotify k v hk hv => exact .inl (hmove rfl rfl (by rw [hv]; rfl) rfl)
  | notify w y v hw hv =>
    refine .inl (hstays rfl ?_)
    exact observe_update₂ (fun pc : WorkerPc n τ => contents (s.deques j) pc.owner) (by rw [hw]; rfl)
      (by rw [hv]; rfl) j
  | notifyAll =>
    refine .inl (hstays rfl ?_)
    exact observe_notifyAll (fun pc : WorkerPc n τ => contents (s.deques j) pc.owner) rfl j
  | call | publish | extMove | extLock | extUnlock | extNotifyNone | dtorMove | storeStop | dtorLock | dtorUnlock
  | destroy | destroyGlobal => exact .inl hx

omit [DecidableEq τ] in
/-- A task stays in the global queue until a worker holds it. -/
theorem Effect.stays_global (e : Effect s a s') (hx : x ∈ s.global) :
    x ∈ s'.global ∨ ∃ w, held (s'.deques w) (s'.worker w) = some x := by
  cases e with
  | take w y g _ hg =>
    rw [hg] at hx
    rcases List.mem_cons.1 hx with rfl | hx
    · right
      refine ⟨w, ?_⟩
      simp only [Impl.start, Impl.setWorker, Function.update_self, held]
    · exact .inl hx
  | publish => exact .inl (List.mem_append_left _ hx)
  | _ => exact .inl hx

/-! ## What is still ahead of a look -/

/-- The look has not passed index `i` of deque `j`. -/
def LookPc.before (j : Fin n) (i : Int) : LookPc n → Prop
  | .global => True
  | .bottom k => k ≤ j
  | .top k b => k < j ∨ k = j ∧ i < b

/-- The task has run, or the look will come to it. -/
def Ahead (s : Impl n m τ) (l : LookPc n) (x : τ) : Prop :=
  x ∈ s.ran ∨ l = .global ∧ x ∈ s.global ∨ ∃ j i, Lies (s.deques j) (s.worker j).owner i x ∧ l.before j i

/-- A new look has every task ahead that is past its `enqueue` and in no worker's hands. -/
theorem Owned.ahead (h : Owned s) (hx : x ∈ allocated s) (hplaced : s.placed x = true) (hfree : s.inHands x = false) :
    Ahead s .global x := by
  obtain ⟨q, hq, -⟩ := h.place hx
  have hmem : x ∈ tasksAt s q := by
    rw [← List.count_pos_iff, hq]
    exact Nat.one_pos
  have hplaced := of_decide_eq_true hplaced
  cases q with
  | spawning w => exact absurd hmem (hplaced.1 w)
  | calling i => exact absurd hmem (hplaced.2 i)
  | global => exact .inr (.inl ⟨rfl, hmem⟩)
  | deque j =>
    obtain ⟨i, hi⟩ := lies_of_mem hmem
    exact .inr (.inr ⟨j, i, hi, trivial⟩)
  | held w =>
    rw [inHands_of_held (by simpa [tasksAt] using hmem)] at hfree
    cases hfree
  | freed => exact .inl hmem

/-- The others take a task from before the look only into their hands. -/
theorem Ahead.effect {l : LookPc n} (hx : Ahead s l x) (e : Effect s a s') (h : Safe s) (hfree : s'.inHands x = false) :
    Ahead s' l x := by
  have hheld : ¬∃ w, held (s'.deques w) (s'.worker w) = some x := by
    rintro ⟨w, hw⟩
    rw [inHands_of_held hw] at hfree
    cases hfree
  rcases hx with hran | ⟨hl, hglobal⟩ | ⟨j, i, hlies, hl⟩
  · exact .inl (e.ran_mono hran)
  · exact .inr (.inl ⟨hl, (e.stays_global hglobal).resolve_right hheld⟩)
  · exact .inr (.inr ⟨j, i, (e.stays_queued h hlies).resolve_right hheld, hl⟩)

omit [DecidableEq τ] in
theorem lookFrom_before {k : Nat} {l : LookPc n} (hl : lookFrom n k = .inl l) (hk : k ≤ j) : l.before j i := by
  unfold lookFrom at hl
  split at hl <;> cases hl
  exact hk

/-- A look goes on with the task still ahead, or finds it, or ends when it has run. -/
theorem Ahead.look {l : LookPc n} (hx : Ahead s l x) (h : Safe s) (hfree : s.inHands x = false) :
    (∀ l', lookStep s l = .inl l' → Ahead s l' x) ∧ (lookStep s l = .inr false → x ∈ s.ran) := by
  rcases hx with hran | ⟨rfl, hglobal⟩ | ⟨j, i, hlies, hl⟩
  · exact ⟨fun _ _ => .inl hran, fun _ => hran⟩
  · have hfound : lookStep s .global = .inr true := by
      rw [lookStep, if_neg]
      intro he
      rw [List.isEmpty_iff.1 he] at hglobal
      cases hglobal
    rw [hfound]
    exact ⟨by simp, by simp⟩
  -- the look goes from deque to deque up to the one with the task
  have hfrom {k : Nat} (hk : k ≤ j) : (∀ l', lookFrom n k = .inl l' → Ahead s l' x) ∧
      (lookFrom n k = .inr false → x ∈ s.ran) := by
    refine ⟨fun l' hl' => .inr (.inr ⟨j, i, hlies, lookFrom_before hl' hk⟩), fun hend => ?_⟩
    unfold lookFrom at hend
    split at hend
    · cases hend
    · next hn => exact absurd (Nat.lt_of_le_of_lt hk j.isLt) hn
  cases l with
  | global =>
    simp only [lookStep]
    split
    · exact hfrom (Nat.zero_le _)
    · exact ⟨by simp, by simp⟩
  | bottom k =>
    refine ⟨fun l' hnext => ?_, by simp [lookStep]⟩
    cases hnext
    refine .inr (.inr ⟨j, i, hlies, ?_⟩)
    rcases lt_or_eq_of_le (show k ≤ j from hl) with hlt | rfl
    · exact .inl hlt
    · exact .inr ⟨rfl, h.lt_bottom hlies hfree⟩
  | top k b =>
    simp only [lookStep]
    split
    · next hb =>
      refine hfrom ?_
      rcases hl with hlt | ⟨rfl, hib⟩
      · exact hlt
      · have := hlies.top_le
        omega
    · exact ⟨by simp, by simp⟩

end AsyncRuntime.Pool
