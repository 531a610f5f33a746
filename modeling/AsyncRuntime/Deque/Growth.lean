import AsyncRuntime.Deque.Refinement
/-!
# How much memory a deque holds

A `push` that finds `capacity - 1` tasks replaces the array by one of twice the
capacity, and `history_` retains the old one until the deque is destroyed. So the
retained capacities are `c, 2c, 4c, …`, and together they are less than the current
one. No index enters into this: a deque through which any number of tasks pass has
grown only as far as the most tasks that a `push` has found in it ask for.

The number of tasks is the one at the load of `top_`. Thieves may take some of them
before the array is replaced, but none can be added, since that is the owner's.
-/

namespace AsyncRuntime.Deque
open Lib
variable {τ : Type} {d d' : WorkStealingDeque τ} {p p' : OwnerPc τ} {c : Int} {peak peak' : Nat}

/-! ## The most tasks that a push has found -/

/-- The peak after the owner's access at `p`. -/
def peakAfter (d : WorkStealingDeque τ) (p : OwnerPc τ) (peak : Nat) : Nat :=
  match p with
  | .pushLoadTop _ _ => max peak (contents d p).length
  | _ => peak

/-- The peak after a step. -/
def peakNext (s : Sys τ) (a : Act τ) (peak : Nat) : Nat :=
  match a with
  | .owner => peakAfter s.d s.owner peak
  | _ => peak

/-- A deque with the largest number of tasks that were in it at the load of `top_`
of a push so far. -/
def recorded [DecidableEq τ] (cap : Int) (h : ∃ k : Nat, cap = 2 ^ k) : Machine (Sys τ × Nat) (Act τ) :=
  (machine cap h).withHistory 0 fun s a _ peak => peakNext s a peak

/-! ## The arrays -/

/-- What a push knows of the number of tasks it has found. -/
def Sized (d : WorkStealingDeque τ) (peak : Nat) : OwnerPc τ → Prop
  | .pushLoadArray _ b t => b - t ≤ peak
  | .growLoad _ _ _ _ _ _ | .growStore _ _ _ _ _ _ _ | .pushStoreArray _ _ _ _ _ => d.cur.capacity ≤ peak + 1
  | _ => True

/-- The arrays of a deque of initial capacity `c`. -/
structure Grown (c : Int) (peak : Nat) (d : WorkStealingDeque τ) (p : OwnerPc τ) : Prop where
  retained : d.history.map (fun a => (d.heap a).capacity) = (List.range d.history.length).map (fun i : Nat => c * 2 ^ i)
  current : d.cur.capacity = c * 2 ^ d.history.length
  allocated : ∀ a ∈ d.history, a < d.next
  bounded : d.cur.capacity ≤ max c (2 * (peak + 1))
  sized : Sized d peak p

theorem grown_new (cap : Int) (h : ∃ k : Nat, cap = 2 ^ k) : Grown cap 0 (.new cap h : WorkStealingDeque τ) .idle where
  retained := rfl
  current := (mul_one cap).symm
  allocated _ ha := absurd ha List.not_mem_nil
  bounded := le_max_left _ _
  sized := trivial

/-- The powers of two below `2 ^ m` add up to one less. -/
theorem sum_doubled (c : Int) (m : Nat) : ((List.range m).map (fun i : Nat => c * 2 ^ i)).sum = c * 2 ^ m - c := by
  induction m with
  | zero => simp
  | succ m ih =>
    rw [List.range_succ, List.map_append, List.sum_append, ih, List.map_singleton, List.sum_singleton]
    ring

/-- The retained arrays are together smaller than the current one. -/
theorem Grown.sum_lt (h : Grown c peak d p) (hc : 0 < c) :
    (d.history.map (fun a => (d.heap a).capacity)).sum < d.cur.capacity := by
  rw [h.retained, sum_doubled, h.current]
  omega

/-! ## What a step does to the arrays -/

/-- Steps that replace no array. -/
theorem Grown.frame (h : Grown c peak d p) (hi : d.array < d.next) (hhist : d'.history = d.history)
    (harr : d'.array = d.array) (hnext : d.next ≤ d'.next)
    (hcap : ∀ a < d.next, (d'.heap a).capacity = (d.heap a).capacity) (hpeak : peak ≤ peak')
    (hsized : Sized d' peak' p') : Grown c peak' d' p' := by
  have hcur : d'.cur.capacity = d.cur.capacity := by
    rw [WorkStealingDeque.cur, harr]
    exact hcap _ hi
  refine ⟨?_, ?_, ?_, ?_, hsized⟩
  · rw [hhist, ← h.retained]
    exact List.map_congr_left (fun a ha => hcap a (h.allocated a ha))
  · rw [hcur, hhist]
    exact h.current
  · rw [hhist]
    exact fun a ha => lt_of_lt_of_le (h.allocated a ha) hnext
  · rw [hcur]
    have := h.bounded
    omega

/-- Steps that do not touch the arrays at all. -/
theorem Grown.move (h : Grown c peak d p) (hi : Inv d p) (hhist : d'.history = d.history) (harr : d'.array = d.array)
    (hnext : d'.next = d.next) (hheap : d'.heap = d.heap) (hsized : Sized d' peak p') : Grown c peak d' p' :=
  h.frame hi.array_lt hhist harr hnext.ge (fun a _ => by rw [hheap]) (le_refl _) hsized

theorem capacity_storeSlot (a a' : Nat) (i : Int) (x : Option τ) :
    ((d.storeSlot a i x).heap a').capacity = (d.heap a').capacity := by
  by_cases e : a' = a
  · subst e
    rw [d.heap_storeSlot_self, CircularArray.capacity_store]
  · rw [d.heap_storeSlot_ne _ _ e]

theorem sized_growNext {x : τ} {b t i : Int} {a n : Nat} (h : d.cur.capacity ≤ peak + 1) :
    Sized d peak (growNext x b t a n i) := by
  unfold growNext
  split <;> exact h

/-- A push that has to grow has found `capacity - 1` tasks or more. -/
theorem Grown.alloc {x : τ} {b t : Int} (h : Grown c peak d (.pushLoadArray x b t)) (hi : Inv d (.pushLoadArray x b t))
    (hsize : d.cur.capacity - 1 ≤ b - t) : Grown c peak (d.alloc d.array) (growNext x b t d.array d.next t) := by
  have hfound : b - t ≤ peak := h.sized
  refine h.frame hi.array_lt rfl rfl (Nat.le_succ _) (fun a ha => ?_) (le_refl _) (sized_growNext ?_)
  · rw [d.heap_alloc_ne ha.ne]
  · rw [d.cur_alloc hi.array_lt]
    omega

/-- The array is replaced by one of twice the capacity. -/
theorem Grown.storeArray {x : τ} {b t : Int} {a n : Nat} (h : Grown c peak d (.pushStoreArray x b t a n))
    (hi : Inv d (.pushStoreArray x b t a n)) :
    Grown c peak { d with history := d.history ++ [a], array := n } (.pushStoreSlot x b n) := by
  have g : Growing d b t a n b := hi.at_pc
  have hfull : d.cur.capacity ≤ peak + 1 := h.sized
  have hold : (d.heap a).capacity = c * 2 ^ d.history.length := by
    rw [g.array]
    exact h.current
  have hnew : (d.heap n).capacity = c * 2 ^ (d.history.length + 1) := by
    rw [g.double, h.current]
    ring
  refine ⟨?_, ?_, ?_, ?_, trivial⟩
  · simp only [List.map_append, List.map_singleton, List.length_append, List.length_singleton, List.range_succ,
      h.retained, hold]
  · rw [List.length_append, List.length_singleton]
    exact hnew
  · intro a' ha'
    rcases List.mem_append.1 ha' with ha' | ha'
    · exact h.allocated a' ha'
    · rw [List.mem_singleton.1 ha', g.array]
      exact hi.array_lt
  · have hdouble : (d.heap n).capacity = d.cur.capacity * 2 := g.double
    show (d.heap n).capacity ≤ max c (2 * (peak + 1))
    omega

/-- A push has found at most as many tasks as there have ever been. -/
theorem Grown.loadTop {x : τ} {b : Int} (h : Grown c peak d (.pushLoadTop x b)) (hi : Inv d (.pushLoadTop x b)) :
    Grown c (peakAfter d (.pushLoadTop x b) peak) d (.pushLoadArray x b d.top) := by
  have hb : b = d.bottom := hi.at_pc
  have hlen := hi.length_contents
  rw [back_of_not_pending rfl] at hlen
  refine h.frame hi.array_lt rfl rfl (le_refl _) (fun _ _ => rfl) (le_max_left _ _) ?_
  show b - d.top ≤ ((max peak (contents d (.pushLoadTop x b)).length : Nat) : Int)
  omega

/-- Every access of the owner. -/
theorem Grown.ownerStep (h : Grown c peak d p) (hi : Inv d p) :
    Grown c (peakAfter d p peak) (ownerStep d p).1 (ownerStep d p).2 := by
  cases p with
  | pushLoadTop x b => exact h.loadTop hi
  | pushLoadArray x b t =>
    simp only [Deque.ownerStep]
    split
    · next hsize => exact h.alloc hi hsize
    · exact h.move hi rfl rfl rfl rfl trivial
  | growLoad x b t a n i => exact h.move hi rfl rfl rfl rfl h.sized
  | growStore x b t a n i v =>
    have g : Growing d b t a n i := hi.at_pc.1
    refine h.frame hi.array_lt rfl rfl (le_refl _)
      (fun a' _ => capacity_storeSlot n a' i v) (le_refl _) (sized_growNext ?_)
    show (d.storeSlot n i v).cur.capacity ≤ peak + 1
    rw [d.cur_storeSlot_ne i v g.fresh.ne]
    exact h.sized
  | pushStoreArray x b t a n => exact h.storeArray hi
  | pushStoreSlot x b a =>
    exact h.frame hi.array_lt rfl rfl (le_refl _) (fun a' _ => capacity_storeSlot a a' b (some x)) (le_refl _) trivial
  | popLoadTop | popLoadSlot | popCas =>
    simp only [Deque.ownerStep]
    split <;> exact h.move hi rfl rfl rfl rfl trivial
  | _ => exact h.move hi rfl rfl rfl rfl trivial

/-- A thief moves `top_` and nothing else. -/
theorem thiefStep_top (d : WorkStealingDeque τ) (q : ThiefPc τ) : ∃ t, (thiefStep d q).1 = { d with top := t } := by
  cases q with
  | loadBottom => simp only [thiefStep]; split <;> exact ⟨d.top, rfl⟩
  | cas t task =>
    simp only [thiefStep]
    split
    · exact ⟨t + 1, rfl⟩
    · exact ⟨d.top, rfl⟩
  | _ => exact ⟨d.top, rfl⟩

theorem Grown.thiefStep (h : Grown c peak d p) (hi : Inv d p) (q : ThiefPc τ) : Grown c peak (thiefStep d q).1 p := by
  obtain ⟨t, ht⟩ := thiefStep_top d q
  rw [ht]
  refine h.move hi rfl rfl rfl rfl ?_
  have := h.sized
  cases p <;> exact this

/-! ## Every reachable state -/

variable [DecidableEq τ] {s s' : Sys τ} {a : Act τ}

theorem Grown.step (h : Grown c peak s.d s.owner) (hi : Inv s.d s.owner) (hs : step s a = some s') :
    Grown c (peakNext s a peak) s'.d s'.owner := by
  cases a with
  | owner =>
    cases hs
    exact h.ownerStep hi
  | thief i =>
    simp only [Deque.step] at hs
    split at hs
    · cases hs
    · cases hs
      exact h.thiefStep hi _
  | push | pop | pushRet | steal =>
    simp only [Deque.step] at hs
    split at hs
    · cases hs
      first | exact h | exact h.move hi rfl rfl rfl rfl trivial
    · cases hs
  | popRet | stealRet =>
    simp only [Deque.step] at hs
    split at hs
    · split at hs
      · cases hs
        first | exact h | exact h.move hi rfl rfl rfl rfl trivial
      · cases hs
    · cases hs

/-- The arrays in every state that the deque reaches. -/
theorem grown_of_run {cap : Int} {hcap : ∃ k : Nat, cap = 2 ^ k} {as : List (Act τ)} {u : Sys τ × Nat}
    (h : (recorded cap hcap).Run as u) : Grown cap u.2 u.1.d u.1.owner := by
  refine Machine.RunIn.inv_withHistory (fun s peak => Grown cap peak s.d s.owner) (grown_new cap hcap) ?_ h
  intro as s a s' peak hrun hgrown hs
  obtain ⟨A, -, r⟩ := (simulates cap hcap).trace hrun
  exact hgrown.step r.inv hs

/-- For every initial capacity `c` and every interleaving, between two calls of the
owner: with `m` retained arrays their capacities are `c, 2c, …, c * 2 ^ (m - 1)`, in
sum less than the current capacity, which is `c * 2 ^ m`. The tasks leave at least
one slot free, and the capacity is at most `c` or twice the room that the most tasks
found by a push need, with one more. -/
theorem growth_bounded (k : Nat) (as : List (Act τ)) (s : Sys τ) (peak : Nat)
    (h : (recorded (2 ^ k) ⟨k, rfl⟩).Run as (s, peak)) (hidle : s.owner = .idle) :
    s.d.cur.capacity = 2 ^ k * 2 ^ s.d.history.length ∧
    s.d.history.map (fun a => (s.d.heap a).capacity) =
      (List.range s.d.history.length).map (fun i : Nat => 2 ^ k * 2 ^ i) ∧
    (s.d.history.map (fun a => (s.d.heap a).capacity)).sum < s.d.cur.capacity ∧
    s.d.bottom - s.d.top ≤ s.d.cur.capacity - 1 ∧
    s.d.cur.capacity ≤ max (2 ^ k : Int) (2 * (peak + 1)) := by
  have g : Grown (2 ^ k) peak s.d s.owner := grown_of_run h
  obtain ⟨A, -, r⟩ := (simulates _ _).trace (Machine.RunIn.of_withHistory h)
  have hfits : back s.d s.owner - s.d.top < s.d.cur.capacity := r.inv.fits
  rw [back_of_not_pending (by rw [hidle]; rfl)] at hfits
  exact ⟨g.current, g.retained, g.sum_lt (by positivity), by omega, g.bounded⟩

omit [DecidableEq τ] in
/-- An owner in neither call is outside both. -/
theorem eq_idle (hpush : p.isPush = false) (hpop : p.isPop = false) : p = .idle := by
  cases p <;> first | rfl | (cases hpush; done) | cases hpop

/-- From capacity 1: two pushes replace the array twice, a steal and a pop leave the
deque empty, and a third push finds room. -/
def grownTwice : List (Act Nat) := List.flatten
  [[.push 7], List.replicate 7 .owner, [.pushRet, .push 8], List.replicate 8 .owner, [.pushRet, .steal 0],
    List.replicate 5 (.thief 0), [.stealRet 0 (some 7), .pop], List.replicate 7 .owner, [.popRet (some 8), .push 9],
    List.replicate 5 .owner, [.pushRet]]

theorem growth_bounded_twice : ∃ s, (recorded (2 ^ 0) ⟨0, rfl⟩).Run grownTwice (s, 1) ∧ s.d.history = [0, 1] ∧
    s.d.cur.capacity ≤ max (2 ^ 0 : Int) (2 * ((1 : Nat) + 1)) := by
  have hexec : ((recorded (2 ^ 0) ⟨0, rfl⟩).exec grownTwice).any (fun u => decide (u.1.owner.isPush = false ∧
      u.1.owner.isPop = false ∧ u.1.d.history = [0, 1] ∧ u.2 = 1)) = true := by decide +kernel
  obtain ⟨⟨s, peak⟩, hr, hpush, hpop, hh, rfl⟩ := Machine.exists_run_of_exec hexec
  exact ⟨s, hr, hh, (growth_bounded 0 grownTwice s 1 hr (eq_idle hpush hpop)).2.2.2.2⟩

end AsyncRuntime.Deque
