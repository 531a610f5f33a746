import AsyncRuntime.Deque.Model
/-!
# What the deque keeps between any two accesses

`Inv d p` relates the deque to the owner's program point `p`, and `ThiefOk d p q`
relates both to one thief's program point `q`; thieves need to know nothing of
each other. An owner step keeps `Inv` and every thief's `ThiefOk`, and so does a
thief's step, so the invariants lift to any number of thieves.

The tasks in the deque are `contents d p`: the slots from `top_` to `back`, the
value of `bottom_` not counting a pop that has lowered it and not decided yet.
-/

namespace AsyncRuntime.Deque
open Lib
variable {τ : Type}

/-! ## Slots -/

namespace CircularArray
variable (a : CircularArray τ)

theorem capacity_pos : 0 < a.capacity := by
  obtain ⟨k, hk⟩ := a.pow2; rw [hk]; positivity

theorem slot_eq {i : Int} (hi : 0 ≤ i) : a.slot i = (i % a.capacity).toNat := by
  obtain ⟨k, hk⟩ := a.pow2
  rw [slot, a.mask_eq, hk, land_mask i k hi]

theorem slot_lt {i : Int} (hi : 0 ≤ i) : a.slot i < a.buffer.length := by
  have := Int.emod_lt_of_pos i a.capacity_pos
  have := Int.emod_nonneg i a.capacity_pos.ne'
  have := a.length_eq
  rw [a.slot_eq hi]; omega

@[simp] theorem capacity_store (i : Int) (x : Option τ) : (a.store i x).capacity = a.capacity := rfl

@[simp] theorem capacity_double : a.double.capacity = a.capacity * 2 := rfl

theorem load_store_self {i : Int} (x : Option τ) (hi : 0 ≤ i) : (a.store i x).load i = x := by
  have := a.slot_lt hi
  show (a.buffer.set (a.slot i) x).getD (a.slot i) none = x
  simp [List.getD, this]

/-- A store leaves every index alone that is less than the capacity away. -/
theorem load_store_ne {i j : Int} (x : Option τ) (hi : 0 ≤ i) (hj : 0 ≤ j) (hne : j ≠ i)
    (h1 : i - j < a.capacity) (h2 : j - i < a.capacity) : (a.store i x).load j = a.load j := by
  have hs : a.slot i ≠ a.slot j := by
    have hm : i % a.capacity ≠ j % a.capacity := by
      rcases lt_or_gt_of_ne hne with h | h
      · exact (emod_ne_of_lt h h1).symm
      · exact emod_ne_of_lt h h2
    have := Int.emod_nonneg i a.capacity_pos.ne'
    have := Int.emod_nonneg j a.capacity_pos.ne'
    rw [a.slot_eq hi, a.slot_eq hj]; omega
  show (a.buffer.set (a.slot i) x).getD (a.slot j) none = a.buffer.getD (a.slot j) none
  simp [List.getD, List.getElem?_set_ne hs]

end CircularArray

namespace WorkStealingDeque
variable (d : WorkStealingDeque τ)

@[simp] theorem top_storeSlot (a : Nat) (i : Int) (x : Option τ) : (d.storeSlot a i x).top = d.top := rfl
@[simp] theorem bottom_storeSlot (a : Nat) (i : Int) (x : Option τ) : (d.storeSlot a i x).bottom = d.bottom := rfl
@[simp] theorem array_storeSlot (a : Nat) (i : Int) (x : Option τ) : (d.storeSlot a i x).array = d.array := rfl
@[simp] theorem next_storeSlot (a : Nat) (i : Int) (x : Option τ) : (d.storeSlot a i x).next = d.next := rfl
@[simp] theorem top_alloc (a : Nat) : (d.alloc a).top = d.top := rfl
@[simp] theorem bottom_alloc (a : Nat) : (d.alloc a).bottom = d.bottom := rfl
@[simp] theorem array_alloc (a : Nat) : (d.alloc a).array = d.array := rfl
@[simp] theorem next_alloc (a : Nat) : (d.alloc a).next = d.next + 1 := rfl

theorem heap_storeSlot_self (a : Nat) (i : Int) (x : Option τ) :
    (d.storeSlot a i x).heap a = (d.heap a).store i x := by simp [storeSlot]

theorem heap_storeSlot_ne {a a' : Nat} (i : Int) (x : Option τ) (h : a' ≠ a) :
    (d.storeSlot a i x).heap a' = d.heap a' := by simp [storeSlot, h]

theorem heap_alloc_new (a : Nat) : (d.alloc a).heap d.next = (d.heap a).double := by simp [alloc]

theorem heap_alloc_ne {a a' : Nat} (h : a' ≠ d.next) : (d.alloc a).heap a' = d.heap a' := by simp [alloc, h]

theorem cur_alloc (h : d.array < d.next) : (d.alloc d.array).cur = d.cur := d.heap_alloc_ne h.ne

theorem cur_storeSlot_ne {a : Nat} (i : Int) (x : Option τ) (h : d.array ≠ a) :
    (d.storeSlot a i x).cur = d.cur := d.heap_storeSlot_ne i x h

theorem cur_storeSlot_self (i : Int) (x : Option τ) : (d.storeSlot d.array i x).cur = d.cur.store i x :=
  d.heap_storeSlot_self d.array i x

end WorkStealingDeque

/-! ## The tasks in the deque -/

/-- The owner is in a pop that has lowered `bottom_` and not decided yet. -/
def OwnerPc.pending : OwnerPc τ → Bool
  | .popLoadTop _ _ => true
  | .popUndo _ => true
  | .popLoadSlot b _ t => decide (b - t = 0)
  | .popCas _ _ _ => true
  | .popReset _ _ => true
  | _ => false

/-- `bottom_`, not counting an undecided pop. -/
def back (d : WorkStealingDeque τ) (p : OwnerPc τ) : Int := if p.pending then d.bottom + 1 else d.bottom

/-- The tasks in the deque, oldest first. -/
def contents (d : WorkStealingDeque τ) (p : OwnerPc τ) : List τ := window d.cur.load d.top (back d p)

/-- The task of a push that has not been published yet. -/
def OwnerPc.input : OwnerPc τ → Option τ
  | .pushLoadBottom x | .pushLoadTop x _ | .pushLoadArray x _ _ | .growLoad x _ _ _ _ _
  | .growStore x _ _ _ _ _ _ | .pushStoreArray x _ _ _ _ | .pushStoreSlot x _ _ | .pushStoreBottom x _ => some x
  | _ => none

/-- The task that the owner's pop has taken out of the deque. -/
def taken (d : WorkStealingDeque τ) : OwnerPc τ → Option τ
  | .popLoadSlot b a t => if b - t = 0 then none else (d.heap a).load b
  | .popReset _ task => task
  | .popDone task => task
  | _ => none

/-- The task that a thief has taken. -/
def ThiefPc.taken : ThiefPc τ → Option τ
  | .done task => task
  | _ => none

/-! ## The invariants -/

/-- The copy loop of `grow` before index `i`: the array at `n` is not published
yet and agrees with the current one on the live indices below `i`. -/
structure Growing (d : WorkStealingDeque τ) (b t : Int) (a n : Nat) (i : Int) : Prop where
  array : a = d.array
  fresh : d.array < n
  next : n < d.next
  bottom : b = d.bottom
  top : t ≤ d.top
  nonneg : 0 ≤ t
  fits : b - t < d.cur.capacity
  double : (d.heap n).capacity = d.cur.capacity * 2
  from_top : t ≤ i
  to_bottom : i ≤ b
  copied : ∀ j, d.top ≤ j → j < i → (d.heap n).load j = d.cur.load j

/-- What the owner's locals say about the deque at each program point. -/
def AtPc (d : WorkStealingDeque τ) : OwnerPc τ → Prop
  | .pushLoadTop _ b => b = d.bottom
  | .pushLoadArray _ b t => b = d.bottom ∧ 0 ≤ t ∧ t ≤ d.top ∧ b - t < d.cur.capacity
  | .growLoad _ b t a n i => Growing d b t a n i ∧ i < b
  | .growStore _ b t a n i v => Growing d b t a n i ∧ i < b ∧ (d.top ≤ i → v = d.cur.load i)
  | .pushStoreArray _ b t a n => Growing d b t a n b
  | .pushStoreSlot _ b a => a = d.array ∧ b = d.bottom ∧ b + 1 - d.top < d.cur.capacity
  | .pushStoreBottom x b => b = d.bottom ∧ b + 1 - d.top < d.cur.capacity ∧ d.cur.load b = some x
  | .popLoadArray b => b = d.bottom - 1
  | .popStoreBottom b a => b = d.bottom - 1 ∧ a = d.array
  | .popLoadTop b a => b = d.bottom ∧ a = d.array
  | .popUndo b => b = d.bottom ∧ d.top = b + 1
  | .popLoadSlot b a t => b = d.bottom ∧ a = d.array ∧ t ≤ d.top ∧ t ≤ b ∧ (t < b → (d.cur.load b).isSome)
  | .popCas b t task => b = d.bottom ∧ t = b ∧ t ≤ d.top ∧ (d.top = b → task = d.cur.load b)
  | .popReset b _ => b = d.bottom ∧ d.top = b + 1
  | .popDone task => task = none → d.top = d.bottom
  | _ => True

/-- The deque between two accesses, with the owner at `p`. -/
structure Inv (d : WorkStealingDeque τ) (p : OwnerPc τ) : Prop where
  top_nonneg : 0 ≤ d.top
  top_le : d.top ≤ back d p
  fits : back d p - d.top < d.cur.capacity
  full : ∀ i, d.top ≤ i → i < back d p → (d.cur.load i).isSome
  array_lt : d.array < d.next
  at_pc : AtPc d p

/-- What a thief's locals say. Once `top_` has moved past `t` they say nothing:
the `compare_exchange_strong` will fail. Until then `t` is a live index and the
array the thief loaded, current or replaced, still holds its task. -/
def ThiefOk (d : WorkStealingDeque τ) (p : OwnerPc τ) : ThiefPc τ → Prop
  | .loadTop => True
  | .loadBottom t => t ≤ d.top
  | .loadArray t => t ≤ d.top ∧ (t = d.top → t < back d p)
  | .loadSlot t a => t ≤ d.top ∧ a ≤ d.array ∧ (t = d.top → t < back d p ∧ (d.heap a).load t = d.cur.load t)
  | .cas t task => t ≤ d.top ∧ (t = d.top → t < back d p ∧ task = d.cur.load t)
  | .done _ => True

theorem inv_new (cap : Int) (h : ∃ k : Nat, cap = 2 ^ k) : Inv (.new cap h : WorkStealingDeque τ) .idle where
  top_nonneg := le_refl _
  top_le := le_refl _
  fits := (CircularArray.new (τ := τ) cap h).capacity_pos
  full i h1 h2 := by
    have h1 : 0 ≤ i := h1
    have h2 : i < 0 := h2
    omega
  array_lt := Nat.zero_lt_one
  at_pc := trivial

theorem Inv.length_contents {d : WorkStealingDeque τ} {p : OwnerPc τ} (h : Inv d p) :
    ((contents d p).length : Int) = back d p - d.top := by
  have := h.top_le
  rw [contents, length_window h.full]; omega

/-! ## What a step of the owner does -/

/-- The tasks in the deque, `top_` and the arrays that thieves may hold stay
as they are. -/
structure Frame (d : WorkStealingDeque τ) (p : OwnerPc τ) (d' : WorkStealingDeque τ) (p' : OwnerPc τ) : Prop where
  top : d'.top = d.top
  back : back d' p' = back d p
  array : d.array ≤ d'.array
  array_lt : d'.array < d'.next
  capacity : d.cur.capacity ≤ d'.cur.capacity
  load : ∀ i, d.top ≤ i → i < Deque.back d p → d'.cur.load i = d.cur.load i
  old : ∀ a ≤ d.array, d.top < Deque.back d p → (d'.heap a).load d.top = (d.heap a).load d.top

/-- What a step does to the tasks: nothing, publish the task of a push, or take
the newest task out. -/
inductive OwnerEffect (d : WorkStealingDeque τ) (p : OwnerPc τ) (d' : WorkStealingDeque τ) (p' : OwnerPc τ) : Prop
  | quiet : contents d' p' = contents d p → p'.input = p.input → taken d' p' = taken d p → OwnerEffect d p d' p'
  | push (x : τ) : contents d' p' = contents d p ++ [x] → p.input = some x → p'.input = none →
      taken d p = none → taken d' p' = none → OwnerEffect d p d' p'
  | pop (x : τ) : contents d p = contents d' p' ++ [x] → p.input = none → p'.input = none →
      taken d p = none → taken d' p' = some x → OwnerEffect d p d' p'

/-- A step that keeps the invariants and whose effect is one of the three. -/
structure OwnerOk (d : WorkStealingDeque τ) (p : OwnerPc τ) (d' : WorkStealingDeque τ) (p' : OwnerPc τ) : Prop where
  inv : Inv d' p'
  thief : ∀ q, ThiefOk d p q → ThiefOk d' p' q
  effect : OwnerEffect d p d' p'

variable {d d' : WorkStealingDeque τ} {p p' : OwnerPc τ}

theorem Frame.inv (f : Frame d p d' p') (h : Inv d p) (hat : AtPc d' p') : Inv d' p' where
  top_nonneg := by rw [f.top]; exact h.top_nonneg
  top_le := by rw [f.top, f.back]; exact h.top_le
  fits := by rw [f.top, f.back]; exact lt_of_lt_of_le h.fits f.capacity
  full i h1 h2 := by
    rw [f.top] at h1; rw [f.back] at h2
    rw [f.load i h1 h2]; exact h.full i h1 h2
  array_lt := f.array_lt
  at_pc := hat

theorem Frame.thief (f : Frame d p d' p') {q : ThiefPc τ} (hq : ThiefOk d p q) : ThiefOk d' p' q := by
  cases q with
  | loadTop | done _ => trivial
  | loadBottom t =>
    have hq : t ≤ d.top := hq
    show t ≤ d'.top
    rw [f.top]; exact hq
  | loadArray t =>
    simp only [ThiefOk, f.top, f.back] at hq ⊢
    exact hq
  | loadSlot t a =>
    obtain ⟨hle, ha, ht⟩ := hq
    refine ⟨f.top.symm ▸ hle, ha.trans f.array, fun e => ?_⟩
    rw [f.top] at e; subst e
    obtain ⟨hlt, hld⟩ := ht rfl
    rw [f.back, f.load _ (le_refl _) hlt, f.old a ha hlt]
    exact ⟨hlt, hld⟩
  | cas t task =>
    obtain ⟨hle, ht⟩ := hq
    refine ⟨f.top.symm ▸ hle, fun e => ?_⟩
    rw [f.top] at e; subst e
    obtain ⟨hlt, hld⟩ := ht rfl
    rw [f.back, f.load _ (le_refl _) hlt]
    exact ⟨hlt, hld⟩

theorem Frame.contents (f : Frame d p d' p') : contents d' p' = contents d p := by
  rw [Deque.contents, Deque.contents, f.top, f.back]
  exact window_congr f.load

theorem Frame.ok (f : Frame d p d' p') (h : Inv d p) (hat : AtPc d' p') (hin : p'.input = p.input)
    (htk : taken d' p' = taken d p) : OwnerOk d p d' p' :=
  ⟨f.inv h hat, fun _ => f.thief, .quiet f.contents hin htk⟩

theorem Inv.frame_read (h : Inv d p) (hb : back d p' = back d p) : Frame d p d p' where
  top := rfl
  back := hb
  array := le_refl _
  array_lt := h.array_lt
  capacity := le_refl _
  load _ _ _ := rfl
  old _ _ _ := rfl

/-- A step that only reads. -/
theorem Inv.ok_read (h : Inv d p) (hb : back d p' = back d p) (hat : AtPc d p') (hin : p'.input = p.input)
    (htk : taken d p' = taken d p) : OwnerOk d p d p' := (h.frame_read hb).ok h hat hin htk

/-- A thief whose index `top_` has passed keeps nothing to know. -/
theorem ThiefOk.of_top_lt {q : ThiefPc τ} (hq : ThiefOk d p q) (ht : d.top < d'.top) (ha : d'.array = d.array) :
    ThiefOk d' p' q := by
  cases q with
  | loadTop | done _ => trivial
  | loadBottom t =>
    have hq : t ≤ d.top := hq
    exact hq.trans ht.le
  | loadArray t | cas t _ =>
    have hle : t ≤ d.top := hq.1
    exact ⟨hle.trans ht.le, fun e => by omega⟩
  | loadSlot t a =>
    have hle : t ≤ d.top := hq.1
    exact ⟨hle.trans ht.le, ha ▸ hq.2.1, fun e => by omega⟩

/-! ### push -/

theorem Growing.next_ok {b t : Int} {a n : Nat} {i : Int} (g : Growing d b t a n i) (x : τ) :
    AtPc d (growNext x b t a n i) := by
  unfold growNext
  split
  · next h => exact ⟨g, h⟩
  · next h =>
    have e : i = b := by have := g.to_bottom; omega
    exact e ▸ g

theorem back_growNext (d : WorkStealingDeque τ) (x : τ) (b t : Int) (a n : Nat) (i : Int) :
    back d (growNext x b t a n i) = d.bottom := by
  unfold growNext; split <;> rfl

theorem input_growNext (x : τ) (b t : Int) (a n : Nat) (i : Int) : (growNext x b t a n i).input = some x := by
  unfold growNext; split <;> rfl

theorem taken_growNext (d : WorkStealingDeque τ) (x : τ) (b t : Int) (a n : Nat) (i : Int) :
    taken d (growNext x b t a n i) = none := by
  unfold growNext; split <;> rfl

/-- A push that has to grow: the new array starts empty. -/
theorem ok_pushLoadArray_grow {x : τ} {b t : Int} (h : Inv d (.pushLoadArray x b t))
    (hsize : d.cur.capacity - 1 ≤ b - t) :
    OwnerOk d (.pushLoadArray x b t) (d.alloc d.array) (growNext x b t d.array d.next t) := by
  obtain ⟨hb, h0, ht, hfit⟩ := h.at_pc
  have hcap := d.cur.capacity_pos
  have hcur := d.cur_alloc h.array_lt
  have g : Growing (d.alloc d.array) b t d.array d.next t :=
    { array := rfl, fresh := h.array_lt, next := Nat.lt_succ_self _, bottom := hb, top := ht, nonneg := h0
      fits := by rw [hcur]; exact hfit
      double := by rw [hcur, d.heap_alloc_new]; rfl
      from_top := le_refl _
      to_bottom := by omega
      copied := fun j h1 h2 => by simp only [WorkStealingDeque.top_alloc] at h1; omega }
  refine Frame.ok ?_ h (g.next_ok x) (input_growNext ..) (taken_growNext ..)
  exact { top := rfl, back := back_growNext .., array := le_refl _
          array_lt := Nat.lt_succ_of_lt h.array_lt
          capacity := by rw [hcur]
          load := fun i _ _ => by rw [hcur]
          old := fun a ha _ => by rw [d.heap_alloc_ne (by have := h.array_lt; omega)] }

/-- A push that has room. -/
theorem ok_pushLoadArray_room {x : τ} {b t : Int} (h : Inv d (.pushLoadArray x b t))
    (hsize : ¬d.cur.capacity - 1 ≤ b - t) : OwnerOk d (.pushLoadArray x b t) d (.pushStoreSlot x b d.array) := by
  obtain ⟨hb, h0, ht, hfit⟩ := h.at_pc
  refine h.ok_read rfl ⟨rfl, hb, ?_⟩ rfl rfl
  omega

/-- The copy loop writes index `i` of the array it fills; live indices below `i`
are less than its capacity away and keep their copies. -/
theorem ok_growStore {x : τ} {b t : Int} {a n : Nat} {i : Int} {v : Option τ}
    (h : Inv d (.growStore x b t a n i v)) :
    OwnerOk d (.growStore x b t a n i v) (d.storeSlot n i v) (growNext x b t a n (i + 1)) := by
  obtain ⟨g, hi, hv⟩ := h.at_pc
  have hcur := d.cur_storeSlot_ne i v g.fresh.ne
  have hcap := d.cur.capacity_pos
  have g' : Growing (d.storeSlot n i v) b t a n (i + 1) :=
    { array := g.array, fresh := g.fresh, next := g.next, bottom := g.bottom, top := g.top, nonneg := g.nonneg
      fits := by rw [hcur]; exact g.fits
      double := by rw [hcur, d.heap_storeSlot_self]; exact g.double
      from_top := by have := g.from_top; omega
      to_bottom := hi
      copied := fun j h1 h2 => by
        have h1 : d.top ≤ j := h1
        have := g.top; have := g.nonneg; have := g.fits; have := g.double
        rw [hcur, d.heap_storeSlot_self]
        by_cases e : j = i
        · subst e
          rw [CircularArray.load_store_self _ _ (by omega)]; exact hv h1
        · rw [CircularArray.load_store_ne _ _ (by omega) (by omega) e (by omega) (by omega)]
          exact g.copied j h1 (by omega) }
  refine Frame.ok ?_ h (g'.next_ok x) (input_growNext ..) (taken_growNext ..)
  exact { top := rfl, back := back_growNext .., array := le_refl _, array_lt := h.array_lt
          capacity := by rw [hcur]
          load := fun i _ _ => by rw [hcur]
          old := fun a ha _ => by rw [d.heap_storeSlot_ne _ _ (by have := g.fresh; omega)] }

/-- Publishing the new array: it holds every live index and has room for one
more. -/
theorem ok_pushStoreArray {x : τ} {b t : Int} {a n : Nat} (h : Inv d (.pushStoreArray x b t a n)) :
    OwnerOk d (.pushStoreArray x b t a n) { d with history := d.history ++ [a], array := n }
      (.pushStoreSlot x b n) := by
  have g : Growing d b t a n b := h.at_pc
  have hcap := d.cur.capacity_pos
  have hdouble : (d.heap n).capacity = d.cur.capacity * 2 := g.double
  refine Frame.ok ?_ h ⟨rfl, g.bottom, ?_⟩ rfl rfl
  · exact { top := rfl, back := rfl, array := g.fresh.le, array_lt := g.next
            capacity := by
              show d.cur.capacity ≤ (d.heap n).capacity
              omega
            load := fun i h1 h2 => g.copied i h1 (g.bottom.symm ▸ h2)
            old := fun _ _ _ => rfl }
  · have := g.fits; have := g.top
    show b + 1 - d.top < (d.heap n).capacity
    omega

/-- The new task goes into a slot that no live index uses. -/
theorem ok_pushStoreSlot {x : τ} {b : Int} {a : Nat} (h : Inv d (.pushStoreSlot x b a)) :
    OwnerOk d (.pushStoreSlot x b a) (d.storeSlot a b (some x)) (.pushStoreBottom x b) := by
  obtain ⟨rfl, rfl, hfit⟩ := h.at_pc
  have h0 := h.top_nonneg
  have hle : d.top ≤ d.bottom := h.top_le
  have hload : ∀ i, d.top ≤ i → i < d.bottom → (d.cur.store d.bottom (some x)).load i = d.cur.load i := by
    intro i h1 h2
    exact CircularArray.load_store_ne _ _ (by omega) (by omega) (by omega) (by omega) (by omega)
  have hcur := d.cur_storeSlot_self d.bottom (some x)
  refine Frame.ok ?_ h ⟨rfl, ?_, ?_⟩ rfl rfl
  · refine {
      top := rfl, back := rfl, array := le_refl _, array_lt := h.array_lt, capacity := ?_, load := ?_, old := ?_ }
    · exact le_of_eq (by rw [hcur]; rfl)
    · intro i h1 h2
      rw [hcur]; exact hload i h1 h2
    · intro a _ hlt
      by_cases e : a = d.array
      · subst e
        rw [d.heap_storeSlot_self]; exact hload d.top (le_refl _) hlt
      · rw [d.heap_storeSlot_ne _ _ e]
  · rw [hcur]; exact hfit
  · rw [hcur]; exact CircularArray.load_store_self _ _ (by omega)

/-- Growing the live range at its end disturbs no thief. -/
theorem ThiefOk.of_back_le {q : ThiefPc τ} (hq : ThiefOk d p q) (ht : d'.top = d.top) (ha : d'.array = d.array)
    (hh : d'.heap = d.heap) (hb : d.top < back d p → d.top < back d' p') : ThiefOk d' p' q := by
  have hcur : d'.cur = d.cur := by rw [WorkStealingDeque.cur, WorkStealingDeque.cur, ha, hh]
  cases q with
  | loadTop | done _ => trivial
  | loadBottom t =>
    have hq : t ≤ d.top := hq
    show t ≤ d'.top
    rw [ht]; exact hq
  | loadArray t =>
    simp only [ThiefOk, ht] at hq ⊢
    exact ⟨hq.1, fun e => by subst e; exact hb (hq.2 rfl)⟩
  | loadSlot t a =>
    simp only [ThiefOk, ht, ha, hh, hcur] at hq ⊢
    exact ⟨hq.1, hq.2.1, fun e => by subst e; exact ⟨hb (hq.2.2 rfl).1, (hq.2.2 rfl).2⟩⟩
  | cas t task =>
    simp only [ThiefOk, ht, hcur] at hq ⊢
    exact ⟨hq.1, fun e => by subst e; exact ⟨hb (hq.2 rfl).1, (hq.2 rfl).2⟩⟩

/-- A push publishes its task with the store of `bottom_`. -/
theorem ok_pushStoreBottom {x : τ} {b : Int} (h : Inv d (.pushStoreBottom x b)) :
    OwnerOk d (.pushStoreBottom x b) { d with bottom := b + 1 } .pushDone := by
  obtain ⟨rfl, hfit, hx⟩ := h.at_pc
  have hle : d.top ≤ d.bottom := h.top_le
  refine ⟨?_, fun q hq => hq.of_back_le rfl rfl rfl ?_, .push x ?_ rfl rfl rfl rfl⟩
  · refine {
      top_nonneg := h.top_nonneg, top_le := ?_, fits := hfit, full := ?_, array_lt := h.array_lt, at_pc := trivial }
    · show d.top ≤ d.bottom + 1
      omega
    · intro i h1 h2
      have h2 : i < d.bottom + 1 := h2
      show (d.cur.load i).isSome
      by_cases e : i = d.bottom
      · rw [e, hx]; rfl
      · exact h.full i h1 (show i < d.bottom by omega)
  · intro hlt
    exact lt_trans hlt (lt_add_one d.bottom)
  · show window d.cur.load d.top (d.bottom + 1) = window d.cur.load d.top d.bottom ++ [x]
    rw [window_snoc _ hle, hx]; rfl

/-! ### pop -/

/-- The load of `top_` finds the deque empty. -/
theorem ok_popLoadTop_empty {b : Int} {a : Nat} (h : Inv d (.popLoadTop b a)) (hsize : b - d.top < 0) :
    OwnerOk d (.popLoadTop b a) d (.popUndo b) := by
  obtain ⟨hb, -⟩ := h.at_pc
  have hle : d.top ≤ d.bottom + 1 := h.top_le
  exact h.ok_read rfl ⟨hb, by omega⟩ rfl rfl

/-- The load of `top_` finds one task: the race is decided later. -/
theorem ok_popLoadTop_last {b : Int} {a : Nat} (h : Inv d (.popLoadTop b a)) (hsize : b - d.top = 0) :
    OwnerOk d (.popLoadTop b a) d (.popLoadSlot b a d.top) := by
  obtain ⟨hb, ha⟩ := h.at_pc
  refine h.ok_read ?_ ⟨hb, ha, le_refl _, by omega, fun hlt => by omega⟩ rfl ?_
  · simp [back, OwnerPc.pending, hsize]
  · simp [taken, hsize]

/-- The load of `top_` finds two tasks or more: from here on the newest one is
the owner's, and a thief that looks at `bottom_` no longer sees it. -/
theorem ok_popLoadTop_take {b : Int} {a : Nat} (h : Inv d (.popLoadTop b a)) (hsize : 0 < b - d.top) :
    OwnerOk d (.popLoadTop b a) d (.popLoadSlot b a d.top) := by
  obtain ⟨rfl, rfl⟩ := h.at_pc
  have hne : ¬d.bottom - d.top = 0 := by omega
  have hback : back d (.popLoadSlot d.bottom d.array d.top) = d.bottom := by simp [back, OwnerPc.pending, hne]
  have hfits : d.bottom + 1 - d.top < d.cur.capacity := h.fits
  obtain ⟨x, hx⟩ := Option.isSome_iff_exists.1 (h.full d.bottom (by omega) (show d.bottom < d.bottom + 1 by omega))
  have htk : taken d (.popLoadSlot d.bottom d.array d.top) = some x := by
    rw [taken, if_neg hne]; exact hx
  refine ⟨?_, fun q hq => hq.of_back_le rfl rfl rfl ?_, .pop x ?_ rfl rfl rfl htk⟩
  · exact { top_nonneg := h.top_nonneg, top_le := by rw [hback]; omega, fits := by rw [hback]; omega
            full := fun i h1 h2 => h.full i h1 (show i < d.bottom + 1 by rw [hback] at h2; omega)
            array_lt := h.array_lt
            at_pc := ⟨rfl, rfl, le_refl _, by omega, fun _ => by rw [hx]; rfl⟩ }
  · intro _
    rw [hback]; omega
  · rw [contents, contents, hback]
    show window d.cur.load d.top (d.bottom + 1) = _
    rw [window_snoc _ (by omega), hx]; rfl

theorem ok_popLoadSlot_last {b : Int} {a : Nat} {t : Int} (h : Inv d (.popLoadSlot b a t)) (hsize : b - t = 0) :
    OwnerOk d (.popLoadSlot b a t) d (.popCas b t ((d.heap a).load b)) := by
  obtain ⟨hb, rfl, ht, -, -⟩ := h.at_pc
  refine h.ok_read ?_ ⟨hb, by omega, ht, fun _ => rfl⟩ rfl ?_
  · simp [back, OwnerPc.pending, hsize]
  · simp [taken, hsize]

theorem ok_popLoadSlot_take {b : Int} {a : Nat} {t : Int} (h : Inv d (.popLoadSlot b a t)) (hsize : ¬b - t = 0) :
    OwnerOk d (.popLoadSlot b a t) d (.popDone ((d.heap a).load b)) := by
  obtain ⟨-, rfl, -, htb, hx⟩ := h.at_pc
  have hlt : t < b := by omega
  refine h.ok_read ?_ (fun e => ?_) rfl ?_
  · simp [back, OwnerPc.pending, hsize]
  · have := hx hlt
    rw [WorkStealingDeque.cur, e] at this; cases this
  · simp [taken, hsize]

/-- The owner wins the race for the last task. -/
theorem ok_popCas_win {b t : Int} {task : Option τ} (h : Inv d (.popCas b t task)) (hcas : d.top = t) :
    OwnerOk d (.popCas b t task) { d with top := t + 1 } (.popReset b task) := by
  obtain ⟨rfl, rfl, -, htask⟩ := h.at_pc
  have hback : d.top = d.bottom := hcas
  obtain ⟨x, hx⟩ := Option.isSome_iff_exists.1
    (h.full d.bottom (by omega) (show d.bottom < d.bottom + 1 by omega))
  have e : task = some x := by rw [htask hcas, hx]
  subst e
  refine ⟨?_, fun q hq => hq.of_top_lt (by show d.top < d.bottom + 1; omega) rfl, .pop x ?_ rfl rfl rfl rfl⟩
  · exact { top_nonneg := by have := h.top_nonneg; show 0 ≤ d.bottom + 1; omega
            top_le := le_refl _
            fits := by
              show d.bottom + 1 - (d.bottom + 1) < d.cur.capacity
              have := d.cur.capacity_pos; omega
            full := fun i h1 h2 => by
              have h1 : d.bottom + 1 ≤ i := h1
              have h2 : i < d.bottom + 1 := h2
              omega
            array_lt := h.array_lt
            at_pc := ⟨rfl, rfl⟩ }
  · show window d.cur.load d.top (d.bottom + 1) = window d.cur.load (d.bottom + 1) (d.bottom + 1) ++ [x]
    rw [hback, window_snoc _ (le_refl _), window_nil _ (le_refl _), window_nil _ (le_refl _), hx]; rfl

/-- A thief took the last task first. -/
theorem ok_popCas_lose {b t : Int} {task : Option τ} (h : Inv d (.popCas b t task)) (hcas : ¬d.top = t) :
    OwnerOk d (.popCas b t task) d (.popReset b none) := by
  obtain ⟨rfl, rfl, ht, -⟩ := h.at_pc
  have hle : d.top ≤ d.bottom + 1 := h.top_le
  exact h.ok_read rfl ⟨rfl, by omega⟩ rfl rfl

/-- Raising `bottom_` again at the end of a pop. -/
theorem ok_popReset {b : Int} {task : Option τ} (h : Inv d (.popReset b task)) :
    OwnerOk d (.popReset b task) { d with bottom := b + 1 } (.popDone task) := by
  obtain ⟨rfl, ht⟩ := h.at_pc
  refine Frame.ok ?_ h (fun _ => ht) rfl rfl
  exact { top := rfl, back := rfl, array := le_refl _, array_lt := h.array_lt, capacity := le_refl _
          load := fun _ _ _ => rfl, old := fun _ _ _ => rfl }

/-- Every step of the owner keeps the invariants, publishes at most the task of
its push and takes at most the newest task. -/
theorem ownerStep_ok (h : Inv d p) : OwnerOk d p (ownerStep d p).1 (ownerStep d p).2 := by
  cases p with
  | idle => exact h.ok_read rfl trivial rfl rfl
  | pushLoadBottom x => exact h.ok_read rfl rfl rfl rfl
  | pushLoadTop x b =>
    have hb : b = d.bottom := h.at_pc
    refine h.ok_read rfl ⟨hb, h.top_nonneg, le_refl _, ?_⟩ rfl rfl
    rw [hb]; exact h.fits
  | pushLoadArray x b t =>
    simp only [ownerStep]
    split
    · next hsize => exact ok_pushLoadArray_grow h hsize
    · next hsize => exact ok_pushLoadArray_room h hsize
  | growLoad x b t a n i =>
    obtain ⟨g, hi⟩ := h.at_pc
    exact h.ok_read rfl ⟨g, hi, fun _ => by rw [g.array]; rfl⟩ rfl rfl
  | growStore x b t a n i v => exact ok_growStore h
  | pushStoreArray x b t a n => exact ok_pushStoreArray h
  | pushStoreSlot x b a => exact ok_pushStoreSlot h
  | pushStoreBottom x b => exact ok_pushStoreBottom h
  | pushDone => exact h.ok_read rfl trivial rfl rfl
  | popLoadBottom => exact h.ok_read rfl rfl rfl rfl
  | popLoadArray b => exact h.ok_read rfl ⟨h.at_pc, rfl⟩ rfl rfl
  | popStoreBottom b a =>
    obtain ⟨hb, ha⟩ := h.at_pc
    refine Frame.ok ?_ h ⟨rfl, ha⟩ rfl rfl
    exact { top := rfl, array := le_refl _, array_lt := h.array_lt, capacity := le_refl _
            back := by
              show b + 1 = d.bottom
              omega
            load := fun _ _ _ => rfl, old := fun _ _ _ => rfl }
  | popLoadTop b a =>
    simp only [ownerStep]
    split
    · next hsize => exact ok_popLoadTop_empty h hsize
    · next hsize =>
      by_cases hz : b - d.top = 0
      · exact ok_popLoadTop_last h hz
      · exact ok_popLoadTop_take h (by omega)
  | popUndo b =>
    obtain ⟨rfl, ht⟩ := h.at_pc
    refine Frame.ok ?_ h (fun _ => ht) rfl rfl
    exact { top := rfl, back := rfl, array := le_refl _, array_lt := h.array_lt, capacity := le_refl _
            load := fun _ _ _ => rfl, old := fun _ _ _ => rfl }
  | popLoadSlot b a t =>
    simp only [ownerStep]
    split
    · next hsize => exact ok_popLoadSlot_last h hsize
    · next hsize => exact ok_popLoadSlot_take h hsize
  | popCas b t task =>
    simp only [ownerStep]
    split
    · next hcas => exact ok_popCas_win h hcas
    · next hcas => exact ok_popCas_lose h hcas
  | popReset b task => exact ok_popReset h
  | popDone task => exact h.ok_read rfl h.at_pc rfl rfl

/-! ## What a step of a thief does -/

/-- What a thief's step does to the tasks: nothing, or take the oldest one. -/
inductive ThiefEffect (d : WorkStealingDeque τ) (p : OwnerPc τ) (q : ThiefPc τ) (d' : WorkStealingDeque τ)
    (q' : ThiefPc τ) : Prop
  | quiet : contents d' p = contents d p → q'.taken = q.taken → ThiefEffect d p q d' q'
  | steal (x : τ) : contents d p = x :: contents d' p → q.taken = none → q'.taken = some x →
      ThiefEffect d p q d' q'

/-- A thief's step that keeps the invariants of the owner, of the thief itself
and of every other thief, and does not touch the slots or `bottom_`. -/
structure ThiefStepOk (d : WorkStealingDeque τ) (p : OwnerPc τ) (q : ThiefPc τ) (d' : WorkStealingDeque τ)
    (q' : ThiefPc τ) : Prop where
  inv : Inv d' p
  self : ThiefOk d' p q'
  other : ∀ r, ThiefOk d p r → ThiefOk d' p r
  bottom : d'.bottom = d.bottom
  top : d.top ≤ d'.top
  taken : taken d' p = taken d p
  effect : ThiefEffect d p q d' q'

/-- The owner's locals survive a steal. Where they say that the deque is empty,
there was nothing to steal. -/
theorem Inv.at_pc_advance (h : Inv d p) (hlt : d.top < back d p) : AtPc { d with top := d.top + 1 } p := by
  have hpc := h.at_pc
  have growing : ∀ {b t : Int} {a n : Nat} {i : Int}, Growing d b t a n i →
      Growing { d with top := d.top + 1 } b t a n i := fun g =>
    { array := g.array, fresh := g.fresh, next := g.next, bottom := g.bottom, nonneg := g.nonneg, fits := g.fits
      double := g.double, from_top := g.from_top, to_bottom := g.to_bottom
      top := g.top.trans (by show d.top ≤ d.top + 1; omega)
      copied := fun j h1 h2 => g.copied j (by have h1 : d.top + 1 ≤ j := h1; omega) h2 }
  cases p with
  | idle | pushLoadBottom | pushDone | popLoadBottom => trivial
  | pushLoadTop | popLoadArray | popStoreBottom | popLoadTop => exact hpc
  | pushLoadArray x b t =>
    obtain ⟨hb, h0, ht, hfit⟩ := hpc
    exact ⟨hb, h0, by show t ≤ d.top + 1; omega, hfit⟩
  | growLoad => exact ⟨growing hpc.1, hpc.2⟩
  | growStore x b t a n i v =>
    obtain ⟨g, hi, hv⟩ := hpc
    exact ⟨growing g, hi, fun hle => hv (by have hle : d.top + 1 ≤ i := hle; omega)⟩
  | pushStoreArray => exact growing hpc
  | pushStoreSlot x b a =>
    obtain ⟨ha, hb, hfit⟩ := hpc
    refine ⟨ha, hb, ?_⟩
    show b + 1 - (d.top + 1) < d.cur.capacity
    omega
  | pushStoreBottom x b =>
    obtain ⟨hb, hfit, hx⟩ := hpc
    refine ⟨hb, ?_, hx⟩
    show b + 1 - (d.top + 1) < d.cur.capacity
    omega
  | popUndo b | popReset b _ =>
    obtain ⟨rfl, ht⟩ := hpc
    have hlt : d.top < d.bottom + 1 := hlt
    omega
  | popLoadSlot b a t =>
    obtain ⟨hb, ha, ht, htb, hx⟩ := hpc
    exact ⟨hb, ha, by show t ≤ d.top + 1; omega, htb, hx⟩
  | popCas b t task =>
    obtain ⟨hb, htb, ht, -⟩ := hpc
    refine ⟨hb, htb, by show t ≤ d.top + 1; omega, fun e => ?_⟩
    have e : d.top + 1 = b := e
    omega
  | popDone task =>
    intro e
    have hlt : d.top < d.bottom := hlt
    have : d.top = d.bottom := hpc e
    omega

/-- A thief wins index `top_`: it takes the oldest task. -/
theorem ok_cas_win {t : Int} {task : Option τ} (h : Inv d p) (hq : ThiefOk d p (.cas t task)) (hcas : d.top = t) :
    ThiefStepOk d p (.cas t task) { d with top := t + 1 } (.done task) := by
  subst hcas
  obtain ⟨hlt, htask⟩ := hq.2 rfl
  obtain ⟨x, hx⟩ := Option.isSome_iff_exists.1 (h.full d.top (le_refl _) hlt)
  have e : task = some x := by rw [htask, hx]
  subst e
  have hback : back { d with top := d.top + 1 } p = back d p := by simp only [back]
  refine {
    inv := ?_, self := trivial, other := ?_, bottom := rfl, top := ?_, taken := ?_, effect := .steal x ?_ rfl rfl }
  · exact { top_nonneg := by have := h.top_nonneg; show 0 ≤ d.top + 1; omega
            top_le := by rw [hback]; exact hlt
            fits := by
              rw [hback]
              show back d p - (d.top + 1) < d.cur.capacity
              have := h.fits; omega
            full := fun i h1 h2 => by
              rw [hback] at h2
              exact h.full i (by have h1 : d.top + 1 ≤ i := h1; omega) h2
            array_lt := h.array_lt
            at_pc := h.at_pc_advance hlt }
  · exact fun r hr => hr.of_top_lt (by show d.top < d.top + 1; omega) rfl
  · show d.top ≤ d.top + 1
    omega
  · cases p <;> rfl
  · rw [contents, contents, hback]
    show window d.cur.load d.top (back d p) = x :: window d.cur.load (d.top + 1) (back d p)
    rw [window_cons _ hlt, hx]; rfl

/-- A thief's step that only reads. -/
theorem Inv.thief_read {q q' : ThiefPc τ} (h : Inv d p) (hself : ThiefOk d p q') (htk : q'.taken = q.taken) :
    ThiefStepOk d p q d q' where
  inv := h
  self := hself
  other _ hr := hr
  bottom := rfl
  top := le_refl _
  taken := rfl
  effect := .quiet rfl htk

/-- Every step of a thief keeps the invariants and takes at most the oldest
task. -/
theorem thiefStep_ok {q : ThiefPc τ} (h : Inv d p) (hq : ThiefOk d p q) :
    ThiefStepOk d p q (thiefStep d q).1 (thiefStep d q).2 := by
  cases q with
  | loadTop => exact h.thief_read (le_refl d.top) rfl
  | loadBottom t =>
    have hle : t ≤ d.top := hq
    simp only [thiefStep]
    split
    · exact h.thief_read trivial rfl
    · next hsize =>
      refine h.thief_read ⟨hle, fun _ => ?_⟩ rfl
      have : d.bottom ≤ back d p := by unfold back; split <;> omega
      omega
  | loadArray t => exact h.thief_read ⟨hq.1, le_refl _, fun e => ⟨hq.2 e, rfl⟩⟩ rfl
  | loadSlot t a => exact h.thief_read ⟨hq.1, hq.2.2⟩ rfl
  | cas t task =>
    simp only [thiefStep]
    split
    · next hcas => exact ok_cas_win h hq hcas
    · exact h.thief_read trivial rfl
  | done task => exact h.thief_read trivial rfl

/-! ## Pushes and pops -/

/-- The owner is in a push. -/
def OwnerPc.isPush : OwnerPc τ → Bool
  | .pushLoadBottom _ | .pushLoadTop _ _ | .pushLoadArray _ _ _ | .growLoad _ _ _ _ _ _ | .growStore _ _ _ _ _ _ _
  | .pushStoreArray _ _ _ _ _ | .pushStoreSlot _ _ _ | .pushStoreBottom _ _ | .pushDone => true
  | _ => false

/-- The owner is in a pop. -/
def OwnerPc.isPop : OwnerPc τ → Bool
  | .popLoadBottom | .popLoadArray _ | .popStoreBottom _ _ | .popLoadTop _ _ | .popUndo _ | .popLoadSlot _ _ _
  | .popCas _ _ _ | .popReset _ _ | .popDone _ => true
  | _ => false

theorem pending_of_isPush (h : p.isPush = true) : p.pending = false := by
  cases p <;> first | rfl | cases h

theorem taken_of_isPush (h : p.isPush = true) : taken d p = none := by
  cases p <;> first | rfl | cases h

theorem input_of_isPop (h : p.isPop = true) : p.input = none := by
  cases p <;> first | rfl | cases h

theorem isPush_growNext (x : τ) (b t : Int) (a n : Nat) (i : Int) : (growNext x b t a n i).isPush = true := by
  unfold growNext; split <;> rfl

theorem isPush_ownerStep (h : p.isPush = true) : (ownerStep d p).2.isPush = true := by
  cases p with
  | pushLoadArray x b t =>
    simp only [ownerStep]; split
    · exact isPush_growNext ..
    · rfl
  | growStore x b t a n i v => exact isPush_growNext ..
  | _ => first | rfl | cases h

theorem isPop_ownerStep (h : p.isPop = true) : (ownerStep d p).2.isPop = true := by
  cases p with
  | popLoadTop | popLoadSlot | popCas => simp only [ownerStep]; split <;> rfl
  | _ => first | rfl | cases h

/-- Without a pending pop the live range ends at `bottom_`. -/
theorem back_of_not_pending (h : p.pending = false) : back d p = d.bottom := by
  simp [back, h]

/-! ## When a pop decides -/

theorem contents_nil (h : back d p ≤ d.top) : contents d p = [] := window_nil _ h

/-- The owner moves `top_` only to take the last task. -/
theorem ownerStep_top (h : Inv d p) :
    (ownerStep d p).1.top = d.top ∨ contents (ownerStep d p).1 (ownerStep d p).2 = [] := by
  cases p with
  | pushLoadArray | popLoadTop | popLoadSlot => left; simp only [ownerStep]; split <;> rfl
  | popCas b t task =>
    obtain ⟨rfl, rfl, -, -⟩ := h.at_pc
    simp only [ownerStep]
    split
    · exact .inr (contents_nil (le_of_eq rfl))
    · exact .inl rfl
  | _ => exact .inl rfl

/-- A pending pop stays pending until it has a task or the deque is empty. -/
theorem ownerStep_pending (h : Inv d p) (hp : p.pending = true) :
    (ownerStep d p).2.pending = true ∨ (taken (ownerStep d p).1 (ownerStep d p).2).isSome = true ∨
      contents (ownerStep d p).1 (ownerStep d p).2 = [] := by
  have hinv := (ownerStep_ok h).inv
  cases p with
  | popLoadTop b a =>
    obtain ⟨rfl, rfl⟩ := h.at_pc
    simp only [ownerStep] at hinv ⊢
    split
    · exact .inl rfl
    · next hsize =>
      by_cases hz : d.bottom - d.top = 0
      · left; simp [OwnerPc.pending, hz]
      · right; left
        simp only [taken, hz, if_false]
        exact h.full d.bottom (by omega) (lt_add_one d.bottom)
  | popLoadSlot b a t =>
    have hz : b - t = 0 := by simpa [OwnerPc.pending] using hp
    left; simp only [ownerStep, hz, if_true]; rfl
  | popUndo b => exact .inr (.inr (contents_nil (hinv.at_pc rfl).ge))
  | popCas b t task => left; simp only [ownerStep]; split <;> rfl
  | popReset b task =>
    right
    cases task with
    | none => exact .inr (contents_nil (hinv.at_pc rfl).ge)
    | some x => exact .inl rfl
  | _ => cases hp

/-- A pop that has its task while `bottom_` is still lowered has taken the last
one. -/
theorem Inv.back_of_taken (h : Inv d p) (hp : p.pending = true) (ht : (taken d p).isSome = true) :
    back d p = d.top := by
  cases p with
  | popReset b task =>
    obtain ⟨rfl, htop⟩ := h.at_pc
    exact htop.symm
  | popLoadSlot b a t =>
    have hz : b - t = 0 := by simpa [OwnerPc.pending] using hp
    simp [taken, hz] at ht
  | popLoadTop | popUndo | popCas => cases ht
  | _ => cases hp

end AsyncRuntime.Deque
