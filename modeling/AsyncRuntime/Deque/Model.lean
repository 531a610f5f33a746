import AsyncRuntime.Lib.Machine
import AsyncRuntime.Lib.Window
/-!
# The work-stealing deque

`work_stealing_deque` of `src/thread_pool.cpp`. A call is a program point
(`OwnerPc`, `ThiefPc`) and each step makes exactly one access to `top_`,
`bottom_`, `array_` or a slot, so that owner and thieves interleave between any
two accesses. Tests on values already loaded belong to the step that loaded the
last of them.

Tasks are pointers: a slot holds `none` for `nullptr`. `top_` and `bottom_` are
`Int`, since `pop` lowers `bottom_` below zero on a deque that was never used.
Arrays live in a heap by address; `history_` keeps replaced arrays until the
deque is destroyed, so no address is ever freed while a call is running.
-/

namespace AsyncRuntime.Deque
open Lib

/-! ## The circular array -/

/-- `circular_array`. The capacity is a power of two: the constructor of the
deque asserts it and `grow` doubles it. -/
structure CircularArray (τ : Type) where
  capacity : Int
  mask : Int
  buffer : List (Option τ)
  pow2 : ∃ k : Nat, capacity = 2 ^ k
  mask_eq : mask = capacity - 1
  length_eq : (buffer.length : Int) = capacity

namespace CircularArray
variable {τ : Type}

theorem pow2_nonneg {c : Int} (h : ∃ k : Nat, c = 2 ^ k) : 0 ≤ c := by
  obtain ⟨k, rfl⟩ := h; positivity

theorem pow2_double {c : Int} (h : ∃ k : Nat, c = 2 ^ k) : ∃ k : Nat, c * 2 = 2 ^ k := by
  obtain ⟨k, rfl⟩ := h; exact ⟨k + 1, by ring⟩

/-- The constructor: `cap` slots, all `nullptr`. -/
def new (cap : Int) (h : ∃ k : Nat, cap = 2 ^ k) : CircularArray τ where
  capacity := cap
  mask := cap - 1
  buffer := List.replicate cap.toNat none
  pow2 := h
  mask_eq := rfl
  length_eq := by simp [pow2_nonneg h]

/-- The array `grow` allocates, before it is filled. -/
def double (a : CircularArray τ) : CircularArray τ := new (a.capacity * 2) (pow2_double a.pow2)

/-- The slot of index `i`: `i & mask`. -/
def slot (a : CircularArray τ) (i : Int) : Nat := (Int.land i a.mask).toNat

/-- `buffer[i & mask].load()` -/
def load (a : CircularArray τ) (i : Int) : Option τ := a.buffer.getD (a.slot i) none

/-- `buffer[i & mask].store(x)` -/
def store (a : CircularArray τ) (i : Int) (x : Option τ) : CircularArray τ :=
  { a with buffer := a.buffer.set (a.slot i) x, length_eq := by simpa using a.length_eq }

end CircularArray

/-! ## The shared state -/

/-- The fields of `work_stealing_deque`, the arrays allocated so far by address,
and the next fresh address. -/
structure WorkStealingDeque (τ : Type) where
  top : Int
  bottom : Int
  array : Nat
  history : List Nat
  heap : Nat → CircularArray τ
  next : Nat

namespace WorkStealingDeque
variable {τ : Type}

/-- The constructor, with `initial_capacity`. -/
def new (cap : Int) (h : ∃ k : Nat, cap = 2 ^ k) : WorkStealingDeque τ where
  top := 0
  bottom := 0
  array := 0
  history := []
  heap := fun _ => .new cap h
  next := 1

/-- The array that `array_` points to. -/
def cur (d : WorkStealingDeque τ) : CircularArray τ := d.heap d.array

/-- `new circular_array(capacity * 2)` in the `grow` of the array at `a`. -/
def alloc (d : WorkStealingDeque τ) (a : Nat) : WorkStealingDeque τ :=
  { d with heap := Function.update d.heap d.next (d.heap a).double, next := d.next + 1 }

/-- Store into slot `i` of the array at `a`. -/
def storeSlot (d : WorkStealingDeque τ) (a : Nat) (i : Int) (x : Option τ) : WorkStealingDeque τ :=
  { d with heap := Function.update d.heap a ((d.heap a).store i x) }

end WorkStealingDeque

/-! ## The owner's calls -/

/-- Program points of `push` and `pop`, named by the access made next. The
locals keep the source's names; `n` is the address of `new_a`. -/
inductive OwnerPc (τ : Type) where
  | idle
  | pushLoadBottom (x : τ)
  | pushLoadTop (x : τ) (b : Int)
  | pushLoadArray (x : τ) (b t : Int)
  | growLoad (x : τ) (b t : Int) (a n : Nat) (i : Int)
  | growStore (x : τ) (b t : Int) (a n : Nat) (i : Int) (v : Option τ)
  | pushStoreArray (x : τ) (b t : Int) (a n : Nat)
  | pushStoreSlot (x : τ) (b : Int) (a : Nat)
  | pushStoreBottom (x : τ) (b : Int)
  | pushDone
  | popLoadBottom
  | popLoadArray (b : Int)
  | popStoreBottom (b : Int) (a : Nat)
  | popLoadTop (b : Int) (a : Nat)
  | popUndo (b : Int)
  | popLoadSlot (b : Int) (a : Nat) (t : Int)
  | popCas (b t : Int) (task : Option τ)
  | popReset (b : Int) (task : Option τ)
  | popDone (task : Option τ)

variable {τ : Type}

/-- The head of the copy loop of `grow`. -/
def growNext (x : τ) (b t : Int) (a n : Nat) (i : Int) : OwnerPc τ :=
  if i < b then .growLoad x b t a n i else .pushStoreArray x b t a n

/-- One access of the owner. -/
def ownerStep (d : WorkStealingDeque τ) : OwnerPc τ → WorkStealingDeque τ × OwnerPc τ
  | .idle => (d, .idle)
  | .pushLoadBottom x => (d, .pushLoadTop x d.bottom)
  | .pushLoadTop x b => (d, .pushLoadArray x b d.top)
  | .pushLoadArray x b t =>
    -- size >= a->capacity - 1
    if d.cur.capacity - 1 ≤ b - t then (d.alloc d.array, growNext x b t d.array d.next t)
    else (d, .pushStoreSlot x b d.array)
  | .growLoad x b t a n i => (d, .growStore x b t a n i ((d.heap a).load i))
  | .growStore x b t a n i v => (d.storeSlot n i v, growNext x b t a n (i + 1))
  | .pushStoreArray x b _ a n => ({ d with history := d.history ++ [a], array := n }, .pushStoreSlot x b n)
  | .pushStoreSlot x b a => (d.storeSlot a b (some x), .pushStoreBottom x b)
  | .pushStoreBottom _ b => ({ d with bottom := b + 1 }, .pushDone)
  | .pushDone => (d, .pushDone)
  | .popLoadBottom => (d, .popLoadArray (d.bottom - 1))
  | .popLoadArray b => (d, .popStoreBottom b d.array)
  | .popStoreBottom b a => ({ d with bottom := b }, .popLoadTop b a)
  | .popLoadTop b a => if b - d.top < 0 then (d, .popUndo b) else (d, .popLoadSlot b a d.top)
  | .popUndo b => ({ d with bottom := b + 1 }, .popDone none)
  | .popLoadSlot b a t =>
    if b - t = 0 then (d, .popCas b t ((d.heap a).load b)) else (d, .popDone ((d.heap a).load b))
  | .popCas b t task =>
    -- compare_exchange_strong(t, t + 1)
    if d.top = t then ({ d with top := t + 1 }, .popReset b task) else (d, .popReset b none)
  | .popReset b task => ({ d with bottom := b + 1 }, .popDone task)
  | .popDone task => (d, .popDone task)

/-! ## The thieves' calls -/

/-- Program points of `steal`. -/
inductive ThiefPc (τ : Type) where
  | loadTop
  | loadBottom (t : Int)
  | loadArray (t : Int)
  | loadSlot (t : Int) (a : Nat)
  | cas (t : Int) (task : Option τ)
  | done (task : Option τ)

/-- One access of a thief. -/
def thiefStep (d : WorkStealingDeque τ) : ThiefPc τ → WorkStealingDeque τ × ThiefPc τ
  | .loadTop => (d, .loadBottom d.top)
  | .loadBottom t => if d.bottom - t ≤ 0 then (d, .done none) else (d, .loadArray t)
  | .loadArray t => (d, .loadSlot t d.array)
  | .loadSlot t a => (d, .cas t ((d.heap a).load t))
  | .cas t task => if d.top = t then ({ d with top := t + 1 }, .done task) else (d, .done none)
  | .done task => (d, .done task)

/-! ## One owner and any number of thieves -/

/-- The deque with the owner's call and the calls of the thieves; `none` is a
thief outside any call. -/
structure Sys (τ : Type) where
  d : WorkStealingDeque τ
  owner : OwnerPc τ
  thief : Nat → Option (ThiefPc τ)

/-- What the scheduler may pick: a call, one access of a call, or a return. -/
inductive Act (τ : Type) where
  | push (x : τ)
  | pop
  | owner
  | pushRet
  | popRet (task : Option τ)
  | steal (i : Nat)
  | thief (i : Nat)
  | stealRet (i : Nat) (task : Option τ)

variable [DecidableEq τ]

/-- One step of the system. -/
def step (s : Sys τ) : Act τ → Option (Sys τ)
  | .push x => match s.owner with
    | .idle => some { s with owner := .pushLoadBottom x }
    | _ => none
  | .pop => match s.owner with
    | .idle => some { s with owner := .popLoadBottom }
    | _ => none
  | .owner => some { s with d := (ownerStep s.d s.owner).1, owner := (ownerStep s.d s.owner).2 }
  | .pushRet => match s.owner with
    | .pushDone => some { s with owner := .idle }
    | _ => none
  | .popRet r => match s.owner with
    | .popDone task => if task = r then some { s with owner := .idle } else none
    | _ => none
  | .steal i => match s.thief i with
    | none => some { s with thief := Function.update s.thief i (some .loadTop) }
    | some _ => none
  | .thief i => match s.thief i with
    | none => none
    | some q => some { s with
        d := (thiefStep s.d q).1, thief := Function.update s.thief i (some (thiefStep s.d q).2) }
  | .stealRet i r => match s.thief i with
    | some (.done task) => if task = r then some { s with thief := Function.update s.thief i none } else none
    | _ => none

/-- A deque of initial capacity `cap` with no call in progress. -/
def machine (cap : Int) (h : ∃ k : Nat, cap = 2 ^ k) : Machine (Sys τ) (Act τ) where
  init := ⟨.new cap h, .idle, fun _ => none⟩
  step := step

end AsyncRuntime.Deque
