import AsyncRuntime.Deque.Growth
/-!
# How many accesses a call on the deque makes

`steal` makes at most five accesses and `pop` at most seven, whatever the other threads
do. A `push` makes at most six, not counting the copy loop of `grow`, and `grow` copies
fewer elements than the capacity it adds. So the accesses left in a call are bounded by
the rank of its program point and the capacity that the call may still add.
-/

namespace AsyncRuntime.Deque
open Lib
variable {τ : Type} {d : WorkStealingDeque τ} {p : OwnerPc τ}

/-- The accesses left in a call of the owner that does not grow the array any more. -/
def OwnerPc.rank : OwnerPc τ → Nat
  | .idle => 0
  | .pushLoadBottom _ => 6
  | .pushLoadTop _ _ => 5
  | .pushLoadArray _ _ _ => 4
  | .growLoad _ b _ _ _ i => 2 * (b - i).toNat + 3
  | .growStore _ b _ _ _ i _ => 2 * (b - i).toNat + 2
  | .pushStoreArray _ _ _ _ _ => 3
  | .pushStoreSlot _ _ _ => 2
  | .pushStoreBottom _ _ => 1
  | .pushDone => 0
  | .popLoadBottom => 7
  | .popLoadArray _ => 6
  | .popStoreBottom _ _ => 5
  | .popLoadTop _ _ => 4
  | .popUndo _ => 1
  | .popLoadSlot _ _ _ => 3
  | .popCas _ _ _ => 2
  | .popReset _ _ => 1
  | .popDone _ => 0

/-- The accesses left in a `steal`. -/
def ThiefPc.rank : ThiefPc τ → Nat
  | .loadTop => 5
  | .loadBottom _ => 4
  | .loadArray _ => 3
  | .loadSlot _ _ => 2
  | .cas _ _ => 1
  | .done _ => 0

/-- The owner is about to replace the array by one of twice its capacity. -/
def OwnerPc.grows : OwnerPc τ → Bool
  | .growLoad _ _ _ _ _ _ | .growStore _ _ _ _ _ _ _ | .pushStoreArray _ _ _ _ _ => true
  | _ => false

/-- The capacity of the deque, or the one it is about to have. -/
def room (d : WorkStealingDeque τ) (p : OwnerPc τ) : Int := if p.grows then d.cur.capacity * 2 else d.cur.capacity

theorem rank_thiefStep {q : ThiefPc τ} (hq : 0 < q.rank) : (thiefStep d q).2.rank < q.rank := by
  cases q with
  | loadBottom t | cas t task => simp only [thiefStep]; split <;> simp [ThiefPc.rank]
  | done task => simp [ThiefPc.rank] at hq
  | _ => simp [thiefStep, ThiefPc.rank]

theorem rank_pos_of_isPush (h : p.isPush = true) (hne : p ≠ .pushDone) : 0 < p.rank := by
  cases p with
  | pushDone => exact absurd rfl hne
  | idle | popLoadBottom | popLoadArray | popStoreBottom | popLoadTop | popUndo | popLoadSlot | popCas | popReset
  | popDone => cases h
  | _ => simp [OwnerPc.rank]

theorem rank_pos_of_isPop (h : p.isPop = true) (hne : ∀ task, p ≠ .popDone task) : 0 < p.rank := by
  cases p with
  | popDone task => exact absurd rfl (hne task)
  | popLoadBottom | popLoadArray | popStoreBottom | popLoadTop | popUndo | popLoadSlot | popCas | popReset =>
    simp [OwnerPc.rank]
  | _ => cases h

theorem ThiefPc.rank_pos {q : ThiefPc τ} (hne : ∀ task, q ≠ .done task) : 0 < q.rank := by
  cases q with
  | done task => exact absurd rfl (hne task)
  | _ => simp [ThiefPc.rank]

/-! ## Growing -/

theorem rank_growNext {x : τ} {b t i : Int} {a n : Nat} (hi : i ≤ b) :
    ((growNext x b t a n i).rank : Int) ≤ 2 * (b - i) + 3 := by
  unfold growNext
  split <;> simp only [OwnerPc.rank] <;> omega

theorem room_growNext (d : WorkStealingDeque τ) (x : τ) (b t i : Int) (a n : Nat) :
    room d (growNext x b t a n i) = d.cur.capacity * 2 := by
  unfold growNext
  split <;> rfl

/-- An access of a call uses up one of those left and keeps the capacity, or it is the
one of a `push` that starts to grow a full array. -/
theorem ownerStep_access (h : Inv d p) :
    room (ownerStep d p).1 (ownerStep d p).2 = room d p ∧ (0 < p.rank → (ownerStep d p).2.rank < p.rank) ∨
    room (ownerStep d p).1 (ownerStep d p).2 = 2 * room d p ∧ ((ownerStep d p).2.rank : Int) ≤ 2 * room d p + 1 ∧
      p.rank = 4 ∧ p.pending = false ∧ p.input.isSome = true ∧ room d p ≤ d.bottom + 1 := by
  have hpc := h.at_pc
  cases p with
  | idle | pushDone | popDone => exact .inl ⟨rfl, nofun⟩
  | pushLoadArray x b t =>
    obtain ⟨rfl, ht, -, hfit⟩ := hpc
    have hroom : room d (.pushLoadArray x d.bottom t) = d.cur.capacity := rfl
    simp only [ownerStep]
    split
    · next hfull =>
      have hrank := rank_growNext (x := x) (a := d.array) (n := d.next) (b := d.bottom) (t := t) (i := t)
        (by have := d.cur.capacity_pos; omega)
      refine .inr ⟨?_, ?_, rfl, rfl, rfl, ?_⟩
      · rw [room_growNext, hroom, d.cur_alloc h.array_lt, mul_comm]
      · rw [hroom]; dsimp only; omega
      · rw [hroom]; omega
    · exact .inl ⟨rfl, fun _ => by simp [OwnerPc.rank]⟩
  | growStore x b t a n i v =>
    obtain ⟨hg, hi, -⟩ := hpc
    have hrank := rank_growNext (x := x) (a := a) (n := n) (t := t) (b := b) (i := i + 1) (by omega)
    have hold : (OwnerPc.growStore x b t a n i v).rank = 2 * (b - i).toNat + 2 := rfl
    refine .inl ⟨?_, fun _ => ?_⟩
    · simp only [ownerStep]
      rw [room_growNext, d.cur_storeSlot_ne i v hg.fresh.ne]
      rfl
    · simp only [ownerStep]
      omega
  | pushStoreArray x b t a n => exact .inl ⟨hpc.double, fun _ => by simp [ownerStep, OwnerPc.rank]⟩
  | pushStoreSlot x b a =>
    obtain ⟨rfl, -, -⟩ := hpc
    refine .inl ⟨?_, fun _ => by simp [ownerStep, OwnerPc.rank]⟩
    simp only [ownerStep, room, d.cur_storeSlot_self]
    rfl
  | growLoad x b t a n i => exact .inl ⟨rfl, fun _ => Nat.lt_succ_self _⟩
  | popLoadTop | popLoadSlot | popCas =>
    left; simp only [ownerStep]; split <;> exact ⟨rfl, fun _ => by simp [OwnerPc.rank]⟩
  | _ => exact .inl ⟨rfl, fun _ => by simp [ownerStep, OwnerPc.rank]⟩

/-- **Every access counts.** An access of a call in progress uses up one of the accesses
left, or it adds capacity to the deque, and twice that pays for the copies. -/
theorem rank_ownerStep (h : Inv d p) (hp : 0 < p.rank) :
    ((ownerStep d p).2.rank : Int) + 1 + 2 * room d p ≤ p.rank + 2 * room (ownerStep d p).1 (ownerStep d p).2 := by
  rcases ownerStep_access h with ⟨hr, hlt⟩ | ⟨hr, hle, hfour, -⟩
  · have := hlt hp
    omega
  · omega

/-! ## Indices and looks -/

/-- `back` moves up only when a push publishes its task. -/
theorem back_ownerStep (h : Inv d p) :
    back (ownerStep d p).1 (ownerStep d p).2 + (ownerStep d p).2.input.toList.length ≤
      back d p + p.input.toList.length := by
  have hpc := h.at_pc
  cases p with
  | pushLoadArray x b t =>
    simp only [ownerStep]
    split
    · rw [back_growNext, input_growNext]; exact le_refl _
    · exact le_refl _
  | growStore x b t a n i v =>
    simp only [ownerStep]
    rw [back_growNext, input_growNext]; exact le_refl _
  | pushStoreBottom x b =>
    obtain ⟨rfl, -, -⟩ := hpc
    simp [ownerStep, back, OwnerPc.pending, OwnerPc.input]
  | popStoreBottom b a =>
    obtain ⟨rfl, -⟩ := hpc
    simp [ownerStep, back, OwnerPc.pending, OwnerPc.input]
  | popLoadTop b a =>
    simp only [ownerStep]
    split
    · exact le_refl _
    · by_cases hz : b - d.top = 0
      · simp [back, OwnerPc.pending, OwnerPc.input, hz]
      · simp [back, OwnerPc.pending, OwnerPc.input, hz]
  | popLoadSlot b a t =>
    simp only [ownerStep]
    split
    · next hz => simp [back, OwnerPc.pending, OwnerPc.input, hz]
    · next hz => simp [back, OwnerPc.pending, OwnerPc.input, hz]
  | popCas b t task => simp only [ownerStep]; split <;> exact le_refl _
  | popUndo b | popReset b task =>
    obtain ⟨rfl, -⟩ := hpc
    simp [ownerStep, back, OwnerPc.pending, OwnerPc.input]
  | _ => exact le_refl _

/-- Where the owner has neither changed the deque half way nor has a task to publish. -/
def OwnerPc.settled (p : OwnerPc τ) : Bool := !p.pending && p.input.isNone && !p.grows

/-- The deque has had at most `e` tasks, counting that of a push in progress. Its array
has grown only for them. -/
structure Fits (d : WorkStealingDeque τ) (p : OwnerPc τ) (e : Nat) : Prop where
  back : back d p + p.input.toList.length ≤ e
  room : room d p ≤ 1024 + 2 * e

theorem Fits.mono {e e' : Nat} (h : Fits d p e) (he : e ≤ e') : Fits d p e' := by
  obtain ⟨hb, hr⟩ := h
  exact ⟨by omega, by omega⟩

theorem back_of_settled (h : p.settled = true) : back d p = d.bottom := by
  simp only [OwnerPc.settled, Bool.and_eq_true, Bool.not_eq_true'] at h
  exact back_of_not_pending h.1.1

theorem room_of_settled (h : p.settled = true) : room d p = d.cur.capacity := by
  simp only [OwnerPc.settled, Bool.and_eq_true, Bool.not_eq_true'] at h
  simp [room, h.2]

theorem input_of_settled (h : p.settled = true) : p.input = none := by
  simp only [OwnerPc.settled, Bool.and_eq_true, Option.isNone_iff_eq_none] at h
  exact h.1.2

theorem contents_of_settled (h : p.settled = true) : contents d p = window d.cur.load d.top d.bottom := by
  rw [contents, back_of_settled h]

theorem Fits.of_settled {p' : OwnerPc τ} {e : Nat} (h : Fits d p e) (hp : p.settled = true) (hp' : p'.settled = true) :
    Fits d p' e := by
  obtain ⟨hb, hr⟩ := h
  rw [back_of_settled hp, input_of_settled hp] at hb
  rw [room_of_settled hp] at hr
  exact ⟨by rw [back_of_settled hp', input_of_settled hp']; exact hb, by rw [room_of_settled hp']; exact hr⟩

theorem Fits.ownerStep {e : Nat} (h : Fits d p e) (hi : Inv d p) :
    Fits (ownerStep d p).1 (ownerStep d p).2 e := by
  obtain ⟨hb, hr⟩ := h
  refine ⟨(back_ownerStep hi).trans hb, ?_⟩
  rcases ownerStep_access hi with ⟨hr', -⟩ | ⟨hr', -, -, hpend, hin, hle⟩
  · rw [hr']; exact hr
  · obtain ⟨x, hx⟩ := Option.isSome_iff_exists.1 hin
    rw [back_of_not_pending hpend, hx] at hb
    have hb : d.bottom + 1 ≤ e := hb
    omega

theorem room_thiefStep (d : WorkStealingDeque τ) (p : OwnerPc τ) (q : ThiefPc τ) :
    room (thiefStep d q).1 p = room d p := by
  obtain ⟨t, ht⟩ := thiefStep_top d q
  rw [ht]; rfl

theorem Fits.thiefStep {e : Nat} (h : Fits d p e) (q : ThiefPc τ) : Fits (thiefStep d q).1 p e := by
  obtain ⟨hb, hr⟩ := h
  refine ⟨?_, by rw [room_thiefStep]; exact hr⟩
  obtain ⟨t, ht⟩ := thiefStep_top d q
  rw [ht]
  exact hb

/-- What `empty()` would find. -/
def Exhausted (d : WorkStealingDeque τ) : Prop := d.bottom ≤ d.top

/-- A deque that looks empty does so until a push publishes its task. A pop that lowered
`bottom_` in vain restores it to `top_`. -/
theorem Exhausted.ownerStep (he : Exhausted d) (h : Inv d p) (hp : (ownerStep d p).2.input = p.input) :
    Exhausted (ownerStep d p).1 := by
  have hpc := h.at_pc
  unfold Exhausted at he ⊢
  cases p with
  | pushStoreBottom x b => cases hp
  | popStoreBottom b a =>
    obtain ⟨rfl, -⟩ := hpc
    simp only [Deque.ownerStep]
    omega
  | popUndo b | popReset b task =>
    simp only [Deque.ownerStep]
    exact hpc.2.ge
  | popCas b t task =>
    simp only [Deque.ownerStep]
    split
    · next ht => simp only; omega
    · exact he
  | pushLoadArray | popLoadTop | popLoadSlot => simp only [Deque.ownerStep]; split <;> exact he
  | _ => exact he

/-- The owner moves `top_` only when it takes the last task. -/
theorem top_ownerStep (h : Inv d p) :
    (ownerStep d p).1.top = d.top ∨ ∃ x, contents d p = contents (ownerStep d p).1 (ownerStep d p).2 ++ [x] ∧
      taken d p = none ∧ taken (ownerStep d p).1 (ownerStep d p).2 = some x := by
  cases p with
  | popCas b t task =>
    have hok := ownerStep_ok h
    simp only [ownerStep] at hok ⊢
    split
    · next ht =>
      rw [if_pos ht] at hok
      obtain ⟨rfl, rfl, -, htask⟩ := h.at_pc
      have hfull := h.full d.bottom (by omega) (by simp [back, OwnerPc.pending])
      rw [← htask ht] at hfull
      right
      cases hok.effect with
      | quiet hc _ ht' =>
        simp only [taken] at ht'
        rw [ht'] at hfull
        cases hfull
      | push x _ hin => cases hin
      | pop x hc _ _ ht₁ ht₂ => exact ⟨x, hc, ht₁, ht₂⟩
    · exact .inl rfl
  | pushLoadArray | popLoadTop | popLoadSlot => left; simp only [ownerStep]; split <;> rfl
  | _ => exact .inl rfl

end AsyncRuntime.Deque
