import Mathlib.Data.Int.Bitwise
import Mathlib.Data.List.Basic
import Mathlib.Tactic
/-!
# Windows of an indexed memory

`window f lo hi` lists the values that `f` holds at the indices `lo, …, hi - 1`,
skipping the empty ones. A queue kept between two counters is such a window: a
push extends it at `hi`, a removal shrinks it at `lo` or at `hi`.

`Int.land` with a power of two minus one is the remainder, so a window shorter
than the power of two uses each remainder at most once.
-/

namespace AsyncRuntime.Lib
variable {τ : Type}

/-- The values of `f` at the indices `lo, …, hi - 1`. -/
def window (f : Int → Option τ) (lo hi : Int) : List τ :=
  (List.range (hi - lo).toNat).filterMap (fun i : Nat => f (lo + i))

theorem window_nil (f : Int → Option τ) {lo hi : Int} (h : hi ≤ lo) : window f lo hi = [] := by
  simp [window, Int.toNat_of_nonpos (show hi - lo ≤ 0 by omega)]

theorem window_snoc (f : Int → Option τ) {lo hi : Int} (h : lo ≤ hi) :
    window f lo (hi + 1) = window f lo hi ++ (f hi).toList := by
  have e : (hi + 1 - lo).toNat = (hi - lo).toNat + 1 := by omega
  have ei : f (lo + ((hi - lo).toNat : Int)) = f hi := by congr 1; omega
  rw [window, e, List.range_succ, List.filterMap_append, window, List.filterMap_cons, ei]
  cases hf : f hi <;> simp

theorem window_cons (f : Int → Option τ) {lo hi : Int} (h : lo < hi) :
    window f lo hi = (f lo).toList ++ window f (lo + 1) hi := by
  have e : (hi - lo).toNat = (hi - (lo + 1)).toNat + 1 := by omega
  have ef : (fun i : Nat => f (lo + ((i + 1 : Nat) : Int))) = fun i : Nat => f (lo + 1 + i) := by
    funext i; congr 1; push_cast; ring
  rw [window, e, List.range_succ_eq_map, List.filterMap_cons, List.filterMap_map, window]
  simp only [Function.comp_def, ef]
  cases hf : f lo <;> simp [hf]

theorem window_congr {f g : Int → Option τ} {lo hi : Int} (h : ∀ i, lo ≤ i → i < hi → f i = g i) :
    window f lo hi = window g lo hi := by
  refine List.filterMap_congr (fun i hi' => ?_)
  rw [List.mem_range] at hi'
  exact h _ (by omega) (by omega)

/-- A window without empty slots holds one value per index. -/
theorem map_some_window {f : Int → Option τ} {lo hi : Int} (hf : ∀ i, lo ≤ i → i < hi → (f i).isSome) :
    (window f lo hi).map some = (List.range (hi - lo).toNat).map (fun i : Nat => f (lo + i)) := by
  rw [window, List.map_filterMap, ← List.filterMap_eq_map]
  refine List.filterMap_congr (fun i hi' => ?_)
  rw [List.mem_range] at hi'
  obtain ⟨x, hx⟩ := Option.isSome_iff_exists.1 (hf (lo + i) (by omega) (by omega))
  simp [hx]

theorem length_window {f : Int → Option τ} {lo hi : Int} (hf : ∀ i, lo ≤ i → i < hi → (f i).isSome) :
    (window f lo hi).length = (hi - lo).toNat := by
  simpa using congrArg List.length (map_some_window hf)

/-- A mask of a power of two keeps the remainder. -/
theorem land_mask (i : Int) (k : Nat) (hi : 0 ≤ i) : Int.land i (2 ^ k - 1) = i % 2 ^ k := by
  obtain ⟨m, rfl⟩ := Int.eq_ofNat_of_zero_le hi
  have hp : (2 : Int) ^ k - 1 = ((2 ^ k - 1 : Nat) : Int) := by
    rw [Nat.cast_sub Nat.one_le_two_pow]; push_cast; rfl
  rw [hp]
  show ((m &&& (2 ^ k - 1) : Nat) : Int) = _
  rw [Nat.and_two_pow_sub_one_eq_mod]
  push_cast; rfl

/-- Indices less than `c` apart have different remainders modulo `c`. -/
theorem emod_ne_of_lt {i j c : Int} (hij : i < j) (hc : j - i < c) : i % c ≠ j % c := by
  intro h
  have hd : c ∣ j - i := Int.dvd_of_emod_eq_zero (Int.emod_eq_emod_iff_emod_sub_eq_zero.1 h.symm)
  have := Int.le_of_dvd (by omega) hd
  omega

end AsyncRuntime.Lib
