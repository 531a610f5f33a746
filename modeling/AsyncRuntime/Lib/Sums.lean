import Mathlib.Algebra.BigOperators.Group.Finset.Basic
import Mathlib.Algebra.BigOperators.Fin
import Mathlib.Algebra.Order.BigOperators.Group.Finset
import Mathlib.Data.Fintype.BigOperators
/-!
# Sums over the parties of a system

A step changes the contribution of one party, or of two. These lemmas say what
that does to the sum over all of them, without subtraction.
-/

namespace AsyncRuntime.Lib
variable {ι M : Type} [Fintype ι] [DecidableEq ι] [AddCommMonoid M] {f g : ι → M}

omit [Fintype ι] in
/-- An observation of every party stays if it stays for the one that moves. -/
theorem observe_update {α β : Type} (f : α → β) {g : ι → α} {w : ι} {x : α} (h : f x = f (g w)) (j : ι) :
    f (Function.update g w x j) = f (g j) := by
  by_cases e : j = w
  · subst e; rw [Function.update_self, h]
  · rw [Function.update_of_ne e]

omit [Fintype ι] in
/-- The same for two parties, of which `v` moves last. -/
theorem observe_update₂ {α β : Type} (f : α → β) {g : ι → α} {v w : ι} {x y : α} (hv : f x = f (g v))
    (hw : f y = f (g w)) (j : ι) : f (Function.update (Function.update g w y) v x j) = f (g j) := by
  by_cases e : j = v
  · subst e; rw [Function.update_self, hv]
  · rw [Function.update_of_ne e, observe_update f hw]

/-- The sum after one term has changed. -/
theorem sum_change (w : ι) (h : ∀ j, j ≠ w → f j = g j) : (∑ j, f j) + g w = (∑ j, g j) + f w := by
  have hrest : ∑ j ∈ Finset.univ.erase w, f j = ∑ j ∈ Finset.univ.erase w, g j :=
    Finset.sum_congr rfl fun j hj => h j (Finset.ne_of_mem_erase hj)
  rw [← Finset.sum_erase_add _ f (Finset.mem_univ w), ← Finset.sum_erase_add _ g (Finset.mem_univ w), hrest]
  exact add_right_comm ..

/-- The sum after two terms have changed. -/
theorem sum_change₂ {v w : ι} (hvw : v ≠ w) (h : ∀ j, j ≠ v → j ≠ w → f j = g j) :
    (∑ j, f j) + (g v + g w) = (∑ j, g j) + (f v + f w) := by
  have h₁ := sum_change (f := f) (g := Function.update g w (f w)) v fun j hj => by
    by_cases e : j = w
    · rw [e, Function.update_self]
    · rw [Function.update_of_ne e, h j hj e]
  have h₂ := sum_change (f := Function.update g w (f w)) (g := g) w fun j hj => Function.update_of_ne hj ..
  rw [Function.update_of_ne hvw] at h₁
  rw [Function.update_self] at h₂
  calc (∑ j, f j) + (g v + g w) = (∑ j, f j) + g v + g w := (add_assoc ..).symm
    _ = (∑ j, Function.update g w (f w) j) + f v + g w := by rw [h₁]
    _ = (∑ j, Function.update g w (f w) j) + g w + f v := add_right_comm ..
    _ = (∑ j, g j) + f w + f v := by rw [h₂]
    _ = (∑ j, g j) + (f v + f w) := by rw [add_assoc, add_comm (f w)]

omit [DecidableEq ι] in
/-- The sum after every term has grown by `e` at most. -/
theorem sum_le_add {f g : ι → ℕ} {e : ℕ} (h : ∀ j, f j ≤ g j + e) : ∑ j, f j ≤ ∑ j, g j + Fintype.card ι * e :=
  calc ∑ j, f j ≤ ∑ j, (g j + e) := Finset.sum_le_sum fun j _ => h j
    _ = ∑ j, g j + Fintype.card ι * e := by rw [Finset.sum_add_distrib, Finset.sum_const, Finset.card_univ, smul_eq_mul]

/-- The sum after one term has changed and the others have grown by `e` at most. -/
theorem sum_change_le {f g : ι → ℕ} (w : ι) {e : ℕ} (h : ∀ j, j ≠ w → f j ≤ g j + e) :
    ∑ j, f j + g w ≤ ∑ j, g j + f w + Fintype.card ι * e := by
  have hchange := sum_change (f := f) (g := Function.update f w (g w)) w fun j hj => (Function.update_of_ne hj ..).symm
  rw [Function.update_self] at hchange
  have hle : ∑ j, Function.update f w (g w) j ≤ ∑ j, g j + Fintype.card ι * e := by
    apply sum_le_add
    intro j
    by_cases hj : j = w
    · subst hj; rw [Function.update_self]; exact Nat.le_add_right ..
    · rw [Function.update_of_ne hj]; exact h j hj
  omega

omit [DecidableEq ι] in
/-- Counts that add up to one are one at a single place. -/
theorem exists_of_sum_eq_one {f : ι → ℕ} (h : ∑ j, f j = 1) : ∃ j, f j = 1 ∧ ∀ k, k ≠ j → f k = 0 := by
  classical
  obtain ⟨j, -, hj⟩ := Finset.exists_ne_zero_of_sum_ne_zero (h.trans_ne one_ne_zero)
  have hsplit := Finset.add_sum_erase Finset.univ f (Finset.mem_univ j)
  have hrest : ∑ k ∈ Finset.univ.erase j, f k = 0 := by omega
  refine ⟨j, by omega, fun k hk => ?_⟩
  exact Finset.sum_eq_zero_iff.1 hrest k (Finset.mem_erase.2 ⟨hk, Finset.mem_univ k⟩)

end AsyncRuntime.Lib
