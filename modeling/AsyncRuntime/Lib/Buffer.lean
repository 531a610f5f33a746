import Mathlib.Data.List.Basic
/-!
# Writing into a buffer

A buffer is the list of its bytes. `overwrite` puts bytes at an offset, as a read
into a part of the buffer does.
-/

namespace AsyncRuntime.Lib
variable {β : Type}

/-- The bytes of `d` replace those from `offset` on. -/
def overwrite (l : List β) (offset : Nat) (d : List β) : List β :=
  l.take offset ++ d ++ l.drop (offset + d.length)

@[simp]
theorem length_overwrite {l d : List β} {offset : Nat} (h : offset + d.length ≤ l.length) :
    (overwrite l offset d).length = l.length := by
  simp only [overwrite, List.length_append, List.length_take, List.length_drop]
  omega

/-- What was there before the offset, then the new bytes. -/
theorem take_overwrite {l d : List β} {offset : Nat} (h : offset ≤ l.length) :
    (overwrite l offset d).take (offset + d.length) = l.take offset ++ d := by
  have hlen : (l.take offset ++ d).length = offset + d.length := by simp [h]
  rw [overwrite, ← hlen, List.take_left]

/-- A buffer of one byte value stays one when that value is written into it. -/
theorem overwrite_replicate {n offset : Nat} {x : β} {d : List β} (hd : ∀ y ∈ d, y = x) (h : offset + d.length ≤ n) :
    overwrite (List.replicate n x) offset d = List.replicate n x := by
  rw [List.eq_replicate_iff]
  refine ⟨by simp [h], fun y hy => ?_⟩
  simp only [overwrite, List.mem_append] at hy
  rcases hy with (hy | hy) | hy
  · exact List.eq_of_mem_replicate (List.mem_of_mem_take hy)
  · exact hd y hy
  · exact List.eq_of_mem_replicate (List.mem_of_mem_drop hy)

/-- A part before the offset stays as it is. -/
theorem take_overwrite_of_le {l d : List β} {offset n : Nat} (hn : n ≤ offset) (h : offset ≤ l.length) :
    (overwrite l offset d).take n = l.take n := by
  rw [overwrite, List.append_assoc, List.take_append_of_le_length (by simp; omega), List.take_take,
    Nat.min_eq_left hn]

/-- A beginning of a list, with a part of what follows it. -/
theorem prefix_append_take_drop {l₁ l₂ : List β} (h : l₁ <+: l₂) (n : Nat) :
    l₁ ++ (l₂.drop l₁.length).take n <+: l₂ := by
  obtain ⟨t, rfl⟩ := h
  rw [List.drop_left, List.prefix_append_right_inj]
  exact List.take_prefix n t

end AsyncRuntime.Lib
