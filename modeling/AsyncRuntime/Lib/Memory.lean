import AsyncRuntime.Lib.Buffer
/-!
# Byte memory

A memory gives the byte at every address. `load` reads a run of bytes and `store`
writes one; a buffer is what `load` reads at its address, and a store into a part of
it is an `overwrite`.
-/

namespace AsyncRuntime.Lib
variable {β : Type} {mem : Nat → β} {a b m n : Nat} {d : List β}

/-- The `n` bytes from address `a` on. -/
def load (mem : Nat → β) (a n : Nat) : List β := (List.range n).map fun i => mem (a + i)

/-- The bytes of `d` replace those from address `a` on. -/
def store (mem : Nat → β) (a : Nat) (d : List β) : Nat → β := fun x =>
  if a ≤ x then (d[x - a]?).getD (mem x) else mem x

@[simp]
theorem length_load : (load mem a n).length = n := by simp [load]

theorem load_add : load mem a (m + n) = load mem a m ++ load mem (a + m) n := by
  simp [load, List.range_add, Nat.add_assoc]

theorem take_load (h : m ≤ n) : (load mem a n).take m = load mem a m := by
  obtain ⟨k, rfl⟩ := Nat.exists_eq_add_of_le h
  rw [load_add, List.take_left' length_load]

theorem drop_load (h : m ≤ n) : (load mem a n).drop m = load mem (a + m) (n - m) := by
  obtain ⟨k, rfl⟩ := Nat.exists_eq_add_of_le h
  rw [load_add, List.drop_left' length_load, Nat.add_sub_cancel_left]

theorem load_congr {mem' : Nat → β} (h : ∀ x, a ≤ x → x < a + n → mem' x = mem x) : load mem' a n = load mem a n := by
  refine List.map_congr_left fun i hi => h (a + i) (Nat.le_add_right a i) ?_
  exact Nat.add_lt_add_left (List.mem_range.1 hi) a

theorem store_of_outside {x : Nat} (h : x < a ∨ a + d.length ≤ x) : store mem a d x = mem x := by
  unfold store
  split
  · rw [List.getElem?_eq_none (by omega), Option.getD_none]
  · rfl

/-- A store leaves what does not overlap it. -/
theorem load_store_of_disjoint (h : b + n ≤ a ∨ a + d.length ≤ b) : load (store mem a d) b n = load mem b n :=
  load_congr fun x _ _ => store_of_outside (by omega)

theorem load_store_self : load (store mem a d) a d.length = d := by
  refine List.ext_getElem length_load fun i hi _ => ?_
  have hlt : i < d.length := by simpa using hi
  simp [load, store, List.getElem?_eq_getElem hlt]

/-- A store into a part of a buffer. -/
theorem load_store (h : m + d.length ≤ n) : load (store mem (a + m) d) a n = overwrite (load mem a n) m d := by
  obtain ⟨k, rfl⟩ := Nat.exists_eq_add_of_le h
  rw [overwrite, take_load (by omega), drop_load h, Nat.add_sub_cancel_left, load_add, load_add, ← Nat.add_assoc,
    load_store_self, load_store_of_disjoint (.inl (Nat.le_refl _)), load_store_of_disjoint (.inr (Nat.le_refl _))]

end AsyncRuntime.Lib
