import Mathlib.Logic.Function.Basic
import Mathlib.Data.List.Basic
import Mathlib.Data.List.Nodup
import Mathlib.Data.List.Perm.Basic
/-!
# Slots

A number of slots, a list of those that are free, and holders of which each may
hold one. `Slots N free held` says that every slot below `N` is either free, once,
or held, by one holder. Taking a free slot and giving one back keep this.
-/

namespace AsyncRuntime.Lib

/-! ## Updates of a partial map -/

section Update
variable {ι α : Type} [DecidableEq ι] {f : ι → Option α} {c d : ι} {o : Option α} {x y : α}

theorem update_eq_some (h : Function.update f c o d = some x) : d = c ∧ o = some x ∨ d ≠ c ∧ f d = some x := by
  by_cases e : d = c
  · subst e
    rw [Function.update_self] at h
    exact .inl ⟨rfl, h⟩
  · rw [Function.update_of_ne e] at h
    exact .inr ⟨e, h⟩

/-- What is there after an entry was added is the new entry or was there before. -/
theorem update_some_eq_some (h : Function.update f c (some y) d = some x) : d = c ∧ x = y ∨ d ≠ c ∧ f d = some x :=
  (update_eq_some h).imp_left (And.imp_right fun e => (Option.some.inj e).symm)

/-- What is there after an entry was removed is another one. -/
theorem update_none_eq_some (h : Function.update f c none d = some x) : d ≠ c ∧ f d = some x :=
  (update_eq_some h).resolve_left (fun h => nomatch h.2)

end Update

/-! ## Taking an element out of a list -/

theorem countP_eraseIdx {α : Type} {p : α → Bool} {l : List α} {i : Nat} {x : α} (h : l[i]? = some x) :
    l.countP p = (l.eraseIdx i).countP p + if p x then 1 else 0 := by
  obtain ⟨hi, hget⟩ := List.getElem?_eq_some_iff.1 h
  have hperm : (x :: l.eraseIdx i).Perm l := by
    rw [← hget]
    exact List.getElem_cons_eraseIdx_perm hi
  rw [← hperm.countP_eq p, List.countP_cons]

/-! ## Free and held slots -/

/-- Every slot is free once or held by one holder. -/
structure Slots {ι : Type} (N : Nat) (free : List Nat) (held : ι → Option Nat) : Prop where
  nodup : free.Nodup
  free_lt : ∀ i ∈ free, i < N
  held_lt : ∀ {c i}, held c = some i → i < N
  not_free : ∀ {c i}, held c = some i → i ∉ free
  unique : ∀ {c c' i}, held c = some i → held c' = some i → c = c'
  total : ∀ i < N, i ∈ free ∨ ∃ c, held c = some i

namespace Slots
variable {ι : Type} {N : Nat} {free : List Nat} {held : ι → Option Nat} {c : ι} {i : Nat}

/-- All slots are free. -/
theorem all_free (hnodup : free.Nodup) (hmem : ∀ i, i ∈ free ↔ i < N) : Slots N free (fun _ : ι => none) where
  nodup := hnodup
  free_lt i := (hmem i).1
  held_lt := nofun
  not_free := nofun
  unique := nofun
  total i hi := .inl ((hmem i).2 hi)

variable [DecidableEq ι]

/-- `c`, which holds none, takes the last free slot. -/
theorem take (h : Slots N (free ++ [i]) held) (hc : held c = none) :
    Slots N free (Function.update held c (some i)) := by
  have hnodup : free.Nodup ∧ i ∉ free := by
    have := h.nodup
    rw [← List.concat_eq_append, List.nodup_concat] at this
    exact this.symm
  have hne : ∀ {d}, held d = some i → False := by
    intro d hd
    exact h.not_free hd (by simp)
  refine ⟨hnodup.1, fun j hj => h.free_lt j (by simp [hj]), ?_, ?_, ?_, ?_⟩
  · intro d j hd
    rcases update_some_eq_some hd with ⟨-, rfl⟩ | ⟨-, hd⟩
    · exact h.free_lt j (by simp)
    · exact h.held_lt hd
  · intro d j hd
    rcases update_some_eq_some hd with ⟨-, rfl⟩ | ⟨-, hd⟩
    · exact hnodup.2
    · intro hj
      exact h.not_free hd (by simp [hj])
  · intro d d' j hd hd'
    rcases update_some_eq_some hd with ⟨hdc, hj⟩ | ⟨-, hd⟩ <;>
      rcases update_some_eq_some hd' with ⟨hdc', hj'⟩ | ⟨-, hd'⟩
    · rw [hdc, hdc']
    · rw [hj] at hd'
      exact (hne hd').elim
    · rw [hj'] at hd
      exact (hne hd).elim
    · exact h.unique hd hd'
  · intro j hj
    rcases h.total j hj with hj | ⟨d, hd⟩
    · rcases List.mem_append.1 hj with hj | hj
      · exact .inl hj
      · rw [List.mem_singleton] at hj
        exact .inr ⟨c, by rw [hj, Function.update_self]⟩
    · refine .inr ⟨d, ?_⟩
      rwa [Function.update_of_ne]
      rintro rfl
      rw [hc] at hd
      cases hd

/-- `c` gives its slot back. -/
theorem give (h : Slots N free held) (hc : held c = some i) : Slots N (free ++ [i]) (Function.update held c none) := by
  refine ⟨?_, ?_, fun hd => h.held_lt (update_none_eq_some hd).2, ?_, ?_, ?_⟩
  · rw [← List.concat_eq_append, List.nodup_concat]
    exact ⟨h.not_free hc, h.nodup⟩
  · intro j hj
    rcases List.mem_append.1 hj with hj | hj
    · exact h.free_lt j hj
    · rw [List.mem_singleton.1 hj]
      exact h.held_lt hc
  · intro d j hd hj
    obtain ⟨hne, hd⟩ := update_none_eq_some hd
    rcases List.mem_append.1 hj with hj | hj
    · exact h.not_free hd hj
    · rw [List.mem_singleton.1 hj] at hd
      exact hne (h.unique hd hc)
  · intro d d' j hd hd'
    exact h.unique (update_none_eq_some hd).2 (update_none_eq_some hd').2
  · intro j hj
    rcases h.total j hj with hj | ⟨d, hd⟩
    · exact .inl (List.mem_append_left _ hj)
    · by_cases e : d = c
      · subst e
        rw [hc, Option.some.injEq] at hd
        exact .inl (by simp [hd])
      · exact .inr ⟨d, by rwa [Function.update_of_ne e]⟩

end Slots

end AsyncRuntime.Lib
