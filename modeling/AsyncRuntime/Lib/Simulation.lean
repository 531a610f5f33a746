import AsyncRuntime.Lib.Machine
/-!
# Refinement between machines

A machine refines another if each of its steps is matched by some steps of the other,
none or several, with the same visible events. Then every history of the first is a
history of the second, so that what is proved of all runs of the second holds of the
first.
-/

namespace AsyncRuntime.Lib
variable {σ α σ' α' ε : Type}

namespace Machine
variable {M : Machine σ α} {as bs : List α} {s s' : σ}

theorem execFrom_singleton {a : α} (h : M.step s a = some s') : M.execFrom s [a] = some s' :=
  execFrom_cons.2 ⟨s', h, rfl⟩

/-- A run goes on. -/
theorem Run.append (h : M.Run as s) (hx : M.execFrom s bs = some s') : M.Run (as ++ bs) s' := by
  induction bs generalizing as s with
  | nil =>
    simp only [execFrom, List.foldlM_nil, Option.pure_def, Option.some.injEq] at hx
    rw [List.append_nil]
    exact hx ▸ h
  | cons b bs ih =>
    obtain ⟨r, hs, hr⟩ := execFrom_cons.1 hx
    have := ih (h.snoc hs) hr
    rwa [List.append_assoc, List.singleton_append] at this

end Machine

/-- Every step of `M` is matched by steps of `N` with the same events. A step may use
that the state of `N` is reached. -/
structure Refines (M : Machine σ α) (N : Machine σ' α') (obs : α → Option ε) (obs' : α' → Option ε)
    (R : σ → σ' → Prop) : Prop where
  init : R M.init N.init
  step : ∀ {s a s' bs t}, N.Run bs t → R s t → M.step s a = some s' →
    ∃ cs t', N.execFrom t cs = some t' ∧ cs.filterMap obs' = (obs a).toList ∧ R s' t'

/-- Every run is matched by a run with the same history. -/
theorem Refines.trace {M : Machine σ α} {N : Machine σ' α'} {obs : α → Option ε} {obs' : α' → Option ε}
    {R : σ → σ' → Prop} (ref : Refines M N obs obs' R) {as : List α} {s : σ} (h : M.Run as s) :
    ∃ bs t, N.Run bs t ∧ bs.filterMap obs' = as.filterMap obs ∧ R s t := by
  induction h with
  | nil => exact ⟨[], N.init, .nil, rfl, ref.init⟩
  | @snoc as s s' a _ _ hs ih =>
    obtain ⟨bs, t, hrun, hobs, hr⟩ := ih
    obtain ⟨cs, t', hexec, hobs', hr'⟩ := ref.step hrun hr hs
    refine ⟨bs ++ cs, t', hrun.append hexec, ?_, hr'⟩
    rw [List.filterMap_append, List.filterMap_append, hobs, hobs']
    cases hoa : obs a <;> simp [hoa]

end AsyncRuntime.Lib
