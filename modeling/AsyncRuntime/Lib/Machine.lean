import Mathlib.Data.List.Induction
/-!
# Machines and their runs

A concurrent program is a machine: a state and the actions a scheduler may pick
in it. `step s a` is `none` when `a` is not enabled in `s`, so every
interleaving of the threads is a list of actions. A theorem about every `Run`
holds for every interleaving.

A guard restricts the runs: `RunIn P` are those runs whose every step meets `P`
in the state before it. `Run` has no guard.
-/

namespace AsyncRuntime.Lib

/-- A machine with states `σ` and actions `α`. -/
structure Machine (σ α : Type) where
  init : σ
  step : σ → α → Option σ

namespace Machine
variable {σ α : Type} (M : Machine σ α)

/-- Runs all of whose steps meet `P`: the actions taken, and the state after
them. -/
inductive RunIn (P : σ → α → Prop) : List α → σ → Prop
  | nil : RunIn P [] M.init
  | snoc {as : List α} {s s' : σ} {a : α} :
      RunIn P as s → P s a → M.step s a = some s' → RunIn P (as ++ [a]) s'

/-- All runs. -/
def Run (as : List α) (s : σ) : Prop := M.RunIn (fun _ _ => True) as s

/-- The state after the actions `as`, `none` if one of them is not enabled. -/
def exec (as : List α) : Option σ := as.foldlM M.step M.init

/-- The state after the actions `as` from `s`, `none` if one of them is not
enabled or does not meet `Q`. -/
def execIn (Q : σ → α → Prop) [∀ s a, Decidable (Q s a)] (s : σ) (as : List α) : Option σ :=
  as.foldlM (fun s a => if Q s a then M.step s a else none) s

/-- The state after the actions `as` from `s`. -/
def execFrom (s : σ) (as : List α) : Option σ := as.foldlM M.step s

/-- `s'` is reached from `s` by the action `a` alone, taken any number of times. -/
def Repeats (a : α) (s s' : σ) : Prop := ∃ k, M.execFrom s (List.replicate k a) = some s'

/-- The machine with a history: every step extends it and no step reads it. -/
def withHistory {η : Type} (h₀ : η) (next : σ → α → σ → η → η) : Machine (σ × η) α where
  init := (M.init, h₀)
  step s a := (M.step s.1 a).map fun s' => (s', next s.1 a s' s.2)

variable {M} {P Q : σ → α → Prop} {as bs : List α} {s s' : σ} {a : α}

theorem Run.nil : M.Run [] M.init := RunIn.nil

theorem Run.snoc (h : M.Run as s) (hs : M.step s a = some s') : M.Run (as ++ [a]) s' :=
  RunIn.snoc h trivial hs

theorem RunIn.mono (hPQ : ∀ s a, P s a → Q s a) (h : M.RunIn P as s) : M.RunIn Q as s := by
  induction h with
  | nil => exact .nil
  | snoc _ hp hs ih => exact .snoc ih (hPQ _ _ hp) hs

theorem RunIn.run (h : M.RunIn P as s) : M.Run as s := h.mono (fun _ _ _ => trivial)

/-- An invariant kept by every step that meets the guard holds after every
run that meets it. -/
theorem RunIn.inv (I : σ → Prop) (h0 : I M.init)
    (hstep : ∀ s a s', I s → P s a → M.step s a = some s' → I s') (h : M.RunIn P as s) : I s := by
  induction h with
  | nil => exact h0
  | snoc _ hp hs ih => exact hstep _ _ _ ih hp hs

/-- Amortised cost. A step may raise the potential by `k` if it is one of `call`, and
lowers it if it is one of `own`. Then a run has at most as many steps of `own` as its
calls and the first state pay for. -/
theorem Run.amortized (potential : σ → Nat) (own call : α → Bool) (k : Nat)
    (hstep : ∀ as s a s', M.Run as s → M.step s a = some s' →
      potential s' + (own a).toNat ≤ potential s + k * (call a).toNat) (h : M.Run as s) :
    potential s + as.countP own ≤ potential M.init + k * as.countP call := by
  have hone (p : α → Bool) (a : α) : [a].countP p = (p a).toNat := by
    cases hp : p a <;> simp [hp]
  unfold Run at h
  induction h with
  | nil => exact Nat.le_refl _
  | snoc hr _ hs ih =>
    have := hstep _ _ _ _ hr hs
    rw [List.countP_append, List.countP_append, hone, hone, Nat.mul_add]
    omega

theorem Run.inv (I : σ → Prop) (h0 : I M.init)
    (hstep : ∀ s a s', I s → M.step s a = some s' → I s') (h : M.Run as s) : I s :=
  RunIn.inv I h0 (fun s a s' hi _ hs => hstep s a s' hi hs) h

/-- What `exec` computes is a run. -/
theorem run_of_exec (h : M.exec as = some s) : M.Run as s := by
  induction as using List.reverseRecOn generalizing s with
  | nil =>
    simp only [exec, List.foldlM_nil, Option.pure_def, Option.some.injEq] at h
    exact h ▸ Run.nil
  | append_singleton as a ih =>
    simp only [exec, List.foldlM_append, List.foldlM_cons, List.foldlM_nil, Option.bind_eq_bind,
      Option.pure_def, Option.bind_eq_some_iff, Option.some.injEq] at h
    obtain ⟨s0, h0, s1, hs, rfl⟩ := h
    exact Run.snoc (ih h0) hs

/-- A state that is computed and passes a test. -/
theorem exists_of_any {p : σ → Prop} [DecidablePred p] {o : Option σ} (h : o.any (fun s => decide (p s)) = true) :
    ∃ s, o = some s ∧ p s := by
  obtain ⟨s, hs, hp⟩ := (Option.any_eq_true _ _).1 h
  exact ⟨s, hs, of_decide_eq_true hp⟩

/-- A state that `exec` computes and that passes a test is reached by a run. -/
theorem exists_run_of_exec {p : σ → Prop} [DecidablePred p] (h : (M.exec as).any (fun s => decide (p s)) = true) :
    ∃ s, M.Run as s ∧ p s := by
  obtain ⟨s, hs, hp⟩ := exists_of_any h
  exact ⟨s, run_of_exec hs, hp⟩

/-- A guarded run goes on as `execIn` computes it. -/
theorem RunIn.append_exec [∀ s a, Decidable (Q s a)] (hQP : ∀ s a, Q s a → P s a) (h : M.RunIn P as s)
    (hx : M.execIn Q s bs = some s') : M.RunIn P (as ++ bs) s' := by
  induction bs using List.reverseRecOn generalizing s' with
  | nil =>
    simp only [execIn, List.foldlM_nil, Option.pure_def, Option.some.injEq] at hx
    rw [List.append_nil]
    exact hx ▸ h
  | append_singleton bs b ih =>
    simp only [execIn, List.foldlM_append, List.foldlM_cons, List.foldlM_nil, Option.bind_eq_bind,
      Option.pure_def, Option.bind_eq_some_iff, Option.some.injEq] at hx
    obtain ⟨s0, h0, s1, hs, rfl⟩ := hx
    split at hs
    · next hq =>
      rw [← List.append_assoc]
      exact .snoc (ih h0) (hQP _ _ hq) hs
    · cases hs

/-- A state that passes a test after a guarded run. -/
theorem exists_runIn_of_exec [∀ s a, Decidable (Q s a)] {p : σ → Prop} [DecidablePred p]
    (hQP : ∀ s a, Q s a → P s a) (h : M.RunIn P as s)
    (hx : (M.execIn Q s bs).any (fun s => decide (p s)) = true) : ∃ s, M.RunIn P (as ++ bs) s ∧ p s := by
  obtain ⟨s', hs, hp⟩ := exists_of_any hx
  exact ⟨s', h.append_exec hQP hs, hp⟩

/-- A part of the state that moves only by steps of the machine `N` is reached by
a run of `N`. -/
theorem RunIn.project {σ' α' : Type} {N : Machine σ' α'} (f : σ → σ') (h0 : f M.init = N.init)
    (hstep : ∀ as s a s', M.RunIn P as s → P s a → M.step s a = some s' →
      f s' = f s ∨ ∃ b, N.step (f s) b = some (f s')) (h : M.RunIn P as s) : ∃ bs, N.Run bs (f s) := by
  induction h with
  | nil => exact ⟨[], h0 ▸ Run.nil⟩
  | snoc hr hp hs ih =>
    obtain ⟨bs, hbs⟩ := ih
    rcases hstep _ _ _ _ hr hp hs with he | ⟨b, hb⟩
    · exact ⟨bs, he ▸ hbs⟩
    · exact ⟨bs ++ [b], hbs.snoc hb⟩

/-- The same with an invariant, which the steps of `N` may need. -/
theorem RunIn.project_inv {σ' α' : Type} {N : Machine σ' α'} (I : σ → Prop) (f : σ → σ') (hI : I M.init)
    (h0 : f M.init = N.init) (hstep : ∀ s a s', I s → P s a → M.step s a = some s' →
      I s' ∧ (f s' = f s ∨ ∃ b, N.step (f s) b = some (f s'))) (h : M.RunIn P as s) : ∃ bs, N.Run bs (f s) := by
  have hinv : ∀ {as s}, M.RunIn P as s → I s := fun hr => hr.inv I hI (fun s a s' hi hp hs => (hstep s a s' hi hp hs).1)
  exact h.project f h0 (fun _ s a s' hr hp hs => (hstep s a s' (hinv hr) hp hs).2)

theorem withHistory_step {η : Type} {h₀ : η} {next : σ → α → σ → η → η} {u u' : σ × η} :
    (M.withHistory h₀ next).step u a = some u' ↔ M.step u.1 a = some u'.1 ∧ u'.2 = next u.1 a u'.1 u.2 := by
  simp only [withHistory, Option.map_eq_some_iff]
  constructor
  · rintro ⟨s', hs, rfl⟩
    exact ⟨hs, rfl⟩
  · rintro ⟨hs, hh⟩
    exact ⟨u'.1, hs, by rw [← hh]⟩

/-- The history does not restrict the runs. -/
theorem RunIn.of_withHistory {η : Type} {h₀ : η} {next : σ → α → σ → η → η} {P : σ × η → α → Prop} {u : σ × η}
    (h : (M.withHistory h₀ next).RunIn P as u) : M.Run as u.1 := by
  induction h with
  | nil => exact .nil
  | snoc _ _ hs ih => exact ih.snoc (withHistory_step.1 hs).1

/-- A guard that does not look at the history. -/
theorem RunIn.guard_of_withHistory {η : Type} {h₀ : η} {next : σ → α → σ → η → η} {u : σ × η}
    (h : (M.withHistory h₀ next).RunIn (fun u a => P u.1 a) as u) : M.RunIn P as u.1 := by
  induction h with
  | nil => exact .nil
  | snoc _ hp hs ih => exact .snoc ih hp (withHistory_step.1 hs).1

/-- An invariant of the state and its history. A step may use that the state is
reached. -/
theorem RunIn.inv_withHistory {η : Type} {h₀ : η} {next : σ → α → σ → η → η} {P : σ × η → α → Prop} {u : σ × η}
    (I : σ → η → Prop) (h0 : I M.init h₀)
    (hstep : ∀ as s a s' k, M.Run as s → I s k → M.step s a = some s' → I s' (next s a s' k))
    (h : (M.withHistory h₀ next).RunIn P as u) : I u.1 u.2 := by
  induction h with
  | nil => exact h0
  | snoc hr _ hs ih =>
    obtain ⟨hs, hk⟩ := withHistory_step.1 hs
    rw [hk]
    exact hstep _ _ _ _ _ hr.of_withHistory ih hs

theorem execFrom_cons {t : σ} :
    M.execFrom s (a :: bs) = some t ↔ ∃ r, M.step s a = some r ∧ M.execFrom r bs = some t := by
  simp only [execFrom, List.foldlM_cons, Option.bind_eq_bind, Option.bind_eq_some_iff]

theorem Repeats.refl (a : α) (s : σ) : M.Repeats a s s := ⟨0, rfl⟩

theorem Repeats.head {r t : σ} (hs : M.step s a = some r) (h : M.Repeats a r t) : M.Repeats a s t := by
  obtain ⟨k, hk⟩ := h
  exact ⟨k + 1, execFrom_cons.2 ⟨r, hs, hk⟩⟩

/-- What every step keeps holds in every state that is executed from one where it
holds. -/
theorem inv_of_execFrom (I : σ → Prop) (hstep : ∀ s a s', I s → M.step s a = some s' → I s') (h : I s)
    (hx : M.execFrom s bs = some s') : I s' := by
  induction bs generalizing s with
  | nil =>
    simp only [execFrom, List.foldlM_nil, Option.pure_def, Option.some.injEq] at hx
    exact hx ▸ h
  | cons b bs ih =>
    obtain ⟨r, hs, hr⟩ := execFrom_cons.1 hx
    exact ih (hstep s b r h hs) hr

/-- Progress by a rank. While the rank is positive no step raises it, and every
action of `own` lowers it. Then as many of these actions as the rank bring it to
zero, whatever happens between them. -/
theorem exists_rank_zero (I : σ → Prop) (rank : σ → Nat) (own : α → Bool)
    (hstep : ∀ s a s', I s → 0 < rank s → M.step s a = some s' →
      I s' ∧ rank s' ≤ rank s ∧ (own a = true → rank s' < rank s))
    {t : σ} (hi : I s) (hx : M.execFrom s bs = some t) (hown : rank s ≤ bs.countP own) :
    ∃ cs u, cs <+: bs ∧ M.execFrom s cs = some u ∧ I u ∧ rank u = 0 := by
  induction bs generalizing s with
  | nil => exact ⟨[], s, List.nil_prefix, rfl, hi, Nat.le_zero.1 hown⟩
  | cons b bs ih =>
    by_cases hr : rank s = 0
    · exact ⟨[], s, List.nil_prefix, rfl, hi, hr⟩
    · obtain ⟨r, hs, hx⟩ := execFrom_cons.1 hx
      obtain ⟨hi', hle, hlt⟩ := hstep s b r hi (Nat.pos_of_ne_zero hr) hs
      have hown : rank r ≤ bs.countP own := by
        rw [List.countP_cons] at hown
        split at hown
        · next hb => have := hlt hb; omega
        · omega
      obtain ⟨cs, u, hcs, hu, hiu, h0⟩ := ih hi' hx hown
      exact ⟨b :: cs, u, List.cons_prefix_cons.2 ⟨rfl, hcs⟩, execFrom_cons.2 ⟨r, hs, hu⟩, hiu, h0⟩

end Machine

end AsyncRuntime.Lib
