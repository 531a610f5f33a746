import Mathlib.Logic.Function.Basic
import AsyncRuntime.Lib.Machine
/-!
# Atomic objects

What a concurrent object is for: each call takes effect at one instant between
its invocation and its return. The atomic object over a sequential
specification is a transition system in which a thread calls an operation, the
operation takes effect in one internal step (`lin`), and the thread returns the
result that step fixed.

`Simulates.trace`: if every step of a machine is matched by at most one step of
the atomic object with the same visible event, every history of the machine is
a history of the atomic object.
-/

namespace AsyncRuntime.Lib

/-- A sequential specification: `apply s op r s'` says that `op` may take `s` to
`s'` and return `r`. -/
structure SeqSpec (σ ι ρ : Type) where
  init : σ
  apply : σ → ι → ρ → σ → Prop

/-- Where a thread stands: outside any call, before the effect of its call, or
after it with the result fixed. -/
inductive Status (ι ρ : Type) where
  | idle
  | pending (op : ι)
  | done (r : ρ)

/-- What a caller can see. -/
inductive Event (θ ι ρ : Type) where
  | call (t : θ) (op : ι)
  | ret (t : θ) (r : ρ)

/-- The atomic object's state: the value and each thread's status. -/
structure Atomic (θ σ ι ρ : Type) where
  val : σ
  status : θ → Status ι ρ

namespace Atomic
variable {θ σ ι ρ : Type} [DecidableEq θ] (S : SeqSpec σ ι ρ)

/-- The initial state: no call in progress. -/
def init : Atomic θ σ ι ρ := ⟨S.init, fun _ => .idle⟩

/-- Thread `t` moves to status `st`. -/
def setStatus (A : Atomic θ σ ι ρ) (t : θ) (st : Status ι ρ) : Atomic θ σ ι ρ :=
  { A with status := Function.update A.status t st }

/-- Steps of the atomic object, with the event a caller sees (`none` for the
instant at which a call takes effect). -/
inductive Step : Atomic θ σ ι ρ → Option (Event θ ι ρ) → Atomic θ σ ι ρ → Prop
  | call {A : Atomic θ σ ι ρ} (t : θ) (op : ι) : A.status t = .idle →
      Step A (some (.call t op)) (A.setStatus t (.pending op))
  | lin {A : Atomic θ σ ι ρ} (t : θ) (op : ι) (r : ρ) (v : σ) : A.status t = .pending op →
      S.apply A.val op r v → Step A none { A.setStatus t (.done r) with val := v }
  | ret {A : Atomic θ σ ι ρ} (t : θ) (r : ρ) : A.status t = .done r →
      Step A (some (.ret t r)) (A.setStatus t .idle)

/-- Histories of the atomic object, with the state after them. -/
inductive History : List (Event θ ι ρ) → Atomic θ σ ι ρ → Prop
  | nil : History [] (init S)
  | step {h : List (Event θ ι ρ)} {A A' : Atomic θ σ ι ρ} {e : Option (Event θ ι ρ)} :
      History h A → Step S A e A' → History (h ++ e.toList) A'

variable {S}

@[simp] theorem setStatus_self (A : Atomic θ σ ι ρ) (t : θ) (st : Status ι ρ) :
    (A.setStatus t st).status t = st := by simp [setStatus]

theorem setStatus_ne (A : Atomic θ σ ι ρ) {t u : θ} (st : Status ι ρ) (h : u ≠ t) :
    (A.setStatus t st).status u = A.status u := by simp [setStatus, h]

@[simp] theorem setStatus_val (A : Atomic θ σ ι ρ) (t : θ) (st : Status ι ρ) :
    (A.setStatus t st).val = A.val := rfl

end Atomic

/-! ## Forward simulation -/

section Simulation
variable {θ σ ι ρ κ α : Type} [DecidableEq θ]

/-- `R` relates the machine's states to the atomic object's, and each step of
the machine is matched: a step with a visible event by that event, an internal
step by an effect or by nothing. -/
structure Simulates (M : Machine κ α) (obs : α → Option (Event θ ι ρ)) (S : SeqSpec σ ι ρ)
    (R : κ → Atomic θ σ ι ρ → Prop) : Prop where
  init : R M.init (Atomic.init S)
  step : ∀ s a s' A, R s A → M.step s a = some s' →
    ∃ A', (Atomic.Step S A (obs a) A' ∨ (obs a = none ∧ A' = A)) ∧ R s' A'

/-- Every run of a simulated machine has the history of a run of the atomic
object, ending in a related state. -/
theorem Simulates.trace {M : Machine κ α} {obs : α → Option (Event θ ι ρ)} {S : SeqSpec σ ι ρ}
    {R : κ → Atomic θ σ ι ρ → Prop} (sim : Simulates M obs S R) {as : List α} {s : κ}
    (h : M.Run as s) : ∃ A, Atomic.History S (as.filterMap obs) A ∧ R s A := by
  induction h with
  | nil => exact ⟨_, .nil, sim.init⟩
  | @snoc as s s' a _ _ hs ih =>
    obtain ⟨A, hh, hr⟩ := ih
    obtain ⟨A', hA | ⟨ho, rfl⟩, hr'⟩ := sim.step s a s' A hr hs
    · refine ⟨A', ?_, hr'⟩
      have := Atomic.History.step hh hA
      cases ho : obs a <;> simpa [List.filterMap_append, ho] using this
    · exact ⟨A', by simpa [List.filterMap_append, ho] using hh, hr'⟩

end Simulation

end AsyncRuntime.Lib
