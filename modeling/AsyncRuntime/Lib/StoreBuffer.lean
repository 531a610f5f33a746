import Mathlib.Logic.Function.Basic
/-!
# Memory with store buffers

Every thread has a FIFO buffer of stores that have not reached memory. A load
sees the newest buffered store of its own thread, else memory. A buffered store
goes to memory at any later time.

`view t` is the memory as thread `t` sees it. A thread's view does not change
when its own buffer drains. What another thread's drain can do to it is said by
`view_drain`: a fact about a location that all buffered stores to it agree with
is never undone.
-/

namespace AsyncRuntime.Lib

/-- Memory over locations `ℓ` with values `V`, with a buffer for each thread. -/
structure StoreBuffer (θ ℓ : Type) (V : ℓ → Type) where
  mem : ∀ l, V l
  buf : θ → List (Sigma V)

namespace StoreBuffer
variable {θ ℓ : Type} {V : ℓ → Type} [DecidableEq θ] [DecidableEq ℓ]

/-- A store reaches memory. -/
def write (m : ∀ l, V l) (w : Sigma V) : ∀ l, V l := Function.update m w.1 w.2

/-- Memory as thread `t` sees it. -/
def view (σ : StoreBuffer θ ℓ V) (t : θ) : ∀ l, V l := (σ.buf t).foldl write σ.mem

/-- Thread `t` stores `x` at `l`. -/
def store (σ : StoreBuffer θ ℓ V) (t : θ) (l : ℓ) (x : V l) : StoreBuffer θ ℓ V :=
  { σ with buf := Function.update σ.buf t (σ.buf t ++ [⟨l, x⟩]) }

/-- The oldest store of thread `t` leaves its buffer. -/
def drain (σ : StoreBuffer θ ℓ V) (t : θ) : Option (StoreBuffer θ ℓ V) :=
  match σ.buf t with
  | [] => none
  | w :: b => some ⟨write σ.mem w, Function.update σ.buf t b⟩

/-- Every buffered store to `l` stores a value with `P`. -/
def Stores (σ : StoreBuffer θ ℓ V) (l : ℓ) (P : V l → Prop) : Prop := ∀ t x, ⟨l, x⟩ ∈ σ.buf t → P x

variable {σ σ' : StoreBuffer θ ℓ V} {t u : θ} {l : ℓ} {P : V l → Prop}

omit [DecidableEq θ] in
theorem view_of_empty (h : σ.buf t = []) : σ.view t = σ.mem := by
  unfold view; rw [h]; rfl

theorem view_store_self (σ : StoreBuffer θ ℓ V) (t : θ) (l : ℓ) (x : V l) :
    (σ.store t l x).view t = Function.update (σ.view t) l x := by
  simp only [view, store, Function.update_self, List.foldl_append]
  rfl

theorem view_store_ne (h : u ≠ t) (σ : StoreBuffer θ ℓ V) (l : ℓ) (x : V l) :
    (σ.store t l x).view u = σ.view u := by
  simp only [view, store, Function.update_of_ne h]

theorem view_store_other {l' : ℓ} (h : l ≠ l') (σ : StoreBuffer θ ℓ V) (t u : θ) (x : V l') :
    (σ.store t l' x).view u l = σ.view u l := by
  by_cases hut : u = t
  · subst hut; rw [view_store_self, Function.update_of_ne h]
  · rw [view_store_ne hut]

theorem drain_eq_some (h : σ.drain t = some σ') :
    ∃ w b, σ.buf t = w :: b ∧ σ' = ⟨write σ.mem w, Function.update σ.buf t b⟩ := by
  unfold drain at h
  split at h
  · cases h
  · next w b hb => cases h; exact ⟨w, b, hb, rfl⟩

/-- A thread sees its own stores, in the buffer or in memory. -/
theorem view_drain_self (h : σ.drain t = some σ') : σ'.view t = σ.view t := by
  obtain ⟨w, b, hb, rfl⟩ := drain_eq_some h
  simp only [view, Function.update_self, hb]
  rfl

theorem write_ne {m : ∀ l, V l} {w : Sigma V} (h : w.1 ≠ l) : write m w l = m l :=
  Function.update_of_ne (Ne.symm h) _ _

theorem write_of {m : ∀ l, V l} {w : Sigma V} (hw : ∀ x, w = ⟨l, x⟩ → P x) (hm : P (m l)) : P (write m w l) := by
  by_cases hl : w.1 = l
  · obtain ⟨l', x⟩ := w
    subst hl
    simpa only [write, Function.update_self] using hw x rfl
  · rw [write_ne hl]; exact hm

theorem foldl_write_of {b : List (Sigma V)} {m : ∀ l, V l} (hb : ∀ x, ⟨l, x⟩ ∈ b → P x) (hm : P (m l)) :
    P (b.foldl write m l) := by
  induction b generalizing m with
  | nil => exact hm
  | cons w b ih =>
    refine ih (fun x hx => hb x (List.mem_cons_of_mem _ hx)) (write_of (fun x hx => hb x ?_) hm)
    rw [hx]
    exact List.mem_cons_self

/-- A fact about a location that the stores agree with survives a change of the
memory below them. -/
theorem foldl_write_mono {b : List (Sigma V)} {m m' : ∀ l, V l} (hb : ∀ x, ⟨l, x⟩ ∈ b → P x)
    (hm : P (m l) → P (m' l)) (h : P (b.foldl write m l)) : P (b.foldl write m' l) := by
  induction b generalizing m m' with
  | nil => exact hm h
  | cons w b ih =>
    refine ih (fun x hx => hb x (List.mem_cons_of_mem _ hx)) (fun hw => ?_) h
    by_cases hl : w.1 = l
    · obtain ⟨l', x⟩ := w
      subst hl
      simpa only [write, Function.update_self] using hw
    · rw [write_ne hl] at hw ⊢
      exact hm hw

omit [DecidableEq θ] in
/-- What holds in memory holds in every view. -/
theorem view_of_mem (hs : σ.Stores l P) (h : P (σ.mem l)) (t : θ) : P (σ.view t l) :=
  foldl_write_of (hs t) h

theorem mem_drain (hs : σ.Stores l P) (h : σ.drain u = some σ') (hm : P (σ.mem l)) : P (σ'.mem l) := by
  obtain ⟨w, b, hb, rfl⟩ := drain_eq_some h
  refine write_of (fun x hx => hs u x ?_) hm
  rw [hb, hx]
  exact List.mem_cons_self

/-- A fact about a location that all buffered stores agree with is not undone by
a drain. -/
theorem view_drain (hs : σ.Stores l P) (h : σ.drain u = some σ') (hv : P (σ.view t l)) : P (σ'.view t l) := by
  by_cases htu : t = u
  · subst htu; rw [view_drain_self h]; exact hv
  · have hm := mem_drain hs h
    obtain ⟨w, b, hb, rfl⟩ := drain_eq_some h
    simp only [view, Function.update_of_ne htu]
    exact foldl_write_mono (hs t) hm hv

omit [DecidableEq ℓ] in
theorem Stores.store {l' : ℓ} {x : V l'} (hs : σ.Stores l P) (hx : ∀ h : l' = l, P (h ▸ x)) :
    (σ.store t l' x).Stores l P := by
  intro u y hy
  by_cases hut : u = t
  · subst hut
    simp only [StoreBuffer.store, Function.update_self] at hy
    rcases List.mem_append.1 hy with hy | hy
    · exact hs u y hy
    · cases List.mem_singleton.1 hy; exact hx rfl
  · simp only [StoreBuffer.store, Function.update_of_ne hut] at hy
    exact hs u y hy

theorem Stores.drain (hs : σ.Stores l P) (h : σ.drain t = some σ') : σ'.Stores l P := by
  obtain ⟨w, b, hb, rfl⟩ := drain_eq_some h
  intro u y hy
  by_cases hut : u = t
  · subst hut
    simp only [Function.update_self] at hy
    exact hs u y (hb ▸ List.mem_cons_of_mem _ hy)
  · simp only [Function.update_of_ne hut] at hy
    exact hs u y hy

end StoreBuffer

end AsyncRuntime.Lib
