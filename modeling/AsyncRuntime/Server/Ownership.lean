import AsyncRuntime.Lib.Slots
import AsyncRuntime.Server.Fixed
/-!
# Who owns a connection

`Effect` says once what each step of the server with registered buffers can do. Over
it, the ownership of the connections: the use count of a connection is the number of
operations in flight that have captured it and of the pointers on the io thread's
stack, and a connection is live exactly as long as its use count is not zero. This
holds whatever the operations return and whatever throws.
-/

namespace AsyncRuntime.Server.Fixed
open Lib AsyncRuntime.Ring
variable {s s' : State}

/-! ## What a step does -/

/-- Every step, with what it does to the server. -/
inductive Effect (s : State) : Act → State → Prop
  | halt : Effect s .halt { s with running := false }
  | accepted (r : IoResult) : s.pc = .idle → 0 < s.accepts → s.running = true → 0 ≤ r.res → Effect s (.accept r)
      { s with accepts := s.accepts - 1, pc := .construct s.accepted r.res, accepted := s.accepted + 1 }
  -- the handler does nothing: the lambda is bypassed or returns at once
  | missed (r : IoResult) : s.pc = .idle → 0 < s.accepts → (s.running = true → r.res < 0) → Effect s (.accept r)
      { s with accepts := s.accepts - 1 }
  | construct (c : Nat) (fd : Int) (a : Nat) : s.pc = .construct c fd → (s.pool.acquire.1 = none → s.available a) →
      Effect s (.construct a true)
        { s with
          pool := (Connection.new fd s.pool a).2
          conn := Function.update s.conn c (some (Connection.new fd s.pool a).1)
          useCount := Function.update s.useCount c 1
          starved := if s.pool.freeIndices.isEmpty then c :: s.starved else s.starved
          pc := .call (.accept fd) c .handleRead }
  | constructThrew (c : Nat) (fd : Int) (a : Nat) : s.pc = .construct c fd →
      Effect s (.construct a false) { s with closed := s.closed ++ [c], pc := .rearm }
  | call (k : Caller) (c : Nat) (l : Callback) (C : Connection) : s.pc = .call k c l → s.conn c = some C →
      Effect s .step { s.retain c with pc := .launch k c l }
  | leaveLoop (k : Caller) (c : Nat) (threw : Bool) : s.pc = .leaveLoop k c threw →
      Effect s .step { s.drop c with pc := .leave k c threw }
  | leave (k : Caller) (c : Nat) (threw : Bool) : s.pc = .leave k c threw → Effect s .step (leave s k c threw)
  | launch (k : Caller) (c : Nat) (l : Callback) (C : Connection) : s.pc = .launch k c l → s.conn c = some C →
      Effect s (.launch true)
        { s.retain c with flight := s.flight ++ [⟨c, C.request l, l⟩], pc := .leaveLoop k c false }
  | launchThrew (k : Caller) (c : Nat) (l : Callback) (C : Connection) : s.pc = .launch k c l → s.conn c = some C →
      Effect s (.launch false) { s with pc := .leaveLoop k c true }
  | rearm (ok : Bool) : s.pc = .rearm →
      Effect s (.launch ok) { s with accepts := if ok then s.accepts + 1 else s.accepts, pc := .idle }
  | complete (i : Nat) (r : IoResult) (op : Op) : s.pc = .idle → s.flight[i]? = some op → Effect s (.complete i r)
      { s with
        flight := s.flight.eraseIdx i
        pc := match op.callback.resume r with
          | some loop => .call .callback op.self loop
          | none => .leave .callback op.self false }

theorem acceptDone_effect (hpc : s.pc = .idle) (ha : 0 < s.accepts) (r : IoResult) :
    Effect s (.accept r) (acceptDone { s with accepts := s.accepts - 1 } r) := by
  by_cases hneg : r.res < 0
  · have hskip : acceptDone { s with accepts := s.accepts - 1 } r = { s with accepts := s.accepts - 1 } := by
      rcases makeIoCallback_of_neg hneg with hc | ⟨code, hc⟩ <;> simp only [acceptDone, hc]
    rw [hskip]
    exact .missed r hpc ha (fun _ => hneg)
  · have hnonneg : 0 ≤ r.res := Int.not_lt.1 hneg
    simp only [acceptDone, makeIoCallback_of_nonneg hnonneg, hnonneg, if_true]
    split
    · next hrun => exact .accepted r hpc ha hrun hnonneg
    · next hrun => exact .missed r hpc ha (fun h => absurd h hrun)

theorem launch_effect {ok : Bool} (h : launch s ok = some s') : Effect s (.launch ok) s' := by
  unfold Fixed.launch at h
  split at h
  · next k c l hpc =>
    split at h
    · next C hC =>
      cases ok with
      | true => cases h; exact .launch k c l C hpc hC
      | false => cases h; exact .launchThrew k c l C hpc hC
    · cases h
  · next hpc => cases h; exact .rearm ok hpc
  · cases h

theorem step_effect {a : Act} (h : step s a = some s') : Effect s a s' := by
  cases a with
  | halt => cases h; exact .halt
  | accept r =>
    simp only [step] at h
    split at h
    · next hpc =>
      split at h
      · next ha => cases h; exact acceptDone_effect hpc ha r
      · cases h
    · cases h
  | construct a ok =>
    simp only [step] at h
    split at h
    · next c fd hpc =>
      cases ok with
      | true =>
        simp only [construct, if_true] at h
        split at h
        · next ha => cases h; exact .construct c fd a hpc ha
        · cases h
      | false => cases h; exact .constructThrew c fd a hpc
    · cases h
  | step =>
    simp only [step] at h
    split at h
    · next k c l hpc =>
      split at h
      · next C hC => cases h; exact .call k c l C hpc hC
      · cases h
    · next k c threw hpc => cases h; exact .leaveLoop k c threw hpc
    · next k c threw hpc => cases h; exact .leave k c threw hpc
    · cases h
  | launch ok => exact launch_effect h
  | complete i r =>
    simp only [step] at h
    split at h
    · next op hpc hop => cases h; exact .complete i r op hpc hop
    · cases h

/-! ## Dropping a pointer -/

/-- The last pointer destroys the connection. -/
theorem drop_eq {c : Nat} {C : Connection} (hC : s.conn c = some C) :
    (s.drop c).useCount = Function.update s.useCount c (s.useCount c - 1) ∧
    (s.useCount c = 1 → (s.drop c).pool = (s.destroy c C).pool ∧ (s.drop c).conn = Function.update s.conn c none ∧
      (s.drop c).closed = s.closed ++ [c]) ∧
    (s.useCount c ≠ 1 → (s.drop c).pool = s.pool ∧ (s.drop c).conn = s.conn ∧ (s.drop c).closed = s.closed) := by
  by_cases hone : s.useCount c = 1
  · simp [State.drop, hone, hC, State.destroy]
  · simp [State.drop, hone]

theorem drop_same {c : Nat} : (s.drop c).flight = s.flight ∧ (s.drop c).starved = s.starved ∧
    (s.drop c).accepted = s.accepted ∧ (s.drop c).accepts = s.accepts ∧ (s.drop c).running = s.running := by
  unfold State.drop
  dsimp only
  split
  · split <;> exact ⟨rfl, rfl, rfl, rfl, rfl⟩
  · exact ⟨rfl, rfl, rfl, rfl, rfl⟩

/-- What leaving the caller of a loop function does besides dropping its pointer. -/
theorem leave_eq (s : State) (k : Caller) (c : Nat) (threw : Bool) : ∃ cl pc, leave s k c threw =
    { s.drop c with closed := (s.drop c).closed ++ cl, pc := pc } ∧
    (k = .callback ∧ cl = [] ∧ pc = .idle ∨ ∃ fd, k = .accept fd ∧ cl = (if threw then [c] else []) ∧ pc = .rearm) := by
  cases k with
  | callback => exact ⟨[], .idle, by rw [List.append_nil]; rfl, .inl ⟨rfl, rfl, rfl⟩⟩
  | accept fd =>
    refine ⟨if threw then [c] else [], .rearm, ?_, .inr ⟨fd, rfl, rfl, rfl⟩⟩
    cases threw with
    | true => rfl
    | false => simp [leave]

/-! ## Who keeps a connection alive -/

/-- The pointers to the connection of `c` on the io thread's stack: `conn` of the
accept handler or the capture of the running callback, and `self` of the loop
function. -/
def Pc.holds (pc : Pc) (c : Nat) : Nat :=
  match pc with
  | .call _ d _ | .leave _ d _ => if d = c then 1 else 0
  | .launch _ d _ | .leaveLoop _ d _ => if d = c then 2 else 0
  | _ => 0

/-- The connections and the pointers to them. -/
structure Owned (s : State) : Prop where
  fresh : ∀ {c C}, s.conn c = some C → c < s.accepted
  count : ∀ c, s.useCount c = s.flight.countP (·.self = c) + s.pc.holds c
  live : ∀ c, s.conn c = none ↔ s.useCount c = 0
  constructing : ∀ c fd, s.pc = .construct c fd → s.conn c = none ∧ c < s.accepted

theorem Owned.init (registered : Bool) (memory : Nat) : Owned (init registered memory) :=
  ⟨nofun, fun _ => rfl, fun _ => by simp [Fixed.init], nofun⟩

/-- A connection with a pointer to it is live. -/
theorem Owned.conn_of_pos (h : Owned s) {c : Nat} (hc : 0 < s.useCount c) : ∃ C, s.conn c = some C := by
  apply Option.ne_none_iff_exists'.1
  intro hnone
  have := (h.live c).1 hnone
  omega

/-- A new number has no connection. -/
theorem Owned.conn_accepted (h : Owned s) : s.conn s.accepted = none := by
  by_contra hsome
  obtain ⟨C, hC⟩ := Option.ne_none_iff_exists'.1 hsome
  have := h.fresh hC
  omega

/-- The connections stay as they are. -/
theorem Owned.frame (h : Owned s) (hc : s'.conn = s.conn) (hacc : s'.accepted = s.accepted)
    (hcount : ∀ c, s'.useCount c = s'.flight.countP (·.self = c) + s'.pc.holds c)
    (hlive : ∀ c, s'.useCount c = 0 ↔ s.useCount c = 0)
    (hcon : ∀ c fd, s'.pc = .construct c fd → s.pc = .construct c fd) : Owned s' := by
  refine ⟨?_, hcount, ?_, ?_⟩
  · intro c C hC
    rw [hc] at hC
    rw [hacc]
    exact h.fresh hC
  · intro c
    rw [hc, hlive]
    exact h.live c
  · intro c fd hpc
    rw [hc, hacc]
    exact h.constructing c fd (hcon c fd hpc)

/-- A pointer to a live connection is copied: `self` of a loop function, or its
capture in the callback of a new operation. -/
theorem Owned.retain (h : Owned s) {c : Nat} {C : Connection} (hC : s.conn c = some C) (hc : s'.conn = s.conn)
    (hacc : s'.accepted = s.accepted) (hu : s'.useCount = (s.retain c).useCount)
    (hmore : ∀ d, s'.flight.countP (·.self = d) + s'.pc.holds d =
      s.flight.countP (·.self = d) + s.pc.holds d + if d = c then 1 else 0)
    (hcon : ∀ d fd, s'.pc ≠ .construct d fd) : Owned s' := by
  have hne : s.useCount c ≠ 0 := by
    intro h0
    rw [(h.live c).2 h0] at hC
    cases hC
  refine h.frame hc hacc ?_ ?_ (fun d fd hpc => absurd hpc (hcon d fd))
  · intro d
    rw [hu, hmore, ← h.count d]
    by_cases e : d = c
    · subst e; simp [State.retain]
    · simp [State.retain, e]
  · intro d
    rw [hu]
    by_cases e : d = c
    · subst e; simpa [State.retain] using hne
    · simp [State.retain, e]

/-- A pointer on the stack goes away. -/
theorem Owned.drop (h : Owned s) {c : Nat} (hc : s'.conn = (s.drop c).conn) (hu : s'.useCount = (s.drop c).useCount)
    (hf : s'.flight = s.flight) (hacc : s'.accepted = s.accepted)
    (hholds : ∀ d, s'.pc.holds d + (if d = c then 1 else 0) = s.pc.holds d)
    (hcon : ∀ d fd, s'.pc ≠ .construct d fd) : Owned s' := by
  have hpos : 0 < s.useCount c := by
    have h₁ := hholds c
    rw [if_pos rfl] at h₁
    have := h.count c
    omega
  obtain ⟨C, hC⟩ := h.conn_of_pos hpos
  obtain ⟨hdu, hlast, hmore⟩ := drop_eq hC
  rw [hdu] at hu
  have hcount : ∀ d, s'.useCount d = s'.flight.countP (·.self = d) + s'.pc.holds d := by
    intro d
    have h₁ := h.count d
    have h₂ := hholds d
    rw [hu, hf]
    by_cases e : d = c
    · subst e
      rw [if_pos rfl] at h₂
      rw [Function.update_self]
      omega
    · rw [if_neg e] at h₂
      rw [Function.update_of_ne e]
      omega
  by_cases hone : s.useCount c = 1
  · rw [(hlast hone).2.1] at hc
    refine ⟨?_, hcount, ?_, fun d fd hpc => absurd hpc (hcon d fd)⟩
    · intro d D hD
      rw [hc] at hD
      rw [hacc]
      exact h.fresh (update_none_eq_some hD).2
    · intro d
      rw [hc, hu]
      by_cases e : d = c
      · subst e; simp [hone]
      · simpa [e] using h.live d
  · rw [(hmore hone).2.1] at hc
    refine h.frame hc hacc hcount ?_ (fun d fd hpc => absurd hpc (hcon d fd))
    intro d
    rw [hu]
    by_cases e : d = c
    · subst e
      rw [Function.update_self]
      omega
    · rw [Function.update_of_ne e]

/-- A connection is constructed; nobody had a pointer to it. -/
theorem Owned.construct (h : Owned s) {c : Nat} {fd : Int} {C : Connection} (hpc : s.pc = .construct c fd)
    (hc : s'.conn = Function.update s.conn c (some C)) (hu : s'.useCount = Function.update s.useCount c 1)
    (hf : s'.flight = s.flight) (hacc : s'.accepted = s.accepted) (hpc' : s'.pc = .call (.accept fd) c .handleRead) :
    Owned s' := by
  obtain ⟨hnone, hlt⟩ := h.constructing c fd hpc
  have h0 := (h.live c).1 hnone
  have hcount : ∀ d, s.useCount d = s.flight.countP (·.self = d) := by
    intro d
    rw [h.count d, hpc]
    rfl
  refine ⟨?_, ?_, ?_, fun d fd' hcon => ?_⟩
  · intro d D hD
    rw [hc] at hD
    rw [hacc]
    rcases update_some_eq_some hD with ⟨rfl, -⟩ | ⟨-, hold⟩
    · exact hlt
    · exact h.fresh hold
  · intro d
    rw [hu, hf, hpc', ← hcount d]
    by_cases e : d = c
    · subst e; simp [Pc.holds, h0]
    · simp [Pc.holds, e, Ne.symm e]
  · intro d
    rw [hc, hu]
    by_cases e : d = c
    · subst e; simp
    · simpa [e] using h.live d
  · rw [hpc'] at hcon
    cases hcon

theorem Owned.step {a : Act} (h : Owned s) (hs : step s a = some s') : Owned s' := by
  have hmove : ∀ {t : State}, t.conn = s.conn → t.accepted = s.accepted → t.useCount = s.useCount →
      t.flight = s.flight →
      (∀ d, t.pc.holds d = s.pc.holds d) → (∀ d fd, t.pc = .construct d fd → s.pc = .construct d fd) → Owned t := by
    intro t hc hacc hu hf hholds hcon
    refine h.frame hc hacc (fun d => ?_) (fun d => by rw [hu]) hcon
    rw [hu, hf, hholds]
    exact h.count d
  have hdrop : (∀ c, (s.drop c).flight = s.flight) ∧ ∀ c, (s.drop c).accepted = s.accepted :=
    ⟨fun _ => drop_same.1, fun _ => drop_same.2.2.1⟩
  cases step_effect hs with
  | halt => exact hmove rfl rfl rfl rfl (fun _ => rfl) (fun _ _ => id)
  | missed r hpc => exact hmove rfl rfl rfl rfl (fun _ => rfl) (fun _ _ => id)
  | accepted r hpc =>
    refine ⟨fun hC => Nat.lt_succ_of_lt (h.fresh hC), fun d => ?_, h.live, ?_⟩
    · rw [h.count d, hpc]
      rfl
    · rintro _ _ ⟨⟩
      exact ⟨h.conn_accepted, Nat.lt_succ_self _⟩
  | construct c fd a hpc => exact h.construct hpc rfl rfl rfl rfl rfl
  | constructThrew c fd a hpc => exact hmove rfl rfl rfl rfl (fun _ => by rw [hpc]; rfl) nofun
  | call k c l C hpc hC =>
    refine h.retain hC rfl rfl rfl (fun d => ?_) nofun
    rw [hpc]
    simp only [Pc.holds, State.retain, eq_comm]
    split <;> omega
  | leaveLoop k c threw hpc =>
    refine h.drop rfl rfl (hdrop.1 c) (hdrop.2 c) (fun d => ?_) nofun
    rw [hpc]
    simp only [Pc.holds, eq_comm]
    split <;> rfl
  | leave k c threw hpc =>
    have hholds : ∀ d, 0 + (if d = c then 1 else 0) = s.pc.holds d := by
      intro d
      rw [hpc, Nat.zero_add]
      simp only [Pc.holds, eq_comm]
    obtain ⟨cl, pc, heq, hk⟩ := leave_eq s k c threw
    rw [heq]
    rcases hk with ⟨-, -, rfl⟩ | ⟨fd, -, -, rfl⟩ <;>
      exact h.drop rfl rfl (hdrop.1 c) (hdrop.2 c) hholds nofun
  | launch k c l C hpc hC =>
    refine h.retain hC rfl rfl rfl (fun d => ?_) nofun
    rw [hpc, List.countP_append, List.countP_singleton]
    by_cases e : d = c
    · subst e
      simp only [Pc.holds, decide_true, if_true]
    · simp [Pc.holds, e, Ne.symm e]
  | launchThrew k c l C hpc => exact hmove rfl rfl rfl rfl (fun _ => by rw [hpc]; rfl) nofun
  | rearm ok hpc => exact hmove rfl rfl rfl rfl (fun _ => by rw [hpc]; rfl) nofun
  | complete i r op hpc hop =>
    refine h.frame rfl rfl (fun d => ?_) (fun _ => Iff.rfl) ?_
    · have hholds : s.pc.holds d = 0 := by rw [hpc]; rfl
      rw [h.count d, countP_eraseIdx hop, hholds]
      cases op.callback.resume r <;> simp [Pc.holds]
    · intro d fd hcon
      dsimp only at hcon
      split at hcon <;> cases hcon

theorem owned_of_run {registered : Bool} {memory : Nat} {acts : List Act} (h : (machine registered memory).Run acts s) :
    Owned s :=
  Machine.Run.inv (M := machine registered memory) Owned (Owned.init registered memory)
    (fun _ _ _ hi hs => hi.step hs) h

end AsyncRuntime.Server.Fixed
