import AsyncRuntime.Server.Listener
import AsyncRuntime.Server.Ownership
/-!
# Every descriptor is closed

A descriptor that was accepted is at one place: the handler of its accept has it, a
session has it, or it was closed. So the places and the closes of a session add up to
one, whatever its operations return, and the paths on which they do not can be named.

In the server with registered buffers the destructor of the connection closes the
descriptor, and so does the handler of an exception. Both happen when starting the
first read throws. In the coroutine server only the end of the body of
`handle_session` closes the descriptor, and a negative result never gets there.
-/

namespace AsyncRuntime.Server
open Lib AsyncRuntime.Ring

/-- One more accept: the number `n` is new. -/
theorem accepted_succ (d n : Nat) :
    (if d < n + 1 then 1 else 0) = (if d < n then 1 else 0) + if n = d then 1 else 0 := by
  split <;> split <;> split <;> omega

/-! ## The server with registered buffers -/

namespace Fixed
variable {s s' : State} {a : Act} {threw : List Nat} {acts : List Act} {registered : Bool} {memory : Nat}

/-- The sessions whose first read was not started, because starting it threw. -/
def noteThrow (s : State) (a : Act) (_ : State) (threw : List Nat) : List Nat :=
  match a with
  | .launch false => match s.pc with
    | .launch (.accept _) c _ => c :: threw
    | _ => threw
  | _ => threw

/-- The server with the sessions whose first read was not started. -/
def watched (registered : Bool) (memory : Nat) : Machine (State × List Nat) Act :=
  (machine registered memory).withHistory [] noteThrow

/-- The session that the io thread is in. -/
def Pc.session : Pc → Option Nat
  | .construct c _ | .call _ c _ | .launch _ c _ | .leaveLoop _ c _ | .leave _ c _ => some c
  | .idle | .rearm => none

/-- The session was accepted, and neither the io thread nor an operation in flight is
in it. -/
def Over (s : State) (c : Nat) : Prop := c < s.accepted ∧ s.pc.session ≠ some c ∧ ∀ op ∈ s.flight, op.self ≠ c

instance (s : State) (c : Nat) : Decidable (Over s c) := by unfold Over; infer_instance

/-- The handler of the accept has the descriptor: the connection is not constructed
yet. -/
def Pc.constructing (pc : Pc) (c : Nat) : Nat :=
  match pc with
  | .construct d _ => if d = c then 1 else 0
  | _ => 0

/-- An exception is on its way to the handler, which will close the descriptor. -/
def Pc.unwinding (pc : Pc) (c : Nat) : Nat :=
  match pc with
  | .leaveLoop (.accept _) d true | .leave (.accept _) d true => if d = c then 1 else 0
  | _ => 0

/-- A connection has the descriptor. -/
def State.alive (s : State) (c : Nat) : Nat := if (s.conn c).isSome then 1 else 0

/-- The places and the closes of the descriptor of `c`. -/
def State.places (s : State) (c : Nat) : Nat :=
  s.closed.count c + s.alive c + s.pc.constructing c + s.pc.unwinding c

/-- Every accept brings one descriptor, and every exception from the first read one
more close. -/
def Conserved (s : State) (threw : List Nat) : Prop :=
  ∀ c, s.places c = (if c < s.accepted then 1 else 0) + threw.count c

/-- Dropping a pointer destroys the connection or leaves it. -/
theorem drop_conserves (s : State) (c d : Nat) :
    (s.drop c).closed.count d + (s.drop c).alive d = s.closed.count d + s.alive d := by
  unfold State.drop
  dsimp only
  split
  · split
    · next C hC =>
      by_cases e : d = c
      · subst e; simp [State.destroy, State.alive, hC, List.count_append]
      · simp [State.destroy, State.alive, e, Ne.symm e, List.count_append]
    · rfl
  · rfl

/-- A step that moves the io thread and neither closes nor constructs anything. -/
theorem Conserved.move (h : Conserved s threw) (hcl : s'.closed = s.closed) (hc : s'.conn = s.conn)
    (hacc : s'.accepted = s.accepted) (hcon : ∀ c, s'.pc.constructing c = s.pc.constructing c)
    (hun : ∀ c, s'.pc.unwinding c = s.pc.unwinding c) : Conserved s' threw := by
  intro c
  rw [hacc, ← h c]
  simp only [State.places, State.alive, hcl, hc, hcon, hun]

/-- A pointer on the stack goes away, and the handler may close the descriptor. -/
theorem Conserved.drop (h : Conserved s threw) {c : Nat} {cl : List Nat} (hcl : s'.closed = (s.drop c).closed ++ cl)
    (hc : s'.conn = (s.drop c).conn) (hacc : s'.accepted = (s.drop c).accepted)
    (hcon : ∀ d, s'.pc.constructing d = s.pc.constructing d)
    (hun : ∀ d, s'.pc.unwinding d + cl.count d = s.pc.unwinding d) : Conserved s' threw := by
  intro d
  have hd := h d
  have hkeep := drop_conserves s c d
  have halive : s'.alive d = (s.drop c).alive d := by simp only [State.alive, hc]
  have hun := hun d
  rw [hacc, drop_same.2.2.1]
  simp only [State.places, hcl, halive, hcon, List.count_append] at hd ⊢
  omega

theorem Conserved.step (ho : Owned s) (h : Conserved s threw) (hs : step s a = some s') :
    Conserved s' (noteThrow s a s' threw) := by
  cases step_effect hs with
  | halt | missed => exact h.move rfl rfl rfl (fun _ => rfl) (fun _ => rfl)
  | accepted r hpc =>
    intro d
    have hd := h d
    simp only [State.places, State.alive, hpc, Pc.constructing, Pc.unwinding, noteThrow, accepted_succ] at hd ⊢
    omega
  | construct c fd a hpc =>
    intro d
    have hd := h d
    have halive : s.alive c = 0 := by simp [State.alive, (ho.constructing c fd hpc).1]
    simp only [State.places, hpc, Pc.constructing, Pc.unwinding, noteThrow] at hd ⊢
    by_cases e : d = c
    · subst e
      rw [halive] at hd
      simpa [State.alive] using hd
    · simpa [State.alive, e, Ne.symm e] using hd
  | constructThrew c fd a hpc =>
    intro d
    have hd := h d
    simp only [State.places, State.alive, hpc, Pc.constructing, Pc.unwinding, noteThrow, List.count_append,
      List.count_singleton, beq_iff_eq] at hd ⊢
    omega
  | call k c l C hpc => exact h.move rfl rfl rfl (fun _ => by rw [hpc]; rfl) (fun _ => by rw [hpc]; rfl)
  | leaveLoop k c threw' hpc =>
    refine h.drop (List.append_nil _).symm rfl rfl (fun _ => by rw [hpc]; rfl) (fun d => ?_)
    rw [hpc]
    cases k <;> cases threw' <;> rfl
  | leave k c threw' hpc =>
    obtain ⟨cl, pc, heq, hk⟩ := leave_eq s k c threw'
    rw [heq]
    rcases hk with ⟨rfl, rfl, rfl⟩ | ⟨fd, rfl, rfl, rfl⟩
    · exact h.drop rfl rfl rfl (fun _ => by rw [hpc]; rfl) (fun _ => by rw [hpc]; rfl)
    · refine h.drop rfl rfl rfl (fun _ => by rw [hpc]; rfl) (fun d => ?_)
      rw [hpc]
      cases threw' <;> simp [Pc.unwinding, List.count_singleton]
  | launch k c l C hpc =>
    exact h.move rfl rfl rfl (fun _ => by rw [hpc]; rfl) (fun _ => by rw [hpc]; cases k <;> rfl)
  | launchThrew k c l C hpc =>
    cases k with
    | accept fd =>
      intro d
      have hd := h d
      simp only [State.places, State.alive, hpc, Pc.constructing, Pc.unwinding, noteThrow, List.count_cons,
        beq_iff_eq] at hd ⊢
      omega
    | callback =>
      have hnote : noteThrow s (.launch false) { s with pc := .leaveLoop .callback c true } threw = threw := by
        simp only [noteThrow, hpc]
      rw [hnote]
      exact h.move rfl rfl rfl (fun _ => by rw [hpc]; rfl) (fun _ => by rw [hpc]; rfl)
  | rearm ok hpc =>
    have hnote : ∀ t, noteThrow s (.launch ok) t threw = threw := by
      intro t
      cases ok <;> simp only [noteThrow, hpc]
    rw [hnote]
    exact h.move rfl rfl rfl (fun _ => by rw [hpc]; rfl) (fun _ => by rw [hpc]; rfl)
  | complete i r op hpc =>
    refine h.move rfl rfl rfl (fun _ => ?_) (fun _ => ?_) <;> rw [hpc] <;> cases op.callback.resume r <;> rfl

theorem conserved_of_run (h : (watched registered memory).Run acts (s, threw)) : Conserved s threw :=
  Machine.RunIn.inv_withHistory Conserved (fun _ => rfl) (fun _ _ _ _ _ hrun hi hs => hi.step (owned_of_run hrun) hs) h

/-- The io thread has nothing of a session that it is not in. -/
theorem elsewhere {pc : Pc} {c : Nat} (h : pc.session ≠ some c) :
    pc.holds c = 0 ∧ pc.constructing c = 0 ∧ pc.unwinding c = 0 := by
  have hne : ∀ d, pc.session = some d → d ≠ c := by
    rintro d hd rfl
    exact h hd
  cases pc with
  | idle | rearm => exact ⟨rfl, rfl, rfl⟩
  | construct d fd => exact ⟨rfl, if_neg (hne d rfl), rfl⟩
  | call k d l | launch k d l => exact ⟨if_neg (hne d rfl), rfl, rfl⟩
  | leaveLoop k d threw | leave k d threw =>
    refine ⟨if_neg (hne d rfl), rfl, ?_⟩
    cases k <;> cases threw <;> first | rfl | exact if_neg (hne d rfl)

/-- Nothing has the descriptor of a session that is over. -/
theorem places_of_over (h : Owned s) {c : Nat} (hover : Over s c) : s.places c = s.closed.count c := by
  obtain ⟨-, hpc, hflight⟩ := hover
  obtain ⟨hholds, hcon, hun⟩ := elsewhere hpc
  have hnone : s.conn c = none := by
    have hzero : s.flight.countP (·.self = c) = 0 := List.countP_eq_zero.2 (fun op hop => by simpa using hflight op hop)
    rw [h.live, h.count, hzero, hholds]
  simp [State.places, State.alive, hnone, hcon, hun]

theorem closed_of_over (h : (watched registered memory).Run acts (s, threw)) {c : Nat} (hover : Over s c) :
    s.closed.count c = 1 + threw.count c := by
  have ho : Owned s := owned_of_run (Machine.RunIn.of_withHistory h)
  rw [← places_of_over ho hover, conserved_of_run h c, if_pos hover.1]

end Fixed

/-! ## The coroutine server -/

/-- The session whose handler is running. -/
def ListenPc.session : ListenPc → Option Nat
  | .construct c _ | .start c _ => some c
  | .idle | .rearm => none

namespace Coroutine
variable {s s' : Listener Frame} {a : ListenAct} {failed : List Nat} {acts : List ListenAct}

/-- Starting the next operation of a session throws. -/
def throws (next : Frame ⊕ Exit) (ok : Bool) : Bool := next.isLeft && !ok

/-- The sessions that could not be started, that an operation could not be started for,
or that had a negative result. -/
def noteFailure (s : Listener Frame) (a : ListenAct) (_ : Listener Frame) (failed : List Nat) : List Nat :=
  match a with
  | .construct false => match s.pc with
    | .construct c _ => c :: failed
    | _ => failed
  | .start ok => match s.pc with
    | .start c _ => if throws (outer s.running) ok then c :: failed else failed
    | _ => failed
  | .complete i r ok => match s.flight[i]? with
    | some (c, f) => if r.res < 0 ∨ throws (resume s.running f r) ok then c :: failed else failed
    | none => failed
  | _ => failed

/-- The server with the sessions that failed. -/
def watched : Machine (Listener Frame × List Nat) ListenAct := handlers.machine.withHistory [] noteFailure

/-- The session was accepted, and neither the io thread nor an operation in flight is
in it. -/
def Over (s : Listener Frame) (c : Nat) : Prop := c < s.accepted ∧ s.pc.session ≠ some c ∧ ∀ op ∈ s.flight, op.1 ≠ c

instance (s : Listener Frame) (c : Nat) : Decidable (Over s c) := by unfold Over; infer_instance

/-- The places and the closes of the descriptor of `c`. -/
def places (s : Listener Frame) (c : Nat) : Nat :=
  s.closed.count c + s.flight.countP (·.1 = c) + if s.pc.session = some c then 1 else 0

/-- Every accept brings one descriptor, and a session that fails loses it. -/
def Conserved (s : Listener Frame) (failed : List Nat) : Prop :=
  ∀ c, places s c + failed.count c = if c < s.accepted then 1 else 0

/-- The session ends without closing the descriptor. -/
def lost : Frame ⊕ Exit → Bool → Bool
  | .inl _, ok => !ok
  | .inr .coReturn, _ => false
  | .inr .exception, _ => true
  | .inr .stopped, _ => true

/-- Where the descriptor goes when the coroutine has been resumed: the next operation
has it, it was closed, or it is lost. -/
theorem goOn_conserves (s : Listener Frame) (c d : Nat) (next : Frame ⊕ Exit) (ok : Bool) :
    (goOn s c next ok).closed.count d + (goOn s c next ok).flight.countP (·.1 = d) +
      (if lost next ok then [c] else []).count d =
    s.closed.count d + s.flight.countP (·.1 = d) + if c = d then 1 else 0 := by
  cases next with
  | inl f =>
    cases ok with
    | true => simp [goOn, lost, List.countP_append, List.countP_singleton, Nat.add_assoc]
    | false => simp [goOn, lost, List.count_singleton]
  | inr e =>
    cases e with
    | coReturn =>
      simp only [goOn, lost, List.count_append, List.count_singleton, beq_iff_eq]
      simp
      omega
    | exception => simp [goOn, lost, List.count_singleton]
    | stopped => simp [goOn, lost, List.count_singleton]

theorem lost_outer (running ok : Bool) : lost (outer running) ok = throws (outer running) ok := by
  cases running <;> rfl

theorem afterInner_cases (running : Bool) (total bytes : Nat) :
    afterInner running total bytes = .inr .coReturn ∨ ∃ f, afterInner running total bytes = .inl f := by
  unfold afterInner outer
  split
  · exact .inl rfl
  · split
    · exact .inr ⟨_, rfl⟩
    · exact .inl rfl

theorem inner_cases (running : Bool) (total bytes : Nat) :
    inner running total bytes = .inr .coReturn ∨ ∃ f, inner running total bytes = .inl f := by
  unfold inner
  split
  · exact .inr ⟨_, rfl⟩
  · exact afterInner_cases running total bytes

/-- A value leads to the next `co_await` or to the end of the body. -/
theorem resume_cases (running : Bool) (f : Frame) {r : IoResult} (h : 0 ≤ r.res) :
    resume running f r = .inr .coReturn ∨ ∃ f', resume running f r = .inl f' := by
  simp only [resume, makeIoCallback_of_nonneg h]
  cases f with
  | awaitRecv =>
    dsimp only
    split
    · exact .inl rfl
    · exact inner_cases ..
  | awaitSend total bytes =>
    dsimp only
    split
    · exact afterInner_cases ..
    · exact inner_cases ..

/-- The coroutine loses its descriptor exactly if the result is negative or the next
operation cannot be started. -/
theorem lost_resume (running : Bool) (f : Frame) (r : IoResult) (ok : Bool) :
    lost (resume running f r) ok = true ↔ r.res < 0 ∨ throws (resume running f r) ok = true := by
  by_cases hneg : r.res < 0
  · rcases makeIoCallback_of_neg hneg with hc | ⟨code, hc⟩ <;> simp [resume, hc, lost, hneg]
  · rcases resume_cases running f (Int.not_lt.1 hneg) with e | ⟨f', e⟩ <;> simp [e, lost, throws, hneg]

/-- The coroutine goes on with a descriptor that nothing else has. -/
theorem Conserved.goOn {c : Nat} (h : ∀ d, s.closed.count d + s.flight.countP (·.1 = d) + (if c = d then 1 else 0) +
      failed.count d = if d < s.accepted then 1 else 0) (next : Frame ⊕ Exit) (ok : Bool)
    (hcl : s'.closed = (goOn s c next ok).closed) (hf : s'.flight = (goOn s c next ok).flight)
    (hacc : s'.accepted = s.accepted) (hpc : s'.pc.session = none) :
    Conserved s' (if lost next ok then c :: failed else failed) := by
  intro d
  have hd := h d
  have hgo := goOn_conserves s c d next ok
  have hfailed : (if lost next ok then c :: failed else failed).count d =
      (if lost next ok then [c] else []).count d + failed.count d := by
    split
    · rw [List.count_cons, List.count_singleton, Nat.add_comm]
    · simp
  rw [hfailed, hacc]
  simp only [places, hcl, hf, hpc, reduceCtorEq, if_false]
  omega

/-- A new session: its number is new, and nothing of it was anywhere. -/
theorem Conserved.accept (h : Conserved s failed) (hpc : s.pc = .idle) {fd : Int} (hcl : s'.closed = s.closed)
    (hf : s'.flight = s.flight) (hacc : s'.accepted = s.accepted + 1) (hpc' : s'.pc = .construct s.accepted fd) :
    Conserved s' failed := by
  intro d
  have hd := h d
  simp only [places, hpc, ListenPc.session, reduceCtorEq, if_false] at hd
  simp only [places, hcl, hf, hacc, hpc', ListenPc.session, Option.some.injEq, accepted_succ]
  omega

theorem Conserved.step (h : Conserved s failed) (hs : s.step handlers a = some s') :
    Conserved s' (noteFailure s a s' failed) := by
  cases Listener.step_effect hs with
  | halt => exact h
  | accept r hpc ha =>
    by_cases hr : 0 ≤ r.res
    · have heq : handlers.acceptDone { s with accepts := s.accepts - 1 } r = _ := acceptDone_of_nonneg _ hr
      rw [heq]
      exact h.accept hpc rfl rfl rfl rfl
    · have heq : handlers.acceptDone { s with accepts := s.accepts - 1 } r = _ := acceptDone_of_neg _ (Int.not_le.1 hr)
      rw [heq]
      exact h
  | construct c fd ok hpc =>
    intro d
    have hd := h d
    simp only [places, hpc, ListenPc.session, Option.some.injEq] at hd
    cases ok with
    | true => simpa [places, ListenPc.session, noteFailure] using hd
    | false =>
      simp only [places, ListenPc.session, noteFailure, hpc, List.count_cons, beq_iff_eq, Bool.false_eq_true, if_false,
        reduceCtorEq]
      omega
  | start c fd ok hpc =>
    have hnote : noteFailure s (.start ok) (handlers.start s c ok) failed =
        if lost (outer s.running) ok then c :: failed else failed := by
      simp only [noteFailure, hpc, lost_outer]
    rw [hnote]
    refine Conserved.goOn (fun d => ?_) (outer s.running) ok rfl rfl (goOn_same s c (outer s.running) ok).1 rfl
    have hd := h d
    simp only [places, hpc, ListenPc.session, Option.some.injEq] at hd
    exact hd
  | rearm ok hpc =>
    intro d
    have hd := h d
    simp only [places, hpc, ListenPc.session] at hd
    exact hd
  | complete i r ok c f hpc hf =>
    have hnote : ∀ t, noteFailure s (.complete i r ok) t failed =
        if lost (resume s.running f r) ok then c :: failed else failed := by
      intro t
      simp only [noteFailure, hf, lost_resume]
    obtain ⟨hacc, hpc'⟩ := goOn_same { s with flight := s.flight.eraseIdx i } c (resume s.running f r) ok
    rw [hnote]
    refine Conserved.goOn (s := { s with flight := s.flight.eraseIdx i })
      (fun d => ?_) (resume s.running f r) ok rfl rfl hacc ?_
    · have hd := h d
      simp only [places, hpc, ListenPc.session, countP_eraseIdx hf, decide_eq_true_eq, reduceCtorEq, if_false] at hd
      simp only
      omega
    · rw [show (handlers.complete { s with flight := s.flight.eraseIdx i } c f r ok).pc = s.pc from hpc', hpc]
      rfl

theorem conserved_of_run (h : watched.Run acts (s, failed)) : Conserved s failed :=
  Machine.RunIn.inv_withHistory Conserved (fun _ => rfl) (fun _ _ _ _ _ _ hi hs => hi.step hs) h

theorem closed_of_over (h : watched.Run acts (s, failed)) {c : Nat} (hover : Over s c) :
    s.closed.count c + failed.count c = 1 := by
  obtain ⟨hlt, hpc, hflight⟩ := hover
  have hc := conserved_of_run h c
  have hzero : s.flight.countP (·.1 = c) = 0 := List.countP_eq_zero.2 (fun op hop => by simpa using hflight op hop)
  rw [places, hzero, if_neg hpc, if_pos hlt] at hc
  exact hc

end Coroutine

/-! ## Both -/

/-- **A descriptor is closed exactly once, except on the paths named.** For every run and
every session that is over: in the server with registered buffers its descriptor was
closed exactly once, unless starting its first read threw; in the coroutine server,
unless the session could not be started, one of its operations could not be started, or
one of them had a negative result. -/
theorem descriptor_closed_once_iff (registered : Bool) (memory : Nat) (c : Nat) :
    (∀ acts s threw, (Fixed.watched registered memory).Run acts (s, threw) → Fixed.Over s c →
      (s.closed.count c = 1 ↔ c ∉ threw)) ∧
    ∀ acts s failed, Coroutine.watched.Run acts (s, failed) → Coroutine.Over s c →
      (s.closed.count c = 1 ↔ c ∉ failed) := by
  refine ⟨fun acts s threw h hover => ?_, fun acts s failed h hover => ?_⟩
  · have hclosed := Fixed.closed_of_over h hover
    rw [← List.count_eq_zero]
    omega
  · have hclosed := Coroutine.closed_of_over h hover
    rw [← List.count_eq_zero]
    omega

/-- A connection whose peer closes it after five bytes, and one whose construction
throws. -/
def Fixed.twoSessions : List Fixed.Act := List.flatten
  [[.accept ⟨5, 0⟩, .construct 0 true, .step, .launch true, .step, .step, .launch true],
   [.accept ⟨6, 0⟩, .construct 0 false, .launch true],
   [.complete 0 ⟨5, 0⟩, .step, .launch true, .step, .step],
   [.complete 0 ⟨5, 0⟩, .step, .launch true, .step, .step],
   [.complete 0 ⟨0, 0⟩, .step]]

/-- A session whose peer closes it after five bytes. -/
def Coroutine.oneSession : List ListenAct :=
  [.accept ⟨5, 0⟩, .construct true, .start true, .rearm true, .complete 0 ⟨5, 0⟩ true, .complete 0 ⟨5, 0⟩ true,
    .complete 0 ⟨0, 0⟩ true]

theorem descriptor_closed_once_end :
    (∃ s, (Fixed.watched true 1000).Run Fixed.twoSessions (s, []) ∧ s.closed.count 0 = 1 ∧ s.closed.count 1 = 1) ∧
    ∃ s, Coroutine.watched.Run Coroutine.oneSession (s, []) ∧ s.closed.count 0 = 1 := by
  have hzero := descriptor_closed_once_iff true 1000 0
  have hone := descriptor_closed_once_iff true 1000 1
  refine ⟨?_, ?_⟩
  · have hexec : ((Fixed.watched true 1000).exec Fixed.twoSessions).any
        (fun u => decide (Fixed.Over u.1 0 ∧ Fixed.Over u.1 1 ∧ u.2 = [])) = true := by decide
    obtain ⟨⟨s, threw⟩, hr, h0, h1, rfl⟩ := Machine.exists_run_of_exec hexec
    exact ⟨s, hr, (hzero.1 _ s [] hr h0).2 (by simp), (hone.1 _ s [] hr h1).2 (by simp)⟩
  · have hexec : (Coroutine.watched.exec Coroutine.oneSession).any
        (fun u => decide (Coroutine.Over u.1 0 ∧ u.2 = [])) = true := by decide
    obtain ⟨⟨s, failed⟩, hr, h0, rfl⟩ := Machine.exists_run_of_exec hexec
    exact ⟨s, hr, (hzero.2 _ s [] hr h0).2 (by simp)⟩

/-- Starting the first read throws. -/
def Fixed.firstReadThrows : List Fixed.Act :=
  [.accept ⟨5, 0⟩, .construct 0 true, .step, .launch false, .step, .step, .launch true]

/-- The first read fails (`ECONNRESET`, 104). -/
def Coroutine.readFails : List ListenAct :=
  [.accept ⟨5, 0⟩, .construct true, .start true, .rearm true, .complete 0 ⟨-104, 0⟩ true]

/-- The destructor and the handler of the exception both close the descriptor; and the
coroutine that is left by an exception never closes it. -/
theorem descriptor_closed_twice_or_never :
    (∃ s threw, (Fixed.watched true 1000).Run Fixed.firstReadThrows (s, threw) ∧ Fixed.Over s 0 ∧ s.closed = [0, 0]) ∧
    ∃ s failed, Coroutine.watched.Run Coroutine.readFails (s, failed) ∧ Coroutine.Over s 0 ∧ s.closed = [] := by
  refine ⟨?_, ?_⟩
  · have hexec : ((Fixed.watched true 1000).exec Fixed.firstReadThrows).any
        (fun u => decide (Fixed.Over u.1 0 ∧ u.1.closed = [0, 0])) = true := by decide
    obtain ⟨⟨s, threw⟩, hr, hover, hclosed⟩ := Machine.exists_run_of_exec hexec
    exact ⟨s, threw, hr, hover, hclosed⟩
  · have hexec : (Coroutine.watched.exec Coroutine.readFails).any
        (fun u => decide (Coroutine.Over u.1 0 ∧ u.1.closed = [])) = true := by decide
    obtain ⟨⟨s, failed⟩, hr, hover, hclosed⟩ := Machine.exists_run_of_exec hexec
    exact ⟨s, failed, hr, hover, hclosed⟩

end AsyncRuntime.Server
