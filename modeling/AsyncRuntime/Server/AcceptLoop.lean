import AsyncRuntime.Server.Listener
import AsyncRuntime.Server.Ownership
/-!
# The accept loops

`Loop` is an accept loop without a server: an accept completes, a result that is not
negative is handled by starting a session, and then the next accept is started. A
negative result starts nothing, not even the next accept. The accept loops of the
three servers are runs of `Loop`, as long as `running` is true and nothing throws in
the handler of an accept: `make_io_callback` turns a negative result into an error or
a stop, which neither the lambdas nor the loop of the coroutine ever see.
-/

namespace AsyncRuntime.Server
open Lib AsyncRuntime.Ring

/-! ## The loop -/

/-- Waiting for an accept, handling a descriptor, or due to accept again. -/
inductive Phase where
  | waiting
  | handling (fd : Int)
  | due
deriving DecidableEq

/-- An accept loop: the accepts in flight, with the results of the accepts so far and
the descriptors whose session was started. -/
structure Loop where
  accepts : Nat
  phase : Phase
  results : List Int
  started : List Int

inductive LoopAct where
  | accept (r : Int)
  | start
  | rearm

def Loop.step (l : Loop) : LoopAct → Option Loop
  | .accept r => match l.phase with
    | .waiting =>
      if 0 < l.accepts then
        some { l with
          accepts := l.accepts - 1
          phase := if 0 ≤ r then .handling r else .waiting
          results := l.results ++ [r] }
      else none
    | _ => none
  | .start => match l.phase with
    | .handling fd => some { l with phase := .due, started := l.started ++ [fd] }
    | _ => none
  | .rearm => match l.phase with
    | .due => some { l with accepts := l.accepts + 1, phase := .waiting }
    | _ => none

def Loop.machine : Machine Loop LoopAct := ⟨⟨1, .waiting, [], []⟩, Loop.step⟩

/-- The descriptor that has no session yet. -/
def Phase.pending : Phase → List Int
  | .handling fd => [fd]
  | _ => []

/-- The handler of an accept is running, and will accept again. -/
def Phase.active : Phase → Nat
  | .waiting => 0
  | _ => 1

/-- Whether an accept has failed. -/
def Loop.failures (l : Loop) : Nat := if ∀ r ∈ l.results, 0 ≤ r then 0 else 1

/-- The loop has one accept in flight, or will have one, or one has failed. -/
structure Loop.Inv (l : Loop) : Prop where
  one : l.accepts + l.phase.active + l.failures = 1
  sessions : l.started ++ l.phase.pending = l.results.filter (0 ≤ ·)

theorem Loop.Inv.accept {l : Loop} (h : l.Inv) (hp : l.phase = .waiting) (ha : 0 < l.accepts) (r : Int) :
    Loop.Inv { l with
      accepts := l.accepts - 1
      phase := if 0 ≤ r then .handling r else .waiting
      results := l.results ++ [r] } := by
  obtain ⟨hone, hs⟩ := h
  rw [hp] at hone hs
  have hfail : l.failures = 0 := by
    have : Phase.waiting.active = 0 := rfl
    omega
  have hall : ∀ r ∈ l.results, 0 ≤ r := by
    by_contra hn
    rw [Loop.failures, if_neg hn] at hfail
    cases hfail
  rw [show Phase.waiting.pending = [] from rfl, List.append_nil] at hs
  rw [hfail, show Phase.waiting.active = 0 from rfl] at hone
  by_cases hr : 0 ≤ r
  · have hall' : ∀ x ∈ l.results ++ [r], 0 ≤ x := by
      intro x hx
      rcases List.mem_append.1 hx with hx | hx
      · exact hall x hx
      · rw [List.mem_singleton] at hx
        rw [hx]
        exact hr
    refine ⟨?_, ?_⟩
    · simp only [Loop.failures, if_pos hall', if_pos hr, Phase.active]
      omega
    · simp [hs, hr, Phase.pending]
  · have hsome : ¬ ∀ x ∈ l.results ++ [r], 0 ≤ x := fun h => hr (h r (by simp))
    refine ⟨?_, ?_⟩
    · simp only [Loop.failures, if_neg hsome, if_neg hr, Phase.active]
      omega
    · simp [hs, hr, Phase.pending]

theorem Loop.Inv.step {l l' : Loop} {a : LoopAct} (h : l.Inv) (hs : l.step a = some l') : l'.Inv := by
  cases a with
  | accept r =>
    simp only [Loop.step] at hs
    split at hs
    · next hp =>
      split at hs
      · next ha => cases hs; exact h.accept hp ha r
      · cases hs
    · cases hs
  | start =>
    simp only [Loop.step] at hs
    split at hs
    · next fd hp =>
      cases hs
      obtain ⟨hone, hsess⟩ := h
      rw [hp] at hone hsess
      exact ⟨hone, by rw [← hsess]; exact List.append_nil _⟩
    · cases hs
  | rearm =>
    simp only [Loop.step] at hs
    split at hs
    · next hp =>
      cases hs
      obtain ⟨hone, hsess⟩ := h
      rw [hp] at hone hsess
      exact ⟨hone, hsess⟩
    · cases hs

/-- A loop that waits has an accept in flight exactly if none has failed, and has
started a session for each descriptor it got. -/
theorem Loop.waiting_iff {l : Loop} {acts : List LoopAct} (h : Loop.machine.Run acts l) (hp : l.phase = .waiting) :
    (l.accepts = 1 ↔ ∀ r ∈ l.results, 0 ≤ r) ∧ l.started = l.results.filter (0 ≤ ·) := by
  have hinv : l.Inv := Machine.Run.inv (M := Loop.machine) Loop.Inv ⟨rfl, rfl⟩ (fun _ _ _ hi hs => hi.step hs) h
  obtain ⟨hone, hsess⟩ := hinv
  rw [hp] at hone hsess
  rw [show Phase.waiting.pending = [] from rfl, List.append_nil] at hsess
  rw [show Phase.waiting.active = 0 from rfl, Loop.failures] at hone
  refine ⟨?_, hsess⟩
  split at hone
  · next hall => exact ⟨fun _ => hall, fun _ => by omega⟩
  · next hn => exact ⟨fun h1 => by omega, fun hall => absurd hall hn⟩

/-! ## The servers without registered buffers -/

/-- The results of the accepts and the descriptors whose session was started. -/
structure AcceptLog where
  results : List Int
  started : List Int

section Listener
variable {F : Type} {V : Handlers F} {s s' : Listener F} {log log' : AcceptLog} {a : ListenAct} {acts : List ListenAct}

def ListenPc.phase : ListenPc → Phase
  | .idle => .waiting
  | .construct _ fd | .start _ fd => .handling fd
  | .rearm => .due

def Listener.note (s : Listener F) (a : ListenAct) (_ : Listener F) (log : AcceptLog) : AcceptLog :=
  match a with
  | .accept r => { log with results := log.results ++ [r.res] }
  | .start true => match s.pc with
    | .start _ fd => { log with started := log.started ++ [fd] }
    | _ => log
  | _ => log

/-- The server with the log of its accepts. -/
def Handlers.logged (V : Handlers F) : Machine (Listener F × AcceptLog) ListenAct :=
  V.machine.withHistory ⟨[], []⟩ Listener.note

/-- `running` stays true, and nothing throws in the handler of an accept. -/
def ListenAct.Calm : ListenAct → Prop
  | .halt => False
  | .construct ok | .start ok | .rearm ok => ok = true
  | _ => True

instance (a : ListenAct) : Decidable a.Calm := by cases a <;> unfold ListenAct.Calm <;> infer_instance

/-- The server as an accept loop. -/
def Listener.loop (s : Listener F) (log : AcceptLog) : Loop := ⟨s.accepts, s.pc.phase, log.results, log.started⟩

/-- What an accept loop needs of the handlers while `running` is true. -/
structure Handlers.Lawful (V : Handlers F) : Prop where
  failed : ∀ s r, r.res < 0 → V.acceptDone s r = s
  succeeded : ∀ s r, s.running = true → 0 ≤ r.res →
    V.acceptDone s r = { s with pc := .construct s.accepted r.res, accepted := s.accepted + 1 }
  start : ∀ s c, ∃ flight closed, V.start s c true = { s with flight := flight, closed := closed, pc := .rearm }
  rearm : ∀ s, s.running = true → V.rearm s true = { s with accepts := s.accepts + 1, pc := .idle }
  complete : ∀ s c f r ok, ∃ flight closed, V.complete s c f r ok = { s with flight := flight, closed := closed }

/-- A step of the server is a step of the loop, or none. -/
theorem Handlers.Lawful.step (hV : V.Lawful) (hcalm : a.Calm) (hrun : s.running = true) (hs : s.step V a = some s') :
    s'.running = true ∧ (s'.loop (s.note a s' log) = s.loop log ∨
      ∃ b, (s.loop log).step b = some (s'.loop (s.note a s' log))) := by
  cases Listener.step_effect hs with
  | halt => exact absurd hcalm id
  | accept r hpc ha =>
    by_cases hr : 0 ≤ r.res
    · rw [hV.succeeded { s with accepts := s.accepts - 1 } r hrun hr]
      exact ⟨hrun, .inr ⟨.accept r.res, by simp [Loop.step, Listener.loop, ListenPc.phase, Listener.note, hpc, ha, hr]⟩⟩
    · rw [hV.failed _ r (Int.not_le.1 hr)]
      exact ⟨hrun, .inr ⟨.accept r.res, by simp [Loop.step, Listener.loop, ListenPc.phase, Listener.note, hpc, ha, hr]⟩⟩
  | construct c fd ok hpc =>
    cases hcalm
    exact ⟨hrun, .inl (by simp [Listener.loop, ListenPc.phase, Listener.note, hpc])⟩
  | start c fd ok hpc =>
    cases hcalm
    obtain ⟨flight, closed, heq⟩ := hV.start s c
    rw [heq]
    exact ⟨hrun, .inr ⟨.start, by simp [Loop.step, Listener.loop, ListenPc.phase, Listener.note, hpc]⟩⟩
  | rearm ok hpc =>
    cases hcalm
    rw [hV.rearm s hrun]
    exact ⟨hrun, .inr ⟨.rearm, by simp [Loop.step, Listener.loop, ListenPc.phase, Listener.note, hpc]⟩⟩
  | complete i r ok c f hpc hf =>
    obtain ⟨flight, closed, heq⟩ := hV.complete { s with flight := s.flight.eraseIdx i } c f r ok
    rw [heq]
    exact ⟨hrun, .inl (by simp [Listener.loop, Listener.note])⟩

theorem Handlers.Lawful.survives_iff (hV : V.Lawful) (h : V.logged.RunIn (fun _ a => a.Calm) acts (s, log))
    (hpc : s.pc = .idle) : (s.accepts = 1 ↔ ∀ r ∈ log.results, 0 ≤ r) ∧ log.started = log.results.filter (0 ≤ ·) := by
  obtain ⟨bs, hloop⟩ := Machine.RunIn.project_inv (N := Loop.machine) (fun u => u.1.running = true)
    (fun u => u.1.loop u.2)
    rfl rfl (fun u a u' hrun hcalm hs => by
      obtain ⟨hstep, hnote⟩ := Machine.withHistory_step.1 hs
      rw [hnote]
      exact hV.step hcalm hrun hstep) h
  exact Loop.waiting_iff hloop (by simp only [Listener.loop, hpc, ListenPc.phase])

end Listener

theorem Engine.lawful : Engine.handlers.Lawful where
  failed s _ hr := Engine.acceptDone_of_neg s hr
  succeeded _ _ hrun hr := Engine.acceptDone_of_nonneg hrun hr
  start s c := ⟨s.flight ++ [(c, .handleRead)], s.closed, rfl⟩
  rearm s _ := rfl
  complete s c k r ok := by
    simp only [Engine.handlers, Engine.complete]
    split
    · unfold Engine.launch
      split <;> exact ⟨_, _, rfl⟩
    · exact ⟨_, _, rfl⟩

theorem Coroutine.lawful : Coroutine.handlers.Lawful where
  failed s _ hr := Coroutine.acceptDone_of_neg s hr
  succeeded s _ _ hr := Coroutine.acceptDone_of_nonneg s hr
  start s c := by
    obtain ⟨flight, closed, heq⟩ := Coroutine.goOn_eq s c (Coroutine.outer s.running) true
    exact ⟨flight, closed, by simp only [Coroutine.handlers, Coroutine.start, heq]⟩
  rearm s hrun := by simp [Coroutine.handlers, Coroutine.rearm, hrun]
  complete s c f r ok := Coroutine.goOn_eq s c (Coroutine.resume s.running f r) ok

/-! ## The server with registered buffers -/

namespace Fixed
variable {s s' : State} {log : AcceptLog} {a : Act} {acts : List Act} {registered : Bool} {memory : Nat}

/-- While a callback runs the accept loop waits. -/
def Pc.phase : Pc → Phase
  | .idle => .waiting
  | .construct _ fd | .call (.accept fd) _ _ | .launch (.accept fd) _ _ => .handling fd
  | .leaveLoop (.accept _) _ _ | .leave (.accept _) _ _ | .rearm => .due
  | .call .callback _ _ | .launch .callback _ _ | .leaveLoop .callback _ _ | .leave .callback _ _ => .waiting

def note (s : State) (a : Act) (_ : State) (log : AcceptLog) : AcceptLog :=
  match a with
  | .accept r => { log with results := log.results ++ [r.res] }
  | .launch true => match s.pc with
    | .launch (.accept fd) _ _ => { log with started := log.started ++ [fd] }
    | _ => log
  | _ => log

/-- The server with the log of its accepts. -/
def logged (registered : Bool) (memory : Nat) : Machine (State × AcceptLog) Act :=
  (machine registered memory).withHistory ⟨[], []⟩ note

/-- A callback is about to start an operation. -/
def Pc.fromCallback : Pc → Bool
  | .launch .callback _ _ => true
  | _ => false

/-- `running` stays true, and nothing throws in the handler of an accept. -/
def Calm (s : State) : Act → Prop
  | .halt => False
  | .construct _ ok => ok = true
  | .launch ok => (s.pc.fromCallback || ok) = true
  | _ => True

instance (s : State) : (a : Act) → Decidable (Calm s a)
  | .halt => inferInstanceAs (Decidable False)
  | .construct _ ok => inferInstanceAs (Decidable (ok = true))
  | .launch ok => inferInstanceAs (Decidable ((s.pc.fromCallback || ok) = true))
  | .accept _ | .step | .complete _ _ => inferInstanceAs (Decidable True)

/-- The server as an accept loop. -/
def State.loop (s : State) (log : AcceptLog) : Loop := ⟨s.accepts, s.pc.phase, log.results, log.started⟩

/-- A step of the server is a step of the loop, or none. -/
theorem loop_step (hcalm : Calm s a) (hrun : s.running = true) (hs : step s a = some s') :
    s'.running = true ∧ (s'.loop (note s a s' log) = s.loop log ∨
      ∃ b, (s.loop log).step b = some (s'.loop (note s a s' log))) := by
  have hdrop : ∀ c, (s.drop c).accepts = s.accepts ∧ (s.drop c).running = s.running := fun _ => drop_same.2.2.2
  have hstay : ∀ {t : State}, t.running = s.running → t.accepts = s.accepts → t.pc.phase = s.pc.phase →
      note s a t log = log →
      t.running = true ∧ (t.loop (note s a t log) = s.loop log ∨
        ∃ b, (s.loop log).step b = some (t.loop (note s a t log))) := by
    intro t hr ha hp hn
    refine ⟨hr.trans hrun, .inl ?_⟩
    simp only [State.loop, hn, ha, hp]
  cases step_effect hs with
  | halt => exact absurd hcalm id
  | accepted r hpc ha _ hr =>
    exact ⟨hrun, .inr ⟨.accept r.res, by simp [Loop.step, State.loop, Pc.phase, note, hpc, ha, hr]⟩⟩
  | missed r hpc ha hr =>
    have hr := Int.not_le.2 (hr hrun)
    exact ⟨hrun, .inr ⟨.accept r.res, by simp [Loop.step, State.loop, Pc.phase, note, hpc, ha, hr]⟩⟩
  | construct c fd a hpc => exact hstay rfl rfl (by rw [hpc]; rfl) rfl
  | constructThrew => cases hcalm
  | call k c l C hpc => exact hstay rfl rfl (by rw [hpc]; cases k <;> rfl) rfl
  | leaveLoop k c threw hpc => exact hstay (hdrop c).2 (hdrop c).1 (by rw [hpc]; cases k <;> rfl) rfl
  | leave k c threw hpc =>
    obtain ⟨cl, pc, heq, hk⟩ := leave_eq s k c threw
    rw [heq]
    refine hstay (hdrop c).2 (hdrop c).1 ?_ rfl
    rw [hpc]
    rcases hk with ⟨rfl, -, rfl⟩ | ⟨fd, rfl, -, rfl⟩ <;> rfl
  | launch k c l C hpc =>
    cases k with
    | accept fd => exact ⟨hrun, .inr ⟨.start, by simp [Loop.step, State.loop, Pc.phase, note, hpc, State.retain]⟩⟩
    | callback => exact hstay rfl rfl (by rw [hpc]; rfl) (by simp only [note, hpc])
  | launchThrew k c l C hpc =>
    cases k with
    | accept fd =>
      simp [Calm, hpc, Pc.fromCallback] at hcalm
    | callback => exact hstay rfl rfl (by rw [hpc]; rfl) rfl
  | rearm ok hpc =>
    obtain rfl : ok = true := by simpa [Calm, hpc, Pc.fromCallback] using hcalm
    exact ⟨hrun, .inr ⟨.rearm, by simp [Loop.step, State.loop, Pc.phase, note, hpc]⟩⟩
  | complete i r op hpc =>
    refine hstay rfl rfl ?_ rfl
    rw [hpc]
    cases op.callback.resume r <;> rfl

theorem survives_iff (h : (logged registered memory).RunIn (fun u a => Calm u.1 a) acts (s, log)) (hpc : s.pc = .idle) :
    (s.accepts = 1 ↔ ∀ r ∈ log.results, 0 ≤ r) ∧ log.started = log.results.filter (0 ≤ ·) := by
  obtain ⟨bs, hloop⟩ := Machine.RunIn.project_inv (N := Loop.machine) (fun u => u.1.running = true)
    (fun u => u.1.loop u.2)
    rfl rfl (fun u a u' hrun hcalm hs => by
      obtain ⟨hstep, hnote⟩ := Machine.withHistory_step.1 hs
      rw [hnote]
      exact loop_step hcalm hrun hstep) h
  exact Loop.waiting_iff hloop (by simp only [State.loop, hpc, Pc.phase])

end Fixed

/-! ## All three -/

/-- **The accept loops survive as long as no accept fails.** While `running` is true and
nothing throws in the handler of an accept: whenever a server is outside that handler
and its callbacks, one accept is in flight exactly if no accept so far has had a
negative result, and each result that is not negative has started one session. -/
theorem accept_loops_survive_iff (registered : Bool) (memory : Nat) :
    (∀ acts s log, Engine.handlers.logged.RunIn (fun _ a => a.Calm) acts (s, log) → s.pc = .idle →
      (s.accepts = 1 ↔ ∀ r ∈ log.results, 0 ≤ r) ∧ log.started = log.results.filter (0 ≤ ·)) ∧
    (∀ acts s log, (Fixed.logged registered memory).RunIn (fun u a => Fixed.Calm u.1 a) acts (s, log) → s.pc = .idle →
      (s.accepts = 1 ↔ ∀ r ∈ log.results, 0 ≤ r) ∧ log.started = log.results.filter (0 ≤ ·)) ∧
    ∀ acts s log, Coroutine.handlers.logged.RunIn (fun _ a => a.Calm) acts (s, log) → s.pc = .idle →
      (s.accepts = 1 ↔ ∀ r ∈ log.results, 0 ≤ r) ∧ log.started = log.results.filter (0 ≤ ·) :=
  ⟨fun _ _ _ h hpc => Engine.lawful.survives_iff h hpc, fun _ _ _ h hpc => Fixed.survives_iff h hpc,
    fun _ _ _ h hpc => Coroutine.lawful.survives_iff h hpc⟩

/-- Two accepts succeed. -/
def twoAccepts : List ListenAct :=
  [.accept ⟨5, 0⟩, .construct true, .start true, .rearm true, .accept ⟨6, 0⟩, .construct true, .start true, .rearm true]

def Fixed.twoAccepts : List Fixed.Act := List.flatten
  [[.accept ⟨5, 0⟩, .construct 0 true, .step, .launch true, .step, .step, .launch true],
   [.accept ⟨6, 0⟩, .construct 0 true, .step, .launch true, .step, .step, .launch true]]

theorem accept_loops_survive_two :
    (∃ s log, Engine.handlers.logged.RunIn (fun _ a => a.Calm) twoAccepts (s, log) ∧ s.accepts = 1 ∧
      log.started = [5, 6]) ∧
    (∃ s log, (Fixed.logged true 1000).RunIn (fun u a => Fixed.Calm u.1 a) Fixed.twoAccepts (s, log) ∧ s.accepts = 1 ∧
      log.started = [5, 6]) ∧
    ∃ s log, Coroutine.handlers.logged.RunIn (fun _ a => a.Calm) twoAccepts (s, log) ∧ s.accepts = 1 ∧
    log.started = [5, 6] := by
  obtain ⟨hengine, hfixed, hcoroutine⟩ := accept_loops_survive_iff true 1000
  refine ⟨?_, ?_, ?_⟩
  · have hexec : (Engine.handlers.logged.execIn (fun _ a => a.Calm) Engine.handlers.logged.init twoAccepts).any
        (fun u => decide (u.1.pc = .idle ∧ u.2.results = [5, 6])) = true := by decide
    obtain ⟨⟨s, log⟩, hr, hpc, hres⟩ := Machine.exists_runIn_of_exec (fun _ _ => id) .nil hexec
    obtain ⟨hone, hst⟩ := hengine _ s log hr hpc
    rw [hres] at hone hst
    exact ⟨s, log, hr, hone.2 (by decide), hst⟩
  · have hexec : ((Fixed.logged true 1000).execIn (fun u a => Fixed.Calm u.1 a) (Fixed.logged true 1000).init
        Fixed.twoAccepts).any (fun u => decide (u.1.pc = .idle ∧ u.2.results = [5, 6])) = true := by decide
    obtain ⟨⟨s, log⟩, hr, hpc, hres⟩ := Machine.exists_runIn_of_exec (fun _ _ => id) .nil hexec
    obtain ⟨hone, hst⟩ := hfixed _ s log hr hpc
    rw [hres] at hone hst
    exact ⟨s, log, hr, hone.2 (by decide), hst⟩
  · have hexec : (Coroutine.handlers.logged.execIn (fun _ a => a.Calm) Coroutine.handlers.logged.init twoAccepts).any
        (fun u => decide (u.1.pc = .idle ∧ u.2.results = [5, 6])) = true := by decide
    obtain ⟨⟨s, log⟩, hr, hpc, hres⟩ := Machine.exists_runIn_of_exec (fun _ _ => id) .nil hexec
    obtain ⟨hone, hst⟩ := hcoroutine _ s log hr hpc
    rw [hres] at hone hst
    exact ⟨s, log, hr, hone.2 (by decide), hst⟩

/-- One failed accept (`EMFILE`, 24) ends the loop of each server: `running` is true, no
handler is running and no accept is in flight. -/
theorem failed_accept_ends_loop :
    (∃ s log, Engine.handlers.logged.RunIn (fun _ a => a.Calm) [.accept ⟨-24, 0⟩] (s, log) ∧
      s.running = true ∧ s.pc = .idle ∧ s.accepts = 0) ∧
    (∃ s log, (Fixed.logged true 1000).RunIn (fun u a => Fixed.Calm u.1 a) [.accept ⟨-24, 0⟩] (s, log) ∧
      s.running = true ∧ s.pc = .idle ∧ s.accepts = 0) ∧
    ∃ s log, Coroutine.handlers.logged.RunIn (fun _ a => a.Calm) [.accept ⟨-24, 0⟩] (s, log) ∧
      s.running = true ∧ s.pc = .idle ∧ s.accepts = 0 := by
  refine ⟨⟨_, _, .snoc .nil trivial rfl, ?_⟩, ⟨_, _, .snoc .nil trivial rfl, ?_⟩,
    ⟨_, _, .snoc .nil trivial rfl, ?_⟩⟩ <;> decide

end AsyncRuntime.Server
