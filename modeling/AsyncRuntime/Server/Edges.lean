import AsyncRuntime.Lib.EdgeTriggered
import AsyncRuntime.Server.Reactor
/-!
# The reactor on edge-triggered sockets

The connections of the epoll server are registered with `EPOLLET`: an event that was
reported is not reported again. Here the reactor of `Epoll` runs on sockets that behave
so, with peers that send, read and hang up at any time, also between a `send` and the
`epoll_ctl` after it.

The reactor never sleeps on work it could do. It leaves a connection only when `recv`
has found nothing more, and whenever bytes are left unsent the socket has been refused
room; `EPOLLOUT` is registered once, with a look at the socket, and stays registered as
long as bytes are left.
-/

namespace AsyncRuntime.Server.Epoll
open Lib
variable {β : Type}

/-! ## The reactor and its sockets -/

/-- The reactor, the sockets of its connections, and how many connections wait in the
backlog of the listener. -/
structure Sys (β : Type) where
  server : State β
  sock : Int → Socket β
  backlog : Nat

/-- What the kernel and the peers choose. -/
inductive SysAct (β : Type) where
  | halt
  | connect
  | arrive (fd : Int) (d : List β)
  | shut (fd : Int)
  | drain (fd : Int) (n : Nat)
  | wait (fds : List (Int × Bool))
  | forget (fd : Int)
  | step
  | accept (fd : Int) (d : List β) (eof : Bool) (space : Nat)
  | acceptFails
  | recv (n : Nat)
  | recvFails
  | send (n : Nat)
  | sendFails

def Events.any (ev : Events) : Bool := ev.epollIn || ev.epollOut || ev.hangup

/-- The descriptor and the length of the `send` that comes next. -/
def State.sending (s : State β) : Option (Int × Nat) :=
  match s.pc with
  | .sendIn fd _ _ | .sendOut fd _ => (s.conns fd).map fun c => (fd, c.readBytes - c.writeBytes)
  | _ => none

namespace Sys
variable (listenFd : Int) (low : Nat) (s : Sys β)

/-- Whether `EPOLLOUT` is registered. -/
def out (fd : Int) : Bool := s.server.registered fd = some true

/-- The events that `epoll_wait` finds on the descriptor; `err` is an error of the socket. -/
def events (fd : Int) (err : Bool) : Events :=
  if fd = listenFd then ⟨true, false, false, false, false⟩
  else ⟨(s.sock fd).readable, s.out fd && (s.sock fd).writable low, err, false, (s.sock fd).eof⟩

/-- Whether `epoll_wait` may report the descriptor. The listener is level-triggered. -/
def reportable (fd : Int) (err : Bool) : Bool :=
  if fd = listenFd then 0 < s.backlog
  else (s.server.conns fd).isSome && (s.sock fd).ready && (s.events listenFd low fd err).any

def setSock (fd : Int) (k : Socket β) : Sys β := { s with sock := Function.update s.sock fd k }

/-- The reactor goes on to `server`; where it has called `epoll_ctl` the socket is looked
at. -/
def follow (sock : Int → Socket β) (server : State β) : Sys β :=
  { s with
    server := server
    sock := fun fd => if server.registered fd = s.server.registered fd then sock fd
      else (sock fd).poll low (server.registered fd = some true) }

/-- One step. -/
def step [Inhabited β] : SysAct β → Option (Sys β)
  | .halt => (Epoll.step listenFd s.server .halt).map (s.follow low s.sock)
  | .connect => some { s with backlog := s.backlog + 1 }
  | .arrive fd d =>
    if (s.server.conns fd).isSome ∧ (s.sock fd).eof = false then some (s.setSock fd ((s.sock fd).arrive d)) else none
  | .shut fd => if (s.server.conns fd).isSome then some (s.setSock fd (s.sock fd).shut) else none
  | .drain fd n =>
    if (s.server.conns fd).isSome then some (s.setSock fd ((s.sock fd).drain low (s.out fd) n)) else none
  | .wait fds =>
    if fds.all fun x => s.reportable listenFd low x.1 x.2 then
      (Epoll.step listenFd s.server (.wait (fds.map fun x => (x.1, s.events listenFd low x.1 x.2)))).map
        (s.follow low fun fd => if fd ∈ fds.map (·.1) then (s.sock fd).report else s.sock fd)
    else none
  | .forget fd =>
    if s.server.pc = .wait ∧ (s.events listenFd low fd false).any = false then some (s.setSock fd (s.sock fd).report)
    else none
  | .step => (Epoll.step listenFd s.server .step).map (s.follow low s.sock)
  -- the bytes `d` have arrived before the connection is accepted
  | .accept fd d eof space =>
    if 0 < s.backlog then
      (Epoll.step listenFd s.server (.accept (some fd))).map fun server =>
        { s.follow low (Function.update s.sock fd ⟨d, eof, space, false, false, d⟩) server with
          backlog := s.backlog - 1 }
    else none
  | .acceptFails => (Epoll.step listenFd s.server (.accept none)).map (s.follow low s.sock)
  | .recv n =>
    match s.server.pc with
    | .recv fd _ _ =>
      if (s.sock fd).inq.isEmpty = false then
        (Epoll.step listenFd s.server (.recv (.bytes ((s.sock fd).inq.take n)))).map
          (s.follow low (Function.update s.sock fd ((s.sock fd).recv n)))
      else
        (Epoll.step listenFd s.server (.recv (if (s.sock fd).eof then .closed else .again))).map (s.follow low s.sock)
    | _ => none
  | .recvFails => (Epoll.step listenFd s.server (.recv .error)).map (s.follow low s.sock)
  -- the peer takes `n` bytes before an `epoll_ctl` that may follow
  | .send n =>
    match s.server.sending with
    | some (fd, len) =>
      (Epoll.step listenFd s.server
        (.send (if (s.sock fd).space = 0 then .again else .bytes (min len (s.sock fd).space)))).map
        (s.follow low (Function.update s.sock fd (((s.sock fd).send len).drain low (s.out fd) n)))
    | none => none
  | .sendFails => (Epoll.step listenFd s.server (.send .error)).map (s.follow low s.sock)

/-- The reactor before its first `epoll_wait`. -/
def init (β : Type) : Sys β := ⟨Epoll.init β, fun _ => ⟨[], false, 0, false, false, []⟩, 0⟩

def machine (β : Type) [Inhabited β] (listenFd : Int) (low : Nat) : Machine (Sys β) (SysAct β) :=
  ⟨init β, fun s => s.step listenFd low⟩

/-- `epoll_wait` has nothing to report. -/
def Idle : Prop := ∀ fd, s.reportable listenFd low fd false = false

end Sys

/-! ## What one event leaves -/

/-- The reactor will call `recv` on the descriptor, or close it, before it waits. -/
def Pc.hears (pc : Pc) (fd : Int) : Prop :=
  pc.receives fd = true ∨ ∃ ev, (fd, ev) ∈ pc.pending ∧ (ev.epollIn = true ∨ ev.hangup = true)

/-- The reactor will call `send` for what is unsent, or close the connection, before it
waits. -/
def Pc.serves (pc : Pc) (fd : Int) : Prop :=
  pc.current = some fd ∨ ∃ ev, (fd, ev) ∈ pc.pending ∧ ev.any = true

/-- A step that handles `fd` and leaves the other connections alone. -/
structure Turn (fd : Int) (rest : List (Int × Events)) (s s' : State β) : Prop where
  conns : ∀ d, d ≠ fd → s'.conns d = s.conns d
  registered : ∀ d, d ≠ fd → s'.registered d = s.registered d
  pending : s'.pc.pending = rest

variable {listenFd fd : Int} {low : Nat} {s s' : State β} {c : ConnectionContext β} {ev : Events}
  {rest : List (Int × Events)}

theorem turn_close : Turn fd rest s (s.close fd rest) :=
  ⟨fun _ hd => Function.update_of_ne hd _ _, fun _ hd => Function.update_of_ne hd _ _, rfl⟩

theorem turn_put {pc : Pc} (hpc : pc.pending = rest) : Turn fd rest s { s.put fd c with pc := pc } :=
  ⟨fun _ hd => Function.update_of_ne hd _ _, fun _ _ => rfl, hpc⟩

theorem turn_finishOut : Turn fd rest s (finishOut s fd c rest) := by
  unfold finishOut
  split
  · exact ⟨fun _ hd => Function.update_of_ne hd _ _, fun _ hd => Function.update_of_ne hd _ _, rfl⟩
  · exact turn_put rfl

theorem turn_afterIn : Turn fd rest s (afterIn s fd c ev rest) := by
  unfold afterIn
  split
  · split
    · exact turn_put rfl
    · exact turn_finishOut
  · exact turn_put rfl

theorem turn_afterSend : Turn fd rest s (afterSend s fd c ev rest) := by
  unfold afterSend
  split
  · split
    · exact turn_afterIn
    · have h : Turn fd rest (s.register fd true)
          (afterIn (s.register fd true) fd { c with wantWrite := true } ev rest) :=
        turn_afterIn
      refine ⟨h.conns, fun d hd => (h.registered d hd).trans ?_, h.pending⟩
      exact Function.update_of_ne hd _ _
  · exact turn_afterIn

/-- What is left of the connection after the branch for `EPOLLOUT`. -/
theorem finishOut_self {c' : ConnectionContext β} (h : (finishOut s fd c rest).conns fd = some c') :
    c'.received = c.received ∧ (c'.writeBytes < c'.readBytes →
      c' = c ∧ (finishOut s fd c rest).registered fd = s.registered fd) := by
  unfold finishOut at h ⊢
  split at h
  · simp only [State.put, State.register, Function.update_self, Option.some.injEq] at h
    subst h
    exact ⟨rfl, fun hlt => absurd hlt (Nat.lt_irrefl 0)⟩
  · next hne =>
    simp only [State.put, Function.update_self, Option.some.injEq] at h
    subst h
    rw [if_neg hne]
    exact ⟨rfl, fun _ => ⟨rfl, rfl⟩⟩

/-- What is left of it after the branch for `EPOLLIN`. -/
theorem afterIn_self {c' : ConnectionContext β} (h : (afterIn s fd c ev rest).conns fd = some c') :
    c'.received = c.received ∧ (c'.writeBytes < c'.readBytes → c' = c ∧
      (afterIn s fd c ev rest).registered fd = s.registered fd ∧
      (ev.epollOut = true → (afterIn s fd c ev rest).pc.current = some fd)) := by
  unfold afterIn at h ⊢
  split at h
  · next hout =>
    rw [if_pos hout]
    split at h
    · next hlt =>
      simp only [State.put, Function.update_self, Option.some.injEq] at h
      subst h
      rw [if_pos hlt]
      exact ⟨rfl, fun _ => ⟨rfl, rfl, fun _ => rfl⟩⟩
    · next hle =>
      rw [if_neg hle]
      obtain ⟨hr, hkeep⟩ := finishOut_self h
      exact ⟨hr, fun hlt => absurd ((hkeep hlt).1 ▸ hlt) hle⟩
  · next hout =>
    simp only [State.put, Function.update_self, Option.some.injEq] at h
    subst h
    rw [if_neg hout]
    exact ⟨rfl, fun _ => ⟨rfl, rfl, fun ho => absurd ho hout⟩⟩

/-- What is left of it after the `send` of the branch for `EPOLLIN`: if bytes are unsent,
`EPOLLOUT` is registered. -/
theorem afterSend_self {c' : ConnectionContext β} (hreg : s.registered fd = some c.wantWrite)
    (h : (afterSend s fd c ev rest).conns fd = some c') :
    c'.received = c.received ∧ (c'.writeBytes < c'.readBytes → c.writeBytes < c.readBytes ∧
      (afterSend s fd c ev rest).registered fd = some true) := by
  unfold afterSend at h ⊢
  split at h
  · next hlt =>
    rw [if_pos hlt]
    split at h
    · next hw =>
      obtain ⟨hr, hkeep⟩ := afterIn_self h
      rw [if_pos hw]
      exact ⟨hr, fun hlt' => ⟨hlt, by rw [(hkeep hlt').2.1, hreg, hw]⟩⟩
    · next hw =>
      obtain ⟨hr, hkeep⟩ := afterIn_self h
      rw [if_neg hw]
      refine ⟨hr, fun hlt' => ⟨hlt, ?_⟩⟩
      rw [(hkeep hlt').2.1]
      exact Function.update_self fd (some true) s.registered
  · next hle =>
    obtain ⟨hr, hkeep⟩ := afterIn_self h
    refine ⟨hr, fun hlt => ?_⟩
    have hreset := (hkeep hlt).1
    subst hreset
    exact absurd hlt (Nat.lt_irrefl 0)

/-! ## A connection is watched -/

/-- What holds of a connection and its socket along every run. -/
structure Watch (low : Nat) (pc : Pc) (fd : Int) (c : ConnectionContext β) (k : Socket β) : Prop where
  bytes : c.received ++ k.inq = k.arrived
  heard : pc.hears fd ∨ k.WakesReader
  served : c.writeBytes < c.readBytes → pc.serves fd ∨ k.WakesWriter low

variable {pc pc' : Pc} {k : Socket β}

theorem Watch.mono (h : Watch low pc fd c k) (hh : pc.hears fd → pc'.hears fd) (hs : pc.serves fd → pc'.serves fd) :
    Watch low pc' fd c k :=
  ⟨h.bytes, h.heard.imp_left hh, fun hlt => (h.served hlt).imp_left hs⟩

/-- `epoll_ctl` looks at the socket. -/
theorem Watch.poll (h : Watch low pc fd c k) (out : Bool) : Watch low pc fd c (k.poll low out) :=
  ⟨h.bytes, .inr (Socket.wakesReader_poll out), fun hlt => (h.served hlt).imp_right (·.poll out)⟩

theorem Watch.arrive (h : Watch low pc fd c k) (d : List β) : Watch low pc fd c (k.arrive d) := by
  refine ⟨?_, .inr (.of_ready rfl), fun hlt => (h.served hlt).imp_right (·.arrive d)⟩
  simp only [Socket.arrive, ← List.append_assoc, h.bytes]

theorem Watch.shut (h : Watch low pc fd c k) : Watch low pc fd c k.shut :=
  ⟨h.bytes, .inr (.of_ready rfl), fun hlt => (h.served hlt).imp_right (·.shut)⟩

/-- The peer reads; if bytes are unsent and nobody is about to send them, `EPOLLOUT` is
registered. -/
theorem Watch.drain (h : Watch low pc fd c k) {out : Bool}
    (hout : c.writeBytes < c.readBytes → pc.serves fd ∨ out = true) (n : Nat) :
    Watch low pc fd c (k.drain low out n) := by
  obtain ⟨hinq, harr, -⟩ := Socket.drain_frame low k out n
  refine ⟨?_, h.heard.imp_right fun hr => hr.drain out n, fun hlt => ?_⟩
  · rw [hinq, harr]; exact h.bytes
  · rcases hout hlt with hs | rfl
    · exact .inl hs
    · exact (h.served hlt).imp_right (·.drain n)

/-! ## The system -/

/-- What holds along every run. -/
structure Covered (listenFd : Int) (low : Nat) (s : Sys β) : Prop where
  inv : Inv listenFd s.server
  watch : ∀ {fd c}, s.server.conns fd = some c → Watch low s.server.pc fd c (s.sock fd)

variable {S S' : Sys β} {sock : Int → Socket β}

theorem follow_sock (h : s'.registered fd = S.server.registered fd) : (S.follow low sock s').sock fd = sock fd :=
  if_pos h

/-- What is watched stays so when the reactor goes on. -/
theorem Watch.follow (h : Watch low pc fd c (sock fd)) : Watch low pc fd c ((S.follow low sock s').sock fd) := by
  simp only [Sys.follow]
  split
  · exact h
  · exact h.poll _

/-- The sockets change and the reactor does not. -/
theorem Covered.setSock (h : Covered listenFd low S) (hw : ∀ c, S.server.conns fd = some c →
    Watch low S.server.pc fd c k) : Covered listenFd low (S.setSock fd k) := by
  refine ⟨h.inv, fun {d c} hd => ?_⟩
  simp only [Sys.setSock] at hd ⊢
  by_cases hfd : d = fd
  · subst hfd
    rw [Function.update_self]
    exact hw c hd
  · rw [Function.update_of_ne hfd]
    exact h.watch hd

/-- The reactor handles the event of one connection. -/
theorem Covered.turn (h : Covered listenFd low S) (hinv : Inv listenFd s') (ht : Turn fd rest S.server s')
    (hpend : ∀ d ev, d ≠ fd → (d, ev) ∈ S.server.pc.pending → (d, ev) ∈ rest)
    (hcur : ∀ d, S.server.pc.current = some d → d = fd) (hsock : ∀ d, d ≠ fd → sock d = S.sock d)
    (hself : ∀ c, s'.conns fd = some c → Watch low s'.pc fd c ((S.follow low sock s').sock fd)) :
    Covered listenFd low (S.follow low sock s') := by
  refine ⟨hinv, fun {d c} hd => ?_⟩
  by_cases hfd : d = fd
  · subst hfd
    exact hself c hd
  · have hd : S.server.conns d = some c := (ht.conns d hfd).symm.trans hd
    rw [follow_sock (ht.registered d hfd), hsock d hfd]
    refine (h.watch hd).mono ?_ ?_
    · rintro (hr | ⟨ev, hev, hin⟩)
      · exact absurd (hcur d (Pc.current_of_receives hr)) hfd
      · exact .inr ⟨ev, ht.pending ▸ hpend d ev hfd hev, hin⟩
    · rintro (hr | ⟨ev, hev, hin⟩)
      · exact absurd (hcur d hr) hfd
      · exact .inr ⟨ev, ht.pending ▸ hpend d ev hfd hev, hin⟩

/-- The reactor moves and the connections stay. -/
theorem Covered.move (h : Covered listenFd low S) (hinv : Inv listenFd s') (hc : s'.conns = S.server.conns)
    (hr : s'.registered = S.server.registered) (hw : ∀ {d c}, S.server.conns d = some c →
      Watch low S.server.pc d c (S.sock d) → Watch low s'.pc d c (sock d)) :
    Covered listenFd low (S.follow low sock s') := by
  refine ⟨hinv, fun {d c} hd => ?_⟩
  have hd : S.server.conns d = some c := by rw [← hc]; exact hd
  rw [follow_sock (by rw [hr])]
  exact hw hd (h.watch hd)

/-- Unsent bytes are about to be sent, or `EPOLLOUT` is registered. -/
theorem Inv.serves_or_out (h : Inv listenFd S.server) (hc : S.server.conns fd = some c)
    (hlt : c.writeBytes < c.readBytes) : S.server.pc.serves fd ∨ S.out fd = true := by
  by_cases hread : S.server.pc.reading = some fd
  · exact .inl (.inl (Pc.current_of_reading hread))
  · refine .inr ?_
    simp only [Sys.out, h.registered fd, hc, Option.map_some, h.armed hc hread hlt, decide_true]

/-- Outside the handling of its event and after it in the list, a connection is awake. -/
theorem Watch.wakesReader (h : Watch low pc fd c k) (hr : pc.receives fd = false) (hp : fd ∉ pc.pending.map (·.1)) :
    k.WakesReader := by
  refine h.heard.resolve_left ?_
  rintro (hr' | ⟨ev, hev, -⟩)
  · rw [hr] at hr'; cases hr'
  · exact hp (List.mem_map.2 ⟨_, hev, rfl⟩)

/-! ## Every step keeps the connections covered -/

theorem Covered.wait [Inhabited β] (h : Covered listenFd low S) {fds : List (Int × Bool)}
    (hs : S.step listenFd low (.wait fds) = some S') : Covered listenFd low S' := by
  simp only [Sys.step] at hs
  split at hs
  case isFalse => cases hs
  case isTrue hrep =>
  obtain ⟨server, hstep, rfl⟩ := Option.map_eq_some_iff.1 hs
  have hinv := h.inv.step hstep
  simp only [Epoll.step] at hstep
  split at hstep
  case h_2 => cases hstep
  case h_1 hpc =>
  split at hstep <;> cases hstep
  refine h.move hinv rfl rfl fun {d c} hd hw => ?_
  by_cases hmem : d ∈ fds.map (·.1)
  · rw [if_pos hmem]
    obtain ⟨⟨d, err⟩, hx, rfl⟩ := List.mem_map.1 hmem
    have hne : d ≠ listenFd := by rintro rfl; rw [h.inv.listen] at hd; cases hd
    have hlisted : (d, S.events listenFd low d err) ∈ fds.map fun x => (x.1, S.events listenFd low x.1 x.2) :=
      List.mem_map.2 ⟨(d, err), hx, rfl⟩
    have hany : (S.events listenFd low d err).any = true := by
      have hr := List.all_eq_true.1 hrep (d, err) hx
      simp only [Sys.reportable, if_neg hne, Bool.and_eq_true] at hr
      exact hr.2
    refine ⟨hw.bytes, ?_, fun _ => .inl (.inr ⟨_, hlisted, hany⟩)⟩
    cases hread : (S.sock d).readable with
    | true => exact .inl (.inr ⟨_, hlisted, .inl (by simp only [Sys.events, if_neg hne, hread])⟩)
    | false => exact .inr fun hr => absurd (hread.symm.trans hr) Bool.false_ne_true
  · rw [if_neg hmem]
    have hnot : ¬ S.server.pc.hears d ∧ ¬ S.server.pc.serves d := by
      rw [hpc]
      constructor <;> rintro (hr | ⟨ev, hev, -⟩) <;> first | cases hr | cases hev
    exact hw.mono (fun hh => absurd hh hnot.1) (fun hs => absurd hs hnot.2)

theorem Covered.forget [Inhabited β] (h : Covered listenFd low S) (hs : S.step listenFd low (.forget fd) = some S') :
    Covered listenFd low S' := by
  simp only [Sys.step] at hs
  split at hs <;> cases hs
  next hev =>
  obtain ⟨hpc, hany⟩ := hev
  refine h.setSock fun c hc => ?_
  have hne : fd ≠ listenFd := by rintro rfl; rw [h.inv.listen] at hc; cases hc
  simp only [Events.any, Sys.events, if_neg hne, Bool.or_eq_false_iff, Bool.and_eq_false_iff] at hany
  obtain ⟨⟨hread, hwrite⟩, -⟩ := hany
  have hw := h.watch hc
  refine ⟨hw.bytes, .inr fun hr => absurd (hread.symm.trans hr) Bool.false_ne_true, fun hlt => ?_⟩
  have hnot : ¬ S.server.pc.serves fd := by
    rw [hpc]
    rintro (hr | ⟨ev, hev, -⟩)
    · cases hr
    · cases hev
  -- there is no room, and the socket has been refused
  have hout := (h.inv.serves_or_out hc hlt).resolve_left hnot
  have hfull : (S.sock fd).writable low = false := hwrite.resolve_left (by rw [hout]; nofun)
  refine .inr ⟨fun hr => absurd (hfull.symm.trans hr) nofun, ?_⟩
  exact ((hw.served hlt).resolve_left hnot).refused

/-- The event at the head of the list. -/
theorem Covered.handle (h : Covered listenFd low S) (hpc : S.server.pc = .events ((fd, ev) :: rest)) :
    Covered listenFd low (S.follow low S.sock (handle listenFd S.server fd ev rest)) := by
  have hinv : Inv listenFd (Epoll.handle listenFd S.server fd ev rest) := h.inv.handle hpc
  have hcur : ∀ d, S.server.pc.current = some d → d = fd := by rw [hpc]; nofun
  have hpend : ∀ d e, d ≠ fd → (d, e) ∈ S.server.pc.pending → (d, e) ∈ rest := by
    intro d e hd he
    rw [hpc] at he
    rcases List.mem_cons.1 he with he | he
    · exact absurd (congrArg Prod.fst he) hd
    · exact he
  have hnodup := h.inv.nodup
  rw [hpc] at hnodup
  obtain ⟨hnot, -⟩ := List.nodup_cons.1 hnodup
  by_cases hl : fd = listenFd
  · have heq : Epoll.handle listenFd S.server fd ev rest = { S.server with pc := .accept rest } := if_pos hl
    rw [heq] at hinv ⊢
    refine h.move hinv rfl rfl fun {d c} hd hw => ?_
    have hne : d ≠ fd := by rintro rfl; rw [hl, h.inv.listen] at hd; cases hd
    refine hw.mono ?_ ?_
    · rintro (hr | ⟨e, he, hin⟩)
      · rw [hpc] at hr; cases hr
      · exact .inr ⟨e, hpend d e hne he, hin⟩
    · rintro (hr | ⟨e, he, hin⟩)
      · rw [hpc] at hr; cases hr
      · exact .inr ⟨e, hpend d e hne he, hin⟩
  · obtain ⟨c, hc⟩ : ∃ c, S.server.conns fd = some c := by
      have hsome := (h.inv.pending (fd, ev) (by rw [hpc]; exact List.mem_cons_self)).resolve_left hl
      exact Option.isSome_iff_exists.1 hsome
    have hw := h.watch hc
    by_cases hhup : ev.hangup = true
    · have heq : Epoll.handle listenFd S.server fd ev rest = S.server.close fd rest := by
        simp only [Epoll.handle, if_neg hl, if_pos hhup]
      rw [heq] at hinv ⊢
      refine h.turn hinv turn_close hpend hcur (fun _ _ => rfl) fun c' hc' => ?_
      simp [State.close] at hc'
    · by_cases hin : ev.epollIn = true
      · have heq : Epoll.handle listenFd S.server fd ev rest = { S.server.put fd c with pc := .recv fd ev rest } := by
          simp only [Epoll.handle, if_neg hl, if_neg hhup, if_pos hin, hc, Option.getD_some]
        rw [heq] at hinv ⊢
        refine h.turn hinv (turn_put rfl) hpend hcur (fun _ _ => rfl) fun c' hc' => Watch.follow ?_
        simp only [State.put, Function.update_self, Option.some.injEq] at hc'
        subst hc'
        exact ⟨hw.bytes, .inl (.inl (decide_eq_true rfl)), fun _ => .inl (.inl rfl)⟩
      · have heq : Epoll.handle listenFd S.server fd ev rest = afterIn S.server fd c ev rest := by
          simp only [Epoll.handle, if_neg hl, if_neg hhup, if_neg hin, hc, Option.getD_some]
        rw [heq] at hinv ⊢
        refine h.turn hinv turn_afterIn hpend hcur (fun _ _ => rfl) fun c' hc' => Watch.follow ?_
        obtain ⟨hrec, hkeep⟩ := afterIn_self hc'
        have honly : ∀ e, (fd, e) ∈ S.server.pc.pending → e = ev := by
          intro e he
          rw [hpc] at he
          rcases List.mem_cons.1 he with he | he
          · exact congrArg Prod.snd he
          · exact absurd (List.mem_map.2 ⟨_, he, rfl⟩) hnot
        refine ⟨by rw [hrec]; exact hw.bytes, .inr (hw.heard.resolve_left ?_), fun hlt => ?_⟩
        · rintro (hr | ⟨e, he, hhear⟩)
          · rw [hpc] at hr; cases hr
          · rw [honly e he] at hhear
            exact hhear.elim hin hhup
        · obtain ⟨rfl, -, hout⟩ := hkeep hlt
          by_cases ho : ev.epollOut = true
          · exact .inl (.inl (hout ho))
          · refine .inr ((hw.served hlt).resolve_left ?_)
            rintro (hr | ⟨e, he, hany⟩)
            · rw [hpc] at hr; cases hr
            · rw [honly e he] at hany
              simp [Events.any, hin, hhup, ho] at hany

/-- While a call for a connection is made, the others keep their events. -/
theorem Covered.call (h : Covered listenFd low S) (hcur : S.server.pc.current = some fd)
    (hpend : S.server.pc.pending = rest) (hinv : Inv listenFd s') (ht : Turn fd rest S.server s')
    (hsock : ∀ d, d ≠ fd → sock d = S.sock d)
    (hself : ∀ c, s'.conns fd = some c → Watch low s'.pc fd c ((S.follow low sock s').sock fd)) :
    Covered listenFd low (S.follow low sock s') := by
  refine h.turn hinv ht (fun d e _ he => hpend ▸ he) (fun d hd => ?_) hsock hself
  exact Option.some.inj (hd.symm.trans hcur)

/-- The connection is closed. -/
theorem Covered.close (h : Covered listenFd low S) (hcur : S.server.pc.current = some fd)
    (hpend : S.server.pc.pending = rest) (hinv : Inv listenFd (S.server.close fd rest)) :
    Covered listenFd low (S.follow low S.sock (S.server.close fd rest)) := by
  refine h.call hcur hpend hinv turn_close (fun _ _ => rfl) fun c' hc' => ?_
  simp [State.close] at hc'

theorem Covered.recv [Inhabited β] (h : Covered listenFd low S) {n : Nat}
    (hs : S.step listenFd low (.recv n) = some S') : Covered listenFd low S' := by
  simp only [Sys.step] at hs
  split at hs
  case h_2 => cases hs
  case h_1 fd ev rest hpc =>
  have hcur : S.server.pc.current = some fd := by rw [hpc]; rfl
  have hpend : S.server.pc.pending = rest := by rw [hpc]; rfl
  obtain ⟨c, hc⟩ := Option.isSome_iff_exists.1 (h.inv.current fd hcur).1
  have hw := h.watch hc
  split at hs
  · obtain ⟨server, hstep, rfl⟩ := Option.map_eq_some_iff.1 hs
    have hinv := h.inv.step hstep
    simp only [Epoll.step, hpc, hc, recvStep] at hstep
    split at hstep <;> cases hstep
    refine h.call hcur hpend hinv (turn_put rfl)
      (fun d hd => Function.update_of_ne hd _ _) fun c' hc' => Watch.follow ?_
    simp only [State.put, Function.update_self, Option.some.injEq] at hc'
    subst hc'
    rw [Function.update_self]
    refine ⟨?_, .inl (.inl (decide_eq_true rfl)), fun _ => .inl (.inl rfl)⟩
    simp only [ConnectionContext.recvd, Socket.recv, List.append_assoc, List.take_append_drop]
    exact hw.bytes
  · next hempty =>
    obtain ⟨server, hstep, rfl⟩ := Option.map_eq_some_iff.1 hs
    have hinv := h.inv.step hstep
    simp only [Epoll.step, hpc, hc] at hstep
    split at hstep
    · simp only [recvStep, Option.some.injEq] at hstep
      subst hstep
      exact h.close hcur hpend hinv
    · next heof =>
      have hread : (S.sock fd).WakesReader := by
        intro hr
        simp only [Socket.readable, Bool.or_eq_true, Bool.not_eq_true'] at hr
        exact (hr.resolve_left hempty |> heof).elim
      simp only [recvStep, Option.some.injEq] at hstep
      split at hstep
      · subst hstep
        refine h.call hcur hpend hinv ⟨fun _ _ => rfl, fun _ _ => rfl, rfl⟩
          (fun _ _ => rfl) fun c' hc' => Watch.follow ?_
        cases hc.symm.trans hc'
        exact ⟨hw.bytes, .inr hread, fun _ => .inl (.inl rfl)⟩
      · next hle =>
        subst hstep
        refine h.call hcur hpend hinv turn_afterIn (fun _ _ => rfl) fun c' hc' => Watch.follow ?_
        obtain ⟨hrec, hkeep⟩ := afterIn_self hc'
        refine ⟨by rw [hrec]; exact hw.bytes, .inr hread, fun hlt => ?_⟩
        exact absurd ((hkeep hlt).1 ▸ hlt) hle

/-- What a `send` has taken. -/
theorem sendStep_taken {next : ConnectionContext β → State β} {space : Nat}
    (hs : sendStep s fd c rest next
      (if space = 0 then .again else .bytes (min (c.readBytes - c.writeBytes) space)) = some s') :
    ∃ c', s' = next c' ∧ c'.received = c.received ∧ c'.wantWrite = c.wantWrite ∧
      (c'.writeBytes < c'.readBytes → space < c.readBytes - c.writeBytes) := by
  split at hs
  · next h0 =>
    cases hs
    exact ⟨c, rfl, rfl, rfl, fun hlt => by omega⟩
  · simp only [sendStep] at hs
    split at hs <;> cases hs
    refine ⟨_, rfl, rfl, rfl, fun hlt => ?_⟩
    simp only [ConnectionContext.sentBytes] at hlt
    omega

/-- The socket after a `send`, the reads of the peer and an `epoll_ctl`. -/
theorem Watch.sent (hw : Watch low pc fd c k) (hlow : 0 < low) (hr : k.WakesReader) {len n : Nat} {out : Bool}
    {c' : ConnectionContext β} (hrec : c'.received = c.received)
    (hunsent : c'.writeBytes < c'.readBytes → k.space < len ∧ (out = true ∨ s'.registered fd = some true))
    (hout : out = decide (S.server.registered fd = some true)) (hsock : sock fd = (k.send len).drain low out n) :
    Watch low pc' fd c' ((S.follow low sock s').sock fd) := by
  obtain ⟨hinq, harr, -⟩ := Socket.drain_frame low (k.send len) out n
  have hread : ((k.send len).drain low out n).WakesReader := Socket.WakesReader.drain (k := k.send len) hr out n
  refine ⟨?_, .inr ?_, fun hlt => .inr ?_⟩
  · simp only [Sys.follow, hsock]
    split
    · rw [hinq, harr, hrec]; exact hw.bytes
    · rw [hrec]
      exact (congrArg (c.received ++ ·) hinq).trans (hw.bytes.trans harr.symm)
  · simp only [Sys.follow, hsock]
    split
    · exact hread
    · exact Socket.wakesReader_poll _
  · obtain ⟨hfull, hreg⟩ := hunsent hlt
    have hsend := Socket.wakesWriter_send (k := k) hlow hfull
    simp only [Sys.follow, hsock]
    cases hout' : out with
    | true =>
      split
      · exact hsend.drain n
      · exact (hsend.drain n).poll _
    | false =>
      have hnew : s'.registered fd = some true := by
        rw [hout'] at hreg
        exact hreg.resolve_left nofun
      have hold : S.server.registered fd ≠ some true := by
        rw [hout'] at hout
        exact of_decide_eq_false hout.symm
      rw [if_neg (by rw [hnew]; exact hold.symm), hnew, decide_eq_true rfl]
      exact (hsend.refused.drain false n).poll

theorem Covered.send [Inhabited β] (h : Covered listenFd low S) (hlow : 0 < low) {n : Nat}
    (hs : S.step listenFd low (.send n) = some S') : Covered listenFd low S' := by
  simp only [Sys.step, State.sending] at hs
  split at hs
  case h_2 => cases hs
  case h_1 fd len hsending =>
  obtain ⟨server, hstep, rfl⟩ := Option.map_eq_some_iff.1 hs
  have hinv := h.inv.step hstep
  split at hsending
  · next fd ev rest hpc =>
    obtain ⟨c, hc, heq⟩ := Option.map_eq_some_iff.1 hsending
    cases heq
    have hcur : S.server.pc.current = some fd := by rw [hpc]; rfl
    have hpend : S.server.pc.pending = rest := by rw [hpc]; rfl
    have hw := h.watch hc
    have hread := hw.wakesReader (by rw [hpc]; rfl) (h.inv.current fd hcur).2
    have hreg := h.inv.registered fd
    rw [hc, Option.map_some] at hreg
    simp only [Epoll.step, hpc, hc] at hstep
    obtain ⟨c₁, rfl, hrec, hwant, htaken⟩ := sendStep_taken hstep
    refine h.call hcur hpend hinv turn_afterSend (fun d hd => Function.update_of_ne hd _ _) fun c' hc' => ?_
    obtain ⟨hrec', hkeep⟩ := afterSend_self (by rw [hreg, hwant]) hc'
    refine hw.sent hlow hread (hrec'.trans hrec) (fun hlt => ?_) rfl (Function.update_self ..)
    exact ⟨htaken (hkeep hlt).1, .inr (hkeep hlt).2⟩
  · next fd rest hpc =>
    obtain ⟨c, hc, heq⟩ := Option.map_eq_some_iff.1 hsending
    cases heq
    have hcur : S.server.pc.current = some fd := by rw [hpc]; rfl
    have hpend : S.server.pc.pending = rest := by rw [hpc]; rfl
    have hw := h.watch hc
    have hread := hw.wakesReader (by rw [hpc]; rfl) (h.inv.current fd hcur).2
    simp only [Epoll.step, hpc, hc] at hstep
    obtain ⟨c₁, rfl, hrec, hwant, htaken⟩ := sendStep_taken hstep
    refine h.call hcur hpend hinv turn_finishOut (fun d hd => Function.update_of_ne hd _ _) fun c' hc' => ?_
    obtain ⟨hrec', hkeep⟩ := finishOut_self hc'
    refine hw.sent hlow hread (hrec'.trans hrec) (fun hlt => ?_) rfl (Function.update_self ..)
    obtain ⟨rfl, -⟩ := hkeep hlt
    -- what is unsent now was unsent before, with `EPOLLOUT` registered
    have hfull := htaken hlt
    have harmed : c.wantWrite = true := h.inv.armed hc (by simp [hpc, Pc.reading]) (by omega)
    exact ⟨hfull, .inl (by simp only [h.inv.registered fd, hc, Option.map_some, harmed, decide_true])⟩
  · cases hsending

theorem Covered.accept [Inhabited β] (h : Covered listenFd low S) {d : List β} {eof : Bool} {space : Nat}
    (hs : S.step listenFd low (.accept fd d eof space) = some S') : Covered listenFd low S' := by
  simp only [Sys.step] at hs
  split at hs
  case isFalse => cases hs
  case isTrue =>
  obtain ⟨server, hstep, rfl⟩ := Option.map_eq_some_iff.1 hs
  have hinv := h.inv.step hstep
  simp only [Epoll.step] at hstep
  split at hstep
  · cases ‹some fd = none›
  · next rest fd' hpc hfd =>
    cases hfd
    split at hstep <;> cases hstep
    next hnew =>
    have hpend : S.server.pc.pending = rest := by rw [hpc]; rfl
    have hturn : Turn fd rest S.server
        { (S.server.put fd .accepted).register fd false with pc := .accept rest } :=
      ⟨fun _ hd => Function.update_of_ne hd _ _, fun _ hd => Function.update_of_ne hd _ _, rfl⟩
    have hcov : Covered listenFd low (S.follow low (Function.update S.sock fd ⟨d, eof, space, false, false, d⟩)
        { (S.server.put fd .accepted).register fd false with pc := .accept rest }) := by
      refine h.turn hinv hturn (fun _ _ _ he => hpend ▸ he) (by simp [hpc, Pc.current])
        (fun d hd => Function.update_of_ne hd _ S.sock) fun c hc => ?_
      simp only [State.put, State.register, Function.update_self, Option.some.injEq] at hc
      subst hc
      -- `EPOLL_CTL_ADD` looks at what has arrived before
      have hreg : S.server.registered fd = none := by
        rw [h.inv.registered, Option.isNone_iff_eq_none.1 hnew.2]; rfl
      simp only [Sys.follow, State.register, Function.update_self, hreg]
      rw [if_neg (by simp)]
      exact ⟨rfl, .inr (Socket.wakesReader_poll _), fun hlt => absurd hlt (Nat.lt_irrefl 0)⟩
    exact ⟨hcov.inv, hcov.watch⟩
  · cases hstep

theorem Covered.step [Inhabited β] (hlow : 0 < low) {a : SysAct β} (h : Covered listenFd low S)
    (hs : S.step listenFd low a = some S') : Covered listenFd low S' := by
  cases a with
  | halt =>
    cases hs
    exact h.move (h.inv.step (a := .halt) rfl) rfl rfl fun _ hw => hw
  | connect => cases hs; exact ⟨h.inv, h.watch⟩
  | arrive fd d =>
    simp only [Sys.step] at hs
    split at hs <;> cases hs
    exact h.setSock fun c hc => (h.watch hc).arrive d
  | shut fd =>
    simp only [Sys.step] at hs
    split at hs <;> cases hs
    exact h.setSock fun c hc => (h.watch hc).shut
  | drain fd n =>
    simp only [Sys.step] at hs
    split at hs <;> cases hs
    exact h.setSock fun c hc => (h.watch hc).drain (fun hlt => h.inv.serves_or_out hc hlt) n
  | wait fds => exact h.wait hs
  | forget fd => exact h.forget hs
  | step =>
    obtain ⟨server, hstep, rfl⟩ := Option.map_eq_some_iff.1 hs
    have hinv := h.inv.step hstep
    simp only [Epoll.step] at hstep
    have hnone {pc' : Pc} (hpc : S.server.pc.pending = []) (hcur : S.server.pc.current = none) {d c}
        (hw : Watch low S.server.pc d c (S.sock d)) : Watch low pc' d c (S.sock d) := by
      refine hw.mono ?_ ?_
      · rintro (hr | ⟨ev, hev, -⟩)
        · exact absurd (hcur.symm.trans (Pc.current_of_receives hr)) (by simp)
        · rw [hpc] at hev; cases hev
      · rintro (hr | ⟨ev, hev, -⟩)
        · exact absurd (hcur.symm.trans hr) (by simp)
        · rw [hpc] at hev; cases hev
    split at hstep
    · next hpc =>
      split at hstep <;> cases hstep
      exact h.move hinv rfl rfl fun _ hw => hnone (by rw [hpc]; rfl) (by rw [hpc]; rfl) hw
    · next hpc =>
      cases hstep
      exact h.move hinv rfl rfl fun _ hw => hnone (by rw [hpc]; rfl) (by rw [hpc]; rfl) hw
    · next hpc => cases hstep; exact h.handle hpc
    · cases hstep
  | accept fd d eof space => exact h.accept hs
  | acceptFails =>
    obtain ⟨server, hstep, rfl⟩ := Option.map_eq_some_iff.1 hs
    have hinv := h.inv.step hstep
    simp only [Epoll.step] at hstep
    split at hstep
    · next rest hpc _ =>
      cases hstep
      exact h.move hinv rfl rfl fun _ hw => hw.mono (by rw [hpc]; exact id) (by rw [hpc]; exact id)
    · cases ‹none = some _›
    · cases hstep
  | recv n => exact h.recv hs
  | recvFails =>
    obtain ⟨server, hstep, rfl⟩ := Option.map_eq_some_iff.1 hs
    have hinv := h.inv.step hstep
    simp only [Epoll.step] at hstep
    split at hstep
    · next hpc =>
      split at hstep
      · cases hstep
        exact h.close (by rw [hpc]; rfl) (by rw [hpc]; rfl) hinv
      · cases hstep
    · cases hstep
  | send n => exact h.send hlow hs
  | sendFails =>
    obtain ⟨server, hstep, rfl⟩ := Option.map_eq_some_iff.1 hs
    have hinv := h.inv.step hstep
    simp only [Epoll.step] at hstep
    split at hstep
    · next hpc =>
      split at hstep
      · cases hstep
        exact h.close (by rw [hpc]; rfl) (by rw [hpc]; rfl) hinv
      · cases hstep
    · next hpc =>
      split at hstep
      · cases hstep
        exact h.close (by rw [hpc]; rfl) (by rw [hpc]; rfl) hinv
      · cases hstep
    · cases hstep

theorem covered_of_run [Inhabited β] (hlow : 0 < low) {acts : List (SysAct β)}
    (h : (Sys.machine β listenFd low).Run acts S) : Covered listenFd low S := by
  refine Machine.Run.inv (M := Sys.machine β listenFd low) (Covered listenFd low) ⟨?_, nofun⟩
    (fun _ _ _ hc hs => hc.step hlow hs) h
  exact ⟨nofun, nofun, fun _ => rfl, rfl, nofun, List.nodup_nil, nofun⟩

/-- Before the reactor waits, every open connection will be noticed. -/
theorem Covered.awake (h : Covered listenFd low S) (hpc : S.server.pc = .wait) {c : ConnectionContext β}
    (hc : S.server.conns fd = some c) :
    (S.sock fd).WakesReader ∧ (c.writeBytes < c.readBytes → S.out fd = true ∧ (S.sock fd).WakesWriter low) := by
  have hnot : ¬ S.server.pc.serves fd := by
    rw [hpc]
    rintro (hr | ⟨ev, hev, -⟩)
    · cases hr
    · cases hev
  refine ⟨(h.watch hc).wakesReader (by rw [hpc]; rfl) (by rw [hpc]; exact List.not_mem_nil), fun hlt => ⟨?_, ?_⟩⟩
  · exact (h.inv.serves_or_out hc hlt).resolve_left hnot
  · exact ((h.watch hc).served hlt).resolve_left hnot

/-- When `epoll_wait` has nothing to report of a connection, everything that has arrived has been
received, and sent back unless there is no room. -/
theorem Covered.idle (h : Covered listenFd low S) (hpc : S.server.pc = .wait)
    (hquiet : S.reportable listenFd low fd false = false) {c : ConnectionContext β} (hc : S.server.conns fd = some c) :
    c.received = (S.sock fd).arrived ∧ (S.sock fd).eof = false ∧
      (c.sent = (S.sock fd).arrived ∨ (S.sock fd).space < low ∧ (S.sock fd).nospace = true ∧ S.out fd = true) := by
  obtain ⟨hread, hwrite⟩ := h.awake hpc hc
  have hne : fd ≠ listenFd := by rintro rfl; rw [h.inv.listen] at hc; cases hc
  simp only [Sys.reportable, if_neg hne, hc, Option.isSome_some, Bool.true_and, Bool.and_eq_false_iff] at hquiet
  have hevents (hready : (S.sock fd).ready = true) :
      (S.sock fd).readable = false ∧ (S.out fd && (S.sock fd).writable low) = false := by
    have hany := hquiet.resolve_left (by rw [hready]; nofun)
    simp only [Events.any, Sys.events, if_neg hne, Bool.or_eq_false_iff] at hany
    exact hany.1
  have hnothing : (S.sock fd).readable = false := by
    by_contra hr
    have hr : (S.sock fd).readable = true := by simpa using hr
    exact absurd ((hevents (hread hr)).1.symm.trans hr) nofun
  simp only [Socket.readable, Bool.or_eq_false_iff, Bool.not_eq_false', List.isEmpty_iff] at hnothing
  have hreceived : c.received = (S.sock fd).arrived := by
    rw [← (h.watch hc).bytes, hnothing.1, List.append_nil]
  refine ⟨hreceived, hnothing.2, ?_⟩
  have hsound := h.inv.sound hc
  by_cases hlt : c.writeBytes < c.readBytes
  · obtain ⟨hout, hwakes⟩ := hwrite hlt
    have hfull : (S.sock fd).writable low = false := by
      by_contra hroom
      have hroom : (S.sock fd).writable low = true := by simpa using hroom
      have hno := (hevents (hwakes.ready hroom)).2
      rw [hout, hroom] at hno
      cases hno
    exact .inr ⟨by simpa [Socket.writable] using hfull, hwakes.refused hfull, hout⟩
  · obtain ⟨before, hr, hs⟩ := hsound.bytes
    have heq : c.writeBytes = c.readBytes := Nat.le_antisymm hsound.le (Nat.le_of_not_lt hlt)
    exact .inl (by rw [← hreceived, hr, hs, heq])

/-- When `epoll_wait` has nothing to report of the listener, no connection is in the backlog. -/
theorem Sys.backlog_of_quiet (hquiet : S.reportable listenFd low listenFd false = false) : S.backlog = 0 := by
  simp only [Sys.reportable, if_true, decide_eq_false_iff_not] at hquiet
  omega

/-- **The reactor never sleeps on work it could do.** Before it waits, every open
connection that has something to receive is in the ready list; so is every one with
unsent bytes and room for them, `EPOLLOUT` is registered for it, and if there is no room
the socket will tell. So when `epoll_wait` has nothing to report, everything that has
arrived has been received, no peer has hung up, no connection is in the backlog, and all
of it has been sent back except where the peer leaves no room. -/
theorem reactor_awake [Inhabited β] (hlow : 0 < low) {acts : List (SysAct β)}
    (h : (Sys.machine β listenFd low).Run acts S) (hpc : S.server.pc = .wait) :
    (∀ fd c, S.server.conns fd = some c → c.received ++ (S.sock fd).inq = (S.sock fd).arrived ∧
      (S.sock fd).WakesReader ∧ (c.writeBytes < c.readBytes → S.out fd = true ∧ (S.sock fd).WakesWriter low)) ∧
    (S.Idle listenFd low → S.backlog = 0 ∧ ∀ fd c, S.server.conns fd = some c →
      c.received = (S.sock fd).arrived ∧ (S.sock fd).eof = false ∧
      (c.sent = (S.sock fd).arrived ∨ (S.sock fd).space < low ∧ (S.sock fd).nospace = true ∧ S.out fd = true)) := by
  have hcov := covered_of_run hlow h
  refine ⟨fun fd c hc => ⟨(hcov.watch hc).bytes, hcov.awake hpc hc⟩, fun hidle => ⟨?_, fun fd c hc => ?_⟩⟩
  · exact Sys.backlog_of_quiet (hidle listenFd)
  · exact hcov.idle hpc (hidle fd) hc

/-- Three bytes arrive, and there is room for two of them. The peer reads one byte after the
`send` and before `EPOLLOUT` is registered. -/
def readBeforeCtl : List (SysAct Nat) :=
  [.connect, .wait [(3, false)], .step, .accept 5 [] false 2, .acceptFails, .step,
   .arrive 5 [1, 2, 3], .wait [(5, false)], .step, .recv 3, .recv 0, .send 1, .step]

/-- The room was there before the registration, and the socket is in the ready list. -/
theorem reactor_awake_read_before_ctl : ∃ S, (Sys.machine Nat 3 1).Run readBeforeCtl S ∧ S.server.pc = .wait ∧
    ∃ c, S.server.conns 5 = some c ∧ (c.received, c.sent) = ([1, 2, 3], [1, 2]) ∧
      ((S.sock 5).space, (S.sock 5).ready) = (1, true) ∧ S.out 5 = true ∧ (S.sock 5).WakesWriter 1 := by
  have hexec : ((Sys.machine Nat 3 1).exec readBeforeCtl).any (fun S => decide (S.server.pc = .wait ∧
      (S.server.conns 5).map (fun c => ((c.received, c.sent), c.writeBytes, c.readBytes)) =
        some (([1, 2, 3], [1, 2]), 2, 3) ∧
      ((S.sock 5).space, (S.sock 5).ready) = (1, true))) = true := by decide +kernel
  obtain ⟨S, hrun, hpc, hconn, hsock⟩ := Machine.exists_run_of_exec hexec
  obtain ⟨c, hc, heq⟩ := Option.map_eq_some_iff.1 hconn
  obtain ⟨hbytes, hcounters⟩ := Prod.mk.inj heq
  obtain ⟨hw, hr⟩ := Prod.mk.inj hcounters
  obtain ⟨-, -, hwrite⟩ := (reactor_awake (by decide) hrun hpc).1 5 c hc
  obtain ⟨hout, hwakes⟩ := hwrite (by omega)
  exact ⟨S, hrun, hpc, c, hc, hbytes, hsock, hout, hwakes⟩

end AsyncRuntime.Server.Epoll
