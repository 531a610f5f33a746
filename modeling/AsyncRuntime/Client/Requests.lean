import AsyncRuntime.Client.Model
import AsyncRuntime.Lib.Sums
/-!
# Requests and responses

Every request that the load generator counts was sent in full and answered in full, and
every connection is in step with its peer: it has sent the requests it has completed and
a part of the next one, or all of the next one and received a part of the response.

The sockets are edge-triggered and a connection ignores one of the two events in each of
its states. Still no event is lost: an event that comes while a connection is in the
other state is seen again in `revents` at the event that ends that state. So when
`epoll_wait` blocks, every connection waits for its peer.
-/

namespace AsyncRuntime.Client
open Lib
variable {N : Nat} {β : Type} {payloadSize low : Nat} {a : β}

/-! ## What the thread is about to do with a connection -/

/-- Nothing; an event of it is in the list; it asks whether it is connected; it is in one
of the loops; or its response is complete. -/
inductive Role where
  | idle
  | pending (ev : Revents)
  | connecting
  | sending (ev : Revents)
  | receiving
  | completing
  | resending

def roleIn (rest : List (Fin N × Revents)) (c : Fin N) : Role :=
  match rest.lookup c with
  | some ev => .pending ev
  | none => .idle

def Pc.role : Pc N → Fin N → Role
  | .wait, _ | .returned, _ => .idle
  | .events rest, d => roleIn rest d
  | .connecting c _ rest, d => if d = c then .connecting else roleIn rest d
  | .send c ev rest, d => if d = c then .sending ev else roleIn rest d
  | .recv c rest, d => if d = c then .receiving else roleIn rest d
  | .complete c rest, d => if d = c then .completing else roleIn rest d
  | .sendAgain c rest, d => if d = c then .resending else roleIn rest d

/-- The connections with an event that is not yet handled to the end. -/
def Pc.busy : Pc N → List (Fin N)
  | .wait | .returned => []
  | .events rest => rest.map (·.1)
  | .connecting c _ rest | .send c _ rest | .recv c rest | .complete c rest | .sendAgain c rest => c :: rest.map (·.1)

theorem roleIn_cons_self (c : Fin N) (ev : Revents) (rest : List (Fin N × Revents)) :
    roleIn ((c, ev) :: rest) c = .pending ev := by
  simp [roleIn]

theorem roleIn_cons_of_ne {c d : Fin N} (h : d ≠ c) (ev : Revents) (rest : List (Fin N × Revents)) :
    roleIn ((c, ev) :: rest) d = roleIn rest d := by
  have hb : (d == c) = false := beq_false_of_ne h
  simp [roleIn, List.lookup_cons, hb]

theorem roleIn_of_notMem {c : Fin N} {rest : List (Fin N × Revents)} (h : c ∉ rest.map (·.1)) :
    roleIn rest c = .idle := by
  have hlook : rest.lookup c = none := by
    rw [List.lookup_eq_none_iff]
    intro e he
    have hne : e.1 ≠ c := fun heq => h (List.mem_map.2 ⟨e, he, heq⟩)
    simpa using hne.symm
  simp [roleIn, hlook]

/-! ## A connection in step with its peer -/

/-- The counts of a connection in each of its states. -/
def Counts (payloadSize : Nat) (x : ConnectionState β) : Prop :=
  match x.state with
  | .connecting => x.sent = [] ∧ x.received = [] ∧ x.writeOffset = 0 ∧ x.readOffset = 0 ∧ x.completed = 0
  | .sending => x.sent.length = x.completed * payloadSize + x.writeOffset ∧ x.writeOffset ≤ payloadSize ∧
      x.received.length = x.completed * payloadSize ∧ x.readOffset = 0
  | .receiving => x.sent.length = x.completed * payloadSize + payloadSize ∧ x.writeOffset = payloadSize ∧
      x.received.length = x.completed * payloadSize + x.readOffset ∧ x.readOffset ≤ payloadSize

/-- A response is still to come. -/
def Owed (payloadSize : Nat) (x : ConnectionState β) : Prop :=
  x.state = .receiving → 0 < payloadSize → x.readOffset < payloadSize

theorem Owed.of_ne {x : ConnectionState β} (h : x.state ≠ .receiving) : Owed payloadSize x := fun hx => absurd hx h

/-- What the thread is about to do fits the state of the connection. -/
def Role.fits (payloadSize : Nat) (x : ConnectionState β) : Role → Prop
  | .idle | .pending _ => Owed payloadSize x
  | .connecting => x.state = .connecting
  | .sending _ | .resending => x.state = .sending ∧ x.writeOffset < payloadSize
  | .receiving => x.state = .receiving ∧ x.readOffset < payloadSize
  | .completing => x.state = .receiving ∧ x.readOffset = payloadSize

/-- What there is to receive is in the ready list, or in the event at hand. -/
def Heard (x : Conn β) (ev : Revents) : Prop := x.sock.readable = true → x.sock.ready = true ∨ ev.epollIn = true

/-- What the connection waits for will be noticed. -/
def Awake (low : Nat) (x : Conn β) (r : Role) : Prop :=
  match x.conn.state, r with
  | .connecting, .idle => x.sock.ready = true
  | .connecting, _ => True
  | .sending, .idle => x.sock.WakesWriter low
  | .sending, .pending ev => (ev.epollOut = true ∨ x.sock.WakesWriter low) ∧ Heard x ev
  | .sending, .sending ev => Heard x ev
  | .sending, _ => x.sock.WakesReader
  | .receiving, .idle => x.sock.WakesReader
  | .receiving, .pending ev => Heard x ev
  | .receiving, _ => True

/-- The connection is up, and the peer has not shut it down. -/
def Conn.alive (x : Conn β) : Prop := x.link = .up ∧ x.sock.eof = false

/-- What holds of a connection whatever the thread is about to do with it. -/
structure Sound (payloadSize low : Nat) (a : β) (x : Conn β) : Prop where
  buffer : x.conn.buffer = List.replicate payloadSize a
  counts : Counts payloadSize x.conn
  sent : ∀ y ∈ x.conn.sent, y = a
  bytes : x.conn.received ++ x.sock.inq = x.sock.arrived
  echo : x.sock.arrived <+: x.conn.sent
  linked : x.link = .pending ∨ x.link = .refused → x.conn.state = .connecting
  room : x.conn.state = .connecting → x.link = .up → low ≤ x.sock.space

/-- What holds of a connection along every run. -/
structure Good (payloadSize low : Nat) (a : β) (r : Role) (x : Conn β) : Prop extends Sound payloadSize low a x where
  fits : r.fits payloadSize x.conn
  awake : x.alive → Awake low x r
  retry : x.link = .refused → r = .idle → x.sock.ready = true

/-- What holds along every run. -/
structure Inv (payloadSize low : Nat) (a : β) (s : State N β) : Prop where
  nodup : s.pc.busy.Nodup
  good : ∀ c, Good payloadSize low a (s.pc.role c) (s.conns c)
  total : s.result.totalRequests = ∑ c, (s.conns c).conn.completed
  latencies : s.result.latenciesUs.length = s.result.totalRequests

theorem inv_init : Inv payloadSize low a (init payloadSize a : State N β) where
  nodup := List.nodup_nil
  good c := by
    refine ⟨⟨rfl, ⟨rfl, rfl, rfl, rfl, rfl⟩, nofun, rfl, List.nil_prefix, fun _ => rfl, nofun⟩, nofun, fun h => ?_,
      nofun⟩
    cases h.1
  total := by simp [init]
  latencies := rfl

/-! ## Serving one connection -/

variable {s s' : State N β} {c : Fin N} {ev : Revents} {rest : List (Fin N × Revents)} {x : Conn β}

/-- The thread is busy with connection `c`, and the events in `rest` come after it. -/
structure Serving (payloadSize low : Nat) (a : β) (s : State N β) (c : Fin N) (rest : List (Fin N × Revents)) :
    Prop where
  nodup : (c :: rest.map (·.1)).Nodup
  others : ∀ d, d ≠ c → Good payloadSize low a (roleIn rest d) (s.conns d)
  total : s.result.totalRequests = ∑ c, (s.conns c).conn.completed
  latencies : s.result.latenciesUs.length = s.result.totalRequests

/-- The thread goes on at `pc`, which is about `c` and leaves `rest`. -/
theorem Serving.at {pc : Pc N} (h : Serving payloadSize low a s c rest) (hbusy : pc.busy = c :: rest.map (·.1))
    (hrole : ∀ d, d ≠ c → pc.role d = roleIn rest d) (hself : Good payloadSize low a (pc.role c) (s.conns c)) :
    Inv payloadSize low a { s with pc := pc } := by
  refine ⟨hbusy ▸ h.nodup, fun d => ?_, h.total, h.latencies⟩
  by_cases hd : d = c
  · subst hd; exact hself
  · show Good payloadSize low a (pc.role d) (s.conns d)
    rw [hrole d hd]
    exact h.others d hd

/-- The thread is done with `c`. -/
theorem Serving.done (h : Serving payloadSize low a s c rest) (hself : Good payloadSize low a .idle (s.conns c)) :
    Inv payloadSize low a { s with pc := .events rest } := by
  obtain ⟨hnot, hnodup⟩ := List.nodup_cons.1 h.nodup
  refine ⟨hnodup, fun d => ?_, h.total, h.latencies⟩
  show Good payloadSize low a (roleIn rest d) (s.conns d)
  by_cases hd : d = c
  · subst hd; rw [roleIn_of_notMem hnot]; exact hself
  · exact h.others d hd

/-- The connection `c` changes. -/
theorem Serving.set (h : Serving payloadSize low a s c rest) (x : Conn β)
    (hx : x.conn.completed = (s.conns c).conn.completed) : Serving payloadSize low a (s.set c x) c rest := by
  refine ⟨h.nodup, fun d hd => ?_, ?_, h.latencies⟩
  · simp only [State.set, Function.update_of_ne hd]
    exact h.others d hd
  · show s.result.totalRequests = _
    rw [h.total]
    refine Finset.sum_congr rfl fun d _ => ?_
    by_cases hd : d = c
    · subst hd; simp [State.set, hx]
    · simp [State.set, Function.update_of_ne hd]

theorem set_self (s : State N β) (c : Fin N) (x : Conn β) : (s.set c x).conns c = x := Function.update_self ..

theorem Inv.serving (h : Inv payloadSize low a s) (hbusy : s.pc.busy = c :: rest.map (·.1))
    (hrole : ∀ d, d ≠ c → s.pc.role d = roleIn rest d) : Serving payloadSize low a s c rest := by
  refine ⟨hbusy ▸ h.nodup, fun d hd => ?_, h.total, h.latencies⟩
  have := h.good d
  rwa [hrole d hd] at this

/-! ## The branches -/

theorem not_refused (hs : Sound payloadSize low a x) (hstate : x.conn.state ≠ .connecting) : x.link ≠ .refused :=
  fun h => hstate (hs.linked (.inr h))

theorem Serving.recvLoop (h : Serving payloadSize low a s c rest) (hs : Sound payloadSize low a (s.conns c))
    (hstate : (s.conns c).conn.state = .receiving) : Inv payloadSize low a (recvLoop payloadSize s c rest) := by
  have hcounts := hs.counts
  simp only [Counts, hstate] at hcounts
  have hlink := not_refused hs (by rw [hstate]; nofun)
  unfold Client.recvLoop afterRecv
  split
  · next hlt =>
    refine h.at rfl (fun d hd => if_neg hd) ?_
    simp only [Pc.role, if_true]
    exact ⟨hs, ⟨hstate, hlt⟩, fun _ => by simp only [Awake, hstate], fun hr => absurd hr hlink⟩
  · next hge =>
    have heq : (s.conns c).conn.readOffset = payloadSize := by omega
    rw [if_pos heq]
    refine h.at rfl (fun d hd => if_neg hd) ?_
    simp only [Pc.role, if_true]
    exact ⟨hs, ⟨hstate, heq⟩, fun _ => by simp only [Awake, hstate], fun hr => absurd hr hlink⟩

theorem Serving.branchIn (h : Serving payloadSize low a s c rest) (hs : Sound payloadSize low a (s.conns c))
    (hstate : (s.conns c).conn.state ≠ .connecting) (howed : Owed payloadSize (s.conns c).conn)
    (hin : (s.conns c).alive → (s.conns c).conn.state = .receiving → Heard (s.conns c) ev)
    (hout : (s.conns c).alive → (s.conns c).conn.state = .sending → (s.conns c).sock.WakesWriter low) :
    Inv payloadSize low a (branchIn payloadSize s c ev rest) := by
  unfold Client.branchIn
  split
  · next hcond => exact h.recvLoop hs hcond.2
  · next hcond =>
    refine h.done ⟨hs, howed, fun halive => ?_, fun hr => absurd hr (not_refused hs hstate)⟩
    cases hst : (s.conns c).conn.state with
    | connecting => exact absurd hst hstate
    | sending => simp only [Awake, hst]; exact hout halive hst
    | receiving =>
      simp only [Awake, hst]
      intro hread
      exact (hin halive hst hread).resolve_right fun hev => hcond ⟨hev, hst⟩

/-- The connection turns to the response. -/
def Conn.turned (x : Conn β) : Conn β := { x with conn := { x.conn with state := .receiving } }

theorem sentAll_of_eq (h : (s.conns c).conn.writeOffset = payloadSize) :
    sentAll payloadSize s c = s.set c (s.conns c).turned := if_pos h

theorem sentAll_of_lt (h : (s.conns c).conn.writeOffset < payloadSize) : sentAll payloadSize s c = s := if_neg h.ne

/-- A request has been sent in full. -/
theorem Sound.turned (hs : Sound payloadSize low a x) (hstate : x.conn.state = .sending)
    (hall : x.conn.writeOffset = payloadSize) :
    Sound payloadSize low a x.turned := by
  have hcounts := hs.counts
  simp only [Counts, hstate] at hcounts
  obtain ⟨hsent, -, hrecv, hread⟩ := hcounts
  refine ⟨hs.buffer, ?_, hs.sent, hs.bytes, hs.echo, fun hl => ?_, nofun⟩
  · simp only [Counts, Conn.turned]
    exact ⟨by rw [hsent, hall], hall, by rw [hrecv, hread, Nat.add_zero], by rw [hread]; exact Nat.zero_le _⟩
  · have := hs.linked hl
    rw [hstate] at this
    cases this

theorem Sound.owed_turned (hs : Sound payloadSize low a x) (hstate : x.conn.state = .sending) :
    Owed payloadSize x.turned.conn := by
  have hcounts := hs.counts
  simp only [Counts, hstate] at hcounts
  intro _ hpos
  show x.conn.readOffset < payloadSize
  rw [hcounts.2.2.2]
  exact hpos

theorem Serving.sendLoop (h : Serving payloadSize low a s c rest) (hs : Sound payloadSize low a (s.conns c))
    (hstate : (s.conns c).conn.state = .sending) (hheard : (s.conns c).alive → Heard (s.conns c) ev) :
    Inv payloadSize low a (sendLoop payloadSize s c ev rest) := by
  have hcounts := hs.counts
  simp only [Counts, hstate] at hcounts
  unfold Client.sendLoop
  split
  · next hlt =>
    refine h.at rfl (fun d hd => if_neg hd) ?_
    simp only [Pc.role, if_true]
    exact ⟨hs, ⟨hstate, hlt⟩, fun halive => by simp only [Awake, hstate]; exact hheard halive,
      fun hr => absurd hr (not_refused hs (by rw [hstate]; nofun))⟩
  · next hge =>
    have hall : (s.conns c).conn.writeOffset = payloadSize := by omega
    rw [sentAll_of_eq hall]
    refine (h.set (s.conns c).turned rfl).branchIn ?_ ?_ ?_ ?_ ?_ <;> rw [set_self]
    · exact hs.turned hstate hall
    · nofun
    · exact hs.owed_turned hstate
    · exact fun halive _ => hheard halive
    · nofun

theorem Serving.branchOut (h : Serving payloadSize low a s c rest) (hs : Sound payloadSize low a (s.conns c))
    (hstate : (s.conns c).conn.state ≠ .connecting) (howed : Owed payloadSize (s.conns c).conn)
    (hawake : (s.conns c).alive → Awake low (s.conns c) (.pending ev)) :
    Inv payloadSize low a (branchOut payloadSize s c ev rest) := by
  unfold Client.branchOut
  split
  · next hcond =>
    refine h.sendLoop hs hcond.2 fun halive => ?_
    have := hawake halive
    simp only [Awake, hcond.2] at this
    exact this.2
  · next hcond =>
    refine h.branchIn hs hstate howed (fun halive hst => ?_) fun halive hst => ?_
    · have := hawake halive
      simpa only [Awake, hst] using this
    · have := hawake halive
      simp only [Awake, hst] at this
      exact this.1.resolve_left fun hev => hcond ⟨hev, hst⟩

theorem Serving.sendAgainLoop (h : Serving payloadSize low a s c rest) (hs : Sound payloadSize low a (s.conns c))
    (hstate : (s.conns c).conn.state = .sending) (hreader : (s.conns c).alive → (s.conns c).sock.WakesReader) :
    Inv payloadSize low a (sendAgainLoop payloadSize s c rest) := by
  have hcounts := hs.counts
  simp only [Counts, hstate] at hcounts
  unfold Client.sendAgainLoop
  split
  · next hlt =>
    refine h.at rfl (fun d hd => if_neg hd) ?_
    simp only [Pc.role, if_true]
    exact ⟨hs, ⟨hstate, hlt⟩, fun halive => by simp only [Awake, hstate]; exact hreader halive,
      fun hr => absurd hr (not_refused hs (by rw [hstate]; nofun))⟩
  · next hge =>
    have hall : (s.conns c).conn.writeOffset = payloadSize := by omega
    rw [sentAll_of_eq hall]
    have hsound := hs.turned hstate hall
    refine (h.set (s.conns c).turned rfl).done ?_
    rw [set_self]
    exact ⟨hsound, hs.owed_turned hstate, hreader, fun hr => absurd hr (not_refused hsound nofun)⟩

/-! ## The calls -/

theorem Sound.sendOnce (hs : Sound payloadSize low a x) (hstate : x.conn.state = .sending) :
    Sound payloadSize low a (sendOnce payloadSize x).1 := by
  have hcounts := hs.counts
  simp only [Counts, hstate] at hcounts
  obtain ⟨hsent, hle, hrecv, hread⟩ := hcounts
  refine ⟨hs.buffer, ?_, fun y hy => ?_, hs.bytes, hs.echo.trans (List.prefix_append ..), fun hl => ?_, fun hc => ?_⟩
  · simp only [Counts, Client.sendOnce, hstate, List.length_append, List.length_take, List.length_drop, hs.buffer,
      List.length_replicate]
    omega
  · rcases List.mem_append.1 hy with hy | hy
    · exact hs.sent y hy
    · have hy := List.mem_of_mem_drop (List.mem_of_mem_take hy)
      rw [hs.buffer] at hy
      exact List.eq_of_mem_replicate hy
  · exact hs.linked hl
  · rw [show (Client.sendOnce payloadSize x).1.conn.state = x.conn.state from rfl, hstate] at hc
    cases hc

/-- `EAGAIN`: nothing was sent, and the socket will be noticed when there is room. -/
theorem sendOnce_again (hlow : 0 < low) (hlt : x.conn.writeOffset < payloadSize)
    (h : (sendOnce payloadSize x).2 = false) :
    (sendOnce payloadSize x).1.conn.writeOffset = x.conn.writeOffset ∧
      (sendOnce payloadSize x).1.sock.WakesWriter low := by
  have hspace : x.sock.space = 0 := by
    simp only [sendOnce, decide_eq_false_iff_not] at h
    omega
  refine ⟨by simp [sendOnce, hspace], Socket.wakesWriter_send hlow ?_⟩
  omega

theorem Sound.recvOnce {n : Nat} (hs : Sound payloadSize low a x) (hstate : x.conn.state = .receiving)
    (hn : n ≤ payloadSize - x.conn.readOffset) (hlen : n ≤ x.sock.inq.length) :
    Sound payloadSize low a (recvOnce x n) := by
  have hcounts := hs.counts
  simp only [Counts, hstate] at hcounts
  obtain ⟨hsent, hall, hrecv, hle⟩ := hcounts
  have hinq : ∀ y ∈ x.sock.inq, y = a := by
    intro y hy
    refine hs.sent y (hs.echo.subset ?_)
    rw [← hs.bytes]
    exact List.mem_append_right _ hy
  have htake : (x.sock.inq.take n).length = n := by
    rw [List.length_take]; exact Nat.min_eq_left hlen
  refine ⟨?_, ?_, hs.sent, ?_, hs.echo, hs.linked, fun hc => ?_⟩
  · show overwrite x.conn.buffer _ _ = _
    rw [hs.buffer]
    refine overwrite_replicate (fun y hy => hinq y (List.mem_of_mem_take hy)) ?_
    omega
  · simp only [Counts, Client.recvOnce, hstate, List.length_append, htake]
    omega
  · show (x.conn.received ++ x.sock.inq.take n) ++ x.sock.inq.drop n = x.sock.arrived
    rw [List.append_assoc, List.take_append_drop, hs.bytes]
  · rw [show (Client.recvOnce x n).conn.state = x.conn.state from rfl, hstate] at hc
    cases hc

/-- When a response is complete, nothing is left to receive. -/
theorem Sound.nothing_left (hs : Sound payloadSize low a x) (hstate : x.conn.state = .receiving)
    (hall : x.conn.readOffset = payloadSize) : x.sock.inq = [] := by
  have hcounts := hs.counts
  simp only [Counts, hstate] at hcounts
  obtain ⟨hsent, -, hrecv, -⟩ := hcounts
  have hlen := hs.echo.length_le
  rw [← hs.bytes, List.length_append] at hlen
  exact List.length_eq_zero_iff.1 (by omega)

theorem readable_of_empty (halive : x.alive) (h : x.sock.inq = []) : x.sock.readable = false := by
  simp [Socket.readable, h, halive.2]

/-- The next request begins. -/
theorem Serving.finish (h : Serving payloadSize low a s c rest) (now start : Int) :
    Serving payloadSize low a (finish s c now start) c rest := by
  refine ⟨h.nodup, fun d hd => ?_, ?_, ?_⟩
  · simp only [Client.finish, State.setConn, State.set, Function.update_of_ne hd]
    exact h.others d hd
  · have hsum := sum_change (f := fun d => ((Client.finish s c now start).conns d).conn.completed)
      (g := fun d => (s.conns d).conn.completed) c fun d hd => by
        simp only [Client.finish, State.setConn, State.set, Function.update_of_ne hd]
    have hself : ((Client.finish s c now start).conns c).conn.completed = (s.conns c).conn.completed + 1 := by
      simp [Client.finish, State.setConn, State.set]
    rw [hself, ← h.total] at hsum
    show s.result.totalRequests + 1 = _
    omega
  · simp [Client.finish, h.latencies]

theorem Sound.finish (hs : Sound payloadSize low a (s.conns c)) (hstate : (s.conns c).conn.state = .receiving)
    (hall : (s.conns c).conn.readOffset = payloadSize) (now start : Int) :
    Sound payloadSize low a ((finish s c now start).conns c) := by
  have hcounts := hs.counts
  simp only [Counts, hstate] at hcounts
  obtain ⟨hsent, -, hrecv, -⟩ := hcounts
  simp only [Client.finish, State.setConn, State.set, Function.update_self]
  refine ⟨hs.buffer, ?_, hs.sent, hs.bytes, hs.echo, fun hl => ?_, nofun⟩
  · simp only [Counts, Nat.add_mul, Nat.one_mul, Nat.add_zero]
    rw [hall] at hrecv
    exact ⟨hsent, Nat.zero_le _, hrecv, trivial⟩
  · have := hs.linked hl
    rw [hstate] at this
    cases this

/-- The connection is up. -/
theorem Sound.up {now : Int} (hs : Sound payloadSize low a x) (hstate : x.conn.state = .connecting) :
    Sound payloadSize low a ⟨{ x.conn with state := .sending, startTime := now }, .up, x.sock.poll low true⟩ := by
  have hcounts := hs.counts
  simp only [Counts, hstate] at hcounts
  obtain ⟨hsent, hrecv, hwrite, hread, hcomp⟩ := hcounts
  refine ⟨hs.buffer, ?_, hs.sent, hs.bytes, hs.echo, fun hl => ?_, nofun⟩
  · simp [Counts, hsent, hrecv, hwrite, hread, hcomp]
  · rcases hl with hl | hl <;> cases hl

/-- A new socket takes the place of one that was refused. -/
theorem Sound.again (hs : Sound payloadSize low a x) (hstate : x.conn.state = .connecting) (link : Link)
    (k : Socket β) (hk : k.inq = [] ∧ k.arrived = []) (hroom : link = .up → low ≤ k.space) :
    Sound payloadSize low a { x with link := link, sock := k } := by
  have hcounts := hs.counts
  simp only [Counts, hstate] at hcounts
  refine ⟨hs.buffer, hs.counts, hs.sent, ?_, ?_, fun _ => hstate, fun _ => hroom⟩
  · show x.conn.received ++ k.inq = k.arrived
    rw [hk.1, hk.2, hcounts.2.1]
    rfl
  · show k.arrived <+: x.conn.sent
    rw [hk.2]
    exact List.nil_prefix

/-! ## The peers and the ready list -/

/-- `epoll_wait` reports the connection. -/
theorem Good.report (h : Good payloadSize low a .idle x) (hr : x.reports low ev) :
    Good payloadSize low a (.pending ev) { x with sock := x.sock.report } := by
  refine ⟨⟨h.buffer, h.counts, h.sent, h.bytes, h.echo, h.linked, h.room⟩, h.fits, fun halive => ?_, fun _ => nofun⟩
  obtain ⟨-, hev⟩ := hr
  have halive' : x.alive := halive
  rw [halive'.1] at hev
  obtain ⟨hev, -⟩ := hev
  have hawake := h.awake halive'
  cases hst : x.conn.state with
  | connecting => simp only [Awake, hst]
  | sending =>
    simp only [Awake, hst] at hawake ⊢
    refine ⟨?_, fun hread => .inr ?_⟩
    · cases hw : x.sock.writable low with
      | true => left; rw [hev, hw]
      | false => exact .inr ⟨fun hw' => absurd (hw.symm.trans hw') nofun, hawake.refused⟩
    · have hread : x.sock.readable = true := hread
      simp [hev, hread, hst]
  | receiving =>
    simp only [Awake, hst]
    intro hread
    have hread : x.sock.readable = true := hread
    right
    simp [hev, hread, hst]

/-- `epoll_wait` drops a socket without events from the ready list. -/
theorem Good.forget (h : Good payloadSize low a .idle x) (hno : ∀ i o, ¬x.reports low ⟨i, o⟩) :
    Good payloadSize low a .idle { x with sock := x.sock.report } := by
  refine ⟨⟨h.buffer, h.counts, h.sent, h.bytes, h.echo, h.linked, h.room⟩, h.fits, fun halive => ?_, fun hl _ => ?_⟩
  · have halive' : x.alive := halive
    have hnot (i o : Bool) (hev : i = (x.sock.readable && x.conn.state ≠ .connecting) ∧ o = x.sock.writable low)
        (hany : i = true ∨ o = true) : x.sock.ready = false := by
      by_contra hready
      refine hno i o ⟨by simpa using hready, ?_⟩
      rw [halive'.1]
      exact ⟨by rw [hev.1, hev.2], hany⟩
    have hawake := h.awake halive'
    cases hst : x.conn.state with
    | connecting =>
      simp only [Awake, hst] at hawake
      have hw : x.sock.writable low = true := decide_eq_true (h.room hst halive'.1)
      rw [hnot _ _ ⟨rfl, rfl⟩ (.inr hw)] at hawake
      cases hawake
    | sending =>
      simp only [Awake, hst] at hawake ⊢
      refine ⟨fun hw => ?_, hawake.refused⟩
      have hw : x.sock.writable low = true := hw
      have := hawake.ready hw
      rw [hnot _ _ ⟨rfl, rfl⟩ (.inr hw)] at this
      cases this
    | receiving =>
      simp only [Awake, hst] at hawake ⊢
      intro hread
      have hread : x.sock.readable = true := hread
      have := hawake hread
      rw [hnot _ _ ⟨rfl, rfl⟩ (.inl (by simp [hread, hst]))] at this
      cases this
  · have hl : x.link = .refused := hl
    refine absurd ⟨h.retry hl rfl, ?_⟩ (hno false false)
    rw [hl]
    trivial

variable {r : Role}

/-- The peer sends back a part of what it was sent. -/
theorem Good.echoes (h : Good payloadSize low a r x) (n : Nat) : Good payloadSize low a r
    { x with sock := x.sock.arrive ((x.conn.sent.drop x.sock.arrived.length).take n) } := by
  refine ⟨⟨h.buffer, h.counts, h.sent, ?_, prefix_append_take_drop h.echo n, h.linked, h.room⟩, h.fits,
    fun halive => ?_, fun _ _ => rfl⟩
  · simp only [Socket.arrive, ← List.append_assoc, h.bytes]
  · have hawake := h.awake halive
    cases hst : x.conn.state <;> cases r <;> simp only [Awake, hst] at hawake ⊢
    all_goals first
      | trivial
      | exact hawake.arrive _
      | exact .of_ready rfl
      | exact fun _ => .inl rfl
      | exact ⟨hawake.1.imp_right (·.arrive _), fun _ => .inl rfl⟩

/-- The peer shuts the connection down. -/
theorem Good.shut (h : Good payloadSize low a r x) : Good payloadSize low a r { x with sock := x.sock.shut } :=
  ⟨⟨h.buffer, h.counts, h.sent, h.bytes, h.echo, h.linked, h.room⟩, h.fits, fun halive => absurd halive.2 nofun,
    fun _ _ => rfl⟩

/-- The peer reads. -/
theorem Good.drains (h : Good payloadSize low a r x) (n : Nat) :
    Good payloadSize low a r { x with sock := x.sock.drain low true n } := by
  obtain ⟨hinq, harr, heof, hspace, hready⟩ := Socket.drain_frame low x.sock true n
  have hheard (ev : Revents) (hh : Heard x ev) : Heard { x with sock := x.sock.drain low true n } ev := by
    intro hread
    have hread : x.sock.readable = true := by
      simpa only [Socket.readable, hinq, heof] using hread
    exact (hh hread).imp_left hready
  refine ⟨⟨h.buffer, h.counts, h.sent, ?_, ?_, h.linked, fun hc hl => ?_⟩, h.fits, fun halive => ?_,
    fun hl hr => hready (h.retry hl hr)⟩
  · rw [hinq, harr]; exact h.bytes
  · rw [harr]; exact h.echo
  · have := h.room hc hl
    rw [hspace]
    omega
  · have halive' : x.alive := ⟨halive.1, by rw [← heof]; exact halive.2⟩
    have hawake := h.awake halive'
    cases hst : x.conn.state <;> cases r <;> simp only [Awake, hst] at hawake ⊢
    all_goals first
      | trivial
      | exact hready hawake
      | exact hawake.drain n
      | exact hawake.drain true n
      | exact hheard _ hawake
      | exact ⟨hawake.1.imp_right (·.drain n), hheard _ hawake.2⟩

/-! ## Every step -/

/-- One connection changes, whatever the thread is about to do with it. -/
theorem Inv.set (h : Inv payloadSize low a s) (hx : Good payloadSize low a (s.pc.role c) x)
    (hcomp : x.conn.completed = (s.conns c).conn.completed) : Inv payloadSize low a (s.set c x) := by
  refine ⟨h.nodup, fun d => ?_, ?_, h.latencies⟩
  · by_cases hd : d = c
    · subst hd; rw [set_self]; exact hx
    · simp only [State.set, Function.update_of_ne hd]
      exact h.good d
  · show s.result.totalRequests = _
    rw [h.total]
    refine Finset.sum_congr rfl fun d _ => ?_
    by_cases hd : d = c
    · subst hd; simp [State.set, hcomp]
    · simp [State.set, Function.update_of_ne hd]

theorem roleIn_of_mem {evs : List (Fin N × Revents)} (h : c ∈ evs.map (·.1)) :
    ∃ ev, (c, ev) ∈ evs ∧ roleIn evs c = .pending ev := by
  induction evs with
  | nil => cases h
  | cons e evs ih =>
    obtain ⟨d, ev⟩ := e
    by_cases hd : c = d
    · subst hd
      exact ⟨ev, List.mem_cons_self, roleIn_cons_self ..⟩
    · have hmem : c ∈ evs.map (·.1) := by
        rcases List.mem_cons.1 h with h | h
        · exact absurd h hd
        · exact h
      obtain ⟨ev', hev', hrole⟩ := ih hmem
      exact ⟨ev', List.mem_cons_of_mem _ hev', by rw [roleIn_cons_of_ne hd, hrole]⟩

theorem Inv.wait (h : Inv payloadSize low a s) {evs : List (Fin N × Revents)}
    (hs : step payloadSize low s (.wait evs) = some s') : Inv payloadSize low a s' := by
  simp only [step] at hs
  split at hs
  case h_2 => cases hs
  case h_1 hpc =>
  split at hs <;> cases hs
  next hrep =>
  obtain ⟨-, hnodup, hrep⟩ := hrep
  refine ⟨hnodup, fun d => ?_, ?_, h.latencies⟩
  · have hgood := h.good d
    rw [hpc] at hgood
    show Good payloadSize low a (roleIn evs d) (if d ∈ evs.map (·.1) then _ else _)
    by_cases hd : d ∈ evs.map (·.1)
    · obtain ⟨ev, hev, hrole⟩ := roleIn_of_mem hd
      rw [if_pos hd, hrole]
      exact hgood.report (hrep _ hev)
    · rw [if_neg hd, roleIn_of_notMem hd]
      exact hgood
  · show s.result.totalRequests = _
    rw [h.total]
    refine Finset.sum_congr rfl fun d _ => ?_
    dsimp only
    split <;> rfl

/-- The event at the head of the list. -/
theorem Inv.next (h : Inv payloadSize low a s) (hpc : s.pc = .events ((c, ev) :: rest)) :
    Serving payloadSize low a s c rest ∧ Good payloadSize low a (.pending ev) (s.conns c) := by
  have hgood := h.good c
  rw [hpc] at hgood
  have hself : Good payloadSize low a (roleIn ((c, ev) :: rest) c) (s.conns c) := hgood
  rw [roleIn_cons_self] at hself
  refine ⟨h.serving (by rw [hpc]; rfl) fun d hd => ?_, hself⟩
  rw [hpc]
  exact roleIn_cons_of_ne hd ev rest

/-- The thread is at one of the calls for `c`. -/
theorem Inv.call (h : Inv payloadSize low a s) (c : Fin N) (rest : List (Fin N × Revents)) {pc : Pc N} (hpc : s.pc = pc)
    (hbusy : pc.busy = c :: rest.map (·.1)) (hrole : ∀ d, d ≠ c → pc.role d = roleIn rest d) :
    Serving payloadSize low a s c rest ∧ Good payloadSize low a (pc.role c) (s.conns c) := by
  subst hpc
  exact ⟨h.serving hbusy hrole, h.good c⟩

theorem Inv.connected (h : Inv payloadSize low a s) (hpc : s.pc = .connecting c ev rest) (now : Int) :
    Inv payloadSize low a (afterConnect payloadSize low s c ev rest now) := by
  obtain ⟨hserve, hgood⟩ := h.call c rest hpc rfl fun d hd => if_neg hd
  simp only [Pc.role, if_true] at hgood
  have hstate : (s.conns c).conn.state = .connecting := hgood.fits
  have hretry : Inv payloadSize low a
      { s.set c { s.conns c with link := .pending, sock := freshSocket β } with pc := .events rest } := by
    refine (hserve.set { s.conns c with link := .pending, sock := freshSocket β } rfl).done ?_
    rw [set_self]
    exact ⟨hgood.again hstate .pending (freshSocket β) ⟨rfl, rfl⟩ nofun, .of_ne (by rw [hstate]; nofun),
      fun halive => absurd halive.1 nofun, nofun⟩
  unfold afterConnect
  split
  · exact hretry
  · exact hretry
  · exact hretry
  · next hup =>
    refine (hserve.set ⟨{ (s.conns c).conn with state := .sending, startTime := now }, .up,
      (s.conns c).sock.poll low true⟩ rfl).branchOut ?_ ?_ ?_ ?_ <;> rw [set_self]
    · exact hgood.up hstate
    · nofun
    · exact .of_ne nofun
    · intro _
      have hw : (s.conns c).sock.writable low = true := decide_eq_true (hgood.room hstate hup)
      have hrefused : (s.conns c).sock.Refused low := fun hno => absurd (hw.symm.trans hno) nofun
      exact ⟨.inr hrefused.poll, fun hread => .inl (Socket.wakesReader_poll true hread)⟩

/-- A `send` of the branch for `EPOLLOUT` returns. -/
theorem Inv.sendOut (h : Inv payloadSize low a s) (hlow : 0 < low) (hpc : s.pc = .send c ev rest) :
    ((sendOnce payloadSize (s.conns c)).2 = true →
      Inv payloadSize low a (sendLoop payloadSize (s.set c (sendOnce payloadSize (s.conns c)).1) c ev rest)) ∧
    ((sendOnce payloadSize (s.conns c)).2 = false →
      Inv payloadSize low a (branchIn payloadSize
        (sentAll payloadSize (s.set c (sendOnce payloadSize (s.conns c)).1) c) c ev rest)) := by
  obtain ⟨hserve, hgood⟩ := h.call c rest hpc rfl fun d hd => if_neg hd
  simp only [Pc.role, if_true] at hgood
  obtain ⟨hstate, hlt⟩ := hgood.fits
  have hheard : (s.conns c).alive → Heard (s.conns c) ev := fun halive => by
    have := hgood.awake halive
    simpa only [Awake, hstate] using this
  have hserve := hserve.set (sendOnce payloadSize (s.conns c)).1 rfl
  have hsound := hgood.sendOnce hstate
  constructor
  · intro _
    refine hserve.sendLoop ?_ ?_ ?_ <;> rw [set_self]
    · exact hsound
    · exact hstate
    · exact hheard
  · intro hagain
    obtain ⟨hsame, hwakes⟩ := sendOnce_again hlow hlt hagain
    rw [sentAll_of_lt (by rw [set_self, hsame]; exact hlt)]
    have hnew : (sendOnce payloadSize (s.conns c)).1.conn.state = .sending := hstate
    refine hserve.branchIn ?_ ?_ ?_ ?_ ?_ <;> rw [set_self]
    · exact hsound
    · rw [hnew]; nofun
    · exact .of_ne (by rw [hnew]; nofun)
    · exact fun halive _ => hheard halive
    · exact fun _ _ => hwakes

/-- A `send` of the next request returns. -/
theorem Inv.sendNext (h : Inv payloadSize low a s) (hlow : 0 < low) (hpc : s.pc = .sendAgain c rest) :
    ((sendOnce payloadSize (s.conns c)).2 = true →
      Inv payloadSize low a (sendAgainLoop payloadSize (s.set c (sendOnce payloadSize (s.conns c)).1) c rest)) ∧
    ((sendOnce payloadSize (s.conns c)).2 = false →
      Inv payloadSize low a
        { sentAll payloadSize (s.set c (sendOnce payloadSize (s.conns c)).1) c with pc := .events rest }) := by
  obtain ⟨hserve, hgood⟩ := h.call c rest hpc rfl fun d hd => if_neg hd
  simp only [Pc.role, if_true] at hgood
  obtain ⟨hstate, hlt⟩ := hgood.fits
  have hreader : (s.conns c).alive → (s.conns c).sock.WakesReader := fun halive => by
    have := hgood.awake halive
    simpa only [Awake, hstate] using this
  have hserve := hserve.set (sendOnce payloadSize (s.conns c)).1 rfl
  have hsound := hgood.sendOnce hstate
  constructor
  · intro _
    refine hserve.sendAgainLoop ?_ ?_ ?_ <;> rw [set_self]
    · exact hsound
    · exact hstate
    · exact hreader
  · intro hagain
    obtain ⟨hsame, hwakes⟩ := sendOnce_again hlow hlt hagain
    rw [sentAll_of_lt (by rw [set_self, hsame]; exact hlt)]
    refine hserve.done ?_
    rw [set_self]
    have hnew : (sendOnce payloadSize (s.conns c)).1.conn.state = .sending := hstate
    refine ⟨hsound, .of_ne (by rw [hnew]; nofun), fun _ => ?_,
      fun hr => absurd hr (not_refused hsound (by rw [hnew]; nofun))⟩
    simp only [Awake, hnew]
    exact hwakes

/-- The connection breaks. -/
theorem Sound.broken (hs : Sound payloadSize low a x) : Sound payloadSize low a { x with link := .broken } := by
  refine ⟨hs.buffer, hs.counts, hs.sent, hs.bytes, hs.echo, fun hl => ?_, nofun⟩
  rcases hl with hl | hl <;> cases hl

theorem Good.broken (hs : Sound payloadSize low a x) (howed : Owed payloadSize x.conn) :
    Good payloadSize low a .idle { x with link := .broken } :=
  ⟨hs.broken, howed, fun halive => absurd halive.1 nofun, nofun⟩

theorem Inv.sendFails (h : Inv payloadSize low a s) (hs : step payloadSize low s .sendFails = some s') :
    Inv payloadSize low a s' := by
  simp only [step] at hs
  split at hs
  case h_3 => cases hs
  case h_1 c ev rest hpc =>
    cases hs
    obtain ⟨hserve, hgood⟩ := h.call c rest hpc rfl fun d hd => if_neg hd
    simp only [Pc.role, if_true] at hgood
    obtain ⟨hstate, hlt⟩ := hgood.fits
    rw [sentAll_of_lt (by rw [set_self]; exact hlt)]
    refine (hserve.set { s.conns c with link := .broken } rfl).branchIn ?_ ?_ ?_ ?_ ?_ <;> rw [set_self]
    · exact hgood.toSound.broken
    · show (s.conns c).conn.state ≠ .connecting
      rw [hstate]; nofun
    · exact .of_ne (by rw [hstate]; nofun)
    · exact fun halive => absurd halive.1 nofun
    · exact fun halive => absurd halive.1 nofun
  case h_2 c rest hpc =>
    cases hs
    obtain ⟨hserve, hgood⟩ := h.call c rest hpc rfl fun d hd => if_neg hd
    simp only [Pc.role, if_true] at hgood
    obtain ⟨hstate, hlt⟩ := hgood.fits
    rw [sentAll_of_lt (by rw [set_self]; exact hlt)]
    refine (hserve.set { s.conns c with link := .broken } rfl).done ?_
    rw [set_self]
    exact .broken hgood.toSound (.of_ne (by rw [hstate]; nofun))

theorem Inv.recv (h : Inv payloadSize low a s) {n : Nat} (hs : step payloadSize low s (.recv n) = some s') :
    Inv payloadSize low a s' := by
  simp only [step] at hs
  split at hs
  case h_2 => cases hs
  case h_1 c rest hpc =>
  obtain ⟨hserve, hgood⟩ := h.call c rest hpc rfl fun d hd => if_neg hd
  simp only [Pc.role, if_true] at hgood
  obtain ⟨hstate, hlt⟩ := hgood.fits
  split at hs
  case isFalse => cases hs
  split at hs
  · next hempty =>
    cases hs
    rw [afterRecv, if_neg hlt.ne]
    refine hserve.done ⟨hgood.toSound, fun _ _ => hlt, fun halive => ?_,
      fun hr => absurd hr (not_refused hgood.toSound (by rw [hstate]; nofun))⟩
    simp only [Awake, hstate]
    exact fun hread => absurd ((readable_of_empty halive hempty).symm.trans hread) nofun
  · split at hs <;> cases hs
    next hn =>
    obtain ⟨-, hn, hlen⟩ := hn
    refine (hserve.set (recvOnce (s.conns c) n) rfl).recvLoop ?_ ?_ <;> rw [set_self]
    · exact hgood.recvOnce hstate hn hlen
    · exact hstate

theorem Inv.recvFails (h : Inv payloadSize low a s) (hs : step payloadSize low s .recvFails = some s') :
    Inv payloadSize low a s' := by
  simp only [step] at hs
  split at hs <;> cases hs
  next c rest hpc =>
  obtain ⟨hserve, hgood⟩ := h.call c rest hpc rfl fun d hd => if_neg hd
  simp only [Pc.role, if_true] at hgood
  have hlt : ((s.set c { s.conns c with link := .broken }).conns c).conn.readOffset < payloadSize := by
    rw [set_self]; exact hgood.fits.2
  rw [afterRecv, if_neg hlt.ne]
  refine (hserve.set { s.conns c with link := .broken } rfl).done ?_
  rw [set_self]
  exact .broken hgood.toSound fun _ _ => hgood.fits.2

theorem Inv.complete (h : Inv payloadSize low a s) (hpc : s.pc = .complete c rest) (now start : Int) :
    Inv payloadSize low a (sendAgainLoop payloadSize (finish s c now start) c rest) := by
  obtain ⟨hserve, hgood⟩ := h.call c rest hpc rfl fun d hd => if_neg hd
  simp only [Pc.role, if_true] at hgood
  obtain ⟨hstate, hall⟩ := hgood.fits
  have hself : (finish s c now start).conns c = { s.conns c with conn := { (s.conns c).conn with
      state := .sending, readOffset := 0, writeOffset := 0, startTime := start,
      completed := (s.conns c).conn.completed + 1 } } := Function.update_self ..
  refine (hserve.finish now start).sendAgainLoop (hgood.finish hstate hall now start) (by rw [hself]) ?_
  rw [hself]
  intro halive hread
  have halive : (s.conns c).alive := halive
  exact absurd ((readable_of_empty halive (hgood.nothing_left hstate hall)).symm.trans hread) nofun

theorem Inv.step (h : Inv payloadSize low a s) (hlow : 0 < low) {act : Act N}
    (hs : step payloadSize low s act = some s') : Inv payloadSize low a s' := by
  cases act with
  | leave =>
    simp only [Client.step] at hs
    split at hs <;> cases hs
    next hpc =>
    refine ⟨List.nodup_nil, fun d => ?_, h.total, h.latencies⟩
    have := h.good d
    rwa [hpc] at this
  | wait evs => exact h.wait hs
  | forget c =>
    simp only [Client.step] at hs
    split at hs <;> cases hs
    next hcond =>
    obtain ⟨hpc, hno⟩ := hcond
    have hgood := h.good c
    rw [hpc] at hgood
    refine h.set ?_ rfl
    rw [hpc]
    exact hgood.forget hno
  | step =>
    simp only [Client.step] at hs
    split at hs
    · next hpc =>
      cases hs
      refine ⟨List.nodup_nil, fun d => ?_, h.total, h.latencies⟩
      have := h.good d
      rwa [hpc] at this
    · next c ev rest hpc =>
      obtain ⟨hserve, hgood⟩ := h.next hpc
      split at hs
      · next hstate =>
        cases hs
        refine hserve.at rfl (fun d hd => if_neg hd) ?_
        simp only [Pc.role, if_true]
        exact ⟨hgood.toSound, hstate, fun _ => by simp only [Awake, hstate], fun _ => nofun⟩
      · next hstate =>
        cases hs
        exact hserve.branchOut hgood.toSound hstate hgood.fits hgood.awake
    · cases hs
  | connected now =>
    simp only [Client.step] at hs
    split at hs <;> cases hs
    next c ev rest hpc => exact h.connected hpc now
  | send =>
    simp only [Client.step] at hs
    split at hs
    · next c ev rest hpc =>
      obtain ⟨hmore, hagain⟩ := h.sendOut hlow hpc
      split at hs
      · split at hs
        · next x hx =>
          cases hs
          rw [hx] at hmore
          exact hmore rfl
        · next x hx =>
          cases hs
          rw [hx] at hagain
          exact hagain rfl
      · cases hs
    · next c rest hpc =>
      obtain ⟨hmore, hagain⟩ := h.sendNext hlow hpc
      split at hs
      · split at hs
        · next x hx =>
          cases hs
          rw [hx] at hmore
          exact hmore rfl
        · next x hx =>
          cases hs
          rw [hx] at hagain
          exact hagain rfl
      · cases hs
    · cases hs
  | sendFails => exact h.sendFails hs
  | recv n => exact h.recv hs
  | recvFails => exact h.recvFails hs
  | complete now start =>
    simp only [Client.step] at hs
    split at hs <;> cases hs
    next c rest hpc => exact h.complete hpc now start
  | establish c space =>
    simp only [Client.step] at hs
    split at hs <;> cases hs
    next hcond =>
    obtain ⟨hlink, hspace⟩ := hcond
    have hgood := h.good c
    have hstate := hgood.linked (.inl hlink)
    refine h.set ⟨hgood.again hstate .up _ ⟨rfl, rfl⟩ fun _ => hspace, hgood.fits, fun _ => ?_, nofun⟩ rfl
    cases hr : s.pc.role c <;> simp only [Awake, hstate]
  | refuse c =>
    simp only [Client.step] at hs
    split at hs <;> cases hs
    next hlink =>
    have hgood := h.good c
    have hstate := hgood.linked (.inl hlink)
    refine h.set ⟨⟨hgood.buffer, hgood.counts, hgood.sent, hgood.bytes, hgood.echo, fun _ => hstate, nofun⟩, hgood.fits,
      fun halive => absurd halive.1 nofun, fun _ _ => rfl⟩ rfl
  | echo c n =>
    simp only [Client.step] at hs
    split at hs <;> cases hs
    exact h.set ((h.good c).echoes n) rfl
  | shut c =>
    simp only [Client.step] at hs
    split at hs <;> cases hs
    exact h.set (h.good c).shut rfl
  | drain c n =>
    simp only [Client.step] at hs
    split at hs <;> cases hs
    exact h.set ((h.good c).drains n) rfl

theorem inv_of_run (hlow : 0 < low) {acts : List (Act N)} (h : (machine payloadSize low N a).Run acts s) :
    Inv payloadSize low a s :=
  h.inv (Inv payloadSize low a) inv_init fun _ _ _ hi hs => hi.step hlow hs

/-! ## Main results -/

/-- What the load generator reports is what happened: `total_requests` and the latencies
count the requests that were sent in full and answered in full; every connection has
sent these requests and a part of the next one, or all of the next one and received a part
of the response; and the payload is never damaged by the responses that are read over it. -/
theorem requests_answered (hlow : 0 < low) {acts : List (Act N)} (h : (machine payloadSize low N a).Run acts s) :
    s.result.totalRequests = ∑ c, (s.conns c).conn.completed ∧
    s.result.latenciesUs.length = s.result.totalRequests ∧
    ∀ c, Counts payloadSize (s.conns c).conn ∧ (s.conns c).conn.received <+: (s.conns c).conn.sent ∧
      (s.conns c).conn.buffer = List.replicate payloadSize a := by
  have hinv := inv_of_run hlow h
  refine ⟨hinv.total, hinv.latencies, fun c => ?_⟩
  have hgood := hinv.good c
  refine ⟨hgood.counts, ?_, hgood.buffer⟩
  have hrecv : (s.conns c).conn.received <+: (s.conns c).sock.arrived := ⟨_, hgood.bytes⟩
  exact hrecv.trans hgood.echo

/-- A request that is answered in two parts, and a part of the next one; the other connection
is refused. -/
def oneAnswer : List (Act 2) :=
  [.establish 0 3, .refuse 1, .wait [(0, ⟨false, true⟩), (1, ⟨true, true⟩)],
   .step, .connected 1000, .send, .step, .connected 2000, .step,
   .echo 0 1, .wait [(0, ⟨true, true⟩)], .step, .recv 1, .echo 0 1, .recv 1,
   .complete 5000 6000, .send, .send, .step]

theorem requests_answered_one_answer : ∃ s : State 2 Nat, (machine 2 1 2 7).Run oneAnswer s ∧
    s.result = ⟨1, [4]⟩ ∧ s.result.totalRequests = ∑ c, (s.conns c).conn.completed ∧
    (s.conns 0).conn.state = .sending ∧ Counts 2 (s.conns 0).conn := by
  have hexec : ((machine 2 1 2 7).exec oneAnswer).any (fun s => decide (s.result = ⟨1, [4]⟩ ∧
      (s.conns 0).conn.state = .sending)) = true := by decide +kernel
  obtain ⟨s, hrun, hresult, hstate⟩ := Machine.exists_run_of_exec hexec
  obtain ⟨htotal, -, hconns⟩ := requests_answered (by decide) hrun
  exact ⟨s, hrun, hresult, htotal, hstate, (hconns 0).1⟩

theorem not_ready_of_quiet (hquiet : ∀ ev, ¬x.reports low ev) (hup : x.link = .up)
    (hany : (x.sock.readable = true ∧ x.conn.state ≠ .connecting) ∨ x.sock.writable low = true) :
    x.sock.ready ≠ true := by
  intro hready
  refine hquiet ⟨x.sock.readable && x.conn.state ≠ .connecting, x.sock.writable low⟩ ⟨hready, ?_⟩
  rw [hup]
  exact ⟨rfl, hany.imp_left fun ⟨hread, hstate⟩ => by simp [hread, hstate]⟩

/-- A connection that is up and of which `epoll_wait` has nothing to report waits for its peer. -/
theorem Good.waits (hgood : Good payloadSize low a .idle x) (hpos : 0 < payloadSize) (hquiet : ∀ ev, ¬x.reports low ev)
    (halive : x.alive) :
    match x.conn.state with
    | .connecting => False
    | .sending => x.sock.writable low = false
    | .receiving => x.conn.received = x.sock.arrived ∧ x.sock.arrived.length < x.conn.sent.length := by
  have hawake := hgood.awake halive
  have hquiet := not_ready_of_quiet hquiet halive.1
  split
  · next hst =>
    simp only [Awake, hst] at hawake
    exact hquiet (.inr (decide_eq_true (hgood.room hst halive.1))) hawake
  · next hst =>
    simp only [Awake, hst] at hawake
    cases hw : x.sock.writable low with
    | false => rfl
    | true => exact absurd (hawake.ready hw) (hquiet (.inr hw))
  · next hst =>
    simp only [Awake, hst] at hawake
    have hinq : x.sock.inq = [] := by
      by_contra hne
      have hread : x.sock.readable = true := by simp [Socket.readable, hne]
      exact hquiet (.inl ⟨hread, by rw [hst]; nofun⟩) (hawake hread)
    have hall : x.conn.received = x.sock.arrived := by
      rw [← hgood.bytes, hinq, List.append_nil]
    have hcounts := hgood.counts
    simp only [Counts, hst] at hcounts
    have howed : x.conn.readOffset < payloadSize := hgood.fits hst hpos
    refine ⟨hall, ?_⟩
    rw [← hall]
    omega

theorem Inv.idle (h : Inv payloadSize low a s) (hpc : s.pc = .wait) (c : Fin N) :
    Good payloadSize low a .idle (s.conns c) := by
  have := h.good c
  rwa [hpc] at this

/-- The thread never sleeps through an event: when `epoll_wait` has nothing to report, no
refused connection waits to be tried again, and every connection that is up waits for its
peer. One that is sending has a full socket, and one that is receiving has read all that
arrived, which is less than the peer was sent. -/
theorem client_awake (hpos : 0 < payloadSize) (hlow : 0 < low) {acts : List (Act N)}
    (h : (machine payloadSize low N a).Run acts s) (hpc : s.pc = .wait)
    (hquiet : ∀ c ev, ¬(s.conns c).reports low ev) (c : Fin N) :
    (s.conns c).link ≠ .refused ∧
    ((s.conns c).alive →
      match (s.conns c).conn.state with
      | .connecting => False
      | .sending => (s.conns c).sock.writable low = false
      | .receiving => (s.conns c).conn.received = (s.conns c).sock.arrived ∧
          (s.conns c).sock.arrived.length < (s.conns c).conn.sent.length) := by
  have hgood := (inv_of_run hlow h).idle hpc c
  refine ⟨fun hl => ?_, hgood.waits hpos (hquiet c)⟩
  refine hquiet c ⟨false, false⟩ ⟨hgood.retry hl rfl, ?_⟩
  rw [hl]
  trivial

theorem client_awake_one_answer : ∃ s : State 2 Nat, (machine 2 1 2 7).Run oneAnswer s ∧ s.pc = .wait ∧
    (s.conns 0).alive ∧ (s.conns 0).conn.state = .sending ∧ (s.conns 0).sock.writable 1 = false ∧
    (s.conns 1).link ≠ .refused := by
  have hexec : ((machine 2 1 2 7).exec oneAnswer).any (fun s => decide (s.pc = .wait ∧
      (∀ c i o, ¬(s.conns c).reports 1 ⟨i, o⟩) ∧ ((s.conns 0).link = .up ∧ (s.conns 0).sock.eof = false) ∧
      (s.conns 0).conn.state = .sending)) = true := by decide +kernel
  obtain ⟨s, hrun, hpc, hquiet, halive, hstate⟩ := Machine.exists_run_of_exec hexec
  have hawake (c : Fin 2) := client_awake (by decide) (by decide) hrun hpc (fun c ev => hquiet c ev.1 ev.2) c
  have hfull := (hawake 0).2 halive
  rw [hstate] at hfull
  exact ⟨s, hrun, hpc, halive, hstate, hfull, (hawake 1).1⟩

end AsyncRuntime.Client
