import Mathlib.Data.List.Basic
/-!
# Edge-triggered readiness

A non-blocking stream socket in the interest list of an epoll instance with `EPOLLET`, always
for input and sometimes for output. The socket enters the ready list when something
happens to it, not because it is readable or writable: when bytes or the end of the
stream arrive, when there is room again for a sender that was refused, and when
`epoll_ctl` looks at it. Once it is reported it is out of the list.

A program that waits for such a socket must not have to wait for an event that has
passed. `WakesReader` and `WakesWriter` say that it does not, and the lemmas what keeps
them: everything the peer does, and `epoll_ctl` establishes them. A `send` that was
refused a part of its bytes establishes the second one, except for the look at the
socket that a registration for output has missed.
-/

namespace AsyncRuntime.Lib

/-- A socket: the bytes to receive, whether the peer has shut down its side, the room for
bytes to send, whether a `send` was refused for want of room, and whether the socket is
in the ready list. The history: everything that has arrived. -/
structure Socket (β : Type) where
  inq : List β
  eof : Bool
  space : Nat
  nospace : Bool
  ready : Bool
  arrived : List β
deriving DecidableEq

namespace Socket
variable {β : Type} (low : Nat) (k : Socket β)

def readable : Bool := !k.inq.isEmpty || k.eof

/-- A socket counts as writable from `low` bytes of room on. -/
def writable : Bool := decide (low ≤ k.space)

/-- The peer sends `d`. -/
def arrive (d : List β) : Socket β := { k with inq := k.inq ++ d, arrived := k.arrived ++ d, ready := true }

/-- The peer shuts down its side. -/
def shut : Socket β := { k with eof := true, ready := true }

/-- The peer has taken `n` bytes. A sender that was refused is woken if it is registered
for output. -/
def drain (out : Bool) (n : Nat) : Socket β :=
  if k.nospace = true ∧ low ≤ k.space + n then
    { k with space := k.space + n, nospace := false, ready := k.ready || out }
  else { k with space := k.space + n }

/-- `epoll_ctl` looks at the socket when it is added or its registration changes. -/
def poll (out : Bool) : Socket β := { k with ready := k.ready || k.readable || (out && k.writable low) }

/-- `recv` takes the first `n` bytes. -/
def recv (n : Nat) : Socket β := { k with inq := k.inq.drop n }

/-- `send` of `len` bytes takes as many as there is room for. -/
def send (len : Nat) : Socket β :=
  { k with space := k.space - len, nospace := k.nospace || decide (k.space < len) }

/-- `epoll_wait` reports the socket. -/
def report : Socket β := { k with ready := false }

/-- What there is to receive will be noticed. -/
def WakesReader : Prop := k.readable = true → k.ready = true

/-- A sender that was refused will be noticed when there is room. -/
def Refused : Prop := k.writable low = false → k.nospace = true

/-- What there is left to send will be sent when there is room. -/
structure WakesWriter : Prop where
  ready : k.writable low = true → k.ready = true
  refused : k.Refused low

variable {low k}

theorem WakesReader.of_ready (h : k.ready = true) : k.WakesReader := fun _ => h

theorem wakesReader_poll (out : Bool) : (k.poll low out).WakesReader := by
  intro h
  have h : k.readable = true := h
  simp [poll, h]

/-- The peer's reading gives room and takes nothing away. -/
theorem drain_frame (low : Nat) (k : Socket β) (out : Bool) (n : Nat) : (k.drain low out n).inq = k.inq ∧
    (k.drain low out n).arrived = k.arrived ∧ (k.drain low out n).eof = k.eof ∧
    (k.drain low out n).space = k.space + n ∧ (k.ready = true → (k.drain low out n).ready = true) := by
  unfold Socket.drain
  split
  · exact ⟨rfl, rfl, rfl, rfl, fun h => by simp [h]⟩
  · exact ⟨rfl, rfl, rfl, rfl, id⟩

theorem WakesReader.drain (h : k.WakesReader) (out : Bool) (n : Nat) : (k.drain low out n).WakesReader := by
  unfold Socket.drain
  split
  · intro hr
    simp [h hr]
  · exact h

theorem Refused.drain (h : k.Refused low) (out : Bool) (n : Nat) : (k.drain low out n).Refused low := by
  unfold Socket.drain
  split
  · next hc =>
    intro hw
    simp only [writable, decide_eq_false_iff_not] at hw
    exact absurd hc.2 hw
  · intro hw
    apply h
    simp only [writable, decide_eq_false_iff_not] at hw ⊢
    omega

theorem WakesWriter.arrive (h : k.WakesWriter low) (d : List β) :
    (k.arrive d).WakesWriter low := ⟨fun _ => rfl, h.refused⟩

theorem WakesWriter.shut (h : k.WakesWriter low) : k.shut.WakesWriter low := ⟨fun _ => rfl, h.refused⟩

/-- A sender that is registered for output is woken. -/
theorem WakesWriter.drain (h : k.WakesWriter low) (n : Nat) : (k.drain low true n).WakesWriter low := by
  refine ⟨?_, h.refused.drain true n⟩
  unfold Socket.drain
  split
  · intro _
    simp
  · next hc =>
    intro hw
    simp only [writable, decide_eq_true_eq] at hw
    apply h.ready
    -- there was room before, or nobody would have been refused
    by_contra hno
    have hno : k.writable low = false := by simpa using hno
    exact hc ⟨h.refused hno, hw⟩

theorem WakesWriter.poll (h : k.WakesWriter low) (out : Bool) : (k.poll low out).WakesWriter low := by
  refine ⟨fun hw => ?_, h.refused⟩
  simp [Socket.poll, h.ready hw]

/-- A registration for output looks at the socket. -/
theorem Refused.poll (h : k.Refused low) : (k.poll low true).WakesWriter low := by
  refine ⟨fun hw => ?_, h⟩
  have hw : k.writable low = true := hw
  simp [Socket.poll, hw]

/-- A `send` that was refused a part of its bytes. -/
theorem wakesWriter_send {len : Nat} (hlow : 0 < low) (h : k.space < len) : (k.send len).WakesWriter low := by
  constructor
  · intro hw
    have hw : low ≤ k.space - len := of_decide_eq_true hw
    omega
  · intro _
    simp [send, h]

end Socket

end AsyncRuntime.Lib
