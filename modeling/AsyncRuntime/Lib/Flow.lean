import AsyncRuntime.Lib.Buffer
/-!
# Flow-controlled streams

One direction of a stream connection. The sender has room for a number of bytes; a byte
takes room when it is sent, and gives it back when the sender learns that the receiver
has taken it. So a stream on which nothing is on the way, and whose receiver has taken
all that arrived, has all of its room.
-/

namespace AsyncRuntime.Lib

/-- What the sender's calls have accepted, what has arrived at the receiver, and what the
receiver's calls have returned; the room left for the sender, and how many bytes it knows to be
taken. -/
structure Flow (β : Type) where
  sent : List β
  arrived : List β
  received : List β
  space : Nat
  acked : Nat

namespace Flow
variable {β : Type} {cap : Nat} {f f' : Flow β}

structure Ok (cap : Nat) (f : Flow β) : Prop where
  order : f.arrived <+: f.sent
  acked_le : f.acked ≤ f.received.length
  room : f.space + f.sent.length = cap + f.acked

/-- Nothing is on the way, in either direction. -/
structure Settled (f : Flow β) : Prop where
  delivered : f.sent.length ≤ f.arrived.length
  told : f.received.length ≤ f.acked

/-- The two ends send and receive. -/
theorem Ok.keep (h : f.Ok cap) (harr : f'.arrived = f.arrived) (hsent : f.sent <+: f'.sent)
    (hrecv : f.received.length ≤ f'.received.length) (hacked : f'.acked = f.acked)
    (hroom : f'.space + f'.sent.length = f.space + f.sent.length) : f'.Ok cap := by
  refine ⟨?_, ?_, ?_⟩
  · rw [harr]
    exact h.order.trans hsent
  · rw [hacked]
    exact Nat.le_trans h.acked_le hrecv
  · rw [hroom, hacked]
    exact h.room

/-- The network delivers `n` bytes. -/
theorem Ok.deliver (h : f.Ok cap) (n : Nat) :
    Ok cap { f with arrived := f.arrived ++ (f.sent.drop f.arrived.length).take n } :=
  ⟨prefix_append_take_drop h.order n, h.acked_le, h.room⟩

/-- The sender learns that `n` more bytes were taken. -/
theorem Ok.ack (h : f.Ok cap) {n : Nat} (hn : f.acked + n ≤ f.received.length) :
    Ok cap { f with acked := f.acked + n, space := f.space + n } := by
  refine ⟨h.order, hn, ?_⟩
  have hroom := h.room
  show f.space + n + f.sent.length = cap + (f.acked + n)
  omega

/-- A stream at rest has all of its room. -/
theorem Ok.all_room (h : f.Ok cap) (hs : f.Settled) (hread : f.received = f.arrived) :
    f.arrived = f.sent ∧ f.space = cap := by
  have heq : f.arrived = f.sent := h.order.eq_of_length_le hs.delivered
  have hacked := Nat.le_antisymm h.acked_le hs.told
  have hroom := h.room
  rw [hacked, hread, heq] at hroom
  exact ⟨heq, by omega⟩

end Flow

/-- A part of a beginning is that part of the whole. -/
theorem take_drop_of_prefix {β : Type} {l₁ l₂ : List β} (h : l₁ <+: l₂) {k n : Nat} (hn : k + n ≤ l₁.length) :
    (l₂.drop k).take n = (l₁.drop k).take n := by
  obtain ⟨t, rfl⟩ := h
  rw [List.drop_append_of_le_length (by omega), List.take_append_of_le_length (by rw [List.length_drop]; omega)]

end AsyncRuntime.Lib
