import AsyncRuntime.Lib.Memory
import AsyncRuntime.Server.Session
/-!
# Sessions on one ring

The servers run all their sessions on one `io_context`. Here the sessions, the context
and the memory they share are one machine. A session is suspended on one operation of
the context; `run()` calls the callback of the operation, the callback resumes the
session's frame, and the frame starts the session's next operation. In between, the
operation is an entry that the kernel sees as an address and a length.

What stands for the kernel: it completes an entry by moving bytes between the socket
and the memory that the entry names, at most as many as it names. A new connection
has a descriptor that no session uses, and a buffer that overlaps none in use: the
buffer is part of an object of its own, or taken from `FixedBufferPool`. The context is
used for nothing else but to accept connections.
-/

namespace AsyncRuntime.Ring

/-- Whether an entry moves bytes out of memory, on which descriptor, and the memory. -/
def Prep.moves : Prep → Option (Bool × Int × Span)
  | .read fd buf len _ | .recv fd buf len _ | .readFixed fd buf len _ _ => some (false, fd, ⟨buf, len⟩)
  | .write fd buf len _ | .send fd buf len _ | .writeFixed fd buf len _ _ => some (true, fd, ⟨buf, len⟩)
  | .accept _ | .cancel _ | .nop => none

def Request.isAccept : Request → Bool
  | .accept _ => true
  | _ => false

end AsyncRuntime.Ring

namespace AsyncRuntime.Server
open Lib AsyncRuntime.Ring

/-- A session that is suspended on operation `op` of the context, with the frame that
the completion resumes. -/
structure Suspended where
  op : Nat
  kind : Kind
  fd : Int
  buffer : Span
  frame : (program kind fd buffer).Frame

/-- The code of the session. -/
abbrev Suspended.program (w : Suspended) : Program := Server.program w.kind w.fd w.buffer

/-- The context, the memory and the sessions. The history: what was received and sent on
each descriptor since it was last accepted. -/
structure Host (β : Type) where
  ring : RingImpl
  mem : Nat → β
  sessions : List Suspended
  received : Int → List β
  sent : Int → List β

namespace Host
variable {β : Type}

/-- The kernel completes an entry with `res`; a receive comes with its bytes. -/
def transfer (s : Host β) (prep : Prep) (res : Int) (data : List β) : Option (Host β) :=
  match prep.moves with
  | some (false, fd, span) =>
    if res ≤ span.size ∧ data.length = res.toNat then
      some { s with
        mem := store s.mem span.data data
        received := Function.update s.received fd (s.received fd ++ data) }
    else none
  | some (true, fd, span) =>
    if res ≤ span.size ∧ data.length = 0 then
      some { s with sent := Function.update s.sent fd (s.sent fd ++ load s.mem span.data res.toNat) }
    else none
  | none => if data.length = 0 then some s else none

/-- The session whose callback `run()` is about to call, and the result. -/
def calling (s : Host β) : Option (Suspended × IoResult) :=
  match s.ring.run with
  | .calling head _ p =>
    match s.ring.cq[head]?, s.ring.heap p with
    | some e, some A => (s.sessions.find? (·.op = A)).map (·, e.result)
    | _, _ => none
  | _ => none

/-- The session starts the operation of its frame. -/
def await (s : Host β) (w : Suspended) (possible : Bool) : Option (Host β) :=
  (Ring.step s.ring (.begin w.op (w.program.request w.frame) possible)).map fun ring =>
    { s with ring := ring, sessions := w :: s.sessions }

/-- The frame of the session is resumed: it starts its next operation, as `A`, or ends. -/
def goOn (s : Host β) (w : Suspended) (res : IoResult) (A : Nat) (possible : Bool) : Option (Host β) :=
  match w.program.resume w.frame res with
  | some frame => s.await { w with op := A, frame := frame } possible
  | none => some s

/-- Actions of the context that are not those of a session. -/
def plain (s : Host β) : Ring.Act → Bool
  | .begin _ r _ => r.isAccept
  | .runStep => s.calling.isNone
  | .complete _ _ => false
  | _ => true

/-- What the scheduler, the kernel and the peers choose. -/
inductive Act (β : Type) where
  | ring (a : Ring.Act)
  | connect (A : Nat) (possible : Bool) (kind : Kind) (fd : Int) (buffer : Span)
  | complete (i : Nat) (r : IoResult) (data : List β)
  | resume (A : Nat) (possible : Bool)

/-- One step. -/
def step (s : Host β) : Act β → Option (Host β)
  | .ring a =>
    if s.plain a then
      (Ring.step s.ring a).map fun ring =>
        -- a session whose operation is stopped before its submission is not resumed
        { s with ring := ring, sessions := s.sessions.filter fun w => (ring.ops w.op).start ≠ .stoppedEarly }
    else none
  | .connect A possible kind fd buffer =>
    match (program kind fd buffer).start with
    | some frame =>
      if ∀ w ∈ s.sessions, w.fd ≠ fd ∧ w.buffer.Apart buffer then
        await { s with
          received := Function.update s.received fd []
          sent := Function.update s.sent fd [] } ⟨A, kind, fd, buffer, frame⟩ possible
      else none
    | none => none
  | .complete i r data =>
    match s.ring.kernel[i]? with
    | some e =>
      (s.transfer e.prep r.res data).bind fun t =>
        (Ring.step s.ring (.complete i r)).map fun ring => { t with ring := ring }
    | none => none
  | .resume A possible =>
    match s.calling with
    | some (w, r) =>
      (Ring.step s.ring .runStep).bind fun ring =>
        goOn { s with ring := ring, sessions := s.sessions.filter (·.op ≠ w.op) } w r A possible
    | none => none

/-- A context without sessions; the memory is as it happens to be. -/
def init (depth : Nat) (mem : Nat → β) : Host β := ⟨Ring.init depth, mem, [], fun _ => [], fun _ => []⟩

def machine (depth : Nat) (mem : Nat → β) : Machine (Host β) (Act β) := ⟨init depth mem, step⟩

end Host

end AsyncRuntime.Server
