import AsyncRuntime.Server.Session
/-!
# What a session is for

`Echo` says it without a buffer and without code: a round receives some bytes and
sends them back, in as many sends as it takes, before the next round receives
again; a result that is not positive ends the session.

Every session of the servers refines `Echo`. For the code this is a map from its
frames to the stages of a round under which a completion moves both in the same
way (`Refines`). The callbacks are stages almost literally; the coroutine leaves its
inner loop to find out by a second test what the callbacks know at once, and the
two agree as long as something is left to send while a send is in flight.
-/

namespace AsyncRuntime.Server
open Lib AsyncRuntime.Ring
variable {β : Type}

/-! ## The echo -/

/-- The round of an echo: receiving, sending `data` of which the first `bytes` are
sent, or no more rounds. -/
inductive Round (β : Type) where
  | receiving
  | sending (data : List β) (bytes : Nat)
  | ended

/-- What an echo asks for: to receive or to send `length` bytes, from `offset` of the
buffer on. -/
structure Ask where
  isSend : Bool
  offset : Nat
  length : Nat
deriving DecidableEq, Repr

structure Echo (β : Type) where
  round : Round β
  asked : List Ask
  received : List β
  sent : List β

/-- What the round asks for, with a buffer of `size` bytes. -/
def Round.ask (size : Nat) : Round β → List Ask
  | .receiving => [⟨false, 0, size⟩]
  | .sending data bytes => [⟨true, bytes, data.length - bytes⟩]
  | .ended => []

/-- The round after a result. -/
def Round.next : Round β → Int → List β → Round β
  | .receiving, res, data => if res ≤ 0 then .ended else .sending data 0
  | .sending data bytes, res, _ =>
    if res ≤ 0 then .ended
    else if bytes + res.toNat < data.length then .sending data (bytes + res.toNat)
    else .receiving
  | .ended, _, _ => .ended

/-- The bytes that a result of the round sends. -/
def Round.sends : Round β → Int → List β
  | .sending data bytes, res => (data.drop bytes).take res.toNat
  | _, _ => []

/-- The echo after a result; a receive comes with its bytes. -/
def Echo.next (size : Nat) (e : Echo β) (res : Int) (data : List β) : Echo β where
  round := e.round.next res data
  asked := e.asked ++ (e.round.next res data).ask size
  received := e.received ++ data
  sent := e.sent ++ e.round.sends res

/-- Between rounds all is sent; in a round all but the rest of its bytes. -/
def Echo.Faithful (e : Echo β) : Prop :=
  match e.round with
  | .receiving => e.sent = e.received
  | .sending data bytes =>
    bytes < data.length ∧ ∃ before, e.received = before ++ data ∧ e.sent = before ++ data.take bytes
  | .ended => e.sent <+: e.received

theorem Echo.Faithful.sent_prefix {e : Echo β} (h : e.Faithful) : e.sent <+: e.received := by
  unfold Echo.Faithful at h
  split at h
  · exact ⟨[], by rw [h, List.append_nil]⟩
  · obtain ⟨-, before, hr, hs⟩ := h
    rw [hr, hs, List.prefix_append_right_inj]
    exact List.take_prefix _ _
  · exact h

/-- The results that the round can get: a receive fills in its bytes, and there is
no result without an operation. -/
def Round.Takes : Round β → Int → List β → Prop
  | .receiving, res, data => data.length = res.toNat
  | .sending _ _, _, data => data.length = 0
  | .ended, _, _ => False

/-- One result keeps the echo faithful. -/
theorem Echo.Faithful.next {e : Echo β} (h : e.Faithful) {size : Nat} {res : Int} {data : List β}
    (ht : e.round.Takes res data) : (e.next size res data).Faithful := by
  cases hround : e.round with
  | receiving =>
    simp only [Echo.Faithful, hround] at h
    simp only [hround, Round.Takes] at ht
    by_cases hres : res ≤ 0
    · simp [Echo.Faithful, Echo.next, hround, Round.next, Round.sends, hres, h]
    · simp only [Echo.Faithful, Echo.next, hround, Round.next, Round.sends, hres, if_false, List.append_nil]
      exact ⟨by omega, e.received, rfl, by rw [h, List.take_zero, List.append_nil]⟩
  | sending d b =>
    simp only [Echo.Faithful, hround] at h
    simp only [hround, Round.Takes, List.length_eq_zero_iff] at ht
    obtain ⟨hb, before, hr, hs⟩ := h
    have htake : d.take b ++ (d.drop b).take res.toNat = d.take (b + res.toNat) := List.take_add.symm
    simp only [Echo.Faithful, Echo.next, hround, Round.next, Round.sends, ht, List.append_nil, hs,
      List.append_assoc, htake, hr]
    by_cases hres : res ≤ 0
    · simp only [hres, if_true, List.prefix_append_right_inj]
      exact List.take_prefix _ _
    · by_cases hlt : b + res.toNat < d.length
      · simp only [hres, hlt, if_true, if_false]
        exact ⟨trivial, before, rfl, rfl⟩
      · simp only [hres, hlt, if_false]
        rw [List.take_of_length_le (by omega)]
  | ended => simp only [hround, Round.Takes] at ht

/-! ## Stages of the code -/

/-- The stage of a round that a frame waits in, with the counters that the code
keeps. -/
inductive Stage where
  | recv
  | send (total bytes : Nat)

def Stage.next : Stage → Int → Option Stage
  | .recv, res => if res ≤ 0 then none else some (.send res.toNat 0)
  | .send total bytes, res =>
    if res ≤ 0 then none else if bytes + res.toNat < total then some (.send total (bytes + res.toNat)) else some .recv

def Stage.isSend : Stage → Bool
  | .recv => false
  | .send _ _ => true

/-- The part of the buffer that the stage's operation names. -/
def Stage.span (buffer : Span) : Stage → Span
  | .recv => buffer
  | .send total bytes => ⟨buffer.data + bytes, total - bytes⟩

/-- Something is left to send, and all of it is in the buffer. -/
def Stage.Valid (size : Nat) : Stage → Prop
  | .recv => True
  | .send total bytes => bytes < total ∧ total ≤ size

/-- The stage's operation stays inside the buffer, and sends something. -/
theorem Stage.Valid.span_inside {st : Stage} {buffer : Span} (h : st.Valid buffer.size) :
    buffer.data ≤ (st.span buffer).data ∧
      (st.span buffer).data + (st.span buffer).size ≤ buffer.data + buffer.size ∧
      (st.isSend = true → 0 < (st.span buffer).size) := by
  cases st with
  | recv => simp [Stage.span, Stage.isSend]
  | send total bytes =>
    obtain ⟨hb, ht⟩ := h
    simp only [Stage.span, Stage.isSend, forall_true_left]
    omega

/-- A stage within bounds is followed by one. -/
theorem Stage.Valid.next {st st' : Stage} {buffer : Span} {res : Int} (hv : st.Valid buffer.size)
    (hb : res ≤ (st.span buffer).size) (hn : st.next res = some st') : st'.Valid buffer.size := by
  cases st with
  | recv =>
    simp only [Stage.next] at hn
    simp only [Stage.span] at hb
    split at hn <;> cases hn
    constructor <;> omega
  | send total bytes =>
    simp only [Stage.next] at hn
    split at hn
    · cases hn
    · split at hn <;> cases hn
      · next hlt => exact ⟨hlt, hv.2⟩
      · trivial

/-- The round that the stage is in; what it sends is in the buffer. -/
def Stage.round (contents : List β) : Stage → Round β
  | .recv => .receiving
  | .send total bytes => .sending (contents.take total) bytes

/-- A map from the frames of a session to stages under which both move alike. -/
structure Refines (P : Program) where
  stage : P.Frame → Stage
  start : P.start.map stage = some .recv
  isSend : ∀ f, (P.request f).isSend = (stage f).isSend
  span : ∀ f, (P.request f).span = (stage f).span P.buffer
  resume : ∀ f res, (stage f).Valid P.buffer.size → (P.resume f res).map stage = (stage f).next res.res

/-! ## The sessions refine the echo -/

def Callback.stage : Callback → Stage
  | .handleRead => .recv
  | .handleWrite totalBytes bytesSent => .send totalBytes bytesSent

theorem Callback.resume_stage (k : Callback) (res : IoResult) : (k.resume res).map stage = k.stage.next res.res := by
  by_cases hneg : res.res < 0
  · have hle : res.res ≤ 0 := by omega
    rcases makeIoCallback_of_neg hneg with hc | ⟨code, hc⟩ <;>
      cases k <;> simp [Callback.resume, hc, Callback.stage, Stage.next, hle]
  · simp only [Callback.resume, makeIoCallback_of_nonneg (Int.not_lt.1 hneg)]
    cases k with
    | handleRead =>
      simp only [Callback.run, Callback.stage, Stage.next]
      split <;> rfl
    | handleWrite total bytes =>
      simp only [Callback.run, Callback.stage, Stage.next]
      split
      · rfl
      · split <;> rfl

def Coroutine.Frame.stage : Coroutine.Frame → Stage
  | .awaitRecv => .recv
  | .awaitSend bytesToSend bytesSent => .send bytesToSend bytesSent

/-- While `running_` is true the two loops lead from a send to the next send or to
the next receive. -/
theorem Coroutine.inner_stage (total bytes : Nat) : (Coroutine.inner true total bytes).getLeft?.map Frame.stage =
    if bytes < total then some (.send total bytes) else some .recv := by
  simp only [Coroutine.inner, Coroutine.afterInner]
  split <;> rfl

theorem Coroutine.resume_stage (f : Coroutine.Frame) (res : IoResult) {size : Nat} (hv : f.stage.Valid size) :
    (Coroutine.resume true f res).getLeft?.map Frame.stage = f.stage.next res.res := by
  by_cases hneg : res.res < 0
  · have hle : res.res ≤ 0 := by omega
    rcases makeIoCallback_of_neg hneg with hc | ⟨code, hc⟩ <;>
      cases f <;> simp [Coroutine.resume, hc, Frame.stage, Stage.next, hle]
  · simp only [Coroutine.resume, makeIoCallback_of_nonneg (Int.not_lt.1 hneg)]
    cases f with
    | awaitRecv =>
      simp only [Frame.stage, Stage.next]
      split
      · rfl
      · rw [Coroutine.inner_stage, if_pos (by omega)]
    | awaitSend total bytes =>
      simp only [Frame.stage, Stage.next]
      split
      · simp only [Coroutine.afterInner, hv.1, if_true]
        rfl
      · exact Coroutine.inner_stage total _

@[simp]
theorem program_buffer (k : Kind) (fd : Int) (buffer : Span) : (program k fd buffer).buffer = buffer := by
  cases k <;> rfl

def refines (k : Kind) (fd : Int) (buffer : Span) : Refines (program k fd buffer) :=
  match k with
  | .engine => ⟨Callback.stage, rfl, fun f => by cases f <;> rfl, fun f => by cases f <;> rfl,
      fun f res _ => f.resume_stage res⟩
  | .registered _ => ⟨Callback.stage, rfl, fun f => by cases f <;> rfl, fun f => by cases f <;> rfl,
      fun f res _ => f.resume_stage res⟩
  | .fallback => ⟨Callback.stage, rfl, fun f => by cases f <;> rfl, fun f => by cases f <;> rfl,
      fun f res _ => f.resume_stage res⟩
  | .coroutine => ⟨Coroutine.Frame.stage, rfl, fun f => by cases f <;> rfl, fun f => by cases f <;> rfl,
      fun f res hv => Coroutine.resume_stage f res hv⟩

/-! ## The echo of a session -/

section
variable {P : Program} (R : Refines P)

/-- What a request asks for. -/
def ask (buffer : Span) (q : Request) : Ask := ⟨q.isSend, q.span.data - buffer.data, q.span.size⟩

/-- The echo that a session with at most one operation in flight is. -/
def Session.echo (s : Session P β) : Echo β where
  round := (s.flight.head?.map fun f => (R.stage f).round s.contents).getD .ended
  asked := s.issued.map (ask P.buffer)
  received := s.received
  sent := s.sent

/-- The request lies inside the buffer, and a send is not empty. -/
structure Inside (buffer : Span) (q : Request) : Prop where
  start : buffer.data ≤ q.span.data
  stop : q.span.data + q.span.size ≤ buffer.data + buffer.size
  nonempty : q.isSend = true → 0 < q.span.size

/-- What holds along every run of a session. -/
structure Sound (s : Session P β) : Prop where
  length : s.contents.length = P.buffer.size
  one : s.flight.length ≤ 1
  valid : ∀ f ∈ s.flight, (R.stage f).Valid P.buffer.size
  inside : ∀ q ∈ s.issued, Inside P.buffer q
  faithful : (s.echo R).Faithful

variable {R}

theorem Refines.inside {f : P.Frame} (hv : (R.stage f).Valid P.buffer.size) : Inside P.buffer (P.request f) := by
  obtain ⟨hstart, hstop, hpos⟩ := hv.span_inside
  refine ⟨?_, ?_, ?_⟩
  · rw [R.span]; exact hstart
  · rw [R.span]; exact hstop
  · rw [R.span, R.isSend]; exact hpos

/-- The round asks for what the frame's operation asks for. -/
theorem Refines.ask_eq {f : P.Frame} {contents : List β} (hlen : contents.length = P.buffer.size)
    (hv : (R.stage f).Valid P.buffer.size) :
    [ask P.buffer (P.request f)] = ((R.stage f).round contents).ask P.buffer.size := by
  cases hst : R.stage f with
  | recv => simp [ask, R.span, R.isSend, hst, Stage.span, Stage.isSend, Stage.round, Round.ask]
  | send total bytes =>
    rw [hst] at hv
    have htake : (contents.take total).length = total := by rw [List.length_take, hlen, Nat.min_eq_left hv.2]
    simp [ask, R.span, R.isSend, hst, Stage.span, Stage.isSend, Stage.round, Round.ask, htake]

/-- A frame in flight is the only one. -/
theorem Sound.flight_eq {s : Session P β} (h : Sound R s) {i : Nat} {f : P.Frame} (hf : s.flight[i]? = some f) :
    i = 0 ∧ s.flight = [f] := by
  have hone := h.one
  match hfl : s.flight with
  | [] => simp [hfl] at hf
  | [g] =>
    rw [hfl] at hf
    cases i with
    | zero => simpa using hf
    | succ i => simp at hf
  | g :: g' :: fs => simp [hfl] at hone

/-! ## One completion -/

variable {s s' : Session P β} {a : Completion β} {f : P.Frame}

theorem transfer_recv (hst : R.stage f = .recv) : s.transfer (P.request f) a =
    if a.data.length = a.result.res.toNat then
      some { s with contents := overwrite s.contents 0 a.data, received := s.received ++ a.data }
    else none := by
  simp [Session.transfer, R.isSend, R.span, hst, Stage.isSend, Stage.span]

theorem transfer_send {total bytes : Nat} (hst : R.stage f = .send total bytes) : s.transfer (P.request f) a =
    if a.data.length = 0 then some { s with sent := s.sent ++ (s.contents.drop bytes).take a.result.res.toNat }
    else none := by
  simp [Session.transfer, R.isSend, R.span, hst, Stage.isSend, Stage.span]

theorem echo_round (hf : s.flight = [f]) : (s.echo R).round = (R.stage f).round s.contents := by
  simp [Session.echo, hf]

/-- What the completion of `f` does to the bytes, and that the round of `f` allows it. -/
structure Transfers (R : Refines P) (f : P.Frame) (a : Completion β) (s t : Session P β) : Prop where
  takes : ((R.stage f).round s.contents).Takes a.result.res a.data
  flight : t.flight = s.flight
  issued : t.issued = s.issued
  length : t.contents.length = P.buffer.size
  received : t.received = s.received ++ a.data
  sent : t.sent = s.sent ++ ((R.stage f).round s.contents).sends a.result.res
  round : (((R.stage f).next a.result.res).map fun st => st.round t.contents).getD .ended =
    ((R.stage f).round s.contents).next a.result.res a.data

theorem transfers {t : Session P β} (hlen : s.contents.length = P.buffer.size) (hv : (R.stage f).Valid P.buffer.size)
    (hb : a.result.res ≤ (P.request f).span.size) (ht : s.transfer (P.request f) a = some t) : Transfers R f a s t := by
  rw [R.span] at hb
  cases hst : R.stage f with
  | recv =>
    rw [transfer_recv hst] at ht
    split at ht
    case isFalse => cases ht
    case isTrue hd =>
    cases ht
    simp only [hst, Stage.span] at hb
    have htake : (overwrite s.contents 0 a.data).take a.data.length = a.data := by
      simpa using take_overwrite (l := s.contents) (d := a.data) (Nat.zero_le _)
    constructor <;> simp only [hst, Stage.round]
    · exact hd
    · rw [← hlen]
      exact length_overwrite (by omega)
    · simp [Round.sends]
    · simp only [Stage.next, Round.next]
      split
      · rfl
      · simp only [Option.map_some, Option.getD_some, ← hd, htake]
  | send total bytes =>
    -- the bytes to send are those which the last receive left in the buffer
    rw [transfer_send hst] at ht
    split at ht
    case isFalse => cases ht
    case isTrue hd =>
    cases ht
    simp only [hst, Stage.span] at hb
    rw [hst] at hv
    obtain ⟨hbytes, htotal⟩ := hv
    have htake : (s.contents.take total).length = total := by rw [List.length_take, hlen, Nat.min_eq_left htotal]
    constructor <;> simp only [hst, Stage.round]
    · exact hd
    · exact hlen
    · rw [List.length_eq_zero_iff.1 hd, List.append_nil]
    · simp only [Round.sends, List.drop_take, List.take_take]
      rw [Nat.min_eq_left (by omega)]
    · simp only [Stage.next, Round.next, htake]
      split
      · rfl
      · split <;> rfl

theorem flight_goOn {t : Session P β} (hf : s.flight = [f]) (ht : t.flight = s.flight) (g : Option P.Frame) :
    (t.goOn 0 g).flight = g.toList := by
  simp [Session.goOn, ht, hf]

/-- The session goes on as its echo does. -/
theorem Transfers.echo {t : Session P β} (h : Transfers R f a s t) (hf : s.flight = [f])
    (hv : (R.stage f).Valid P.buffer.size)
    (hnext : ∀ g, P.resume f a.result = some g → (R.stage g).Valid P.buffer.size) :
    (t.goOn 0 (P.resume f a.result)).echo R = (s.echo R).next P.buffer.size a.result.res a.data := by
  have hround : ((P.resume f a.result).map fun g => (R.stage g).round t.contents).getD .ended =
      ((R.stage f).round s.contents).next a.result.res a.data := by
    rw [← h.round, ← R.resume f a.result hv, Option.map_map]
    rfl
  have hasked : (P.resume f a.result).toList.map (fun g => ask P.buffer (P.request g)) =
      (((R.stage f).round s.contents).next a.result.res a.data).ask P.buffer.size := by
    rw [← hround]
    cases hg : P.resume f a.result with
    | none => rfl
    | some g => simpa using R.ask_eq h.length (hnext g hg)
  rw [Echo.next, echo_round hf, Session.echo, Echo.mk.injEq]
  refine ⟨?_, ?_, h.received, h.sent⟩
  · rw [flight_goOn hf h.flight, Option.head?_toList]
    exact hround
  · simp [Session.goOn, Session.echo, h.issued, ← hasked, Function.comp_def]

/-- The step of a session is a step of its echo. -/
theorem Sound.step (h : Sound R s) (hb : Bounded s a) (hs : s.step a = some s') :
    Sound R s' ∧ a.index = 0 ∧ (s.echo R).round.Takes a.result.res a.data ∧
      s'.echo R = (s.echo R).next P.buffer.size a.result.res a.data := by
  unfold Session.step at hs
  split at hs
  · cases hs
  · next f hf =>
    obtain ⟨t, ht, rfl⟩ := Option.map_eq_some_iff.1 hs
    obtain ⟨hi, hflight⟩ := h.flight_eq hf
    have hv := h.valid f (by simp [hflight])
    have hle : a.result.res ≤ (P.request f).span.size := by simpa [Bounded, hf] using hb
    have htr := transfers h.length hv hle ht
    have hnext : ∀ g, P.resume f a.result = some g → (R.stage g).Valid P.buffer.size := by
      intro g hg
      have hresume := R.resume f a.result hv
      rw [hg] at hresume
      rw [R.span] at hle
      exact hv.next hle hresume.symm
    rw [hi]
    have hecho := htr.echo hflight hv hnext
    have htakes : (s.echo R).round.Takes a.result.res a.data := by rw [echo_round hflight]; exact htr.takes
    refine ⟨⟨htr.length, ?_, ?_, ?_, ?_⟩, rfl, htakes, hecho⟩
    · rw [flight_goOn hflight htr.flight]
      cases P.resume f a.result <;> simp
    · intro g hg
      rw [flight_goOn hflight htr.flight, Option.mem_toList] at hg
      exact hnext g hg
    · intro q hq
      simp only [Session.goOn, List.mem_append, List.mem_map, Option.mem_toList, htr.issued] at hq
      rcases hq with hq | ⟨g, hg, rfl⟩
      · exact h.inside q hq
      · exact R.inside (hnext g hg)
    · rw [hecho]
      exact h.faithful.next htakes

/-- A result that the round can get completes the operation in flight. -/
theorem Sound.can_step (h : Sound R s) (hi : a.index = 0) (ht : (s.echo R).round.Takes a.result.res a.data) :
    ∃ s', s.step a = some s' := by
  match hfl : s.flight with
  | [] => simp [Session.echo, hfl, Round.Takes] at ht
  | f :: fs =>
    have hf : s.flight[a.index]? = some f := by simp [hfl, hi]
    obtain ⟨-, hflight⟩ := h.flight_eq hf
    rw [echo_round hflight] at ht
    cases hst : R.stage f with
    | recv =>
      have hd : a.data.length = a.result.res.toNat := by rw [hst] at ht; exact ht
      exact ⟨_, by simp only [Session.step, hf, transfer_recv hst, if_pos hd]; rfl⟩
    | send total bytes =>
      have hd : a.data.length = 0 := by rw [hst] at ht; exact ht
      exact ⟨_, by simp only [Session.step, hf, transfer_send hst, if_pos hd]; rfl⟩

/-- The bound on a result is the length that the echo asks for. -/
theorem Sound.bounded_iff (h : Sound R s) (hi : a.index = 0) :
    Bounded s a ↔ ∀ q ∈ (s.echo R).round.ask P.buffer.size, a.result.res ≤ q.length := by
  match hfl : s.flight with
  | [] => simp [Bounded, Session.echo, hfl, Round.ask]
  | f :: fs =>
    have hf : s.flight[a.index]? = some f := by simp [hfl, hi]
    obtain ⟨-, hflight⟩ := h.flight_eq hf
    rw [echo_round hflight, ← R.ask_eq h.length (h.valid f (by simp [hflight]))]
    simp [Bounded, hf, ask]

/-! ## Every run -/

theorem echo_new {contents : List β} (R : Refines P) :
    (Session.new P contents).echo R = ⟨.receiving, [⟨false, 0, P.buffer.size⟩], [], []⟩ := by
  have hstart := R.start
  cases hf : P.start with
  | none => rw [hf] at hstart; cases hstart
  | some f =>
    rw [hf, Option.map_some, Option.some.injEq] at hstart
    simp [Session.new, Session.echo, hf, hstart, Stage.round, ask, R.isSend, R.span, Stage.isSend, Stage.span]

theorem Sound.new {contents : List β} (R : Refines P) (hlen : contents.length = P.buffer.size) :
    Sound R (Session.new P contents) := by
  have hvalid : ∀ f, P.start = some f → (R.stage f).Valid P.buffer.size := by
    intro f hf
    have hstart := R.start
    rw [hf, Option.map_some, Option.some.injEq] at hstart
    rw [hstart]
    trivial
  refine ⟨hlen, ?_, ?_, ?_, ?_⟩
  · simp only [Session.new]
    cases P.start <;> simp
  · intro f hf
    exact hvalid f (Option.mem_toList.1 hf)
  · intro q hq
    simp only [Session.new, List.mem_map, Option.mem_toList] at hq
    obtain ⟨f, hf, rfl⟩ := hq
    exact R.inside (hvalid f hf)
  · rw [echo_new]
    exact rfl

theorem sound_of_run {contents : List β} (R : Refines P) (hlen : contents.length = P.buffer.size)
    {acts : List (Completion β)} (h : (session P contents).RunIn Bounded acts s) : Sound R s :=
  Machine.RunIn.inv (M := session P contents) (Sound R) (Sound.new R hlen) (fun _ _ _ hs hb h => (hs.step hb h).1) h

/-- Two sessions with buffers of the same size get through the same results with
the same echo. -/
theorem echo_of_run {P' : Program} (R : Refines P) (R' : Refines P') (hsize : P'.buffer.size = P.buffer.size)
    {contents : List β} (contents' : List β) (hlen : contents.length = P.buffer.size)
    (hlen' : contents'.length = P'.buffer.size) {acts : List (Completion β)}
    (h : (session P contents).RunIn Bounded acts s) :
    ∃ s', (session P' contents').RunIn Bounded acts s' ∧ s'.echo R' = s.echo R := by
  induction h with
  | nil =>
    refine ⟨_, .nil, ?_⟩
    exact (echo_new R').trans (by rw [hsize]; exact (echo_new R).symm)
  | @snoc as s t a hr hb hs ih =>
    obtain ⟨s', hr', he⟩ := ih
    have hsound := sound_of_run R hlen hr
    have hsound' := sound_of_run R' hlen' hr'
    obtain ⟨-, hi, htakes, hecho⟩ := hsound.step hb hs
    rw [← he] at htakes
    obtain ⟨t', hs'⟩ := hsound'.can_step hi htakes
    have hb' : Bounded s' a := by
      rw [hsound'.bounded_iff hi, he, hsize]
      exact (hsound.bounded_iff hi).1 hb
    refine ⟨t', .snoc hr' hb' hs', ?_⟩
    rw [(hsound'.step hb' hs').2.2.2, hecho, he, hsize]

/-- While a receive is in flight everything received is sent. -/
theorem Sound.sent_eq (h : Sound R s) {f : P.Frame} (hf : f ∈ s.flight) (hq : (P.request f).isSend = false) :
    s.sent = s.received := by
  obtain ⟨i, hi⟩ := List.mem_iff_getElem?.1 hf
  have hfaith := h.faithful
  rw [Echo.Faithful, echo_round (h.flight_eq hi).2] at hfaith
  rw [R.isSend] at hq
  cases hst : R.stage f with
  | recv => rw [hst] at hfaith; exact hfaith
  | send total bytes => rw [hst] at hq; cases hq

theorem Sound.ended_iff (h : Sound R s) : (s.echo R).round = .ended ↔ s.flight = [] := by
  match hfl : s.flight with
  | [] => simp [Session.echo, hfl]
  | f :: fs =>
    have hflight := (h.flight_eq (i := 0) (f := f) (by simp [hfl])).2
    rw [echo_round hflight]
    cases R.stage f <;> simp [Stage.round]

end

/-- **The echo sessions are faithful and agree.** Every requested span lies inside
the buffer, every send is non-empty, what send has accepted is a prefix of what was
received, a receive is in flight only when everything received is sent, and at
most one operation is in flight. Any other session, with a buffer of the same
size, gets through the same results with the same requests and the same end. -/
theorem echo_sessions {k : Kind} {fd : Int} {buffer : Span} {contents : List β} (hlen : contents.length = buffer.size)
    {acts : List (Completion β)} {s : Session (program k fd buffer) β}
    (h : (session (program k fd buffer) contents).RunIn Bounded acts s) :
    (∀ q ∈ s.issued, buffer.data ≤ q.span.data ∧ q.span.data + q.span.size ≤ buffer.data + buffer.size) ∧
    (∀ q ∈ s.issued, q.isSend = true → 0 < q.span.size) ∧
    s.sent <+: s.received ∧
    (∀ f ∈ s.flight, ((program k fd buffer).request f).isSend = false → s.sent = s.received) ∧
    s.flight.length ≤ 1 ∧
    ∀ (k' : Kind) (fd' : Int) (buffer' : Span) (contents' : List β), buffer'.size = buffer.size →
      contents'.length = buffer'.size →
      ∃ s', (session (program k' fd' buffer') contents').RunIn Bounded acts s' ∧
        s'.issued.map (ask buffer') = s.issued.map (ask buffer) ∧ (s'.flight = [] ↔ s.flight = []) := by
  have R := refines k fd buffer
  have hsound := sound_of_run R (by simpa using hlen) h
  refine ⟨?_, ?_, hsound.faithful.sent_prefix, fun f => hsound.sent_eq, hsound.one, ?_⟩
  · intro q hq
    have hin := hsound.inside q hq
    rw [program_buffer] at hin
    exact ⟨hin.start, hin.stop⟩
  · intro q hq
    exact (hsound.inside q hq).nonempty
  · -- both programs refine the abstract session, which makes the same requests
    intro k' fd' buffer' contents' hsize hlen'
    have R' := refines k' fd' buffer'
    obtain ⟨s', hr', he⟩ := echo_of_run R R' (by simpa using hsize) contents' (by simpa using hlen)
      (by simpa using hlen') h
    have hsound' := sound_of_run R' (by simpa using hlen') hr'
    refine ⟨s', hr', ?_, ?_⟩
    · have hasked := congrArg Echo.asked he
      simp only [Session.echo, program_buffer] at hasked
      exact hasked
    · rw [← hsound'.ended_iff, ← hsound.ended_iff, he]

/-- Three bytes are received and sent in two parts, then the peer closes. -/
def threeBytes : List (Completion Nat) := [⟨0, ⟨3, 0⟩, [1, 2, 3]⟩, ⟨0, ⟨2, 0⟩, []⟩, ⟨0, ⟨1, 0⟩, []⟩, ⟨0, ⟨0, 0⟩, []⟩]

theorem echo_sessions_three_bytes :
    ∃ s, (session (program .coroutine 5 ⟨1000, 4⟩) [0, 0, 0, 0]).RunIn Bounded threeBytes s ∧ s.flight = [] ∧
      s.sent = [1, 2, 3] ∧ s.sent <+: s.received ∧
      ∃ s', (session (program (.registered 7) 6 ⟨2000, 4⟩) [0, 0, 0, 0]).RunIn Bounded threeBytes s' ∧
        s'.issued.map (ask ⟨2000, 4⟩) = s.issued.map (ask ⟨1000, 4⟩) ∧ s'.flight = [] := by
  have hexec : ((session (program .coroutine 5 ⟨1000, 4⟩) [0, 0, 0, 0]).execIn Bounded
      (session (program .coroutine 5 ⟨1000, 4⟩) [0, 0, 0, 0]).init threeBytes).any
      (fun s => decide (s.flight.length = 0 ∧ s.sent = [1, 2, 3])) = true := by decide +kernel
  obtain ⟨s, hrun, hflight, hsent⟩ := Machine.exists_runIn_of_exec (fun _ _ => id) .nil hexec
  obtain ⟨-, -, hprefix, -, -, hagree⟩ := echo_sessions rfl hrun
  obtain ⟨s', hrun', hissued, hend⟩ := hagree (.registered 7) 6 ⟨2000, 4⟩ [0, 0, 0, 0] rfl rfl
  have hover := List.length_eq_zero_iff.1 hflight
  exact ⟨s, hrun, hover, hsent, hprefix, s', hrun', hissued, hend.2 hover⟩

end AsyncRuntime.Server
