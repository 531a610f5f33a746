import AsyncRuntime.Server.Echo
import AsyncRuntime.Server.Ownership
/-!
# Registered buffers are never shared

An index is a slot, a live connection is its holder (`Lib.Slots`): constructing a
connection takes a slot and destroying one gives its slot back. An operation in flight
owns its connection, so the connection is live and holds the index that the operation
names; and the part of the buffer it names is inside that index's region, because the
counters of a callback are those of a stage of the echo.
-/

namespace AsyncRuntime.Server.Fixed
open Lib AsyncRuntime.Ring

/-! ## Spans -/

theorem Apart.mono {a b A B : Span} (h : A.Apart B) (ha : a.Within A) (hb : b.Within B) : a.Apart b := by
  unfold Span.Apart Span.Within at *
  omega

theorem getSpan_within {p : FixedBufferPool} {i : Nat} (h : i < numBuffers) : (p.getSpan i).Within p.region := by
  simp only [FixedBufferPool.getSpan, FixedBufferPool.region, Span.Within, numBuffers, bufferSize] at *
  omega

theorem getSpan_apart {p : FixedBufferPool} {i j : Nat} (h : i ≠ j) : (p.getSpan i).Apart (p.getSpan j) := by
  simp only [FixedBufferPool.getSpan, Span.Apart, bufferSize]
  omega

theorem request_span (C : Connection) (l : Callback) : (C.request l).span = l.stage.span C.buffer := by
  cases l <;> cases h : C.bufIndex <;> simp [Connection.request, h, Request.span, Callback.stage, Stage.span]

/-- An operation of a connection stays inside the connection's buffer. -/
theorem request_within (C : Connection) (l : Callback) (hv : l.stage.Valid C.buffer.size) :
    (C.request l).span.Within C.buffer := by
  rw [request_span]
  obtain ⟨hstart, hstop, -⟩ := hv.span_inside
  exact ⟨hstart, hstop⟩

theorem request_bufIndex (C : Connection) (l : Callback) : (C.request l).bufIndex = C.bufIndex := by
  cases l <;> cases h : C.bufIndex <;> simp [Connection.request, h, Request.bufIndex]

/-! ## The pool and the live connections -/

/-- The index that the connection of a session holds. -/
def State.held (s : State) (c : Nat) : Option Nat := (s.conn c).bind (·.bufIndex)

/-- Every index is free or held by one live connection, whose buffer is the region
of the index; the other connections have buffers of their own. -/
structure Buffers (s : State) : Prop where
  registered : s.pool.registered = true
  slots : Slots numBuffers s.pool.freeIndices s.held
  size : ∀ {c C}, s.conn c = some C → C.buffer.size = bufferSize
  span : ∀ {c C i}, s.conn c = some C → C.bufIndex = some i → C.buffer = s.pool.getSpan i
  own : ∀ {c C}, s.conn c = some C → C.bufIndex = none → s.pool.region.Apart C.buffer
  apart : ∀ {c d C D}, c ≠ d → s.conn c = some C → s.conn d = some D → C.bufIndex = none → D.bufIndex = none →
    C.buffer.Apart D.buffer

variable {s s' : State}

theorem Buffers.of_eq (h : Buffers s) (hp : s'.pool = s.pool) (hc : s'.conn = s.conn) : Buffers s' := by
  have hheld : s'.held = s.held := by
    funext c
    simp only [State.held, hc]
  constructor
  · rw [hp]; exact h.registered
  · rw [hp, hheld]; exact h.slots
  · rw [hc]; exact h.size
  · rw [hp, hc]; exact h.span
  · rw [hp, hc]; exact h.own
  · rw [hc]; exact h.apart

theorem held_eq {c i : Nat} {C : Connection} (hC : s.conn c = some C) (hi : C.bufIndex = some i) :
    s.held c = some i := by
  simp [State.held, hC, hi]

/-- The buffers of two live connections have no byte in common. -/
theorem Buffers.buffers_apart (h : Buffers s) {c d : Nat} {C D : Connection} (hne : c ≠ d) (hC : s.conn c = some C)
    (hD : s.conn d = some D) : C.buffer.Apart D.buffer := by
  have hmixed : ∀ {c d C D i}, s.conn c = some C → s.conn d = some D → C.bufIndex = some i → D.bufIndex = none →
      C.buffer.Apart D.buffer := by
    intro c d C D i hC hD hi hnone
    rw [h.span hC hi]
    exact Apart.mono (h.own hD hnone) (getSpan_within (h.slots.held_lt (held_eq hC hi))) ⟨Nat.le_refl _, Nat.le_refl _⟩
  cases hi : C.bufIndex with
  | none =>
    cases hj : D.bufIndex with
    | none => exact h.apart hne hC hD hi hj
    | some j => exact (hmixed hD hC hj hi).symm
  | some i =>
    cases hj : D.bufIndex with
    | none => exact hmixed hC hD hi hj
    | some j =>
      rw [h.span hC hi, h.span hD hj]
      apply getSpan_apart
      rintro rfl
      exact hne (h.slots.unique (held_eq hC hi) (held_eq hD hj))

theorem release_registered {p : FixedBufferPool} (h : p.registered = true) (i : Nat) :
    p.release i = { p with freeIndices := p.freeIndices ++ [i] } := by
  simp [FixedBufferPool.release, h]

theorem Buffers.destroy (h : Buffers s) {c : Nat} {C : Connection} (hC : s.conn c = some C) :
    Buffers (s.destroy c C) := by
  have hheld : (s.destroy c C).held = Function.update s.held c none := by
    funext d
    by_cases e : d = c
    · subst e; simp [State.held, State.destroy]
    · simp [State.held, State.destroy, e]
  have hold : ∀ {d D}, (s.destroy c C).conn d = some D → s.conn d = some D := fun hd => (update_none_eq_some hd).2
  have hmem : (s.destroy c C).pool.registered = true ∧ (s.destroy c C).pool.memory = s.pool.memory := by
    cases hi : C.bufIndex <;> simp [State.destroy, hi, FixedBufferPool.release, h.registered]
  refine ⟨hmem.1, ?_, fun hd => h.size (hold hd), fun hd hi => ?_, fun hd hi => ?_,
    fun hne hd hd' => h.apart hne (hold hd) (hold hd')⟩
  · rw [hheld]
    cases hi : C.bufIndex with
    | none =>
      have hnone : s.held c = none := by simp [State.held, hC, hi]
      rw [← hnone, Function.update_eq_self]
      simpa [State.destroy, hi] using h.slots
    | some i => simpa [State.destroy, hi, release_registered h.registered] using h.slots.give (held_eq hC hi)
  · rw [h.span (hold hd) hi]
    simp only [FixedBufferPool.getSpan, hmem.2]
  · have := h.own (hold hd) hi
    simpa only [FixedBufferPool.region, hmem.2] using this

/-- `acquire` on a registered pool. -/
theorem acquire_cases {p : FixedBufferPool} (h : p.registered = true) :
    p.freeIndices = [] ∧ p.acquire = (none, p) ∨
      ∃ free i, p.freeIndices = free ++ [i] ∧ p.acquire = (some i, { p with freeIndices := free }) := by
  rcases List.eq_nil_or_concat p.freeIndices with hnil | ⟨free, i, hcons⟩
  · exact .inl ⟨hnil, by simp [FixedBufferPool.acquire, hnil]⟩
  · rw [List.concat_eq_append] at hcons
    exact .inr ⟨free, i, hcons, by simp [FixedBufferPool.acquire, h, hcons]⟩

/-- A live connection more. -/
theorem Buffers.add (h : Buffers s) {c : Nat} {C : Connection} (hreg : s'.pool.registered = true)
    (hmem : s'.pool.memory = s.pool.memory) (hconn : s'.conn = Function.update s.conn c (some C))
    (hslots : Slots numBuffers s'.pool.freeIndices (Function.update s.held c C.bufIndex))
    (hsize : C.buffer.size = bufferSize) (hspan : ∀ i, C.bufIndex = some i → C.buffer = s.pool.getSpan i)
    (hown : C.bufIndex = none →
      s.pool.region.Apart C.buffer ∧ ∀ {d D}, s.conn d = some D → D.buffer.Apart C.buffer) : Buffers s' := by
  have hheld : s'.held = Function.update s.held c C.bufIndex := by
    funext d
    by_cases e : d = c
    · subst e; simp [State.held, hconn]
    · simp [State.held, hconn, e]
  have hcases : ∀ {d D}, s'.conn d = some D → d = c ∧ D = C ∨ d ≠ c ∧ s.conn d = some D := by
    intro d D hd
    rw [hconn] at hd
    exact update_some_eq_some hd
  refine ⟨hreg, hheld ▸ hslots, ?_, ?_, ?_, ?_⟩
  · intro d D hD
    rcases hcases hD with ⟨-, rfl⟩ | ⟨-, hold⟩
    · exact hsize
    · exact h.size hold
  · intro d D i hD hi
    have hget : s'.pool.getSpan i = s.pool.getSpan i := by simp only [FixedBufferPool.getSpan, hmem]
    rw [hget]
    rcases hcases hD with ⟨-, rfl⟩ | ⟨-, hold⟩
    · exact hspan i hi
    · exact h.span hold hi
  · intro d D hD hi
    have hregion : s'.pool.region = s.pool.region := by simp only [FixedBufferPool.region, hmem]
    rw [hregion]
    rcases hcases hD with ⟨-, rfl⟩ | ⟨-, hold⟩
    · exact (hown hi).1
    · exact h.own hold hi
  · intro d e D E hne hD hE hi hj
    rcases hcases hD with ⟨hd, rfl⟩ | ⟨-, hold⟩ <;> rcases hcases hE with ⟨he, rfl⟩ | ⟨-, hold'⟩
    · exact absurd (hd.trans he.symm) hne
    · exact ((hown hi).2 hold').symm
    · exact (hown hj).2 hold
    · exact h.apart hne hold hold' hi hj

/-- A connection is constructed: it holds the index it has acquired, or none if no
index was free. -/
theorem Buffers.construct (h : Buffers s) {c : Nat} {fd : Int} {a : Nat} (hc : s.conn c = none)
    (hlt : ∀ {d D}, s.conn d = some D → d < s.accepted) (ha : s.pool.acquire.1 = none → s.available a)
    (hpool : s'.pool = (Connection.new fd s.pool a).2)
    (hconn : s'.conn = Function.update s.conn c (some (Connection.new fd s.pool a).1)) :
    Buffers s' ∧ (s.pool.freeIndices = [] → (Connection.new fd s.pool a).1.bufIndex = none) := by
  have hnone : s.held c = none := by simp [State.held, hc]
  rcases acquire_cases h.registered with ⟨hfree, hacq⟩ | ⟨free, i, hfree, hacq⟩
  · have hnew : Connection.new fd s.pool a = (⟨fd, none, ⟨a, bufferSize⟩⟩, s.pool) := by simp [Connection.new, hacq]
    rw [hnew] at hpool hconn ⊢
    obtain ⟨havail, hothers⟩ := ha (by rw [hacq])
    refine ⟨h.add (by rw [hpool]; exact h.registered) (by rw [hpool]) hconn ?_ rfl nofun ?_, fun _ => rfl⟩
    · rw [hpool, ← hnone, Function.update_eq_self]
      exact h.slots
    · intro _
      refine ⟨havail, fun {d D} hD => ?_⟩
      simpa [hD] using hothers d (hlt hD)
  · have hnew : Connection.new fd s.pool a =
        (⟨fd, some i, s.pool.getSpan i⟩, { s.pool with freeIndices := free }) := by
      simp [Connection.new, hacq, FixedBufferPool.getSpan]
    rw [hnew] at hpool hconn ⊢
    refine ⟨h.add (by rw [hpool]; exact h.registered) (by rw [hpool]) hconn ?_ rfl ?_ nofun, fun hnil => ?_⟩
    · rw [hpool]
      have hslots := h.slots
      rw [hfree] at hslots
      exact hslots.take hnone
    · intro j hj
      cases hj
      rfl
    · simp [hnil] at hfree

/-! ## The operations -/

/-- The loop function that is being called. -/
def Pc.loop : Pc → Option Callback
  | .call _ _ loop | .launch _ _ loop => some loop
  | _ => none

/-- What holds along every run. -/
structure Inv (s : State) : Prop where
  buffers : Buffers s
  fresh : ∀ {c C}, s.conn c = some C → c < s.accepted
  count : ∀ c, s.useCount c = s.flight.countP (·.self = c) + s.pc.holds c
  live : ∀ c, s.conn c = none ↔ s.useCount c = 0
  constructing : ∀ c fd, s.pc = .construct c fd → s.conn c = none ∧ c < s.accepted ∧ c ∉ s.starved
  ops : ∀ op ∈ s.flight, op.callback.stage.Valid bufferSize ∧
    ∀ C, s.conn op.self = some C → op.request = C.request op.callback
  loop : ∀ l, s.pc.loop = some l → l.stage.Valid bufferSize
  starved : ∀ c ∈ s.starved, c < s.accepted ∧ ∀ C, s.conn c = some C → C.bufIndex = none

theorem Inv.owned (h : Inv s) : Owned s where
  fresh := h.fresh
  count := h.count
  live := h.live
  constructing c fd hpc := ⟨(h.constructing c fd hpc).1, (h.constructing c fd hpc).2.1⟩

/-- What there is to show besides the ownership. -/
theorem Inv.of_owned (ho : Owned s) (hbuf : Buffers s) (hcon : ∀ c fd, s.pc = .construct c fd → c ∉ s.starved)
    (hops : ∀ op ∈ s.flight, op.callback.stage.Valid bufferSize ∧
      ∀ C, s.conn op.self = some C → op.request = C.request op.callback)
    (hloop : ∀ l, s.pc.loop = some l → l.stage.Valid bufferSize)
    (hst : ∀ c ∈ s.starved, c < s.accepted ∧ ∀ C, s.conn c = some C → C.bufIndex = none) : Inv s where
  buffers := hbuf
  fresh := ho.fresh
  count := ho.count
  live := ho.live
  constructing c fd hpc := ⟨(ho.constructing c fd hpc).1, (ho.constructing c fd hpc).2, hcon c fd hpc⟩
  ops := hops
  loop := hloop
  starved := hst

theorem Inv.conn_of_op (h : Inv s) {op : Op} (hop : op ∈ s.flight) : ∃ C, s.conn op.self = some C := by
  apply h.owned.conn_of_pos
  have hpos : 0 < s.flight.countP (fun o => o.self = op.self) := List.countP_pos_iff.2 ⟨op, hop, by simp⟩
  have := h.count op.self
  omega

/-- The connections stay as they are. -/
theorem Inv.frame (h : Inv s) (ho : Owned s') (hp : s'.pool = s.pool) (hc : s'.conn = s.conn)
    (hst : s'.starved = s.starved) (hacc : s.accepted ≤ s'.accepted)
    (hcon : ∀ c fd, s'.pc = .construct c fd → s.pc = .construct c fd ∨ s.accepted ≤ c)
    (hops : ∀ op ∈ s'.flight, op ∈ s.flight ∨ op.callback.stage.Valid bufferSize ∧
      ∃ C, s.conn op.self = some C ∧ op.request = C.request op.callback)
    (hloop : ∀ l, s'.pc.loop = some l → l.stage.Valid bufferSize) : Inv s' := by
  refine .of_owned ho (h.buffers.of_eq hp hc) ?_ ?_ hloop ?_
  · -- a connection that is about to be constructed has a new number
    intro c fd hpc hmem
    rw [hst] at hmem
    rcases hcon c fd hpc with hold | hle
    · exact (h.constructing c fd hold).2.2 hmem
    · have := (h.starved c hmem).1
      omega
  · intro op hop
    rw [hc]
    rcases hops op hop with hold | ⟨hv, C, hC, hreq⟩
    · exact h.ops op hold
    · refine ⟨hv, fun D hD => ?_⟩
      rw [hC] at hD
      cases hD
      exact hreq
  · intro c hmem
    rw [hst] at hmem
    obtain ⟨hlt, hnone⟩ := h.starved c hmem
    exact ⟨by omega, by rw [hc]; exact hnone⟩

/-- A step that starts and completes no operation. -/
theorem Inv.move (h : Inv s) (ho : Owned s') (hp : s'.pool = s.pool) (hc : s'.conn = s.conn)
    (hst : s'.starved = s.starved) (hf : s'.flight = s.flight) (hacc : s.accepted ≤ s'.accepted)
    (hcon : ∀ c fd, s'.pc = .construct c fd → s.pc = .construct c fd ∨ s.accepted ≤ c)
    (hloop : ∀ l, s'.pc.loop = some l → s.pc.loop = some l) : Inv s' := by
  refine h.frame ho hp hc hst hacc hcon (fun op hop => ?_) (fun l hl => h.loop l (hloop l hl))
  rw [hf] at hop
  exact .inl hop

/-- A pointer on the stack goes away, and with the last one the connection. -/
theorem Inv.drop (h : Inv s) (ho : Owned s') {c : Nat} (hp : s'.pool = (s.drop c).pool) (hc : s'.conn = (s.drop c).conn)
    (hf : s'.flight = s.flight) (hst : s'.starved = s.starved) (hacc : s'.accepted = s.accepted)
    (hholds : 0 < s.pc.holds c) (hcon : ∀ d fd, s'.pc ≠ .construct d fd) (hloop : s'.pc.loop = none) : Inv s' := by
  have hpos : 0 < s.useCount c := by
    have := h.count c
    omega
  obtain ⟨C, hC⟩ := h.owned.conn_of_pos hpos
  obtain ⟨-, hlast, hmore⟩ := drop_eq hC
  have hbuf : Buffers s' ∧ ∀ {d D}, s'.conn d = some D → s.conn d = some D := by
    by_cases hone : s.useCount c = 1
    · obtain ⟨hdp, hdc, -⟩ := hlast hone
      refine ⟨(h.buffers.destroy hC).of_eq (hp.trans hdp) (hc.trans hdc), fun hd => ?_⟩
      rw [hc.trans hdc] at hd
      exact (update_none_eq_some hd).2
    · obtain ⟨hdp, hdc, -⟩ := hmore hone
      exact ⟨h.buffers.of_eq (hp.trans hdp) (hc.trans hdc), fun hd => by rwa [hc.trans hdc] at hd⟩
  refine .of_owned ho hbuf.1 (fun d fd hpc => absurd hpc (hcon d fd)) ?_ ?_ ?_
  · intro op hop
    rw [hf] at hop
    exact ⟨(h.ops op hop).1, fun D hD => (h.ops op hop).2 D (hbuf.2 hD)⟩
  · intro l hl
    rw [hloop] at hl
    cases hl
  · intro d hmem
    rw [hst] at hmem
    rw [hacc]
    exact ⟨(h.starved d hmem).1, fun D hD => (h.starved d hmem).2 D (hbuf.2 hD)⟩

/-- A connection is constructed; nobody had a pointer to it. -/
theorem Inv.construct (h : Inv s) (ho : Owned s') {c a : Nat} {fd : Int} (hpc : s.pc = .construct c fd)
    (ha : s.pool.acquire.1 = none → s.available a) (hp : s'.pool = (Connection.new fd s.pool a).2)
    (hc : s'.conn = Function.update s.conn c (some (Connection.new fd s.pool a).1)) (hf : s'.flight = s.flight)
    (hst : s'.starved = if s.pool.freeIndices.isEmpty then c :: s.starved else s.starved)
    (hacc : s'.accepted = s.accepted) (hpc' : s'.pc = .call (.accept fd) c .handleRead) : Inv s' := by
  obtain ⟨hnone, hlt, hns⟩ := h.constructing c fd hpc
  obtain ⟨hbuf, hstarved⟩ := h.buffers.construct hnone h.fresh ha hp hc
  have hcases : ∀ {d D}, s'.conn d = some D →
      d = c ∧ D = (Connection.new fd s.pool a).1 ∨ d ≠ c ∧ s.conn d = some D := by
    intro d D hd
    rw [hc] at hd
    exact update_some_eq_some hd
  refine .of_owned ho hbuf (fun d fd' hcon => ?_) ?_ (fun l hl => ?_) ?_
  · rw [hpc'] at hcon
    cases hcon
  · -- an operation in flight has a connection, so it is not for the new one
    intro op hop
    rw [hf] at hop
    refine ⟨(h.ops op hop).1, fun D hD => ?_⟩
    rcases hcases hD with ⟨hself, -⟩ | ⟨-, hold⟩
    · obtain ⟨C, hC⟩ := h.conn_of_op hop
      rw [hself, hnone] at hC
      cases hC
    · exact (h.ops op hop).2 D hold
  · rw [hpc'] at hl
    cases hl
    trivial
  · intro d hmem
    rw [hacc]
    have hold : d ∈ s.starved → d < s.accepted ∧ ∀ D, s'.conn d = some D → D.bufIndex = none := by
      intro hd
      refine ⟨(h.starved d hd).1, fun D hD => ?_⟩
      rcases hcases hD with ⟨rfl, -⟩ | ⟨-, hD⟩
      · exact absurd hd hns
      · exact (h.starved d hd).2 D hD
    rw [hst] at hmem
    split at hmem
    · next hempty =>
      rcases List.mem_cons.1 hmem with rfl | hd
      · refine ⟨hlt, fun D hD => ?_⟩
        rcases hcases hD with ⟨-, rfl⟩ | ⟨hne, -⟩
        · exact hstarved (List.isEmpty_iff.1 hempty)
        · exact absurd rfl hne
      · exact hold hd
    · exact hold hmem

/-- The loop function that a completion calls goes on with the echo. -/
theorem Inv.resumed (h : Inv s) {op : Op} {r : IoResult} {l : Callback} (hop : op ∈ s.flight)
    (hb : r.res ≤ op.request.span.size) (hl : op.callback.resume r = some l) : l.stage.Valid bufferSize := by
  obtain ⟨hv, hreq⟩ := h.ops op hop
  obtain ⟨C, hC⟩ := h.conn_of_op hop
  have hstage := Callback.resume_stage op.callback r
  rw [hl] at hstage
  rw [hreq C hC, request_span] at hb
  rw [← h.buffers.size hC] at hv ⊢
  exact hv.next hb hstage.symm

/-! ## Every step -/

theorem Inv.init (memory : Nat) : Inv (init true memory) := by
  have hfree : ∀ i, i ∈ (FixedBufferPool.new true memory).freeIndices ↔ i < numBuffers := by
    intro i
    simp only [FixedBufferPool.new, if_true, List.mem_map, List.mem_range, numBuffers]
    constructor
    · rintro ⟨j, hj, rfl⟩
      omega
    · intro hi
      exact ⟨63 - i, by omega, by omega⟩
  have hnodup : (FixedBufferPool.new true memory).freeIndices.Nodup := by
    refine List.Nodup.map_on (fun i hi j hj hij => ?_) List.nodup_range
    rw [List.mem_range] at hi hj
    omega
  exact .of_owned (Owned.init true memory)
    ⟨rfl, Slots.all_free hnodup hfree, nofun, nofun, nofun, nofun⟩ nofun nofun nofun nofun

theorem Inv.step {a : Act} (h : Inv s) (hb : Bounded s a) (hs : step s a = some s') : Inv s' := by
  have ho := h.owned.step hs
  have hdrop : ∀ c, (s.drop c).flight = s.flight ∧ (s.drop c).starved = s.starved ∧ (s.drop c).accepted = s.accepted :=
    fun c => ⟨drop_same.1, drop_same.2.1, drop_same.2.2.1⟩
  cases step_effect hs with
  | halt | missed => exact h.move ho rfl rfl rfl rfl (Nat.le_refl _) (fun _ _ => .inl) (fun _ => id)
  | accepted =>
    refine h.move ho rfl rfl rfl rfl (Nat.le_succ _) (fun c fd hcon => ?_) (fun l hl => by cases hl)
    cases hcon
    exact .inr (Nat.le_refl _)
  | construct c fd a hpc ha => exact h.construct ho hpc ha rfl rfl rfl rfl rfl rfl
  | constructThrew | launchThrew | rearm =>
    exact h.move ho rfl rfl rfl rfl (Nat.le_refl _) (fun c fd hcon => by cases hcon) (fun l hl => by cases hl)
  | call k c l C hpc =>
    refine h.move ho rfl rfl rfl rfl (Nat.le_refl _) (fun c fd hcon => by cases hcon) (fun l' hl' => ?_)
    rw [hpc]
    exact hl'
  | leaveLoop k c threw hpc =>
    obtain ⟨hf, hst, hacc⟩ := hdrop c
    exact h.drop ho rfl rfl hf hst hacc (by rw [hpc]; simp [Pc.holds]) (fun d fd hcon => by cases hcon) rfl
  | leave k c threw hpc =>
    obtain ⟨hf, hst, hacc⟩ := hdrop c
    obtain ⟨cl, pc, heq, hk⟩ := leave_eq s k c threw
    rw [heq] at ho ⊢
    have hholds : 0 < s.pc.holds c := by rw [hpc]; simp [Pc.holds]
    rcases hk with ⟨-, -, rfl⟩ | ⟨fd, -, -, rfl⟩ <;>
      exact h.drop ho rfl rfl hf hst hacc hholds (fun d fd hcon => by cases hcon) rfl
  | launch k c l C hpc hC =>
    refine h.frame ho rfl rfl rfl (Nat.le_refl _) (fun c fd hcon => by cases hcon) (fun op hop => ?_)
      (fun l hl => by cases hl)
    rcases List.mem_append.1 hop with hop | hop
    · exact .inl hop
    · rw [List.mem_singleton] at hop
      subst hop
      exact .inr ⟨h.loop l (by rw [hpc]; rfl), C, hC, rfl⟩
  | complete i r op hpc hop =>
    have hle : r.res ≤ op.request.span.size := by simpa [Bounded, hop] using hb
    refine h.frame ho rfl rfl rfl (Nat.le_refl _) (fun d fd hcon => ?_) (fun o ho => ?_) (fun l hl => ?_)
    · dsimp only at hcon
      split at hcon <;> cases hcon
    · exact .inl (List.mem_of_mem_eraseIdx ho)
    · refine h.resumed (List.mem_of_getElem? hop) hle ?_
      dsimp only at hl
      split at hl
      · next hl' => rw [hl']; exact hl
      · cases hl

theorem inv_of_run {memory : Nat} {acts : List Act} (h : (machine true memory).RunIn Bounded acts s) : Inv s :=
  Machine.RunIn.inv (M := machine true memory) Inv (Inv.init memory) (fun _ _ _ hi hb hs => hi.step hb hs) h

/-- The connection of a session is live and holds the index. -/
def State.Holds (s : State) (c i : Nat) : Prop := ∃ C, s.conn c = some C ∧ C.bufIndex = some i

theorem holds_iff {c i : Nat} : s.Holds c i ↔ s.held c = some i := by
  simp only [State.Holds, State.held, Option.bind_eq_some_iff]

/-- **Registered buffers are never shared.** With the buffers registered, every index
is in `free_indices_` once or held by one live connection. An operation in flight on
a registered buffer names the index its own live connection holds and stays inside
that index's region; a connection constructed when no index was free has none. Two
live connections have no byte of their buffers in common, and neither have two
operations in flight of different connections. -/
theorem buffers_never_shared {memory : Nat} {acts : List Act} (h : (machine true memory).RunIn Bounded acts s) :
    (∀ i < numBuffers, s.pool.freeIndices.count i = 1 ∧ (∀ c, ¬ s.Holds c i) ∨
      s.pool.freeIndices.count i = 0 ∧ ∃ c, s.Holds c i ∧ ∀ d, s.Holds d i → d = c) ∧
    (∀ op ∈ s.flight, ∀ i, op.request.bufIndex = some i →
      s.Holds op.self i ∧ op.request.span.Within (s.pool.getSpan i)) ∧
    (∀ op ∈ s.flight, op.self ∈ s.starved → op.request.bufIndex = none) ∧
    (∀ c d C D, c ≠ d → s.conn c = some C → s.conn d = some D → C.buffer.Apart D.buffer) ∧
    ∀ op ∈ s.flight, ∀ op' ∈ s.flight, op.self ≠ op'.self → op.request.span.Apart op'.request.span := by
  have hinv := inv_of_run h
  have hop : ∀ op ∈ s.flight, ∃ C, s.conn op.self = some C ∧ op.request.bufIndex = C.bufIndex ∧
      op.request.span.Within C.buffer := by
    intro op hmem
    obtain ⟨C, hC⟩ := hinv.conn_of_op hmem
    obtain ⟨hv, hreq⟩ := hinv.ops op hmem
    rw [← hinv.buffers.size hC] at hv
    rw [hreq C hC]
    exact ⟨C, hC, request_bufIndex C _, request_within C _ hv⟩
  refine ⟨?_, ?_, ?_, fun c d C D => hinv.buffers.buffers_apart, ?_⟩
  · intro i hi
    simp only [holds_iff]
    have hslots := hinv.buffers.slots
    by_cases hfree : i ∈ s.pool.freeIndices
    · exact .inl ⟨List.count_eq_one_of_mem hslots.nodup hfree, fun c hc => hslots.not_free hc hfree⟩
    · obtain ⟨c, hc⟩ := (hslots.total i hi).resolve_left hfree
      exact .inr ⟨List.count_eq_zero.2 hfree, c, hc, fun d hd => hslots.unique hd hc⟩
  · intro op hmem i hi
    obtain ⟨C, hC, hidx, hin⟩ := hop op hmem
    rw [hidx] at hi
    rw [← hinv.buffers.span hC hi]
    exact ⟨⟨C, hC, hi⟩, hin⟩
  · intro op hmem hst
    obtain ⟨C, hC, hidx, -⟩ := hop op hmem
    rw [hidx]
    exact (hinv.starved _ hst).2 C hC
  · intro op hmem op' hmem' hne
    obtain ⟨C, hC, -, hin⟩ := hop op hmem
    obtain ⟨D, hD, -, hin'⟩ := hop op' hmem'
    exact Apart.mono (hinv.buffers.buffers_apart hne hC hD) hin hin'

/-- Two connections are accepted, and the first receives five bytes and sends two
of them. -/
def twoConnections : List Act := List.flatten
  [[.accept ⟨5, 0⟩, .construct 0 true, .step, .launch true, .step, .step, .launch true],
   [.accept ⟨6, 0⟩, .construct 0 true, .step, .launch true, .step, .step, .launch true],
   [.complete 0 ⟨5, 0⟩, .step, .launch true, .step, .step],
   [.complete 1 ⟨2, 0⟩, .step, .launch true, .step, .step]]

theorem buffers_never_shared_two_connections : ∃ s, (machine true 1000).RunIn Bounded twoConnections s ∧
    s.flight.map (·.request) = [.readFixed 6 1 ⟨1128, 128⟩ 0, .writeFixed 5 0 ⟨1002, 3⟩ 0] ∧
    (∀ op ∈ s.flight, ∀ i, op.request.bufIndex = some i →
      s.Holds op.self i ∧ op.request.span.Within (s.pool.getSpan i)) ∧
    (∀ op ∈ s.flight, ∀ op' ∈ s.flight, op.self ≠ op'.self → op.request.span.Apart op'.request.span) := by
  have hexec : ((machine true 1000).execIn Bounded (init true 1000) twoConnections).any
      (fun s => decide (s.flight.map (·.request) = [.readFixed 6 1 ⟨1128, 128⟩ 0, .writeFixed 5 0 ⟨1002, 3⟩ 0])) =
      true := by decide +kernel
  obtain ⟨s, hrun, hreq⟩ := Machine.exists_runIn_of_exec (fun _ _ => id) .nil hexec
  obtain ⟨-, hfixed, -, -, hapart⟩ := buffers_never_shared hrun
  exact ⟨s, hrun, hreq, hfixed, hapart⟩

end AsyncRuntime.Server.Fixed
