import AsyncRuntime.EndToEnd.Frames
import AsyncRuntime.Lib.Sums
/-!
# The benchmark never gets stuck

The load generator does not read while it sends a request, and a request may be longer
than what the network and the sockets hold. Still the two sides never wait for each other:
the epoll server reads all there is before it waits, so the client gets its room back
whatever the server has not yet sent; and the client reads all there is once its request
is sent.
-/

namespace AsyncRuntime.EndToEnd
open Lib Server.Epoll
variable {N : Nat} {β : Type} {u : Setup} {a : β} {s s' : World N β} {c : Fin N} {fd : Int}

/-! ## The two directions of a connection -/

/-- The bytes and the room of a connection, as far as it has come. -/
def Carried (u : Setup) (s : World N β) (c : Fin N) : Prop :=
  match s.route c with
  | .down => True
  | .backlog => (s.client.conns c).sock.arrived = [] ∧ s.acked c = 0 ∧ s.replyAcked c = 0 ∧
      (s.client.conns c).sock.space + (s.client.conns c).conn.sent.length = u.requestRoom
  | .served fd => ∀ x, s.server.server.conns fd = some x →
      (s.requests c fd x).Ok u.requestRoom ∧ (s.replies c fd x).Ok u.replyRoom

/-- What holds along every run. -/
structure Inv (u : Setup) (a : β) (s : World N β) : Prop where
  client : Client.Inv u.payloadSize u.low a s.client
  server : Covered u.listenFd u.low s.server
  served : ∀ {c fd}, s.route c = .served fd → ∃ x, s.server.server.conns fd = some x
  inj : ∀ {c d fd}, s.route c = .served fd → s.route d = .served fd → c = d
  waiting : ∑ c, (if s.route c = .backlog then 1 else 0) = s.server.backlog
  carried : ∀ c, (s.client.conns c).link = .up → Carried u s c

theorem inv_init : Inv u a (init u a : World N β) := by
  refine ⟨Client.inv_init, ?_, nofun, nofun, ?_, nofun⟩
  · exact ⟨⟨nofun, nofun, fun _ => rfl, rfl, nofun, List.nodup_nil, nofun⟩, nofun⟩
  · simp [init, Sys.init]

/-- The connection sends and receives at the client. -/
theorem Carried.client {t : Client.State N β} (h : Carried u s c) (hk : (s.client.conns c).Keeps (t.conns c)) :
    Carried u { s with client := t } c := by
  unfold Carried at h ⊢
  dsimp only
  split
  · trivial
  · next hroute =>
    rw [hroute] at h
    obtain ⟨harr, hacked, hreply, hroom⟩ := h
    exact ⟨hk.arrived.trans harr, hacked, hreply, hk.room.trans hroom⟩
  · next fd hroute =>
    rw [hroute] at h
    intro x hx
    obtain ⟨hreq, hrep⟩ := h x hx
    exact ⟨hreq.keep rfl hk.sent (Nat.le_refl _) rfl hk.room, hrep.keep hk.arrived List.prefix_rfl hk.received rfl rfl⟩

/-- The client moves. -/
theorem Inv.moveClient {t : Client.State N β} (h : Inv u a s) (ht : Client.Inv u.payloadSize u.low a t)
    (hk : ∀ c, ∃ y, (t.conns c).wire = y.wire ∧ (s.client.conns c).Turns u.payloadSize y) :
    Inv u a { s with client := t } := by
  refine ⟨ht, h.server, h.served, h.inj, h.waiting, fun c hup => ?_⟩
  obtain ⟨y, hw, hturn⟩ := hk c
  have hk := hturn.keeps (h.client.good c).toSound hw hup
  exact (h.carried c hk.link).client hk

theorem route_serve {t : Sys β} (h : (s.serve t).route c = .served fd) :
    s.route c = .served fd ∧ (t.server.conns fd).isSome = true := by
  simp only [World.serve] at h
  split at h
  · next hroute =>
    split at h <;> cases h
    next hsome => exact ⟨hroute, hsome⟩
  · next hne => exact absurd h (hne fd)

theorem backlog_serve {t : Sys β} : (s.serve t).route c = .backlog ↔ s.route c = .backlog := by
  simp only [World.serve]
  split
  · next hroute =>
    rw [hroute]
    split <;> simp
  · exact Iff.rfl

/-- The server moves, and learns what it may send. -/
theorem Inv.moveServer {t : Sys β} {q : Fin N → Nat} (h : Inv u a s) (ht : Covered u.listenFd u.low t)
    (hback : t.backlog = s.server.backlog) (hq : ∀ c, s.route c = .backlog → q c = s.replyAcked c)
    (hflow : ∀ c fd x, (s.client.conns c).link = .up → s.route c = .served fd → t.server.conns fd = some x →
      (World.requests { s.serve t with replyAcked := q } c fd x).Ok u.requestRoom ∧
      (World.replies { s.serve t with replyAcked := q } c fd x).Ok u.replyRoom) :
    Inv u a { s.serve t with replyAcked := q } := by
  refine ⟨h.client, ht, fun {c fd} hroute => Option.isSome_iff_exists.1 (route_serve hroute).2,
    fun hc hd => h.inj (route_serve hc).1 (route_serve hd).1, ?_, fun c hup => ?_⟩
  · rw [← show t.backlog = (s.serve t).server.backlog from rfl, hback, ← h.waiting]
    exact Finset.sum_congr rfl fun c _ => by simp only [backlog_serve]
  · unfold Carried
    split
    · trivial
    · next hroute =>
      have hroute : s.route c = .backlog := backlog_serve.1 hroute
      have hcarried := h.carried c hup
      simp only [Carried, hroute] at hcarried
      exact ⟨hcarried.1, hcarried.2.1, (hq c hroute).trans hcarried.2.2.1, hcarried.2.2.2⟩
    · next fd hroute => exact fun x hx => hflow c fd x hup (route_serve hroute).1 hx

theorem Inv.ok (h : Inv u a s) {x : ConnectionContext β} (hup : (s.client.conns c).link = .up)
    (hroute : s.route c = .served fd) (hx : s.server.server.conns fd = some x) :
    (s.requests c fd x).Ok u.requestRoom ∧ (s.replies c fd x).Ok u.replyRoom := by
  have hcarried := h.carried c hup
  simp only [Carried, hroute] at hcarried
  exact hcarried x hx

/-- A connection sends and receives at the server. -/
theorem Inv.flows (h : Inv u a s) {t : Sys β} {n : Nat} {x' : ConnectionContext β}
    (hup : (s.client.conns c).link = .up) (hroute : s.route c = .served fd)
    (hk : ∃ x, s.server.server.conns fd = some x ∧ Keeps (s.server.sock fd) (t.sock fd) x x' n)
    (hn : s.replyAcked c + n ≤ (s.client.conns c).conn.received.length) {q : Fin N → Nat}
    (hq : q c = s.replyAcked c + n) :
    (World.requests { s.serve t with replyAcked := q } c fd x').Ok u.requestRoom ∧
    (World.replies { s.serve t with replyAcked := q } c fd x').Ok u.replyRoom := by
  obtain ⟨x, hx, hk⟩ := hk
  obtain ⟨hreq, hrep⟩ := h.ok hup hroute hx
  refine ⟨hreq.keep hk.arrived List.prefix_rfl hk.received rfl rfl, ?_⟩
  refine (hrep.ack hn).keep rfl hk.sent (Nat.le_refl _) hq ?_
  show (t.sock fd).space + x'.sent.length = (s.server.sock fd).space + n + x.sent.length
  have hroom := hk.room
  omega

theorem Inv.replyAcked_le (h : Inv u a s) (hup : (s.client.conns c).link = .up) (hroute : s.route c = .served fd) :
    s.replyAcked c ≤ (s.client.conns c).conn.received.length := by
  obtain ⟨x, hx⟩ := h.served hroute
  exact (h.ok hup hroute hx).2.acked_le

/-- The network touches the connection `c` at the client. -/
theorem Inv.touchClient {t : Client.State N β} {q : Fin N → Nat} (h : Inv u a s)
    (ht : Client.Inv u.payloadSize u.low a t) (hother : ∀ d, d ≠ c → t.conns d = s.client.conns d)
    (hq : ∀ d, d ≠ c → q d = s.acked d)
    (hself : (t.conns c).link = .up → Carried u { s with client := t, acked := q } c) :
    Inv u a { s with client := t, acked := q } := by
  refine ⟨ht, h.server, h.served, h.inj, h.waiting, fun d hup => ?_⟩
  by_cases hd : d = c
  · subst hd; exact hself hup
  · have hup : (s.client.conns d).link = .up := hother d hd ▸ hup
    have hcarried := h.carried d hup
    simpa only [Carried, World.requests, World.replies, hother d hd, hq d hd] using hcarried

/-! ## Every step -/

theorem setSock_other {d : Fin N} (hd : d ≠ c) (k : Socket β) : (s.client.setSock c k).conns d = s.client.conns d := by
  simp only [Client.State.setSock, Client.State.set, Function.update_of_ne hd]

theorem setSock_self (k : Socket β) : (s.client.setSock c k).conns c = { s.client.conns c with sock := k } := by
  simp only [Client.State.setSock, Client.State.set, Function.update_self]

/-- The network touches the socket of `fd` at the server. -/
theorem setSock_keeps {S : Sys β} {k : Socket β} {e : Int} {x : ConnectionContext β} {n : Nat}
    (hx : (S.setSock fd k).server.conns e = some x)
    (hk : e = fd → k.arrived = (S.sock fd).arrived ∧ k.space = (S.sock fd).space + n) :
    ∃ y, S.server.conns e = some y ∧ Keeps (S.sock e) ((S.setSock fd k).sock e) y x (if e = fd then n else 0) := by
  refine ⟨x, hx, ?_⟩
  simp only [Sys.setSock]
  by_cases he : e = fd
  · subst he
    obtain ⟨harr, hspace⟩ := hk rfl
    rw [Function.update_self, if_pos rfl]
    refine ⟨harr, List.prefix_rfl, Nat.le_refl _, ?_⟩
    rw [hspace]
    omega
  · rw [Function.update_of_ne he, if_neg he]
    exact ⟨rfl, List.prefix_rfl, Nat.le_refl _, rfl⟩

/-- The server learns that the client has received `n` more bytes of the connection `c`. -/
theorem Inv.serveAcked (h : Inv u a s) {t : Sys β} {n : Nat} (hroute : s.route c = .served fd)
    (hn : s.replyAcked c + n ≤ (s.client.conns c).conn.received.length) (ht : Covered u.listenFd u.low t)
    (hback : t.backlog = s.server.backlog)
    (hk : ∀ e x, t.server.conns e = some x → ∃ y, s.server.server.conns e = some y ∧
      Keeps (s.server.sock e) (t.sock e) y x (if e = fd then n else 0)) :
    Inv u a { s.serve t with replyAcked := Function.update s.replyAcked c (s.replyAcked c + n) } := by
  refine h.moveServer ht hback (fun d hd => Function.update_of_ne ?_ _ _) fun d e x hup hd hx => ?_
  · rintro rfl
    rw [hroute] at hd
    cases hd
  have hk := hk e x hx
  by_cases he : e = fd
  · subst he
    obtain rfl := h.inj hd hroute
    rw [if_pos rfl] at hk
    exact h.flows hup hd hk hn (Function.update_self ..)
  · rw [if_neg he] at hk
    refine h.flows hup hd hk (h.replyAcked_le hup hd) (Function.update_of_ne ?_ _ _)
    rintro rfl
    rw [hd] at hroute
    cases hroute
    exact he rfl

/-- What the server has sent is a part of what it was sent. -/
theorem Inv.reply_prefix (h : Inv u a s) {x : ConnectionContext β} (hup : (s.client.conns c).link = .up)
    (hroute : s.route c = .served fd) (hx : s.server.server.conns fd = some x) :
    x.sent <+: (s.client.conns c).conn.sent := by
  have hsound := h.server.inv.sound hx
  have hsent : x.sent <+: x.received := hsound.sent_prefix
  have hreceived : x.received <+: (s.server.sock fd).arrived := ⟨_, (h.server.watch hx).bytes⟩
  exact (hsent.trans hreceived).trans (h.ok hup hroute hx).1.order

section
variable [Inhabited β]

theorem own_backlog {S S' : Sys β} {act : SysAct β} (hown : act.own = true)
    (hs : S.step u.listenFd u.low act = some S') : S'.backlog = S.backlog := by
  cases act with
  | halt | step | acceptFails | recvFails | sendFails =>
    simp only [Sys.step] at hs
    obtain ⟨t, -, rfl⟩ := Option.map_eq_some_iff.1 hs
    rfl
  | wait =>
    simp only [Sys.step] at hs
    split at hs
    · obtain ⟨t, -, rfl⟩ := Option.map_eq_some_iff.1 hs
      rfl
    · cases hs
  | forget =>
    simp only [Sys.step] at hs
    split at hs <;> cases hs
    rfl
  | recv =>
    simp only [Sys.step] at hs
    split at hs
    · split at hs
      · obtain ⟨t, -, rfl⟩ := Option.map_eq_some_iff.1 hs
        rfl
      · obtain ⟨t, -, rfl⟩ := Option.map_eq_some_iff.1 hs
        rfl
    · cases hs
  | send =>
    simp only [Sys.step] at hs
    split at hs
    · obtain ⟨t, -, rfl⟩ := Option.map_eq_some_iff.1 hs
      rfl
    · cases hs
  | connect | arrive | shut | drain | accept => cases hown

theorem Inv.serverStep (h : Inv u a s) {act : SysAct β} {t : Sys β} (hown : act.own = true)
    (hs : s.server.step u.listenFd u.low act = some t) : Inv u a (s.serve t) := by
  refine h.moveServer (q := s.replyAcked) (h.server.step u.low_pos hs) (own_backlog hown hs) (fun _ _ => rfl) ?_
  intro c fd x hup hroute hx
  obtain ⟨y, hy, hk, -⟩ := sys_turns h.server.inv hown hs hx
  exact h.flows hup hroute ⟨y, hy, hk⟩ (h.replyAcked_le hup hroute) rfl

theorem Inv.establish (h : Inv u a s) (hs : step u s (.establish c) = some s') : Inv u a s' := by
  simp only [step] at hs
  split at hs
  case isFalse => cases hs
  case isTrue hroute =>
  obtain ⟨t, hstep, rfl⟩ := Option.map_eq_some_iff.1 hs
  have ht := h.client.step u.low_pos hstep
  simp only [Client.step] at hstep
  split at hstep <;> cases hstep
  next hlink =>
  have hgood := h.client.good c
  have hcounts := hgood.counts
  simp only [Client.Counts, hgood.linked (.inl hlink.1)] at hcounts
  have hne {d : Fin N} {fd : Int} (hd : Function.update s.route c .backlog d = .served fd) :
      d ≠ c ∧ s.route d = .served fd := by
    by_cases hdc : d = c
    · subst hdc; rw [Function.update_self] at hd; cases hd
    · rw [Function.update_of_ne hdc] at hd; exact ⟨hdc, hd⟩
  refine ⟨ht, ⟨h.server.inv, h.server.watch⟩, fun hd => h.served (hne hd).2,
    fun hd he => h.inj (hne hd).2 (hne he).2, ?_, fun d hup => ?_⟩
  · have hsum := sum_change (f := fun d => if Function.update s.route c .backlog d = .backlog then 1 else 0)
      (g := fun d => if s.route d = .backlog then 1 else 0) c fun d hd => by simp only [Function.update_of_ne hd]
    simp only [Function.update_self, if_true, hroute, h.waiting] at hsum
    simpa using hsum
  · by_cases hd : d = c
    · subst hd
      simp only [Carried, Function.update_self, Client.State.set]
      refine ⟨rfl, trivial, trivial, ?_⟩
      rw [hcounts.1]
      rfl
    · have hcarried := h.carried d (by simpa only [Client.State.set, Function.update_of_ne hd] using hup)
      simpa only [Carried, World.requests, World.replies, Client.State.set, Function.update_of_ne hd] using hcarried

theorem Inv.accept (h : Inv u a s) {n : Nat} (hs : step u s (.accept c fd n) = some s') : Inv u a s' := by
  simp only [step] at hs
  split at hs
  case isFalse => cases hs
  case isTrue hroute =>
  obtain ⟨t, hstep, rfl⟩ := Option.map_eq_some_iff.1 hs
  have hcov := h.server.step u.low_pos hstep
  obtain ⟨hnone, hback, hconns, hself, hother⟩ := accept_effect hstep
  have hold {d : Fin N} {e : Int} (hd : s.route d = .served e) : e ≠ fd := by
    rintro rfl
    obtain ⟨x, hx⟩ := h.served hd
    rw [hnone] at hx
    cases hx
  have hcase {d : Fin N} {e : Int} (hd : Function.update s.route c (.served fd) d = .served e) :
      d = c ∧ e = fd ∨ d ≠ c ∧ s.route d = .served e := by
    by_cases hdc : d = c
    · subst hdc; rw [Function.update_self] at hd; cases hd; exact .inl ⟨rfl, rfl⟩
    · rw [Function.update_of_ne hdc] at hd; exact .inr ⟨hdc, hd⟩
  refine ⟨h.client, hcov, fun {d e} hd => ?_, fun {d d' e} hd he => ?_, ?_, fun d hup => ?_⟩
  · rw [hconns]
    rcases hcase hd with ⟨rfl, rfl⟩ | ⟨-, hd⟩
    · exact ⟨_, Function.update_self ..⟩
    · rw [Function.update_of_ne (hold hd)]
      exact h.served hd
  · rcases hcase hd with ⟨hdc, hefd⟩ | ⟨-, hd⟩
    · rcases hcase he with ⟨hec, -⟩ | ⟨-, he⟩
      · rw [hdc, hec]
      · exact absurd hefd (hold he)
    · rcases hcase he with ⟨-, hefd⟩ | ⟨-, he⟩
      · exact absurd hefd (hold hd)
      · exact h.inj hd he
  · have hsum := sum_change (f := fun d => if Function.update s.route c (.served fd) d = .backlog then 1 else 0)
      (g := fun d => if s.route d = .backlog then 1 else 0) c fun d hd => by simp only [Function.update_of_ne hd]
    simp only [Function.update_self, if_true, hroute, h.waiting, reduceCtorEq, if_false] at hsum
    show (∑ d, if Function.update s.route c (.served fd) d = .backlog then 1 else 0) = t.backlog
    omega
  · have hcarried := h.carried d hup
    by_cases hd : d = c
    · subst hd
      simp only [Carried, hroute] at hcarried
      obtain ⟨harr, hacked, hreply, hroom⟩ := hcarried
      simp only [Carried, Function.update_self, hconns, Option.some.injEq]
      rintro x rfl
      refine ⟨⟨?_, ?_, ?_⟩, ⟨?_, ?_, ?_⟩⟩
      · show (t.sock fd).arrived <+: _
        rw [hself.1]
        exact List.take_prefix ..
      · show s.acked d ≤ 0
        rw [hacked]
      · show _ = u.requestRoom + s.acked d
        rw [hacked]
        exact hroom
      · show (s.client.conns d).sock.arrived <+: []
        rw [harr]
      · show s.replyAcked d ≤ _
        rw [hreply]
        exact Nat.zero_le _
      · show (t.sock fd).space + 0 = u.replyRoom + s.replyAcked d
        rw [hself.2, hreply]
    · simp only [Carried, Function.update_of_ne hd] at hcarried ⊢
      split
      · trivial
      · next hr => rw [hr] at hcarried; exact hcarried
      · next e hr =>
        rw [hr] at hcarried
        obtain ⟨hearr, hespace⟩ := hother e (hold hr)
        intro x hx
        rw [hconns, Function.update_of_ne (hold hr)] at hx
        obtain ⟨hreq, hrep⟩ := hcarried x hx
        refine ⟨hreq.keep hearr List.prefix_rfl (Nat.le_refl _) rfl rfl,
          hrep.keep rfl List.prefix_rfl (Nat.le_refl _) rfl ?_⟩
        show (t.sock e).space + _ = (s.server.sock e).space + _
        rw [hespace]
        rfl

theorem Inv.deliver (h : Inv u a s) {n : Nat} (hs : step u s (.deliver c n) = some s') : Inv u a s' := by
  simp only [step] at hs
  split at hs
  case h_2 => cases hs
  case h_1 fd hroute =>
  split at hs
  case isFalse => cases hs
  case isTrue hn =>
  obtain ⟨t, hstep, rfl⟩ := Option.map_eq_some_iff.1 hs
  have hcov := h.server.step u.low_pos hstep
  simp only [Sys.step] at hstep
  split at hstep <;> cases hstep
  refine h.moveServer (q := s.replyAcked) hcov rfl (fun _ _ => rfl) fun d e x hup hd hx => ?_
  by_cases he : e = fd
  · subst he
    obtain rfl := h.inj hd hroute
    obtain ⟨hreq, hrep⟩ := h.ok hup hd hx
    refine ⟨?_, hrep.keep rfl List.prefix_rfl (Nat.le_refl _) rfl ?_⟩
    · refine (hreq.deliver n).keep ?_ List.prefix_rfl (Nat.le_refl _) rfl rfl
      simp only [World.requests, World.serve, Function.update_self, Socket.arrive]
    · simp only [World.replies, World.serve, Function.update_self, Socket.arrive]
  · obtain ⟨y, hy, hk⟩ := setSock_keeps (n := 0) hx fun hc => absurd hc he
    rw [if_neg he] at hk
    exact h.flows hup hd ⟨y, hy, hk⟩ (h.replyAcked_le hup hd) rfl

theorem Inv.ackReply (h : Inv u a s) {n : Nat} (hs : step u s (.ackReply c n) = some s') : Inv u a s' := by
  simp only [step] at hs
  split at hs
  case h_2 => cases hs
  case h_1 fd hroute =>
  split at hs
  case isFalse => cases hs
  case isTrue hn =>
  obtain ⟨t, hstep, rfl⟩ := Option.map_eq_some_iff.1 hs
  have hcov := h.server.step u.low_pos hstep
  simp only [Sys.step] at hstep
  split at hstep <;> cases hstep
  refine h.serveAcked hroute hn hcov rfl fun e x hx => ?_
  obtain ⟨-, harr, -, hspace, -⟩ := Socket.drain_frame u.low (s.server.sock fd) (s.server.out fd) n
  exact setSock_keeps hx fun _ => ⟨harr, hspace⟩

theorem Inv.sendAcked (h : Inv u a s) {n : Nat} (hs : step u s (.sendAcked c n) = some s') : Inv u a s' := by
  simp only [step] at hs
  split at hs
  case h_2 => cases hs
  case h_1 fd d len hroute hsending =>
  split at hs
  case isFalse => cases hs
  case isTrue hn =>
  obtain ⟨rfl, hn⟩ := hn
  obtain ⟨t, hstep, rfl⟩ := Option.map_eq_some_iff.1 hs
  refine h.serveAcked hroute hn (h.server.step u.low_pos hstep) ?_ fun e x hx => ?_
  · simp only [Sys.step, hsending] at hstep
    obtain ⟨v, -, rfl⟩ := Option.map_eq_some_iff.1 hstep
    rfl
  · obtain ⟨d', len', hsending', y, hy, hk, -⟩ := turns_of_send h.server.inv hstep hx
    cases hsending.symm.trans hsending'
    exact ⟨y, hy, hk⟩

theorem Inv.shut (h : Inv u a s) (hs : step u s (.shut c) = some s') : Inv u a s' := by
  simp only [step] at hs
  split at hs
  case h_2 => cases hs
  case h_1 fd hroute =>
  split at hs
  case isFalse => cases hs
  case isTrue =>
  obtain ⟨t, hstep, rfl⟩ := Option.map_eq_some_iff.1 hs
  have hcov := h.server.step u.low_pos hstep
  simp only [Sys.step] at hstep
  split at hstep <;> cases hstep
  refine h.moveServer (q := s.replyAcked) hcov rfl (fun _ _ => rfl) fun d e x hup hd hx => ?_
  obtain ⟨y, hy, hk⟩ := setSock_keeps (n := 0) hx fun _ => ⟨rfl, rfl⟩
  rw [ite_self] at hk
  exact h.flows hup hd ⟨y, hy, hk⟩ (h.replyAcked_le hup hd) rfl

theorem Inv.reply (h : Inv u a s) {n : Nat} (hs : step u s (.reply c n) = some s') : Inv u a s' := by
  simp only [step] at hs
  split at hs
  case h_2 => cases hs
  case h_1 fd hroute =>
  split at hs
  case h_2 => cases hs
  case h_1 x hx =>
  split at hs <;> cases hs
  next hn =>
  obtain ⟨hup, heof, hpos, hlen⟩ := hn
  have hsent := h.reply_prefix hup hroute hx
  have hecho : Client.step u.payloadSize u.low s.client (.echo c n) = some (s.client.setSock c
      ((s.client.conns c).sock.arrive ((x.sent.drop (s.client.conns c).sock.arrived.length).take n))) := by
    simp only [Client.step]
    rw [if_pos ⟨hup, heof, hpos, hlen.trans hsent.length_le⟩, take_drop_of_prefix hsent hlen]
  refine h.touchClient (c := c) (q := s.acked) (h.client.step u.low_pos hecho) (fun d hd => setSock_other hd _)
    (fun _ _ => rfl) fun _ => ?_
  simp only [Carried, hroute]
  intro y hy
  obtain ⟨hreq, hrep⟩ := h.ok hup hroute hy
  obtain rfl : x = y := Option.some.inj (hx.symm.trans hy)
  refine ⟨hreq.keep rfl ?_ (Nat.le_refl _) rfl ?_, (hrep.deliver n).keep ?_ List.prefix_rfl ?_ rfl rfl⟩
  all_goals simp only [World.requests, World.replies, setSock_self, Socket.arrive]
  · exact List.prefix_rfl
  · exact Nat.le_refl _

theorem Inv.ack (h : Inv u a s) {n : Nat} (hs : step u s (.ack c n) = some s') : Inv u a s' := by
  simp only [step] at hs
  split at hs
  case h_2 => cases hs
  case h_1 fd hroute =>
  split at hs
  case h_2 => cases hs
  case h_1 x hx =>
  split at hs
  case isFalse => cases hs
  case isTrue hn =>
  obtain ⟨t, hstep, rfl⟩ := Option.map_eq_some_iff.1 hs
  have ht := h.client.step u.low_pos hstep
  simp only [Client.step] at hstep
  split at hstep <;> cases hstep
  next hup =>
  refine h.touchClient (c := c) ht (fun d hd => setSock_other hd _)
    (fun d hd => Function.update_of_ne hd _ _) fun _ => ?_
  obtain ⟨-, harr, -, hspace, -⟩ := Socket.drain_frame u.low (s.client.conns c).sock true n
  simp only [Carried, hroute]
  intro y hy
  obtain ⟨hreq, hrep⟩ := h.ok hup hroute hy
  obtain rfl : x = y := Option.some.inj (hx.symm.trans hy)
  refine ⟨(hreq.ack hn).keep rfl ?_ (Nat.le_refl _) ?_ ?_, hrep.keep ?_ List.prefix_rfl ?_ rfl rfl⟩
  all_goals simp only [World.requests, World.replies, setSock_self, Function.update_self, harr, hspace]
  · exact List.prefix_rfl
  · exact Nat.le_refl _

theorem Inv.step (h : Inv u a s) {act : Act N β} (hs : step u s act = some s') : Inv u a s' := by
  cases act with
  | client act =>
    simp only [EndToEnd.step] at hs
    split at hs
    · next hown =>
      obtain ⟨t, hstep, rfl⟩ := Option.map_eq_some_iff.1 hs
      exact h.moveClient (h.client.step u.low_pos hstep) (Client.step_turns h.client hown hstep)
    · cases hs
  | server act =>
    simp only [EndToEnd.step] at hs
    split at hs
    · next hown =>
      obtain ⟨t, hstep, rfl⟩ := Option.map_eq_some_iff.1 hs
      exact h.serverStep hown hstep
    · cases hs
  | establish c => exact h.establish hs
  | refuse c =>
    simp only [EndToEnd.step] at hs
    obtain ⟨t, hstep, rfl⟩ := Option.map_eq_some_iff.1 hs
    have ht := h.client.step u.low_pos hstep
    simp only [Client.step] at hstep
    split at hstep <;> cases hstep
    exact h.moveClient ht (Client.turns_set (fun _ => rfl) (.cut .refused _ (by decide) List.prefix_rfl))
  | accept c fd n => exact h.accept hs
  | deliver c n => exact h.deliver hs
  | reply c n => exact h.reply hs
  | ack c n => exact h.ack hs
  | ackReply c n => exact h.ackReply hs
  | sendAcked c n => exact h.sendAcked hs
  | hangup c =>
    simp only [EndToEnd.step] at hs
    split at hs
    · obtain ⟨t, hstep, rfl⟩ := Option.map_eq_some_iff.1 hs
      have ht := h.client.step u.low_pos hstep
      simp only [Client.step] at hstep
      split at hstep <;> cases hstep
      refine h.moveClient ht fun d => ⟨s.client.conns d, ?_, .stay⟩
      exact Client.set_wire (x := { s.client.conns c with sock := (s.client.conns c).sock.shut }) rfl d
    · cases hs
  | shut c => exact h.shut hs

theorem inv_of_run {acts : List (Act N β)} (h : (machine u N a).Run acts s) : Inv u a s :=
  h.inv (Inv u a) inv_init fun _ _ _ hi hs => hi.step hs

/-! ## Main result -/

/-- **The benchmark never gets stuck.** When both the client and the server wait, then for each
connection that is up there is something to report of this connection to one of them, or something
of it is on the way: for every number of connections and every length of the requests, however
little room there is. A connection that is not accepted is reported by the listener. -/
theorem benchmark_not_stuck {acts : List (Act N β)} (h : (machine u N a).Run acts s) (hclient : s.client.pc = .wait)
    (hserver : s.server.server.pc = .wait) (c : Fin N) (halive : (s.client.conns c).alive) :
    (∃ ev, (s.client.conns c).reports u.low ev) ∨
      (∃ fd, (s.route c).descriptor u.listenFd = some fd ∧ s.server.reportable u.listenFd u.low fd false = true) ∨
      s.InTransit c := by
  by_contra hstuck
  push Not at hstuck
  obtain ⟨hquiet, hunreported, hstill⟩ := hstuck
  have hunreported (fd : Int) (hfd : (s.route c).descriptor u.listenFd = some fd) :
      s.server.reportable u.listenFd u.low fd false = false := by
    simpa using hunreported fd hfd
  have hinv := inv_of_run h
  have hwaits := (hinv.client.idle hclient c).waits u.payloadSize_pos hquiet halive
  cases hroute : s.route c with
  | down =>
    simp only [World.InTransit, hroute] at hstill
    exact hstill halive
  | backlog =>
    have hsum := hinv.waiting
    rw [Sys.backlog_of_quiet (hunreported u.listenFd (by rw [hroute]; rfl))] at hsum
    have hzero := Finset.sum_eq_zero_iff.1 hsum c (Finset.mem_univ c)
    simp [hroute] at hzero
  | served fd =>
    obtain ⟨x, hx⟩ := hinv.served hroute
    obtain ⟨hreq, hrep⟩ := hinv.ok halive.1 hroute hx
    simp only [World.InTransit, hroute] at hstill
    push Not at hstill
    obtain ⟨hreqSettled, hrepSettled⟩ := hstill x hx
    obtain ⟨hreceived, -, hsent⟩ := hinv.server.idle hserver (hunreported fd (by rw [hroute]; rfl)) hx
    -- the server has read all requests, so the client has all of its room
    obtain ⟨harrived, hspace⟩ := hreq.all_room hreqSettled hreceived
    have harrived : (s.server.sock fd).arrived = (s.client.conns c).conn.sent := harrived
    have hspace : (s.client.conns c).sock.space = u.requestRoom := hspace
    cases hstate : (s.client.conns c).conn.state with
    | connecting => rw [hstate] at hwaits; exact hwaits
    | sending =>
      rw [hstate] at hwaits
      have hfull : (s.client.conns c).sock.writable u.low = false := hwaits
      have hlow := u.low_le_requestRoom
      simp only [Socket.writable, decide_eq_false_iff_not] at hfull
      omega
    | receiving =>
      rw [hstate] at hwaits
      obtain ⟨hread, hless⟩ := hwaits
      -- the client has read all replies, so the server has all of its room
      obtain ⟨hback, hroom⟩ := hrep.all_room hrepSettled hread
      have hback : (s.client.conns c).sock.arrived = x.sent := hback
      have hroom : (s.server.sock fd).space = u.replyRoom := hroom
      have hlow := u.low_le_replyRoom
      rcases hsent with hsent | ⟨hfull, -⟩
      · rw [hback, hsent, harrived] at hless
        exact absurd hless (Nat.lt_irrefl _)
      · omega

end

/-- Requests of three bytes, with room for two of them and for one byte of the replies. -/
def narrow : Setup := ⟨3, 1, 2, 1, 3, by decide, by decide, by decide, by decide⟩

/-- The only connection. -/
def only : Fin 1 := ⟨0, Nat.one_pos⟩

/-- The client has sent two bytes of its request, and the server has sent one of them back; both
wait for room. -/
def halfway : List (Act 1 Nat) :=
  [.establish only, .client (.wait [(only, ⟨false, true⟩)]), .client .step, .client (.connected 0),
   .client .send, .client .send, .client .step,
   .server (.wait [(3, false)]), .server .step, .accept only 5 1, .server .acceptFails, .server .step,
   .server (.wait [(5, false)]), .server .step, .server (.recv 1), .deliver only 1, .server (.recv 1),
   .server (.recv 0), .server (.send 0), .server .step]

theorem benchmark_not_stuck_halfway : ∃ s : World 1 Nat, (machine narrow 1 7).Run halfway s ∧
    s.client.pc = .wait ∧ s.server.server.pc = .wait ∧ (s.client.conns only).alive ∧
    (s.client.conns only).sock.space = 0 ∧ (s.server.sock 5).space = 0 ∧
    ((∃ ev, (s.client.conns only).reports 1 ev) ∨
      (∃ fd, (s.route only).descriptor 3 = some fd ∧ s.server.reportable 3 1 fd false = true) ∨ s.InTransit only) := by
  have hexec : ((machine narrow 1 7).exec halfway).any (fun s => decide (s.client.pc = .wait ∧
      s.server.server.pc = .wait ∧ ((s.client.conns only).link = .up ∧ (s.client.conns only).sock.eof = false) ∧
      (s.client.conns only).sock.space = 0 ∧
      (s.server.sock 5).space = 0)) = true := by decide +kernel
  obtain ⟨s, hrun, hclient, hserver, halive, hfull, hfull'⟩ := Machine.exists_run_of_exec hexec
  exact ⟨s, hrun, hclient, hserver, halive, hfull, hfull', benchmark_not_stuck hrun hclient hserver only halive⟩

end AsyncRuntime.EndToEnd
