import AsyncRuntime.EndToEnd.Model
/-!
# What each side leaves alone

A step of the client or of the server is seen by the network only through the bytes that it
sends or receives. Nothing arrives by it, and each byte sent takes the room for one byte.
-/

namespace AsyncRuntime.Client
open Lib
variable {N : Nat} {β : Type} {payloadSize low : Nat} {a : β} {s s' : State N β} {c : Fin N} {ev : Revents}
  {rest : List (Fin N × Revents)} {x x' y : Conn β}

/-! ## The client -/

/-- What the network sees of a connection, and the requests completed. -/
def Conn.wire (x : Conn β) : (List β × List β × Nat) × Link × List β × Nat :=
  ((x.conn.sent, x.conn.received, x.conn.completed), x.link, x.sock.arrived, x.sock.space)

/-- What a step of the thread does to a connection: nothing, a call, the end of a response, or
the end of its socket. -/
inductive Conn.Turns (payloadSize : Nat) (x : Conn β) : Conn β → Prop where
  | stay : Turns payloadSize x x
  | send (hup : x.link = .up) : Turns payloadSize x (sendOnce payloadSize x).1
  | recv (hup : x.link = .up) (n : Nat) : Turns payloadSize x (recvOnce x n)
  | complete (hstate : x.conn.state = .receiving) (hall : x.conn.readOffset = payloadSize) :
      Turns payloadSize x { x with conn := { x.conn with completed := x.conn.completed + 1 } }
  | cut (link : Link) (k : Socket β) (hlink : link ≠ .up) (harr : k.arrived <+: x.sock.arrived) :
      Turns payloadSize x { x with link := link, sock := k }

theorem recvLoop_conns : (recvLoop payloadSize s c rest).conns = s.conns := by
  unfold recvLoop afterRecv
  split
  · rfl
  · split <;> rfl

theorem branchIn_conns : (branchIn payloadSize s c ev rest).conns = s.conns := by
  unfold branchIn
  split
  · exact recvLoop_conns
  · rfl

theorem set_wire (hx : x.wire = (s.conns c).wire) (d : Fin N) : ((s.set c x).conns d).wire = (s.conns d).wire := by
  by_cases hd : d = c
  · subst hd; rw [set_self]; exact hx
  · simp only [State.set, Function.update_of_ne hd]

theorem sentAll_wire (d : Fin N) : ((sentAll payloadSize s c).conns d).wire = (s.conns d).wire := by
  unfold sentAll
  split
  · exact set_wire (x := (s.conns c).turned) rfl d
  · rfl

theorem sendLoop_wire (d : Fin N) : ((sendLoop payloadSize s c ev rest).conns d).wire = (s.conns d).wire := by
  unfold sendLoop
  split
  · rfl
  · rw [branchIn_conns]
    exact sentAll_wire d

theorem branchOut_wire (d : Fin N) : ((branchOut payloadSize s c ev rest).conns d).wire = (s.conns d).wire := by
  unfold branchOut
  split
  · exact sendLoop_wire d
  · rw [branchIn_conns]

theorem sendAgainLoop_wire (d : Fin N) : ((sendAgainLoop payloadSize s c rest).conns d).wire = (s.conns d).wire := by
  unfold sendAgainLoop
  split
  · rfl
  · exact sentAll_wire d

/-- A call for `c` makes it `x`, as far as the network sees. -/
theorem turns_set (hw : ∀ d, (s'.conns d).wire = ((s.set c x).conns d).wire) (hx : (s.conns c).Turns payloadSize x)
    (d : Fin N) : ∃ y, (s'.conns d).wire = y.wire ∧ (s.conns d).Turns payloadSize y := by
  by_cases hd : d = c
  · subst hd
    exact ⟨x, by rw [hw d, set_self], hx⟩
  · refine ⟨s.conns d, ?_, .stay⟩
    rw [hw d]
    simp only [State.set, Function.update_of_ne hd]

/-- The steps of the thread itself. -/
theorem step_turns (h : Inv payloadSize low a s) {act : Act N} (hown : act.own = true)
    (hs : step payloadSize low s act = some s') (d : Fin N) :
    ∃ y, (s'.conns d).wire = y.wire ∧ (s.conns d).Turns payloadSize y := by
  cases act with
  | leave =>
    simp only [step] at hs
    split at hs <;> cases hs
    exact ⟨_, rfl, .stay⟩
  | wait evs =>
    simp only [step] at hs
    split at hs
    · split at hs <;> cases hs
      refine ⟨s.conns d, ?_, .stay⟩
      dsimp only
      split <;> rfl
    · cases hs
  | forget c =>
    simp only [step] at hs
    split at hs <;> cases hs
    exact ⟨_, set_wire (x := { s.conns c with sock := (s.conns c).sock.report }) rfl d, .stay⟩
  | step =>
    simp only [step] at hs
    split at hs
    · cases hs; exact ⟨_, rfl, .stay⟩
    · split at hs <;> cases hs
      · exact ⟨_, rfl, .stay⟩
      · exact ⟨_, branchOut_wire d, .stay⟩
    · cases hs
  | connected now =>
    simp only [step] at hs
    split at hs <;> cases hs
    next c ev rest hpc =>
    cases hlink : (s.conns c).link with
    | up =>
      refine ⟨s.conns d, ?_, .stay⟩
      simp only [afterConnect, hlink, branchOut_wire]
      exact set_wire (by simp only [Conn.wire, hlink]; rfl) d
    | refused | pending | broken =>
      simp only [afterConnect, hlink]
      exact turns_set (fun _ => rfl) (.cut .pending (freshSocket β) (by decide) List.nil_prefix) d
  | send =>
    simp only [step] at hs
    split at hs
    · next c ev rest hpc =>
      split at hs
      · next hlink =>
        have hturn : (s.conns c).Turns payloadSize (sendOnce payloadSize (s.conns c)).1 := .send hlink
        split at hs <;> cases hs
        · next x hx =>
          rw [hx] at hturn
          exact turns_set sendLoop_wire hturn d
        · next x hx =>
          rw [hx] at hturn
          refine turns_set (fun d => ?_) hturn d
          rw [branchIn_conns]
          exact sentAll_wire d
      · cases hs
    · next c rest hpc =>
      split at hs
      · next hlink =>
        have hturn : (s.conns c).Turns payloadSize (sendOnce payloadSize (s.conns c)).1 := .send hlink
        split at hs <;> cases hs
        · next x hx =>
          rw [hx] at hturn
          exact turns_set sendAgainLoop_wire hturn d
        · next x hx =>
          rw [hx] at hturn
          exact turns_set sentAll_wire hturn d
      · cases hs
    · cases hs
  | sendFails =>
    simp only [step] at hs
    split at hs <;> cases hs
    · next c ev rest hpc =>
      refine turns_set (c := c) (fun d => ?_) (.cut .broken (s.conns c).sock (by decide) List.prefix_rfl) d
      rw [branchIn_conns]
      exact sentAll_wire d
    · next c rest hpc =>
      exact turns_set (c := c) sentAll_wire (.cut .broken (s.conns c).sock (by decide) List.prefix_rfl) d
  | recv n =>
    simp only [step] at hs
    split at hs
    · next c rest hpc =>
      split at hs
      · next hlink =>
        split at hs
        · cases hs
          refine ⟨s.conns d, ?_, .stay⟩
          unfold afterRecv
          split <;> rfl
        · split at hs <;> cases hs
          refine turns_set (fun d => ?_) (.recv hlink n) d
          rw [recvLoop_conns]
      · cases hs
    · cases hs
  | recvFails =>
    simp only [step] at hs
    split at hs <;> cases hs
    next c rest hpc =>
    refine turns_set (c := c) (fun d => ?_) (.cut .broken (s.conns c).sock (by decide) List.prefix_rfl) d
    unfold afterRecv
    split <;> rfl
  | complete now start =>
    simp only [step] at hs
    split at hs <;> cases hs
    next c rest hpc =>
    obtain ⟨-, hgood⟩ := h.call c rest hpc rfl fun d hd => if_neg hd
    simp only [Pc.role, if_true] at hgood
    refine turns_set (fun d => ?_) (.complete hgood.fits.1 hgood.fits.2) d
    rw [sendAgainLoop_wire]
    by_cases hd : d = c
    · subst hd
      simp only [finish, State.setConn, State.set, Function.update_self, Conn.wire]
    · simp only [finish, State.setConn, State.set, Function.update_of_ne hd]
  | establish | refuse | echo | shut | drain => cases hown

/-- A connection sends and receives: nothing arrives, and each byte sent takes its room. -/
structure Conn.Keeps (x x' : Conn β) : Prop where
  link : x.link = .up
  arrived : x'.sock.arrived = x.sock.arrived
  sent : x.conn.sent <+: x'.conn.sent
  received : x.conn.received.length ≤ x'.conn.received.length
  room : x'.sock.space + x'.conn.sent.length = x.sock.space + x.conn.sent.length

theorem Conn.Keeps.of_wire (h : x.Keeps y) (hw : x'.wire = y.wire) : x.Keeps x' := by
  simp only [Conn.wire, Prod.mk.injEq] at hw
  obtain ⟨⟨hsent, hrecv, -⟩, -, harr, hspace⟩ := hw
  refine ⟨h.link, harr.trans h.arrived, ?_, ?_, ?_⟩
  · rw [hsent]; exact h.sent
  · rw [hrecv]; exact h.received
  · rw [hsent, hspace]; exact h.room

theorem Conn.Turns.keeps (hs : Sound payloadSize low a x) (h : x.Turns payloadSize y) (hw : x'.wire = y.wire)
    (hup : x'.link = .up) : x.Keeps x' := by
  have hlink : y.link = .up := (congrArg (·.2.1) hw).symm.trans hup
  refine Conn.Keeps.of_wire ?_ hw
  cases h with
  | stay => exact ⟨hlink, rfl, List.prefix_rfl, Nat.le_refl _, rfl⟩
  | send hup =>
    refine ⟨hup, rfl, List.prefix_append .., Nat.le_refl _, ?_⟩
    simp only [sendOnce, Socket.send, List.length_append, List.length_take, List.length_drop, hs.buffer,
      List.length_replicate]
    omega
  | recv hup n =>
    refine ⟨hup, rfl, List.prefix_rfl, ?_, rfl⟩
    simp only [recvOnce, List.length_append]
    omega
  | complete => exact ⟨hlink, rfl, List.prefix_rfl, Nat.le_refl _, rfl⟩
  | cut link k hne => exact absurd hlink hne

end AsyncRuntime.Client

namespace AsyncRuntime.Server.Epoll
open Lib
variable {β : Type} {listenFd fd d : Int} {low : Nat} {s s' : State β} {c c' c'' : ConnectionContext β} {ev : Events}
  {rest : List (Int × Events)} {S S' : Sys β}

/-! ## The server -/

/-- Only the counters and `want_write` change, the counters from equal ones to zero. -/
structure Same (c c' : ConnectionContext β) : Prop where
  buffer : c'.buffer = c.buffer
  received : c'.received = c.received
  sent : c'.sent = c.sent
  counters : (c'.readBytes = c.readBytes ∧ c'.writeBytes = c.writeBytes) ∨
    (c.writeBytes = c.readBytes ∧ c'.readBytes = 0 ∧ c'.writeBytes = 0)

theorem Same.refl (c : ConnectionContext β) : Same c c := ⟨rfl, rfl, rfl, .inl ⟨rfl, rfl⟩⟩

/-- The counters are back at zero when everything is sent. -/
def Reset (c : ConnectionContext β) : Prop := c.writeBytes = c.readBytes → c.readBytes = 0

theorem Same.reset (h : Same c c') (hr : Reset c) : Reset c' := by
  intro heq
  rcases h.counters with ⟨hread, hwrite⟩ | ⟨-, hread, -⟩
  · rw [hread]
    exact hr (by rw [← hread, ← hwrite, heq])
  · exact hread

/-- What a step of the reactor does to a connection: nothing but to reset its counters, a `recv`,
or a `send`. -/
inductive ConnectionContext.Turns [Inhabited β] (c : ConnectionContext β) : ConnectionContext β → Prop where
  | same {c' : ConnectionContext β} (h : Same c c') : Turns c c'
  | recv (d : List β) (hpos : 0 < d.length) (hle : d.length ≤ c.buffer.length - c.readBytes) : Turns c (c.recvd d)
  | send {c' : ConnectionContext β} (n : Nat) (h : Same (c.sentBytes n) c') (hreset : Reset c') : Turns c c'

theorem finishOut_same (h : (finishOut s fd c rest).conns fd = some c') : Same c c' := by
  unfold finishOut at h
  split at h <;> simp only [State.put, State.register, Function.update_self, Option.some.injEq] at h <;> subst h
  · next heq => exact ⟨rfl, rfl, rfl, .inr ⟨heq, rfl, rfl⟩⟩
  · exact .refl c

theorem afterIn_same (h : (afterIn s fd c ev rest).conns fd = some c') : Same c c' := by
  unfold afterIn at h
  split at h
  · split at h
    · simp only [State.put, Function.update_self, Option.some.injEq] at h
      subst h
      exact .refl c
    · exact finishOut_same h
  · simp only [State.put, Function.update_self, Option.some.injEq] at h
    subst h
    exact .refl c

theorem afterSend_same (hle : c.writeBytes ≤ c.readBytes) (h : (afterSend s fd c ev rest).conns fd = some c') :
    Same c c' := by
  unfold afterSend at h
  split at h
  · split at h
    · exact afterIn_same h
    · obtain ⟨hb, hr, hs, hc⟩ := afterIn_same h
      exact ⟨hb, hr, hs, hc⟩
  · next hlt =>
    obtain ⟨hb, hr, hs, hc⟩ := afterIn_same h
    refine ⟨hb, hr, hs, .inr ⟨by omega, ?_⟩⟩
    rcases hc with hc | ⟨-, hc⟩
    · exact hc
    · exact hc

theorem finishOut_reset (h : (finishOut s fd c rest).conns fd = some c') : Reset c' := by
  unfold finishOut at h
  split at h <;> simp only [State.put, State.register, Function.update_self, Option.some.injEq] at h <;> subst h
  · exact fun _ => rfl
  · next hne => exact fun heq => absurd heq hne

theorem afterSend_reset (h : (afterSend s fd c ev rest).conns fd = some c') : Reset c' := by
  unfold afterSend at h
  split at h
  · next hlt =>
    have hreset : Reset c := fun heq => absurd heq hlt.ne
    split at h
    · exact (afterIn_same h).reset hreset
    · exact (afterIn_same h).reset hreset
  · exact (afterIn_same h).reset fun _ => rfl

/-- A step that opens no connection and sends nothing. -/
def Act.quiet : Act β → Bool
  | .accept (some _) | .send (.bytes _) | .send .again => false
  | _ => true

theorem step_turns [Inhabited β] (h : Inv listenFd s) {act : Act β} (hquiet : act.quiet = true)
    (hs : step listenFd s act = some s') (hc' : s'.conns fd = some c') :
    ∃ c, s.conns fd = some c ∧ c.sent = c'.sent ∧ c.Turns c' := by
  have hstay (hc : s'.conns fd = s.conns fd) : ∃ c, s.conns fd = some c ∧ c.sent = c'.sent ∧ c.Turns c' :=
    ⟨c', hc ▸ hc', rfl, .same (.refl c')⟩
  have hclose {d : Int} {rest : List (Int × Events)} (hclosed : s' = s.close d rest) :
      ∃ c, s.conns fd = some c ∧ c.sent = c'.sent ∧ c.Turns c' := by
    subst hclosed
    by_cases hfd : fd = d
    · subst hfd
      simp only [State.close, Function.update_self] at hc'
      cases hc'
    · exact hstay (Function.update_of_ne hfd _ _)
  cases act with
  | halt => cases hs; exact hstay rfl
  | wait evs =>
    simp only [step] at hs
    split at hs
    · split at hs <;> cases hs
      exact hstay rfl
    · cases hs
  | step =>
    simp only [step] at hs
    split at hs
    · split at hs <;> cases hs
      exact hstay rfl
    · cases hs; exact hstay rfl
    · next d ev rest hpc =>
      cases hs
      unfold handle at hc' hstay hclose
      split at hc'
      · next hd => rw [if_pos hd] at hstay; exact hstay rfl
      next hd =>
      rw [if_neg hd] at hstay hclose
      split at hc'
      · next hup => rw [if_pos hup] at hclose; exact hclose rfl
      next hup =>
      rw [if_neg hup] at hstay
      obtain ⟨c, hc⟩ : ∃ c, s.conns d = some c := by
        refine Option.isSome_iff_exists.1 ((h.pending (d, ev) ?_).resolve_left hd)
        rw [hpc]
        exact List.mem_cons_self
      simp only [hc, Option.getD_some] at hc' hstay
      by_cases hfd : fd = d
      · subst hfd
        have hsame : Same c c' := by
          split at hc'
          · simp only [State.put, Function.update_self, Option.some.injEq] at hc'
            subst hc'
            exact .refl c
          · exact afterIn_same hc'
        exact ⟨c, hc, hsame.sent.symm, .same hsame⟩
      · split at hstay
        · exact hstay (Function.update_of_ne hfd _ _)
        · exact hstay (turn_afterIn.conns fd hfd)
    · cases hs
  | accept r =>
    cases r with
    | none =>
      simp only [step] at hs
      split at hs
      · cases hs; exact hstay rfl
      · next hr => cases hr
      · cases hs
    | some d => cases hquiet
  | recv r =>
    simp only [step] at hs
    split at hs
    · next d ev rest hpc =>
      split at hs
      · next c hc =>
        cases r with
        | bytes b =>
          simp only [recvStep] at hs
          split at hs <;> cases hs
          next hlen =>
          by_cases hfd : fd = d
          · subst hfd
            simp only [State.put, Function.update_self, Option.some.injEq] at hc'
            subst hc'
            exact ⟨c, hc, rfl, .recv b hlen.1 hlen.2⟩
          · exact hstay (Function.update_of_ne hfd _ _)
        | closed => cases hs; exact hclose rfl
        | error => cases hs; exact hclose rfl
        | again =>
          cases hs
          split at hc'
          · next hlt =>
            rw [if_pos hlt] at hstay
            exact hstay rfl
          · next hlt =>
            rw [if_neg hlt] at hstay
            by_cases hfd : fd = d
            · subst hfd
              exact ⟨c, hc, (afterIn_same hc').sent.symm, .same (afterIn_same hc')⟩
            · exact hstay (turn_afterIn.conns fd hfd)
      · cases hs
    · cases hs
  | send r =>
    cases r with
    | bytes n => cases hquiet
    | again => cases hquiet
    | error =>
      simp only [step] at hs
      split at hs
      · split at hs <;> cases hs
        exact hclose rfl
      · split at hs <;> cases hs
        exact hclose rfl
      · cases hs

/-- A connection sends and receives: nothing arrives, each byte sent takes its room, and
`n` bytes of room are given back. -/
structure Keeps (k k' : Socket β) (c c' : ConnectionContext β) (n : Nat) : Prop where
  arrived : k'.arrived = k.arrived
  sent : c.sent <+: c'.sent
  received : c.received.length ≤ c'.received.length
  room : k'.space + c'.sent.length = k.space + c.sent.length + n

theorem ConnectionContext.Turns.received [Inhabited β] (h : c.Turns c') : c.received.length ≤ c'.received.length := by
  cases h with
  | same h => rw [h.received]
  | recv d => simp only [ConnectionContext.recvd, List.length_append]; omega
  | send n h => rw [h.received]; exact Nat.le_refl _

theorem follow_fields (S : Sys β) (low : Nat) (s' : State β) (sock : Int → Socket β) (fd : Int) :
    ((S.follow low sock s').sock fd).arrived = (sock fd).arrived ∧
    ((S.follow low sock s').sock fd).space = (sock fd).space := by
  simp only [Sys.follow]
  split <;> exact ⟨rfl, rfl⟩

/-- The socket of `fd` keeps its room and its bytes. -/
theorem Same.keeps {k k' : Socket β} (h : Same c c') (harr : k'.arrived = k.arrived) (hspace : k'.space = k.space) :
    Keeps k k' c c' 0 := by
  refine ⟨harr, ?_, ?_, ?_⟩
  · rw [h.sent]
  · rw [h.received]
  · rw [h.sent, hspace, Nat.add_zero]

theorem turns_of_step [Inhabited β] (h : Inv listenFd S.server) {act : Act β} (hquiet : act.quiet = true)
    (hs : step listenFd S.server act = some s') {sock : Int → Socket β}
    (hsock : (sock fd).arrived = (S.sock fd).arrived ∧ (sock fd).space = (S.sock fd).space)
    (hc' : (S.follow low sock s').server.conns fd = some c') :
    ∃ c, S.server.conns fd = some c ∧ Keeps (S.sock fd) ((S.follow low sock s').sock fd) c c' 0 ∧ c.Turns c' := by
  obtain ⟨harr, hspace⟩ := follow_fields S low s' sock fd
  obtain ⟨c, hc, hsent, hturn⟩ := step_turns h hquiet hs hc'
  refine ⟨c, hc, ⟨harr.trans hsock.1, ?_, hturn.received, ?_⟩, hturn⟩
  · rw [hsent]
  · rw [hspace, hsock.2, hsent, Nat.add_zero]

/-- What a `send` takes of the buffer. -/
theorem Sound.length_sentBytes (h : Sound c) {n : Nat} (hn : n ≤ c.readBytes - c.writeBytes) :
    (c.sentBytes n).sent.length = c.sent.length + n := by
  have hle := h.le
  have hroom := h.room
  simp only [ConnectionContext.sentBytes, List.length_append, List.length_take, List.length_drop]
  omega

/-- The connection after a `send`. -/
theorem sendStep_same {next : ConnectionContext β → State β} {space : Nat} (hsound : Sound c)
    (hnext : ∀ c₁, Sound c₁ → (next c₁).conns fd = some c' → Same c₁ c' ∧ Reset c')
    (hs : sendStep s fd c rest next
      (if space = 0 then .again else .bytes (min (c.readBytes - c.writeBytes) space)) = some s')
    (hc' : s'.conns fd = some c') : Same (c.sentBytes (min (c.readBytes - c.writeBytes) space)) c' ∧ Reset c' := by
  split at hs
  · next h0 =>
    cases hs
    have hnothing : c.sentBytes (min (c.readBytes - c.writeBytes) space) = c := by
      simp [ConnectionContext.sentBytes, h0]
    rw [hnothing]
    exact hnext c hsound hc'
  · simp only [sendStep] at hs
    split at hs <;> cases hs
    next hn => exact hnext _ (hsound.sentBytes hn) hc'

/-- Each byte sent takes its room, and `n` bytes of room are given back. -/
theorem Sound.send_keeps {k k' : Socket β} {n : Nat} (hsound : Sound c)
    (hsame : Same (c.sentBytes (min (c.readBytes - c.writeBytes) k.space)) c') (harr : k'.arrived = k.arrived)
    (hspace : k'.space = k.space - (c.readBytes - c.writeBytes) + n) : Keeps k k' c c' n := by
  have hlength := hsound.length_sentBytes (Nat.min_le_left (c.readBytes - c.writeBytes) k.space)
  refine ⟨harr, ?_, ?_, ?_⟩
  · rw [hsame.sent]
    exact List.prefix_append ..
  · rw [hsame.received]
    exact Nat.le_refl _
  · rw [hspace, hsame.sent, hlength]
    omega

/-- A `send` on the descriptor `d`, with `n` bytes of room given back. -/
theorem turns_of_send [Inhabited β] (h : Inv listenFd S.server) {n : Nat} (hs : S.step listenFd low (.send n) = some S')
    (hc' : S'.server.conns fd = some c') : ∃ d len, S.server.sending = some (d, len) ∧
      ∃ c, S.server.conns fd = some c ∧ Keeps (S.sock fd) (S'.sock fd) c c' (if fd = d then n else 0) ∧ c.Turns c' := by
  simp only [Sys.step] at hs
  split at hs
  case h_2 => cases hs
  case h_1 d len hsending =>
  refine ⟨d, len, hsending, ?_⟩
  obtain ⟨t, hstep, rfl⟩ := Option.map_eq_some_iff.1 hs
  obtain ⟨harr, hspace⟩ := follow_fields S low t
    (Function.update S.sock d (((S.sock d).send len).drain low (S.out d) n)) fd
  have hother (hfd : fd ≠ d) (hc : t.conns fd = S.server.conns fd) : ∃ c, S.server.conns fd = some c ∧
      Keeps (S.sock fd)
        ((S.follow low (Function.update S.sock d (((S.sock d).send len).drain low (S.out d) n)) t).sock fd)
        c c' (if fd = d then n else 0) ∧ c.Turns c' := by
    rw [Function.update_of_ne hfd] at harr hspace
    rw [if_neg hfd]
    exact ⟨c', hc ▸ hc', (Same.refl c').keeps harr hspace, .same (.refl c')⟩
  have hself {c : ConnectionContext β} (hc : S.server.conns d = some c) (hlen : c.readBytes - c.writeBytes = len)
      (hfd : fd = d) (hsame : Same (c.sentBytes (min (c.readBytes - c.writeBytes) (S.sock d).space)) c' ∧ Reset c') :
      ∃ c, S.server.conns fd = some c ∧
      Keeps (S.sock fd)
        ((S.follow low (Function.update S.sock d (((S.sock d).send len).drain low (S.out d) n)) t).sock fd)
        c c' (if fd = d then n else 0) ∧ c.Turns c' := by
    subst hfd
    obtain ⟨hsame, hreset⟩ := hsame
    obtain ⟨-, hdarr, -, hdspace, -⟩ := Socket.drain_frame low ((S.sock fd).send len) (S.out fd) n
    rw [Function.update_self] at harr hspace
    rw [if_pos rfl]
    refine ⟨c, hc, (h.sound hc).send_keeps hsame (harr.trans hdarr) ?_, .send _ hsame hreset⟩
    rw [hspace, hdspace, hlen]
    rfl
  unfold State.sending at hsending
  split at hsending
  · next e ev rest hpc =>
    obtain ⟨c, hc, heq⟩ := Option.map_eq_some_iff.1 hsending
    cases heq
    simp only [step, hpc, hc] at hstep
    by_cases hfd : fd = d
    · refine hself hc rfl hfd (sendStep_same (h.sound hc) (fun c₁ h₁ hc₁ => ?_) hstep (hfd ▸ hc'))
      exact ⟨afterSend_same h₁.le hc₁, afterSend_reset hc₁⟩
    · obtain ⟨c₁, rfl, -⟩ := sendStep_taken hstep
      exact hother hfd (turn_afterSend.conns fd hfd)
  · next e rest hpc =>
    obtain ⟨c, hc, heq⟩ := Option.map_eq_some_iff.1 hsending
    cases heq
    simp only [step, hpc, hc] at hstep
    by_cases hfd : fd = d
    · refine hself hc rfl hfd (sendStep_same (h.sound hc) (fun c₁ _ hc₁ => ?_) hstep (hfd ▸ hc'))
      exact ⟨finishOut_same hc₁, finishOut_reset hc₁⟩
    · obtain ⟨c₁, rfl, -⟩ := sendStep_taken hstep
      exact hother hfd (turn_finishOut.conns fd hfd)
  · cases hsending

/-- The steps of the reactor itself. -/
theorem sys_turns [Inhabited β] (h : Inv listenFd S.server) {act : SysAct β} (hown : act.own = true)
    (hs : S.step listenFd low act = some S') (hc' : S'.server.conns fd = some c') :
    ∃ c, S.server.conns fd = some c ∧ Keeps (S.sock fd) (S'.sock fd) c c' 0 ∧ c.Turns c' := by
  cases act with
  | halt | step | acceptFails | recvFails | sendFails =>
    simp only [Sys.step] at hs
    obtain ⟨t, hstep, rfl⟩ := Option.map_eq_some_iff.1 hs
    exact turns_of_step h rfl hstep ⟨rfl, rfl⟩ hc'
  | wait fds =>
    simp only [Sys.step] at hs
    split at hs
    · obtain ⟨t, hstep, rfl⟩ := Option.map_eq_some_iff.1 hs
      refine turns_of_step h rfl hstep ?_ hc'
      split <;> exact ⟨rfl, rfl⟩
    · cases hs
  | forget d =>
    simp only [Sys.step] at hs
    split at hs <;> cases hs
    refine ⟨c', hc', (Same.refl c').keeps ?_ ?_, .same (.refl c')⟩ <;>
    · simp only [Sys.setSock]
      by_cases hfd : fd = d
      · subst hfd; rw [Function.update_self]; rfl
      · rw [Function.update_of_ne hfd]
  | recv n =>
    simp only [Sys.step] at hs
    split at hs
    · next d ev rest hpc =>
      split at hs
      · obtain ⟨t, hstep, rfl⟩ := Option.map_eq_some_iff.1 hs
        refine turns_of_step h rfl hstep ?_ hc'
        by_cases hfd : fd = d
        · subst hfd; rw [Function.update_self]; exact ⟨rfl, rfl⟩
        · rw [Function.update_of_ne hfd]; exact ⟨rfl, rfl⟩
      · obtain ⟨t, hstep, rfl⟩ := Option.map_eq_some_iff.1 hs
        exact turns_of_step h rfl hstep ⟨rfl, rfl⟩ hc'
    · cases hs
  | send n =>
    have hn : n = 0 := of_decide_eq_true hown
    subst hn
    obtain ⟨d, len, -, c, hc, hkeeps⟩ := turns_of_send h hs hc'
    rw [ite_self] at hkeeps
    exact ⟨c, hc, hkeeps⟩
  | connect | arrive | shut | drain | accept => cases hown

/-- A connection is accepted. -/
theorem accept_effect [Inhabited β] {b : List β} {eof : Bool} {space : Nat}
    (hs : S.step listenFd low (.accept fd b eof space) = some S') :
    S.server.conns fd = none ∧ S'.backlog + 1 = S.backlog ∧
    S'.server.conns = Function.update S.server.conns fd (some .accepted) ∧
    ((S'.sock fd).arrived = b ∧ (S'.sock fd).space = space) ∧
    ∀ e, e ≠ fd → (S'.sock e).arrived = (S.sock e).arrived ∧ (S'.sock e).space = (S.sock e).space := by
  simp only [Sys.step] at hs
  split at hs
  case isFalse => cases hs
  case isTrue hback =>
  obtain ⟨t, ht, rfl⟩ := Option.map_eq_some_iff.1 hs
  have hfields (e : Int) := follow_fields S low t
    (Function.update S.sock fd ⟨b, eof, space, false, false, b⟩) e
  cases hpc : S.server.pc with
  | accept rest =>
    simp only [step, hpc] at ht
    split at ht <;> cases ht
    next hnew =>
    refine ⟨Option.isNone_iff_eq_none.1 hnew.2, Nat.sub_add_cancel hback, rfl, ?_, fun e he => ?_⟩
    · have hself := hfields fd
      rwa [Function.update_self] at hself
    · have hother := hfields e
      rwa [Function.update_of_ne he] at hother
  | _ => simp [step, hpc] at ht

end AsyncRuntime.Server.Epoll
