import AsyncRuntime.Lib.Slots
import AsyncRuntime.Server.Epoll
/-!
# The reactor's connections

What holds of one connection is kept by each thing the reactor does to it: the
counters are in order and below the size of the buffer, and what was received
and sent is some common beginning followed by the read and the written part of
the buffer (`Sound`). Unsent bytes are covered by `want_write` (`Armed`) in every
connection except the one whose `EPOLLIN` is being handled. The reactor's maps agree
on which descriptors are open, so that every event it handles is for a connection
in `conns`.
-/

namespace AsyncRuntime.Server.Epoll
open Lib
variable {β : Type}

/-! ## One connection -/

/-- What holds of a connection all the time. -/
structure Sound (c : ConnectionContext β) : Prop where
  le : c.writeBytes ≤ c.readBytes
  room : c.readBytes < c.buffer.length
  bytes : ∃ before, c.received = before ++ c.buffer.take c.readBytes ∧ c.sent = before ++ c.buffer.take c.writeBytes

/-- Unsent bytes wait for `EPOLLOUT`. -/
def Armed (c : ConnectionContext β) : Prop := c.writeBytes < c.readBytes → c.wantWrite = true

variable {c : ConnectionContext β}

theorem Sound.recvd [Inhabited β] (h : Sound c) {d : List β} (hpos : 0 < d.length)
    (hle : d.length ≤ c.buffer.length - c.readBytes) : Sound (c.recvd d) := by
  obtain ⟨before, hr, hs⟩ := h.bytes
  have hroom := h.room
  have hwrite := h.le
  have hlen : (overwrite c.buffer c.readBytes d).length = c.buffer.length := length_overwrite (by omega)
  have htake : ∀ n ≤ c.buffer.length, (c.recvd d).buffer.take n = (overwrite c.buffer c.readBytes d).take n := by
    intro n hn
    simp only [ConnectionContext.recvd]
    split
    · rw [List.take_append_of_le_length (by omega)]
    · rfl
  refine ⟨?_, ?_, before, ?_, ?_⟩
  · simp only [ConnectionContext.recvd]
    omega
  · simp only [ConnectionContext.recvd]
    split
    · rw [List.length_append, hlen, List.length_replicate]
      omega
    · omega
  · have hread : (c.recvd d).readBytes = c.readBytes + d.length := rfl
    rw [hread, htake _ (by omega), take_overwrite (by omega), ← List.append_assoc, ← hr]
    rfl
  · have hwr : (c.recvd d).writeBytes = c.writeBytes := rfl
    rw [hwr, htake _ (by omega), take_overwrite_of_le hwrite (by omega), ← hs]
    rfl

theorem Sound.sentBytes (h : Sound c) {n : Nat} (hn : n ≤ c.readBytes - c.writeBytes) : Sound (c.sentBytes n) := by
  obtain ⟨before, hr, hs⟩ := h.bytes
  have hle := h.le
  refine ⟨?_, h.room, before, hr, ?_⟩
  · simp only [ConnectionContext.sentBytes]
    omega
  · simp only [ConnectionContext.sentBytes, hs, List.append_assoc, List.take_add]

theorem Sound.reset (h : Sound c) (heq : c.writeBytes = c.readBytes) : Sound c.reset := by
  obtain ⟨before, hr, hs⟩ := h.bytes
  have hroom := h.room
  refine ⟨Nat.le_refl _, ?_, c.received, ?_, ?_⟩
  · simp only [ConnectionContext.reset]
    omega
  · simp [ConnectionContext.reset]
  · simp [ConnectionContext.reset, hs, hr, heq]

theorem Sound.of_wantWrite (h : Sound c) (b : Bool) : Sound { c with wantWrite := b } := ⟨h.le, h.room, h.bytes⟩

theorem sound_accepted [Inhabited β] : Sound (.accepted : ConnectionContext β) := by
  refine ⟨Nat.le_refl _, ?_, [], rfl, rfl⟩
  simp only [ConnectionContext.accepted, List.length_replicate]
  omega

theorem Sound.sent_prefix (h : Sound c) : c.sent <+: c.received := by
  obtain ⟨before, hr, hs⟩ := h.bytes
  rw [hr, hs, List.prefix_append_right_inj]
  exact List.take_prefix_take_left h.le

/-- After a reset everything received has been sent. -/
theorem Sound.sent_eq (h : Sound c) (hr : c.readBytes = 0) (hw : c.writeBytes = 0) : c.sent = c.received := by
  obtain ⟨before, hrec, hsent⟩ := h.bytes
  rw [hrec, hsent, hr, hw]

theorem armed_of_reset : Armed c.reset := by
  intro h
  simp [ConnectionContext.reset] at h

/-! ## The reactor -/

/-- The events that are still to be handled. -/
def Pc.pending : Pc → List (Int × Events)
  | .events rest | .accept rest | .recv _ _ rest | .sendIn _ _ rest | .sendOut _ rest => rest
  | .wait | .returned => []

/-- The connection whose event is being handled. -/
def Pc.current : Pc → Option Int
  | .recv fd _ _ | .sendIn fd _ _ | .sendOut fd _ => some fd
  | _ => none

/-- The connection whose `EPOLLIN` is being handled. -/
def Pc.reading : Pc → Option Int
  | .recv fd _ _ | .sendIn fd _ _ => some fd
  | _ => none

/-- A call of `recv` on the descriptor comes next. -/
def Pc.receives : Pc → Int → Bool
  | .recv fd _ _, d => fd = d
  | _, _ => false

theorem Pc.current_of_receives {pc : Pc} {fd : Int} (h : pc.receives fd = true) : pc.current = some fd := by
  cases pc with
  | recv d ev rest => exact congrArg some (of_decide_eq_true h)
  | _ => cases h

theorem Pc.current_of_reading {pc : Pc} {fd : Int} (h : pc.reading = some fd) : pc.current = some fd := by
  cases pc <;> first | exact h | cases h

/-- What holds along every run. -/
structure Inv (listenFd : Int) (s : State β) : Prop where
  sound : ∀ {fd c}, s.conns fd = some c → Sound c
  armed : ∀ {fd c}, s.conns fd = some c → s.pc.reading ≠ some fd → Armed c
  registered : ∀ fd, s.registered fd = (s.conns fd).map (·.wantWrite)
  listen : s.conns listenFd = none
  pending : ∀ e ∈ s.pc.pending, e.1 = listenFd ∨ (s.conns e.1).isSome
  nodup : (s.pc.pending.map (·.1)).Nodup
  current : ∀ fd, s.pc.current = some fd → (s.conns fd).isSome ∧ fd ∉ s.pc.pending.map (·.1)

variable {listenFd fd : Int} {s s' : State β}

/-- Only the program point moves. -/
theorem Inv.move (h : Inv listenFd s) (hc : s'.conns = s.conns) (hr : s'.registered = s.registered)
    (hread : ∀ fd c, s.conns fd = some c → s.pc.reading = some fd → s'.pc.reading = some fd ∨ Armed c)
    (hpend : ∀ e ∈ s'.pc.pending, e.1 = listenFd ∨ (s.conns e.1).isSome) (hnodup : (s'.pc.pending.map (·.1)).Nodup)
    (hcur : ∀ fd, s'.pc.current = some fd → (s.conns fd).isSome ∧ fd ∉ s'.pc.pending.map (·.1)) : Inv listenFd s' := by
  refine ⟨?_, ?_, ?_, ?_, ?_, hnodup, ?_⟩
  · rw [hc]; exact h.sound
  · intro fd c hfd hne
    rw [hc] at hfd
    by_cases hreading : s.pc.reading = some fd
    · exact (hread fd c hfd hreading).resolve_left hne
    · exact h.armed hfd hreading
  · rw [hc, hr]; exact h.registered
  · rw [hc]; exact h.listen
  · rw [hc]; exact hpend
  · rw [hc]; exact hcur

/-- The reactor handles an event of `fd`, and `rest` is left. -/
structure Handling (listenFd fd : Int) (rest : List (Int × Events)) (s : State β) : Prop where
  inv : Inv listenFd s
  ne : fd ≠ listenFd
  reading : ∀ d, s.pc.reading = some d → d = fd
  pending : ∀ e ∈ rest, e.1 = listenFd ∨ (s.conns e.1).isSome
  nodup : (rest.map (·.1)).Nodup
  not_pending : fd ∉ rest.map (·.1)

variable {rest : List (Int × Events)}

/-- The connection changes, or is new. -/
theorem Handling.put (h : Handling listenFd fd rest s) (hc : s'.conns = Function.update s.conns fd (some c))
    (hr : s'.registered = Function.update s.registered fd (some c.wantWrite)) (hsound : Sound c)
    (harmed : s'.pc.reading = some fd ∨ Armed c) (hpend : s'.pc.pending = rest)
    (hcur : ∀ d, s'.pc.current = some d → d = fd) : Inv listenFd s' := by
  have hcases : ∀ {d c'}, s'.conns d = some c' → d = fd ∧ c' = c ∨ d ≠ fd ∧ s.conns d = some c' := by
    intro d c' hd
    rw [hc] at hd
    exact update_some_eq_some hd
  refine ⟨?_, ?_, ?_, ?_, ?_, ?_, ?_⟩
  · intro d c' hd
    rcases hcases hd with ⟨-, rfl⟩ | ⟨-, hold⟩
    · exact hsound
    · exact h.inv.sound hold
  · intro d c' hd hnr
    rcases hcases hd with ⟨rfl, rfl⟩ | ⟨hne, hold⟩
    · exact harmed.resolve_left hnr
    · exact h.inv.armed hold (fun hreading => hne (h.reading d hreading))
  · intro d
    rw [hc, hr]
    by_cases e : d = fd
    · subst e; simp
    · simpa [e] using h.inv.registered d
  · rw [hc, Function.update_of_ne (Ne.symm h.ne)]
    exact h.inv.listen
  · intro e he
    rw [hpend] at he
    rw [hc]
    by_cases heq : e.1 = fd
    · simp [heq]
    · simpa [heq] using h.pending e he
  · rw [hpend]; exact h.nodup
  · intro d hd
    obtain rfl := hcur d hd
    rw [hpend, hc]
    exact ⟨by simp, h.not_pending⟩

/-- The connection is closed. -/
theorem Handling.close (h : Handling listenFd fd rest s) : Inv listenFd (s.close fd rest) := by
  have hold : ∀ {d c}, (s.close fd rest).conns d = some c → d ≠ fd ∧ s.conns d = some c := update_none_eq_some
  refine ⟨fun hd => h.inv.sound (hold hd).2, ?_, ?_, ?_, ?_, h.nodup, nofun⟩
  · intro d c hd _
    obtain ⟨hne, hd⟩ := hold hd
    exact h.inv.armed hd (fun hreading => hne (h.reading d hreading))
  · intro d
    simp only [State.close]
    by_cases e : d = fd
    · subst e; simp
    · simpa [e] using h.inv.registered d
  · simp only [State.close, Function.update_of_ne (Ne.symm h.ne)]
    exact h.inv.listen
  · intro e he
    have hne : e.1 ≠ fd := by
      rintro rfl
      exact h.not_pending (List.mem_map.2 ⟨e, he, rfl⟩)
    simp only [State.close, Function.update_of_ne hne]
    exact h.pending e he

/-! ## The handlers -/

/-- A connection that keeps its `want_write` stays registered as it is. -/
theorem Inv.registered_self (h : Inv listenFd s) {c₀ : ConnectionContext β} (hc : s.conns fd = some c₀)
    (hw : c.wantWrite = c₀.wantWrite) : s.registered = Function.update s.registered fd (some c.wantWrite) := by
  have hreg := h.registered fd
  rw [hc, Option.map_some, ← hw] at hreg
  rw [← hreg, Function.update_eq_self]

variable {s₀ : State β} {ev : Events}

theorem Handling.finishOut (h : Handling listenFd fd rest s₀) (hc : s.conns = s₀.conns)
    (hr : s.registered = Function.update s₀.registered fd (some c.wantWrite)) (hsound : Sound c) (harmed : Armed c) :
    Inv listenFd (finishOut s fd c rest) := by
  unfold Epoll.finishOut
  split
  · next heq =>
    refine h.put (c := { c.reset with wantWrite := false }) ?_ ?_ ((hsound.reset heq).of_wantWrite false)
      (.inr ?_) rfl nofun
    · simp only [State.put, State.register, hc]
    · simp only [State.put, State.register, hr, Function.update_idem]
    · exact fun hlt => absurd hlt (Nat.lt_irrefl 0)
  · refine h.put (c := c) ?_ hr hsound (.inr harmed) rfl nofun
    simp only [State.put, hc]

theorem Handling.afterIn (h : Handling listenFd fd rest s₀) (hc : s.conns = s₀.conns)
    (hr : s.registered = Function.update s₀.registered fd (some c.wantWrite)) (hsound : Sound c) (harmed : Armed c) :
    Inv listenFd (afterIn s fd c ev rest) := by
  unfold Epoll.afterIn
  split
  · split
    · refine h.put (c := c) ?_ hr hsound (.inr harmed) rfl ?_
      · simp only [State.put, hc]
      · intro d hd
        exact (Option.some.inj hd).symm
    · exact h.finishOut hc hr hsound harmed
  · refine h.put (c := c) ?_ hr hsound (.inr harmed) rfl nofun
    simp only [State.put, hc]

/-- After the `send` of the branch for `EPOLLIN` unsent bytes have `want_write`. -/
theorem Handling.afterSend (h : Handling listenFd fd rest s)
    (hr : s.registered = Function.update s.registered fd (some c.wantWrite)) (hsound : Sound c) :
    Inv listenFd (afterSend s fd c ev rest) := by
  unfold Epoll.afterSend
  split
  · split
    · next hw => exact h.afterIn rfl hr hsound (fun _ => hw)
    · refine h.afterIn (c := { c with wantWrite := true }) rfl rfl (hsound.of_wantWrite true) (fun _ => rfl)
  · next hle =>
    have heq : c.writeBytes = c.readBytes := by
      have := hsound.le
      omega
    exact h.afterIn (c := c.reset) rfl hr (hsound.reset heq) armed_of_reset

/-- The event at the head of the list is handled. -/
theorem Inv.handle (h : Inv listenFd s) (hpc : s.pc = .events ((fd, ev) :: rest)) :
    Inv listenFd (handle listenFd s fd ev rest) := by
  have hpend : ∀ e ∈ rest, e.1 = listenFd ∨ (s.conns e.1).isSome := by
    intro e he
    exact h.pending e (by rw [hpc]; exact List.mem_cons_of_mem _ he)
  have hnodup := h.nodup
  rw [hpc] at hnodup
  obtain ⟨hnot, hrest⟩ := List.nodup_cons.1 hnodup
  have hread : s.pc.reading = none := by rw [hpc]; rfl
  unfold Epoll.handle
  split
  · exact h.move rfl rfl (fun _ _ _ hr => by rw [hread] at hr; cases hr) hpend hrest nofun
  · next hne =>
    have hh : Handling listenFd fd rest s :=
      ⟨h, hne, fun d hd => absurd hd (by rw [hread]; nofun), hpend, hrest, hnot⟩
    split
    · exact hh.close
    · obtain ⟨c, hc⟩ : ∃ c, s.conns fd = some c := by
        have hsome := (h.pending (fd, ev) (by rw [hpc]; exact List.mem_cons_self)).resolve_left hne
        exact Option.isSome_iff_exists.1 hsome
      have hreg := h.registered_self hc rfl
      have hsound := h.sound hc
      simp only [hc, Option.getD_some]
      split
      · refine hh.put (c := c) rfl hreg hsound (.inl rfl) rfl ?_
        intro d hd
        exact (Option.some.inj hd).symm
      · exact hh.afterIn rfl hreg hsound (h.armed hc (by rw [hread]; nofun))

/-- While a call for a connection is made, its event is being handled. -/
theorem Inv.handling (h : Inv listenFd s) (hcur : s.pc.current = some fd) (hpend : s.pc.pending = rest) :
    Handling listenFd fd rest s := by
  subst hpend
  obtain ⟨hsome, hnot⟩ := h.current fd hcur
  refine ⟨h, ?_, ?_, h.pending, h.nodup, hnot⟩
  · rintro rfl
    rw [h.listen] at hsome
    cases hsome
  · intro d hd
    rw [Pc.current_of_reading hd] at hcur
    exact Option.some.inj hcur

theorem Inv.recvStep [Inhabited β] (h : Inv listenFd s) (hpc : s.pc = .recv fd ev rest) (hc : s.conns fd = some c)
    {r : RecvResult β} (hs : recvStep s fd c ev rest r = some s') : Inv listenFd s' := by
  have hh : Handling listenFd fd rest s := h.handling (by rw [hpc]; rfl) (by rw [hpc]; rfl)
  have hsound := h.sound hc
  have hreg := h.registered_self hc rfl
  cases r with
  | bytes d =>
    simp only [Epoll.recvStep] at hs
    split at hs <;> cases hs
    next hd =>
    refine hh.put (c := c.recvd d) rfl hreg (hsound.recvd hd.1 hd.2) (.inl rfl) rfl ?_
    intro d hd
    exact (Option.some.inj hd).symm
  | closed | error =>
    cases hs
    exact hh.close
  | again =>
    simp only [Epoll.recvStep, Option.some.injEq] at hs
    subst hs
    split
    · refine h.move rfl rfl (fun d c' _ hd => .inl ?_) hh.pending hh.nodup ?_
      · rw [hpc] at hd
        exact hd
      · intro d hd
        cases hd
        exact ⟨by rw [hc]; rfl, hh.not_pending⟩
    · next hle => exact hh.afterIn rfl hreg hsound (fun hlt => absurd hlt hle)

theorem sendStep_cases {next : ConnectionContext β → State β} {r : SendResult} (hsound : Sound c)
    (hs : sendStep s fd c rest next r = some s') :
    s' = s.close fd rest ∨ ∃ c', s' = next c' ∧ Sound c' ∧ c'.wantWrite = c.wantWrite ∧
      (c'.writeBytes < c'.readBytes → c.writeBytes < c.readBytes) := by
  cases r with
  | bytes n =>
    simp only [sendStep] at hs
    split at hs <;> cases hs
    next hn =>
    refine .inr ⟨_, rfl, hsound.sentBytes hn, rfl, fun hlt => ?_⟩
    simp only [ConnectionContext.sentBytes] at hlt
    omega
  | again =>
    cases hs
    exact .inr ⟨c, rfl, hsound, rfl, id⟩
  | error =>
    cases hs
    exact .inl rfl

/-- The `send` of the branch for `EPOLLIN`. -/
theorem Inv.sendIn (h : Inv listenFd s) (hpc : s.pc = .sendIn fd ev rest) (hc : s.conns fd = some c) {r : SendResult}
    (hs : sendStep s fd c rest (fun c => afterSend s fd c ev rest) r = some s') : Inv listenFd s' := by
  have hh : Handling listenFd fd rest s := h.handling (by rw [hpc]; rfl) (by rw [hpc]; rfl)
  rcases sendStep_cases (h.sound hc) hs with rfl | ⟨c', rfl, hsound, hw, -⟩
  · exact hh.close
  · exact hh.afterSend (h.registered_self hc hw) hsound

/-- The `send` of the branch for `EPOLLOUT`. -/
theorem Inv.sendOut (h : Inv listenFd s) (hpc : s.pc = .sendOut fd rest) (hc : s.conns fd = some c) {r : SendResult}
    (hs : sendStep s fd c rest (fun c => finishOut s fd c rest) r = some s') : Inv listenFd s' := by
  have hh : Handling listenFd fd rest s := h.handling (by rw [hpc]; rfl) (by rw [hpc]; rfl)
  have harmed := h.armed hc (by rw [hpc]; nofun)
  rcases sendStep_cases (h.sound hc) hs with rfl | ⟨c', rfl, hsound, hw, hlt⟩
  · exact hh.close
  · refine hh.finishOut rfl (h.registered_self hc hw) hsound fun hc' => ?_
    rw [hw]
    exact harmed (hlt hc')

theorem Inv.accept [Inhabited β] (h : Inv listenFd s) (hpc : s.pc = .accept rest) (hne : fd ≠ listenFd)
    (hnone : s.conns fd = none) :
    Inv listenFd { (s.put fd .accepted).register fd false with pc := .accept rest } := by
  have hpend : s.pc.pending = rest := by rw [hpc]; rfl
  have hh : Handling listenFd fd rest s := by
    refine ⟨h, hne, ?_, hpend ▸ h.pending, hpend ▸ h.nodup, ?_⟩
    · rw [hpc]; nofun
    · intro hmem
      obtain ⟨e, he, rfl⟩ := List.mem_map.1 hmem
      have hsome := (h.pending e (hpend ▸ he)).resolve_left hne
      rw [hnone] at hsome
      cases hsome
  exact hh.put (c := .accepted) rfl rfl sound_accepted (.inr fun hlt => absurd hlt (Nat.lt_irrefl 0)) rfl nofun

theorem Inv.step [Inhabited β] {a : Act β} (h : Inv listenFd s) (hs : step listenFd s a = some s') :
    Inv listenFd s' := by
  cases a with
  | halt =>
    cases hs
    exact h.move rfl rfl (fun _ _ _ => .inl) h.pending h.nodup h.current
  | wait evs =>
    simp only [Epoll.step] at hs
    split at hs
    · next hpc =>
      split at hs <;> cases hs
      next hrep =>
      obtain ⟨-, -, hnodup, hreg⟩ := hrep
      refine h.move rfl rfl (fun _ _ _ hr => by rw [hpc] at hr; cases hr) ?_ hnodup nofun
      intro e he
      refine (hreg e he).imp_right fun hsome => ?_
      rw [h.registered] at hsome
      simpa using hsome
    · cases hs
  | step =>
    simp only [Epoll.step] at hs
    split at hs
    · next hpc =>
      split at hs <;> cases hs
      exact h.move rfl rfl (fun _ _ _ hr => by rw [hpc] at hr; cases hr) nofun List.nodup_nil nofun
    · next hpc =>
      cases hs
      exact h.move rfl rfl (fun _ _ _ hr => by rw [hpc] at hr; cases hr) nofun List.nodup_nil nofun
    · next hpc => cases hs; exact h.handle hpc
    · cases hs
  | accept r =>
    simp only [Epoll.step] at hs
    split at hs
    · next rest hpc =>
      cases hs
      have hpend : s.pc.pending = rest := by rw [hpc]; rfl
      exact h.move rfl rfl (fun _ _ _ hr => by rw [hpc] at hr; cases hr) (hpend ▸ h.pending) (hpend ▸ h.nodup) nofun
    · next hpc =>
      split at hs <;> cases hs
      next hfd => exact h.accept hpc hfd.1 (Option.isNone_iff_eq_none.1 hfd.2)
    · cases hs
  | recv r =>
    simp only [Epoll.step] at hs
    split at hs
    · next hpc =>
      split at hs
      · next hc => exact h.recvStep hpc hc hs
      · cases hs
    · cases hs
  | send r =>
    simp only [Epoll.step] at hs
    split at hs
    · next hpc =>
      split at hs
      · next hc => exact h.sendIn hpc hc hs
      · cases hs
    · next hpc =>
      split at hs
      · next hc => exact h.sendOut hpc hc hs
      · cases hs
    · cases hs

theorem inv_of_run [Inhabited β] {acts : List (Act β)} (h : (machine β listenFd).Run acts s) : Inv listenFd s :=
  Machine.Run.inv (M := machine β listenFd) (Inv listenFd)
    ⟨nofun, nofun, fun _ => rfl, rfl, nofun, List.nodup_nil, nofun⟩ (fun _ _ _ hi hs => hi.step hs) h

/-- **The reactor's connections are sound.** Every call of `recv` is for a connection in
`conns`, with its counters in order and room for at least one byte. For every connection
that is open: unless one of its events is just being handled, the counters are in order and
below the size of the buffer, and unsent bytes have `want_write`. At any time, the
bytes that send accepted are a prefix of those received, and all of them when both
counters are zero; and `want_write` is true exactly if `EPOLLOUT` is registered. -/
theorem reactor_sound [Inhabited β] {acts : List (Act β)} (h : (machine β listenFd).Run acts s) (fd : Int) :
    (s.pc.receives fd = true →
      ∃ c, s.conns fd = some c ∧ c.writeBytes ≤ c.readBytes ∧ c.readBytes < c.buffer.length) ∧
    ∀ c, s.conns fd = some c →
      (s.pc.current ≠ some fd → c.writeBytes ≤ c.readBytes ∧ c.readBytes < c.buffer.length ∧
        (c.writeBytes < c.readBytes → c.wantWrite = true)) ∧
      c.sent <+: c.received ∧
      (c.readBytes = 0 → c.writeBytes = 0 → c.sent = c.received) ∧
      (c.wantWrite = true ↔ s.registered fd = some true) := by
  have hinv := inv_of_run h
  constructor
  · intro hrecv
    obtain ⟨hsome, -⟩ := hinv.current fd (Pc.current_of_receives hrecv)
    obtain ⟨c, hc⟩ := Option.isSome_iff_exists.1 hsome
    exact ⟨c, hc, (hinv.sound hc).le, (hinv.sound hc).room⟩
  · intro c hc
    have hsound := hinv.sound hc
    refine ⟨fun hcur => ⟨hsound.le, hsound.room, ?_⟩, hsound.sent_prefix, hsound.sent_eq, ?_⟩
    · exact hinv.armed hc (fun hreading => hcur (Pc.current_of_reading hreading))
    · rw [hinv.registered fd, hc]
      simp

/-- Three bytes arrive and only one of them can be sent back; when there is room again, a
fourth byte has arrived too. -/
def backPressure : List (Act Nat) :=
  let readable : Events := ⟨true, false, false, false, false⟩
  let both : Events := ⟨true, true, false, false, false⟩
  [.wait [(3, readable)], .step, .accept (some 5), .accept none, .step,
   .wait [(5, readable)], .step, .recv (.bytes [1, 2, 3]), .recv .again, .send (.bytes 1), .step,
   .wait [(5, both)], .step, .recv (.bytes [4]), .recv .again, .send .again]

/-- The connection during the second event, before its last `send`. -/
theorem reactor_sound_back_pressure : ∃ s, (machine Nat 3).Run backPressure s ∧ s.pc = .sendOut 5 [] ∧
    ∃ c, s.conns 5 = some c ∧ (c.writeBytes, c.readBytes, c.sent, c.received) = (1, 4, [1], [1, 2, 3, 4]) ∧
      c.sent <+: c.received ∧ c.wantWrite = true := by
  have hexec : ((machine Nat 3).exec backPressure).any (fun s => decide (
      (s.pc, s.registered 5) = (.sendOut 5 [], some true) ∧
      (s.conns 5).map (fun c => (c.writeBytes, c.readBytes, c.sent, c.received)) = some (1, 4, [1], [1, 2, 3, 4]))) =
      true := by decide +kernel
  obtain ⟨s, hrun, hpc, hconn⟩ := Machine.exists_run_of_exec hexec
  obtain ⟨hpc, hreg⟩ := Prod.mk.inj hpc
  obtain ⟨c, hc, heq⟩ := Option.map_eq_some_iff.1 hconn
  obtain ⟨-, hprefix, -, hwant⟩ := (reactor_sound hrun 5).2 c hc
  exact ⟨s, hrun, hpc, c, hc, heq, hprefix, hwant.2 hreg⟩

end AsyncRuntime.Server.Epoll
