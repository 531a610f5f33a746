import AsyncRuntime.Ring.Pending
import AsyncRuntime.Server.Buffers
import AsyncRuntime.Server.OnRing
/-!
# Sessions that share a ring share no memory, descriptor or frame

Every session on the ring takes, step by step, a run of its own machine (`Session`), as if it
were alone. The step is the completion of its entry by the kernel: this moves
its bytes. The callback that comes later only makes the frame known to the context
again, and in between the entries, the completions and the memory of the other
sessions may change in any way they can.

The argument needs that an entry belongs to a session that is still there, which is
the life of an operation in `Ring`, and that it names memory inside the session's
buffer, which is `Sound` of the session alone.

That a new connection comes with a buffer apart from those in use is a guard of `Host.step`.
For the server with registered buffers it is always true, by the invariant of its pool of
indices (`connect_registered`).
-/

namespace AsyncRuntime.Server.Host
open Lib AsyncRuntime.Ring
variable {β : Type} {s s' t : Host β} {w v : Suspended}

/-! ## One session -/

/-- The frames in flight when the session waits with `w.frame` and its operation has
the result `r`, or none yet. -/
def flight (w : Suspended) : Option IoResult → List w.program.Frame
  | none => [w.frame]
  | some r => (w.program.resume w.frame r).toList

/-- The session `w` of the host as a state of its own machine. -/
structure Shows (s : Host β) (w : Suspended) (S : Session w.program β) : Prop where
  contents : S.contents = load s.mem w.buffer.data w.buffer.size
  received : S.received = s.received w.fd
  sent : S.sent = s.sent w.fd
  flight : S.flight = flight w (s.ring.result w.op)

/-- The session has taken a run of its own machine. -/
def Runs (s : Host β) (w : Suspended) : Prop :=
  ∃ contents acts S, contents.length = w.buffer.size ∧ (session w.program contents).RunIn Bounded acts S ∧ s.Shows w S

theorem Runs.sound (h : s.Runs w) : ∃ S, Sound (refines w.kind w.fd w.buffer) S ∧ s.Shows w S := by
  obtain ⟨contents, acts, S, hlen, hrun, hshows⟩ := h
  exact ⟨S, sound_of_run _ (by rw [program_buffer]; exact hlen) hrun, hshows⟩

theorem Runs.sent_prefix (h : s.Runs w) : s.sent w.fd <+: s.received w.fd := by
  obtain ⟨S, hsound, hshows⟩ := h.sound
  rw [← hshows.sent, ← hshows.received]
  exact hsound.faithful.sent_prefix

/-- A session does not see what leaves its buffer, its descriptor and its result. -/
theorem Runs.congr (h : s.Runs w)
    (hmem : load s'.mem w.buffer.data w.buffer.size = load s.mem w.buffer.data w.buffer.size)
    (hreceived : s'.received w.fd = s.received w.fd) (hsent : s'.sent w.fd = s.sent w.fd)
    (hresult : s'.ring.result w.op = s.ring.result w.op) : s'.Runs w := by
  obtain ⟨contents, acts, S, hlen, hrun, hshows⟩ := h
  refine ⟨contents, acts, S, hlen, hrun, ?_, ?_, ?_, ?_⟩
  · rw [hmem]; exact hshows.contents
  · rw [hreceived]; exact hshows.received
  · rw [hsent]; exact hshows.sent
  · rw [hresult]; exact hshows.flight

/-- While the session waits, the operation of its frame is inside its buffer. -/
theorem Runs.inside (h : s.Runs w) (hres : s.ring.result w.op = none) :
    Inside w.buffer (w.program.request w.frame) := by
  obtain ⟨S, hsound, hshows⟩ := h.sound
  have hflight : S.flight = [w.frame] := by rw [hshows.flight, hres]; rfl
  have hinside := Refines.inside (hsound.valid w.frame (by rw [hflight]; exact List.mem_singleton_self _))
  rw [program_buffer] at hinside
  exact hinside

/-! ## What an entry moves -/

/-- The entry of a session names its descriptor and memory of its request. -/
theorem moves_request (w : Suspended) : ∃ len ≤ (w.program.request w.frame).span.size,
    (w.program.request w.frame).prep.moves =
      some ((w.program.request w.frame).isSend, w.fd, ⟨(w.program.request w.frame).span.data, len⟩) := by
  obtain ⟨op, kind, fd, buffer, frame⟩ := w
  cases kind with
  | engine => cases frame <;> exact ⟨_, Nat.le_refl _, rfl⟩
  | registered index => cases frame <;> exact ⟨_, Nat.mod_le _ _, rfl⟩
  | fallback => cases frame <;> exact ⟨_, Nat.le_refl _, rfl⟩
  | coroutine => cases frame <;> exact ⟨_, Nat.le_refl _, rfl⟩

/-- The completion of the session's entry. -/
inductive Moved (s : Host β) (w : Suspended) (res : Int) (data : List β) : Host β → Prop
  | recv : (w.program.request w.frame).isSend = false → res ≤ (w.program.request w.frame).span.size →
      data.length = res.toNat → Moved s w res data { s with
        mem := store s.mem (w.program.request w.frame).span.data data
        received := Function.update s.received w.fd (s.received w.fd ++ data) }
  | send : (w.program.request w.frame).isSend = true → res ≤ (w.program.request w.frame).span.size →
      data.length = 0 → Moved s w res data { s with
        sent := Function.update s.sent w.fd
          (s.sent w.fd ++ load s.mem (w.program.request w.frame).span.data res.toNat) }

theorem moved_of_transfer {res : Int} {data : List β}
    (h : s.transfer (w.program.request w.frame).prep res data = some t) : Moved s w res data t := by
  obtain ⟨len, hlen, hmoves⟩ := moves_request w
  unfold transfer at h
  rw [hmoves] at h
  cases hsend : (w.program.request w.frame).isSend with
  | false =>
    simp only [hsend] at h
    split at h <;> cases h
    next hle => exact .recv hsend (by omega) hle.2
  | true =>
    simp only [hsend] at h
    split at h <;> cases h
    next hle => exact .send hsend (by omega) hle.2

/-- The session that the entry is for takes a step of its own machine. -/
theorem Runs.complete (h : s.Runs w) {r : IoResult} {data : List β} (hres : s.ring.result w.op = none)
    (hm : Moved s w r.res data t) {ring : RingImpl} (hring : ring.result w.op = some r) :
    ({ t with ring := ring } : Host β).Runs w := by
  have hin := h.inside hres
  obtain ⟨contents, acts, S, hlen, hrun, hshows⟩ := h
  have hflight : S.flight = [w.frame] := by rw [hshows.flight, hres]; rfl
  generalize hq : w.program.request w.frame = q at hin hm
  obtain ⟨hstart, hstop, -⟩ := hin
  -- the step of the session alone, from what the kernel has done to its bytes
  have hstep {S' : Session w.program β} (hle : r.res ≤ q.span.size) (ht : S.transfer q ⟨0, r, data⟩ = some S') :
      (session w.program contents).RunIn Bounded (acts ++ [⟨0, r, data⟩]) (S'.goOn 0 (w.program.resume w.frame r)) := by
    refine .snoc hrun ?_ ?_
    · simpa [Bounded, hflight, hq] using hle
    · simp [session, Session.step, hflight, hq, ht]
  have hgo {S' : Session w.program β} (hf : S'.flight = S.flight) :
      (S'.goOn 0 (w.program.resume w.frame r)).flight = flight w (ring.result w.op) := by
    rw [hring]
    exact flight_goOn hflight hf _
  cases hm with
  | recv hsend hle hd =>
    rw [hq] at hsend hle
    have htransfer : S.transfer q ⟨0, r, data⟩ = some { S with
        contents := overwrite S.contents (q.span.data - w.buffer.data) data
        received := S.received ++ data } := by
      simp [Session.transfer, hsend, hd]
    refine ⟨contents, _, _, hlen, hstep hle htransfer, ?_, ?_, hshows.sent, hgo rfl⟩
    · have hoff : w.buffer.data + (q.span.data - w.buffer.data) = q.span.data := by omega
      simp only [Session.goOn, hshows.contents, hq]
      rw [← load_store (by omega), hoff]
    · simp only [Session.goOn, hshows.received, Function.update_self]
  | send hsend hle hd =>
    rw [hq] at hsend hle
    have htransfer : S.transfer q ⟨0, r, data⟩ = some { S with
        sent := S.sent ++ (S.contents.drop (q.span.data - w.buffer.data)).take r.res.toNat } := by
      simp [Session.transfer, hsend, hd]
    refine ⟨contents, _, _, hlen, hstep hle htransfer, hshows.contents, hshows.received, ?_, hgo rfl⟩
    simp only [Session.goOn, hshows.sent, hshows.contents, hq, Function.update_self]
    rw [drop_load (by omega), take_load (by omega), Nat.add_sub_cancel' hstart]

/-! ## The host -/

/-- Two sessions wait for different operations, on different descriptors, with buffers
that do not overlap. -/
def Apart (v w : Suspended) : Prop := v.op ≠ w.op ∧ v.fd ≠ w.fd ∧ v.buffer.Apart w.buffer

instance : Std.Symm Apart := ⟨fun _ _ h => ⟨h.1.symm, h.2.1.symm, h.2.2.symm⟩⟩

/-- The operation of the session has been started and its callback is still to come. -/
structure Awaits (ring : RingImpl) (w : Suspended) : Prop where
  request : (ring.ops w.op).request = w.program.request w.frame
  started : (ring.ops w.op).start ≠ .notStarted
  notStopped : (ring.ops w.op).start ≠ .stoppedEarly
  calls : ring.calls w.op = 0

/-- What holds along every run of the host. -/
structure Inv (s : Host β) : Prop where
  safe : Safe s.ring
  own : Own s.ring
  bare : Bare s.ring
  apart : s.sessions.Pairwise Apart
  awaits : ∀ w ∈ s.sessions, Awaits s.ring w
  others : ∀ A, (s.ring.ops A).start ≠ .notStarted → (s.ring.ops A).start ≠ .stoppedEarly → s.ring.calls A = 0 →
    (∃ w ∈ s.sessions, w.op = A) ∨ (s.ring.ops A).request.isAccept = true
  runs : ∀ w ∈ s.sessions, s.Runs w
  prefixes : ∀ fd, s.sent fd <+: s.received fd

theorem Inv.init (depth : Nat) (mem : Nat → β) : Inv (init depth mem) where
  safe := safe_init depth
  own := .init depth
  bare _ he := absurd he List.not_mem_nil
  apart := .nil
  awaits _ hw := absurd hw List.not_mem_nil
  others _ hs := absurd rfl hs
  runs _ hw := absurd hw List.not_mem_nil
  prefixes _ := List.prefix_refl _

/-- An entry that moves bytes belongs to a session that waits for it. -/
theorem Inv.entry (h : Inv s) {e : Sqe} (he : e ∈ s.ring.sq ++ s.ring.kernel) (hm : e.prep.moves ≠ none) :
    ∃ w ∈ s.sessions, e.origin = .op w.op ∧ e.prep = (w.program.request w.frame).prep ∧
      s.ring.result w.op = none := by
  by_cases ho : ∃ A, e.origin = .op A
  · obtain ⟨A, ho⟩ := ho
    have hprep : e.prep = (s.ring.ops A).request.prep := by rw [h.own e he A ho]; rfl
    obtain ⟨hresult, hcalls⟩ := h.safe.lifecycle.result_of_entry he ho
    have hissued : (s.ring.ops A).start.unissued ≠ true := fun hu =>
      h.safe.lifecycle.callback_of_entry he ho ((h.safe.issuing.op A).unissued hu)
    have hstarted : (s.ring.ops A).start ≠ .notStarted := fun hs => hissued (by rw [hs]; rfl)
    have hstopped : (s.ring.ops A).start ≠ .stoppedEarly := fun hs => hissued (by rw [hs]; rfl)
    rcases h.others A hstarted hstopped hcalls with ⟨w, hw, rfl⟩ | haccept
    · exact ⟨w, hw, ho, by rw [hprep, (h.awaits w hw).request], hresult⟩
    · refine absurd ?_ hm
      rw [hprep]
      cases hr : (s.ring.ops A).request with
      | accept fd => rfl
      | _ => rw [hr] at haccept; cases haccept
  · refine absurd ?_ hm
    rcases h.bare e he (fun A hA => ho ⟨A, hA⟩) with ⟨ptr, hp⟩ | hp <;> rw [hp] <;> rfl

/-- The sessions that are left after a step of the context are those whose operation was
neither stopped nor called back in it. -/
theorem Inv.ring (h : Inv s) {a : Ring.Act} {ring : RingImpl} (hs : Ring.step s.ring a = some ring)
    (hbegin : ∀ A r possible, a = .begin A r possible → r.isAccept = true) (hcomplete : ∀ i r, a ≠ .complete i r)
    {p : Suspended → Bool}
    (hp : ∀ v ∈ s.sessions, p v = true ↔ (ring.ops v.op).start ≠ .stoppedEarly ∧ ring.calls v.op = 0) :
    Inv { s with ring := ring, sessions := s.sessions.filter p } := by
  have heffect := (step_effect hs).2
  have hpends := heffect.pends h.safe.batch
  have hmem {v} (hv : v ∈ s.sessions.filter p) : v ∈ s.sessions ∧ (ring.ops v.op).start ≠ .stoppedEarly ∧
      ring.calls v.op = 0 :=
    have hv := List.mem_filter.1 hv
    ⟨hv.1, (hp v hv.1).1 hv.2⟩
  refine ⟨h.safe.effect heffect, h.own.effect h.safe heffect, h.bare.effect heffect, h.apart.filter _, ?_, ?_, ?_,
    h.prefixes⟩
  · intro v hv
    obtain ⟨hv, hstopped, hcalls⟩ := hmem hv
    obtain ⟨hrequest, hstarted, -⟩ := heffect.of_started h.safe.issuing (h.awaits v hv).started
    exact ⟨hrequest.trans (h.awaits v hv).request, hstarted, hstopped, hcalls⟩
  · intro A hstarted hstopped hcalls
    by_cases hA : (s.ring.ops A).start = .notStarted
    · by_cases ha : ∃ r possible, a = .begin A r possible
      · obtain ⟨r, possible, rfl⟩ := ha
        refine .inr ?_
        have hr := hbegin A r possible rfl
        simp only [Ring.step, begin] at hs
        split at hs
        · split at hs <;> cases hs
          rw [setOp_self]
          exact hr
        · cases hs
      · have hno : ∀ r possible, a ≠ .begin A r possible := fun r possible he => ha ⟨r, possible, he⟩
        exact absurd (step_notStarted hA h.safe.issuing hs hno) hstarted
    · obtain ⟨hrequest, -, hkeep⟩ := heffect.of_started h.safe.issuing hA
      have hcalls0 : s.ring.calls A = 0 := Nat.le_zero.1 (hpends.calls_le.trans (Nat.le_of_eq hcalls))
      rcases h.others A hA (fun hs => hstopped (hkeep hs)) hcalls0 with ⟨w, hw, rfl⟩ | haccept
      · exact .inl ⟨w, List.mem_filter.2 ⟨hw, (hp w hw).2 ⟨hstopped, hcalls⟩⟩, rfl⟩
      · exact .inr (by rw [hrequest]; exact haccept)
  · intro v hv
    obtain ⟨hv, -, hcalls⟩ := hmem hv
    refine (h.runs v hv).congr rfl rfl rfl ?_
    exact hpends.result_eq h.safe.lifecycle h.safe.batch hcomplete (hcalls.trans (h.awaits v hv).calls.symm)

/-! ## The kernel completes an entry -/

theorem Inv.apart_of_ne (h : Inv s) (hv : v ∈ s.sessions) (hw : w ∈ s.sessions) (hne : v ≠ w) : Apart v w :=
  h.apart.forall hv hw hne

/-- The bytes of one session are moved and nothing else changes. -/
theorem Moved.elsewhere {res : Int} {data : List β} (hm : Moved s w res data t)
    (hin : Inside w.buffer (w.program.request w.frame)) :
    t.ring = s.ring ∧ t.sessions = s.sessions ∧
      (∀ fd, fd ≠ w.fd → t.received fd = s.received fd ∧ t.sent fd = s.sent fd) ∧
      ∀ b : Span, b.Apart w.buffer → load t.mem b.data b.size = load s.mem b.data b.size := by
  obtain ⟨hstart, hstop, -⟩ := hin
  cases hm with
  | recv hsend hle hd =>
    refine ⟨rfl, rfl, fun fd hfd => ⟨Function.update_of_ne hfd _ _, rfl⟩, fun b hb => load_store_of_disjoint ?_⟩
    unfold Span.Apart at hb
    omega
  | send => exact ⟨rfl, rfl, fun fd hfd => ⟨rfl, Function.update_of_ne hfd _ _⟩, fun _ _ => rfl⟩

/-- The completion that the kernel posts. -/
theorem result_complete (h : Batch s.ring) {i : Nat} {r : IoResult} {e : Sqe} {ring : RingImpl}
    (he : s.ring.kernel[i]? = some e) (hs : Ring.step s.ring (.complete i r) = some ring) (B : Nat) :
    ring.ops = s.ring.ops ∧ ring.calls B = s.ring.calls B ∧
      ring.result B = (s.ring.result B).or (if e.origin = .op B then some r else none) := by
  simp only [Ring.step, Ring.complete, he] at hs
  split at hs <;> cases hs
  refine ⟨rfl, rfl, ?_⟩
  exact result_snoc (s := s.ring) (c := ⟨e.userData, r, e.origin⟩) (List.drop_append_of_le_length h.passed_le)

theorem Inv.complete (h : Inv s) {i : Nat} {r : IoResult} {e : Sqe} {data : List β} {ring : RingImpl}
    (he : s.ring.kernel[i]? = some e) (ht : s.transfer e.prep r.res data = some t)
    (hs : Ring.step s.ring (.complete i r) = some ring) : Inv { t with ring := ring } := by
  have heffect := (step_effect hs).2
  have hmem : e ∈ s.ring.sq ++ s.ring.kernel := List.mem_append_right _ (List.mem_of_getElem? he)
  have hring := result_complete h.safe.batch he hs
  have hops := (hring 0).1
  have hkeep (hsessions : t.sessions = s.sessions) (hruns : ∀ v ∈ s.sessions, ({ t with ring := ring } : Host β).Runs v)
      (hprefixes : ∀ fd, t.sent fd <+: t.received fd) : Inv { t with ring := ring } := by
    refine ⟨h.safe.effect heffect, h.own.effect h.safe heffect, h.bare.effect heffect, ?_, ?_, ?_, ?_, hprefixes⟩
    · simp only [hsessions]; exact h.apart
    · intro v hv
      simp only [hsessions] at hv
      obtain ⟨hrequest, hstarted, hstopped, hcalls⟩ := h.awaits v hv
      exact ⟨by simpa only [hops] using hrequest, by simpa only [hops] using hstarted,
        by simpa only [hops] using hstopped, (hring v.op).2.1.trans hcalls⟩
    · intro A
      simp only [hops, hsessions, (hring A).2.1]
      exact h.others A
    · intro v hv
      simp only [hsessions] at hv
      exact hruns v hv
  have hother {v} (hv : v ∈ s.sessions) (ho : e.origin ≠ .op v.op)
      (hload : load t.mem v.buffer.data v.buffer.size = load s.mem v.buffer.data v.buffer.size)
      (hreceived : t.received v.fd = s.received v.fd) (hsent : t.sent v.fd = s.sent v.fd) :
      ({ t with ring := ring } : Host β).Runs v := by
    refine (h.runs v hv).congr hload hreceived hsent ?_
    rw [(hring v.op).2.2, if_neg ho, Option.or_none]
  by_cases hm : e.prep.moves = none
  · have hts : t = s := by
      simp only [transfer, hm] at ht
      split at ht <;> cases ht
      rfl
    subst hts
    refine hkeep rfl (fun v hv => hother hv (fun ho => ?_) rfl rfl rfl) h.prefixes
    obtain ⟨len, -, hmoves⟩ := moves_request v
    rw [h.own e hmem v.op ho, RingImpl.entry, (h.awaits v hv).request, hmoves] at hm
    cases hm
  · obtain ⟨w, hw, ho, hprep, hres⟩ := h.entry hmem hm
    rw [hprep] at ht
    have hmoved := moved_of_transfer ht
    have hin := (h.runs w hw).inside hres
    obtain ⟨-, hsessions, hstreams, hload⟩ := hmoved.elsewhere hin
    have hresult : ring.result w.op = some r := by rw [(hring w.op).2.2, hres, if_pos ho]; rfl
    have hruns := (h.runs w hw).complete hres hmoved hresult
    refine hkeep hsessions (fun v hv => ?_) fun fd => ?_
    · by_cases hvw : v = w
      · subst hvw; exact hruns
      · obtain ⟨hop, hfd, hdisjoint⟩ := h.apart_of_ne hv hw hvw
        refine hother hv ?_ (hload _ hdisjoint) (hstreams _ hfd).1 (hstreams _ hfd).2
        rw [ho]
        simpa using Ne.symm hop
    · by_cases hfd : fd = w.fd
      · subst hfd; exact hruns.sent_prefix
      · rw [(hstreams fd hfd).1, (hstreams fd hfd).2]; exact h.prefixes fd

/-! ## A session starts its next operation -/

theorem Inv.await (h : Inv s) {possible : Bool} (hapart : ∀ v ∈ s.sessions, v.fd ≠ w.fd ∧ v.buffer.Apart w.buffer)
    (hruns : s.ring.result w.op = none → s.Runs w) (hs : s.await w possible = some s') : Inv s' := by
  obtain ⟨ring, hstep, rfl⟩ := Option.map_eq_some_iff.1 hs
  have heffect := (step_effect hstep).2
  have hbegin : (s.ring.ops w.op).start = .notStarted ∧ ring = s.ring.setOp w.op { s.ring.ops w.op with
      request := w.program.request w.frame, stopPossible := possible, start := .checkStop } := by
    simp only [Ring.step, begin] at hstep
    split at hstep
    · split at hstep <;> cases hstep
      next hc => exact ⟨hc.1, rfl⟩
    · cases hstep
  obtain ⟨hnot, rfl⟩ := hbegin
  obtain ⟨hresult, hcalls⟩ := h.safe.result_of_notStarted hnot
  have hne {v} (hv : v ∈ s.sessions) : v.op ≠ w.op := fun heq => (h.awaits v hv).started (heq ▸ hnot)
  refine ⟨h.safe.effect heffect, h.own.effect h.safe heffect, h.bare.effect heffect, ?_, ?_, ?_, ?_, h.prefixes⟩
  · refine .cons (fun v hv => ?_) h.apart
    exact ⟨(hne hv).symm, (hapart v hv).1.symm, (hapart v hv).2.symm⟩
  · intro v hv
    rcases List.mem_cons.1 hv with rfl | hv
    · exact ⟨by rw [setOp_self], by simp [setOp_self], by simp [setOp_self], hcalls⟩
    · obtain ⟨hrequest, hstarted, hstopped, hcalls'⟩ := h.awaits v hv
      refine ⟨?_, ?_, ?_, hcalls'⟩ <;> rw [setOp_ne (hne hv)] <;> assumption
  · intro A
    by_cases hA : A = w.op
    · exact fun _ _ _ => .inl ⟨w, List.mem_cons_self, hA.symm⟩
    · simp only [setOp_ne hA]
      intro hstarted hstopped hcallsA
      refine (h.others A hstarted hstopped hcallsA).imp_left ?_
      rintro ⟨v, hv, rfl⟩
      exact ⟨v, List.mem_cons_of_mem _ hv, rfl⟩
  · intro v hv
    rcases List.mem_cons.1 hv with rfl | hv
    · exact (hruns hresult).congr rfl rfl rfl rfl
    · exact (h.runs v hv).congr rfl rfl rfl rfl

/-- A new connection. -/
theorem Inv.connect (h : Inv s) {A : Nat} {possible : Bool} {kind : Kind} {fd : Int} {buffer : Span}
    (hs : s.step (.connect A possible kind fd buffer) = some s') : Inv s' := by
  simp only [step] at hs
  split at hs
  · next frame hframe =>
    split at hs
    case isFalse => cases hs
    case isTrue hfree =>
    refine Inv.await ?_ hfree (fun hresult => ?_) hs
    · refine ⟨h.safe, h.own, h.bare, h.apart, h.awaits, h.others, fun v hv => ?_, fun fd' => ?_⟩
      · have hfd := (hfree v hv).1
        exact (h.runs v hv).congr rfl (Function.update_of_ne hfd _ _) (Function.update_of_ne hfd _ _) rfl
      · by_cases hfd : fd' = fd
        · subst hfd; simp only [Function.update_self]; exact List.prefix_refl _
        · simp only [Function.update_of_ne hfd]; exact h.prefixes fd'
    · refine ⟨load s.mem buffer.data buffer.size, [], Session.new _ _, length_load, .nil, rfl, ?_, ?_, ?_⟩
      · exact (Function.update_self fd [] s.received).symm
      · exact (Function.update_self fd [] s.sent).symm
      · rw [hresult]
        simp only [Session.new, flight, Suspended.program, hframe]
        rfl
  · cases hs

/-! ## The callback of a session -/

theorem calling_eq {r : IoResult} (h : s.calling = some (w, r)) : ∃ head count p e, s.ring.run = .calling head count p ∧
    s.ring.cq[head]? = some e ∧ s.ring.heap p = some w.op ∧ w ∈ s.sessions ∧ e.result = r := by
  unfold calling at h
  split at h
  · next head count p hr =>
    split at h
    · next e A he hp =>
      obtain ⟨v, hv, heq⟩ := Option.map_eq_some_iff.1 h
      cases heq
      have hop : w.op = A := by simpa using List.find?_some hv
      exact ⟨head, count, p, e, hr, he, hop ▸ hp, List.mem_of_find?_eq_some hv, rfl⟩
    · cases h
  · cases h

/-- A session whose operation is not about to be called back is not called back. -/
theorem Inv.not_calling (h : Inv s) (hc : s.calling = none) (hv : v ∈ s.sessions) {head count p : Nat}
    (hr : s.ring.run = .calling head count p) : s.ring.heap p ≠ some v.op := by
  intro hp
  obtain ⟨e, he, -⟩ := h.safe.batch.entry p (by rw [hr]; rfl)
  rw [hr] at he
  have he : s.ring.cq[head]? = some e := he
  simp only [calling, hr, he, hp, Option.map_eq_none_iff, List.find?_eq_none] at hc
  exact hc v hv (by simp)

theorem Inv.plain (h : Inv s) {a : Ring.Act} (hs : s.step (.ring a) = some s') : Inv s' := by
  simp only [step] at hs
  split at hs
  case isFalse => cases hs
  case isTrue hplain =>
  obtain ⟨ring, hstep, rfl⟩ := Option.map_eq_some_iff.1 hs
  have hpends := (step_effect hstep).2.pends h.safe.batch
  refine h.ring hstep ?_ ?_ fun v hv => ?_
  · rintro A r possible rfl; exact hplain
  · rintro i r rfl; cases hplain
  · have hcalls : ring.calls v.op = 0 := by
      rw [hpends.calls_eq, (h.awaits v hv).calls]
      rintro rfl head count p hr
      exact h.not_calling (Option.isNone_iff_eq_none.1 hplain) hv hr
    simp [hcalls]

theorem Inv.resume (h : Inv s) {A : Nat} {possible : Bool} (hs : s.step (.resume A possible) = some s') : Inv s' := by
  simp only [step] at hs
  split at hs
  case h_2 => cases hs
  case h_1 w r hcalling =>
  obtain ⟨ring, hstep, hgo⟩ := Option.bind_eq_some_iff.1 hs
  obtain ⟨head, count, p, e, hr, he, hp, hw, rfl⟩ := calling_eq hcalling
  have hring : ring = { s.ring with
      run := .inCallback head count p
      delivered := s.ring.delivered ++ [(w.op, e)]
      ops := Function.update s.ring.ops w.op
        { s.ring.ops w.op with completions := (s.ring.ops w.op).completions ++ [makeIoCallback e.result] } } := by
    simp only [Ring.step, runStep, hr, he, hp] at hstep
    split at hstep <;> cases hstep
    rfl
  have hcalls (B : Nat) : ring.calls B = s.ring.calls B + if w.op = B then 1 else 0 :=
    calls_append (d := (w.op, e)) (by rw [hring]) B
  have hresult : s.ring.result w.op = some e.result := by
    obtain ⟨B, ho, hB⟩ := h.safe.lifecycle.origin_at h.safe.batch hr he
    cases hp.symm.trans hB
    have hpending : s.ring.pending = e :: ring.pending :=
      pending_eq_cons (by rw [hr]; rfl) he (by rw [hring]) (by rw [hring]; rfl)
    exact result_head hpending ho
  have hleft : Inv { s with ring := ring, sessions := s.sessions.filter (·.op ≠ w.op) } := by
    refine h.ring hstep (by simp) (by simp) fun v hv => ?_
    have hstart : (ring.ops v.op).start = (s.ring.ops v.op).start := by
      rw [hring]
      dsimp only
      by_cases hop : v.op = w.op
      · rw [hop, Function.update_self]
      · rw [Function.update_of_ne hop]
    rw [hcalls, (h.awaits v hv).calls, hstart, Nat.zero_add]
    by_cases hop : w.op = v.op
    · simp [hop]
    · simp [hop, Ne.symm hop, (h.awaits v hv).notStopped]
  unfold goOn at hgo
  split at hgo
  · next frame hframe =>
    refine hleft.await (fun v hv => ?_) (fun hnone => ?_) hgo
    · obtain ⟨hv, hop⟩ := List.mem_filter.1 hv
      have hne : v ≠ w := by rintro rfl; simp at hop
      exact (h.apart_of_ne hv hw hne).2
    · -- the frame goes on where the session alone has been since the completion
      obtain ⟨contents, acts, S, hlen, hrun, hshows⟩ := h.runs w hw
      refine ⟨contents, acts, S, hlen, hrun, hshows.contents, hshows.received, hshows.sent, ?_⟩
      rw [hshows.flight, hresult, hnone]
      simp only [flight, hframe]
      rfl
  · cases hgo; exact hleft

theorem Inv.step (h : Inv s) {a : Act β} (hs : s.step a = some s') : Inv s' := by
  cases a with
  | ring a => exact h.plain hs
  | connect A possible kind fd buffer => exact h.connect hs
  | complete i r data =>
    simp only [Host.step] at hs
    split at hs
    · next e he =>
      obtain ⟨t, ht, hs⟩ := Option.bind_eq_some_iff.1 hs
      obtain ⟨ring, hring, rfl⟩ := Option.map_eq_some_iff.1 hs
      exact h.complete he ht hring
    · cases hs
  | resume A possible => exact h.resume hs

theorem inv_of_run {depth : Nat} {mem : Nat → β} {as : List (Act β)} (h : (machine depth mem).Run as s) : Inv s :=
  Machine.Run.inv Inv (.init depth mem) (fun _ _ _ hs => hs.step) h

/-- The code that runs the session of a connection of the server with registered buffers. -/
def kindOf (C : Fixed.Connection) : Kind :=
  match C.bufIndex with
  | some i => .registered i
  | none => .fallback

/-- The server with registered buffers never connects a buffer that overlaps one in use: if
the sessions are those of its other live connections, then only the descriptor and the ring
decide whether a live connection can be connected. -/
theorem connect_registered {memory : Nat} {acts : List Fixed.Act} {u : Fixed.State} {c A : Nat} {C : Fixed.Connection}
    {possible : Bool} (h : (Fixed.machine true memory).RunIn Fixed.Bounded acts u) (hC : u.conn c = some C)
    (hlive : ∀ w ∈ s.sessions, ∃ d D, c ≠ d ∧ u.conn d = some D ∧ w.buffer = D.buffer)
    (hfd : ∀ w ∈ s.sessions, w.fd ≠ C.fd) :
    (step s (.connect A possible (kindOf C) C.fd C.buffer)).isSome =
      (Ring.step s.ring (.begin A (C.request .handleRead) possible)).isSome := by
  have hguard : ∀ w ∈ s.sessions, w.fd ≠ C.fd ∧ w.buffer.Apart C.buffer := by
    intro w hw
    obtain ⟨d, D, hne, hD, hbuf⟩ := hlive w hw
    rw [hbuf]
    exact ⟨hfd w hw, (Fixed.inv_of_run h).buffers.buffers_apart hne.symm hD hC⟩
  obtain ⟨fd, bufIndex, buffer⟩ := C
  cases bufIndex <;> simp only [step, kindOf, program, if_pos hguard, await, Option.isSome_map] <;> rfl

/-- **Sessions that share a ring share no memory, descriptor or frame.** Whatever the kernel, the
peers and the other users of the context do: every session has taken a run of its own machine,
with its buffer, its descriptor and its frame as if it were alone. On every descriptor
what was sent is a prefix of what was received, and all of it while a receive is
waiting. Every entry that the kernel may still complete by moving bytes belongs to a session
that waits for it, and names the session's descriptor and memory inside its buffer, so
that nothing is written into a buffer that has been freed or is another's. The sessions
have descriptors and buffers of their own, and at most one entry each. -/
theorem sessions_isolated {depth : Nat} {mem : Nat → β} {as : List (Act β)} (h : (machine depth mem).Run as s) :
    (∀ w ∈ s.sessions, s.Runs w) ∧
    (∀ fd, s.sent fd <+: s.received fd) ∧
    (∀ w ∈ s.sessions, s.ring.result w.op = none → (w.program.request w.frame).isSend = false →
      s.sent w.fd = s.received w.fd) ∧
    (∀ e ∈ s.ring.sq ++ s.ring.kernel, ∀ out fd span, e.prep.moves = some (out, fd, span) →
      ∃ w ∈ s.sessions, e.origin = .op w.op ∧ fd = w.fd ∧
        w.buffer.data ≤ span.data ∧ span.data + span.size ≤ w.buffer.data + w.buffer.size) ∧
    s.sessions.Pairwise Apart ∧
    ∀ w ∈ s.sessions, s.ring.flying w.op ≤ 1 := by
  have hinv := inv_of_run h
  refine ⟨hinv.runs, hinv.prefixes, ?_, ?_, hinv.apart, ?_⟩
  · intro w hw hres hrecv
    obtain ⟨S, hsound, hshows⟩ := (hinv.runs w hw).sound
    have hflight : w.frame ∈ S.flight := by rw [hshows.flight, hres]; exact List.mem_singleton_self _
    rw [← hshows.sent, ← hshows.received]
    exact hsound.sent_eq hflight hrecv
  · intro e he out fd span hm
    obtain ⟨w, hw, ho, hprep, hres⟩ := hinv.entry he (by rw [hm]; nofun)
    obtain ⟨hstart, hstop, -⟩ := (hinv.runs w hw).inside hres
    obtain ⟨len, hlen, hmoves⟩ := moves_request w
    rw [← hprep, hm] at hmoves
    cases hmoves
    exact ⟨w, hw, ho, rfl, hstart, (Nat.add_le_add_left hlen _).trans hstop⟩
  · intro w _
    have hcount := hinv.safe.lifecycle.count w.op
    have hle := (s.ring.ops w.op).issues_le
    omega

/-- The `start()` of operation `A`, with its callback at `p`. -/
def starts (A p : Nat) : List (Act Nat) :=
  [.ring (.start A), .ring (.start A), .ring (.lock (.start A)), .ring (.submission 0 p), .ring (.submission 0 p),
    .ring (.submission 1 p), .ring (.submission 0 p)]

/-- Two sessions receive while both wait; the second is completed first, and the first
sends a part of its bytes. -/
def twoSessions : List (Act Nat) :=
  [.connect 0 false .engine 5 ⟨1000, 4⟩] ++ starts 0 70 ++ [.connect 1 false .coroutine 6 ⟨2000, 4⟩] ++ starts 1 80 ++
  [.complete 1 ⟨2, 0⟩ [8, 9], .complete 0 ⟨3, 0⟩ [1, 2, 3], .ring .run, .ring .runStep, .ring .runStep, .ring .runStep,
    .ring .runStep, .resume 2 false, .ring .runStep, .ring .runStep, .resume 3 false] ++ starts 3 90 ++
  [.complete 0 ⟨2, 0⟩ []]

theorem sessions_isolated_two_sessions : ∃ s, (machine 8 (fun _ => 0)).Run twoSessions s ∧
    s.sessions.map (fun w => (w.op, w.fd)) = [(3, 5), (2, 6)] ∧ s.received 5 = [1, 2, 3] ∧ s.sent 5 = [1, 2] ∧
    s.received 6 = [8, 9] ∧ s.sent 6 = [] ∧ s.sessions.Pairwise Apart ∧ ∀ w ∈ s.sessions, s.Runs w := by
  have hexec : ((machine 8 (fun _ => 0)).exec twoSessions).any (fun s => decide (
      s.sessions.map (fun w => (w.op, w.fd)) = [(3, 5), (2, 6)] ∧ s.received 5 = [1, 2, 3] ∧ s.sent 5 = [1, 2] ∧
      s.received 6 = [8, 9] ∧ s.sent 6 = [])) = true := by decide +kernel
  obtain ⟨s, hrun, hsessions, hr5, hs5, hr6, hs6⟩ := Machine.exists_run_of_exec hexec
  obtain ⟨hruns, -, -, -, hapart, -⟩ := sessions_isolated hrun
  exact ⟨s, hrun, hsessions, hr5, hs5, hr6, hs6, hapart, hruns⟩

end AsyncRuntime.Server.Host
