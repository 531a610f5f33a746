import AsyncRuntime.Lib.Atomic
import AsyncRuntime.Deque.Invariants
/-!
# The deque refines an atomic double-ended list

The abstract list: a push appends at the back, a pop takes the back element (or
reports that the list is empty), a steal takes the front element or fails and
changes nothing. Each call takes effect at one instant between its invocation
and its return (`Lib.Atomic`).

A push takes effect at its store of `bottom_`. A pop takes effect at its load of
`top_` if it finds two tasks or none, and at its `compare_exchange_strong` if it
finds one. A steal takes effect at its `compare_exchange_strong`, or where it
gives up.
-/

namespace AsyncRuntime.Deque
open Lib
variable {τ : Type}

/-! ## The abstract list -/

inductive Op (τ : Type) where
  | push (x : τ)
  | pop
  | steal

/-- What an operation may do to the list, and what it returns. -/
inductive Apply : List τ → Op τ → Option τ → List τ → Prop
  | push (l : List τ) (x : τ) : Apply l (.push x) none (l ++ [x])
  | pop (l : List τ) (x : τ) : Apply (l ++ [x]) .pop (some x) l
  | popEmpty : Apply [] .pop none []
  | steal (l : List τ) (x : τ) : Apply (x :: l) .steal (some x) l
  | stealFail (l : List τ) : Apply l .steal none l

/-- The double-ended list. -/
def spec (τ : Type) : SeqSpec (List τ) (Op τ) (Option τ) where
  init := []
  apply := Apply

inductive Thread where
  | owner
  | thief (i : Nat)
  deriving DecidableEq

/-- The tasks pushed in a history, in order. -/
def pushed (h : List (Event Thread (Op τ) (Option τ))) : List τ :=
  h.filterMap fun
    | .call _ (.push x) => some x
    | _ => none

/-- The tasks returned in a history, in order. -/
def returned (h : List (Event Thread (Op τ) (Option τ))) : List τ :=
  h.filterMap fun
    | .ret _ r => r
    | _ => none

/-! ## What the abstract list returns -/

/-- The task of a push that has not taken effect. -/
def pendingPush : Status (Op τ) (Option τ) → List τ
  | .pending (.push x) => [x]
  | _ => []

/-- The books of a history: `out` lists the tasks taken out by calls that have
not returned yet. Everything that went in is out, on its way out, or still in
the list, and the list is in push order. -/
structure Books (h : List (Event Thread (Op τ) (Option τ))) (A : Atomic Thread (List τ) (Op τ) (Option τ))
    (ins : List τ) (out : List (Thread × τ)) : Prop where
  pushed : pushed h = ins ++ pendingPush (A.status .owner)
  owner : ∀ t x, A.status t = .pending (.push x) → t = .owner
  balance : ins.Perm (returned h ++ out.map (·.2) ++ A.val)
  order : A.val.Sublist ins
  nodup : out.Nodup
  out_iff : ∀ t x, (t, x) ∈ out ↔ A.status t = .done (some x)

section Books
variable {h : List (Event Thread (Op τ) (Option τ))} {A : Atomic Thread (List τ) (Op τ) (Option τ)}
  {ins : List τ} {out : List (Thread × τ)}

@[simp] theorem pushed_append (h h' : List (Event Thread (Op τ) (Option τ))) :
    Deque.pushed (h ++ h') = Deque.pushed h ++ Deque.pushed h' := List.filterMap_append ..

@[simp] theorem returned_append (h h' : List (Event Thread (Op τ) (Option τ))) :
    returned (h ++ h') = returned h ++ returned h' := List.filterMap_append ..

theorem setStatus_pushing {t u : Thread} {st : Status (Op τ) (Option τ)} {x : τ}
    (hn : ∀ x, st = .pending (.push x) → t = .owner) (ho : ∀ x, A.status u = .pending (.push x) → u = .owner)
    (h : (A.setStatus t st).status u = .pending (.push x)) : u = .owner := by
  by_cases e : u = t
  · subst e; exact hn x (by simpa using h)
  · rw [A.setStatus_ne st e] at h; exact ho x h

/-- A thread whose new status carries no task. -/
theorem Books.out_keep (b : Books h A ins out) {t : Thread} {st : Status (Op τ) (Option τ)}
    (hold : ∀ x, A.status t ≠ .done (some x)) (hnew : ∀ x, st ≠ .done (some x)) (u : Thread) (x : τ) :
    (u, x) ∈ out ↔ (A.setStatus t st).status u = .done (some x) := by
  rw [b.out_iff]
  by_cases e : u = t
  · subst e; simp [hold x, hnew x]
  · rw [A.setStatus_ne st e]

/-- A thread that takes `x` out. -/
theorem Books.out_take (b : Books h A ins out) {t : Thread} {x : τ} (hold : ∀ x, A.status t ≠ .done (some x))
    (u : Thread) (y : τ) : (u, y) ∈ (t, x) :: out ↔ (A.setStatus t (.done (some x))).status u = .done (some y) := by
  rw [List.mem_cons, b.out_iff]
  by_cases e : u = t
  · subst e; simp [hold y, eq_comm]
  · rw [A.setStatus_ne _ e]; simp [e]

theorem pendingPush_setStatus {t : Thread} {st : Status (Op τ) (Option τ)} (hold : pendingPush (A.status t) = [])
    (hnew : pendingPush st = []) :
    pendingPush ((A.setStatus t st).status .owner) = pendingPush (A.status .owner) := by
  by_cases e : Thread.owner = t
  · subst e; rw [A.setStatus_self, hnew, hold]
  · rw [A.setStatus_ne st e]

/-- The books after a call. -/
theorem Books.call (b : Books h A ins out) {t : Thread} {op : Op τ} (ht : A.status t = .idle)
    (hown : ∀ x, op = .push x → t = .owner) :
    Books (h ++ [.call t op]) (A.setStatus t (.pending op)) ins out where
  pushed := by
    rw [pushed_append, b.pushed, List.append_assoc]
    congr 1
    cases op with
    | push x =>
      obtain rfl := hown x rfl
      rw [A.setStatus_self, ht]; rfl
    | pop | steal => rw [pendingPush_setStatus (by rw [ht]; rfl) rfl]; simp [Deque.pushed]
  owner u x := setStatus_pushing (fun x e => hown x (by simpa using e)) (b.owner u)
  balance := by simpa [returned] using b.balance
  order := b.order
  nodup := b.nodup
  out_iff := b.out_keep (by simp [ht]) (by simp)

/-- The books after a call takes effect. -/
theorem Books.lin (b : Books h A ins out) {t : Thread} {op : Op τ} {r : Option τ} {v : List τ}
    (ht : A.status t = .pending op) (ha : Apply A.val op r v) :
    ∃ ins' out', Books h { A.setStatus t (.done r) with val := v } ins' out' := by
  have hold : ∀ x, A.status t ≠ .done (some x) := by simp [ht]
  have howner : ∀ u x, (A.setStatus t (.done r)).status u = .pending (.push x) → u = .owner := fun u x =>
    setStatus_pushing (by simp) (b.owner u)
  have hb := b.balance
  have ho := b.order
  generalize hv : A.val = w at ha hb ho
  cases ha with
  | push _ x =>
    obtain rfl := b.owner t x ht
    refine ⟨ins ++ [x], out, ?_, howner, ?_, ho.append (List.Sublist.refl _), b.nodup, b.out_keep hold (by simp)⟩
    · rw [b.pushed, ht]
      show ins ++ [x] = ins ++ [x] ++ pendingPush ((A.setStatus .owner (.done none)).status .owner)
      rw [A.setStatus_self]; simp [pendingPush]
    · simpa using hb.append_right [x]
  | pop _ x =>
    refine ⟨ins, (t, x) :: out, ?_, howner, ?_, (List.sublist_append_left _ _).trans ho, ?_, b.out_take hold⟩
    · rw [b.pushed]
      exact congrArg _ (pendingPush_setStatus (by rw [ht]; rfl) rfl).symm
    · refine hb.trans ?_
      simp only [List.map_cons, List.append_assoc]
      refine List.Perm.append_left _ ?_
      rw [← List.append_assoc]
      exact List.perm_append_comm
    · exact List.nodup_cons.2 ⟨fun hm => hold x ((b.out_iff t x).1 hm), b.nodup⟩
  | popEmpty =>
    refine ⟨ins, out, ?_, howner, hb, ho, b.nodup, b.out_keep hold (by simp)⟩
    rw [b.pushed]
    exact congrArg _ (pendingPush_setStatus (by rw [ht]; rfl) rfl).symm
  | steal _ x =>
    refine ⟨ins, (t, x) :: out, ?_, howner, ?_, (List.sublist_cons_self _ _).trans ho, ?_, b.out_take hold⟩
    · rw [b.pushed]
      exact congrArg _ (pendingPush_setStatus (by rw [ht]; rfl) rfl).symm
    · refine hb.trans ?_
      simp only [List.map_cons, List.append_assoc]
      exact List.Perm.append_left _ List.perm_middle
    · exact List.nodup_cons.2 ⟨fun hm => hold x ((b.out_iff t x).1 hm), b.nodup⟩
  | stealFail =>
    refine ⟨ins, out, ?_, howner, hb, ho, b.nodup, b.out_keep hold (by simp)⟩
    rw [b.pushed]
    exact congrArg _ (pendingPush_setStatus (by rw [ht]; rfl) rfl).symm

variable [DecidableEq τ]

/-- The books after a return. -/
theorem Books.ret (b : Books h A ins out) {t : Thread} {r : Option τ} (ht : A.status t = .done r) :
    ∃ out', Books (h ++ [.ret t r]) (A.setStatus t .idle) ins out' := by
  have hpush : Deque.pushed (h ++ [.ret t r]) = ins ++ pendingPush ((A.setStatus t .idle).status .owner) := by
    rw [pushed_append, b.pushed, pendingPush_setStatus (by rw [ht]; rfl) rfl]
    simp [Deque.pushed]
  have howner : ∀ u x, (A.setStatus t .idle).status u = .pending (.push x) → u = .owner := fun u x =>
    setStatus_pushing (by simp) (b.owner u)
  cases r with
  | none =>
    exact ⟨out, hpush, howner, by simpa [returned] using b.balance, b.order, b.nodup,
      b.out_keep (by simp [ht]) (by simp)⟩
  | some x =>
    have hm : (t, x) ∈ out := (b.out_iff t x).2 ht
    have hp := List.perm_cons_erase hm
    refine ⟨out.erase (t, x), hpush, howner, ?_, b.order, b.nodup.erase _, fun u y => ?_⟩
    · refine b.balance.trans ?_
      have := (hp.map (·.2)).append_left (returned h)
      simpa [returned] using this.append_right A.val
    · rw [b.nodup.mem_erase_iff, b.out_iff]
      by_cases e : u = t
      · subst e
        rw [A.setStatus_self, ht]
        simp [eq_comm]
      · rw [A.setStatus_ne _ e]; simp [e]

/-- Every history in which only the owner pushes has its books in order. -/
theorem books_of_history (hh : Atomic.History (spec τ) h A)
    (hown : ∀ t x, Event.call t (.push x) ∈ h → t = .owner) : ∃ ins out, Books h A ins out := by
  induction hh with
  | nil => exact ⟨[], [], rfl, by simp [Atomic.init], .refl _, .refl _, .nil, by simp [Atomic.init]⟩
  | @step h A A' e _ hs ih =>
    obtain ⟨ins, out, b⟩ := ih (fun t x hm => hown t x (List.mem_append_left _ hm))
    cases hs with
    | call t op ht =>
      exact ⟨ins, out, b.call ht (fun x hx => hown t x (by simp [hx]))⟩
    | lin t op r v ht ha => simpa using b.lin ht ha
    | ret t r ht => exact ⟨ins, b.ret ht⟩

end Books

/-! ## The simulation -/

/-- What the abstract object knows of the owner's call at each program point. -/
def ownerStatus (d : WorkStealingDeque τ) : OwnerPc τ → Status (Op τ) (Option τ)
  | .idle => .idle
  | .pushLoadBottom x | .pushLoadTop x _ | .pushLoadArray x _ _ | .growLoad x _ _ _ _ _
  | .growStore x _ _ _ _ _ _ | .pushStoreArray x _ _ _ _ | .pushStoreSlot x _ _
  | .pushStoreBottom x _ => .pending (.push x)
  | .pushDone => .done none
  | .popLoadBottom | .popLoadArray _ | .popStoreBottom _ _ | .popLoadTop _ _ | .popCas _ _ _ => .pending .pop
  | .popLoadSlot b a t => if b - t = 0 then .pending .pop else .done ((d.heap a).load b)
  | .popUndo _ => .done none
  | .popReset _ task | .popDone task => .done task

/-- What the abstract object knows of a thief. -/
def thiefStatus : Option (ThiefPc τ) → Status (Op τ) (Option τ)
  | none => .idle
  | some (.done task) => .done task
  | some _ => .pending .steal

/-- What a caller of the deque sees of an action. -/
def obs : Act τ → Option (Event Thread (Op τ) (Option τ))
  | .push x => some (.call .owner (.push x))
  | .pop => some (.call .owner .pop)
  | .pushRet => some (.ret .owner none)
  | .popRet r => some (.ret .owner r)
  | .steal i => some (.call (.thief i) .steal)
  | .stealRet i r => some (.ret (.thief i) r)
  | .owner | .thief _ => none

/-- The simulation relation. -/
structure Rel (d : WorkStealingDeque τ) (p : OwnerPc τ) (th : Nat → Option (ThiefPc τ))
    (A : Atomic Thread (List τ) (Op τ) (Option τ)) : Prop where
  inv : Inv d p
  thieves : ∀ i q, th i = some q → ThiefOk d p q
  val : A.val = contents d p
  owner : A.status .owner = ownerStatus d p
  thief : ∀ i, A.status (.thief i) = thiefStatus (th i)

variable {d : WorkStealingDeque τ} {p : OwnerPc τ}

theorem OwnerEffect.contents_eq {d' : WorkStealingDeque τ} {p' : OwnerPc τ} (e : OwnerEffect d p d' p')
    (hin : p'.input = p.input) (htk : taken d' p' = taken d p) : contents d' p' = contents d p := by
  cases e with
  | quiet hc => exact hc
  | push x _ h1 h2 => rw [h1, h2] at hin; cases hin
  | pop x _ _ _ h1 h2 => rw [h1, h2] at htk; cases htk

/-- The pop takes the newest task at this step. -/
theorem OwnerEffect.pop_of_taken {d' : WorkStealingDeque τ} {p' : OwnerPc τ} (e : OwnerEffect d p d' p')
    (hold : taken d p = none) (hnew : (taken d' p').isSome) :
    ∃ x, taken d' p' = some x ∧ contents d p = contents d' p' ++ [x] := by
  cases e with
  | quiet _ _ htk => rw [htk, hold] at hnew; cases hnew
  | push x _ _ _ _ htk => rw [htk] at hnew; cases hnew
  | pop x hc _ _ _ htk => exact ⟨x, htk, hc⟩

/-- A step of the owner is invisible to the abstract object, or it is the
instant at which the owner's call takes effect. -/
theorem owner_lin (h : Inv d p) :
    (ownerStatus (ownerStep d p).1 (ownerStep d p).2 = ownerStatus d p ∧
      contents (ownerStep d p).1 (ownerStep d p).2 = contents d p) ∨
    ∃ op r, ownerStatus d p = .pending op ∧ ownerStatus (ownerStep d p).1 (ownerStep d p).2 = .done r ∧
      Apply (contents d p) op r (contents (ownerStep d p).1 (ownerStep d p).2) := by
  have hok := ownerStep_ok h
  have he := hok.effect
  cases p with
  | idle | pushLoadBottom | pushLoadTop | growLoad | pushStoreArray | pushStoreSlot | pushDone | popLoadBottom
  | popLoadArray | popStoreBottom | popUndo | popReset | popDone =>
    exact .inl ⟨rfl, he.contents_eq rfl rfl⟩
  | pushLoadArray x b t =>
    left
    simp only [ownerStep] at he ⊢
    split at he
    · next hs =>
      rw [if_pos hs]
      refine ⟨?_, he.contents_eq (input_growNext ..) (taken_growNext ..)⟩
      unfold growNext; split <;> rfl
    · next hs => rw [if_neg hs]; exact ⟨rfl, he.contents_eq rfl rfl⟩
  | growStore x b t a n i v =>
    left
    refine ⟨?_, he.contents_eq (input_growNext ..) (taken_growNext ..)⟩
    simp only [ownerStep, growNext]; split <;> rfl
  | pushStoreBottom x b =>
    right
    cases he with
    | quiet _ hin => cases hin
    | push y hc hin =>
      obtain rfl : x = y := by simpa [OwnerPc.input] using hin
      exact ⟨.push x, none, rfl, rfl, hc ▸ .push _ x⟩
    | pop y _ hin => cases hin
  | popLoadTop b a =>
    by_cases h1 : b - d.top < 0
    · have hs : ownerStep d (.popLoadTop b a) = (d, .popUndo b) := if_pos h1
      rw [hs] at hok ⊢
      have hback : back d (.popUndo b) ≤ d.top := le_of_eq (by rw [hok.inv.at_pc.2, hok.inv.at_pc.1]; rfl)
      have hold : contents d (.popLoadTop b a) = [] := contents_nil hback
      refine .inr ⟨.pop, none, rfl, rfl, ?_⟩
      rw [hold, contents_nil hback]; exact .popEmpty
    · have hs : ownerStep d (.popLoadTop b a) = (d, .popLoadSlot b a d.top) := if_neg h1
      rw [hs] at hok he ⊢
      by_cases h2 : b - d.top = 0
      · -- one task: the race is still open
        exact .inl ⟨by simp [ownerStatus, h2], he.contents_eq rfl (by simp [taken, h2])⟩
      · obtain ⟨-, ha, -, -, hsome⟩ := hok.inv.at_pc
        have htk : taken d (.popLoadSlot b a d.top) = (d.heap a).load b := if_neg h2
        obtain ⟨x, hx, hc⟩ := he.pop_of_taken rfl (by rw [htk, ha]; exact hsome (by omega))
        refine .inr ⟨.pop, some x, rfl, ?_, hc ▸ .pop _ x⟩
        rw [ownerStatus, if_neg h2, ← htk, hx]
  | popLoadSlot b a t =>
    left
    by_cases hz : b - t = 0
    · have hs : ownerStep d (.popLoadSlot b a t) = (d, .popCas b t ((d.heap a).load b)) := if_pos hz
      rw [hs] at he ⊢
      exact ⟨by simp [ownerStatus, hz], he.contents_eq rfl (by simp [taken, hz])⟩
    · have hs : ownerStep d (.popLoadSlot b a t) = (d, .popDone ((d.heap a).load b)) := if_neg hz
      rw [hs] at he ⊢
      exact ⟨by simp [ownerStatus, hz], he.contents_eq rfl (by simp [taken, hz])⟩
  | popCas b t task =>
    right
    obtain ⟨rfl, rfl, -, htask⟩ := h.at_pc
    by_cases hcas : d.top = d.bottom
    · have hs : ownerStep d (.popCas d.bottom d.bottom task) =
          ({ d with top := d.bottom + 1 }, .popReset d.bottom task) :=
        if_pos hcas
      rw [hs] at he ⊢
      have hlive : d.bottom < back d (.popCas d.bottom d.bottom task) := Int.lt_succ d.bottom
      obtain ⟨x, hx, hc⟩ := he.pop_of_taken rfl (by
        show task.isSome
        rw [htask hcas]; exact h.full d.bottom (le_of_eq hcas) hlive)
      exact ⟨.pop, some x, rfl, congrArg Status.done hx, hc ▸ .pop _ x⟩
    · -- a thief was first, so the list is empty now
      have hs : ownerStep d (.popCas d.bottom d.bottom task) = (d, .popReset d.bottom none) := if_neg hcas
      rw [hs] at hok ⊢
      have hback : back d (.popReset d.bottom none) ≤ d.top := le_of_eq hok.inv.at_pc.2.symm
      have hold : contents d (.popCas d.bottom d.bottom task) = [] := contents_nil hback
      refine ⟨.pop, none, rfl, rfl, ?_⟩
      rw [hold, contents_nil hback]; exact .popEmpty

/-- A step of a thief is invisible to the abstract object, or it is the instant
at which the steal takes effect or fails. -/
theorem thief_lin {q : ThiefPc τ} (h : Inv d p) (hq : ThiefOk d p q) :
    (thiefStatus (some (thiefStep d q).2) = thiefStatus (some q) ∧ contents (thiefStep d q).1 p = contents d p) ∨
    ∃ r, thiefStatus (some q) = .pending .steal ∧ thiefStatus (some (thiefStep d q).2) = .done r ∧
      Apply (contents d p) .steal r (contents (thiefStep d q).1 p) := by
  have he := (thiefStep_ok h hq).effect
  cases q with
  | loadTop | loadArray | loadSlot | done => exact .inl ⟨rfl, rfl⟩
  | loadBottom t =>
    simp only [thiefStep]
    split
    · exact .inr ⟨none, rfl, rfl, .stealFail _⟩
    · exact .inl ⟨rfl, rfl⟩
  | cas t task =>
    right
    by_cases hcas : d.top = t
    · have hs : thiefStep d (.cas t task) = ({ d with top := t + 1 }, .done task) := if_pos hcas
      rw [hs] at he ⊢
      cases he with
      | quiet hc htk =>
        obtain rfl : task = none := htk
        exact ⟨none, rfl, rfl, hc.symm ▸ .stealFail _⟩
      | steal x hc _ htk => exact ⟨some x, rfl, congrArg Status.done htk, hc ▸ .steal _ x⟩
    · have hs : thiefStep d (.cas t task) = (d, .done none) := if_neg hcas
      rw [hs]
      exact ⟨none, rfl, rfl, .stealFail _⟩

variable {th : Nat → Option (ThiefPc τ)} {A : Atomic Thread (List τ) (Op τ) (Option τ)}

/-- A call or a return of the owner. -/
theorem Rel.setOwner (r : Rel d p th A) (p' : OwnerPc τ) (hb : back d p' = back d p) (hat : AtPc d p') :
    Rel d p' th (A.setStatus .owner (ownerStatus d p')) where
  inv := (r.inv.frame_read hb).inv r.inv hat
  thieves i q hi := (r.inv.frame_read hb).thief (r.thieves i q hi)
  val := r.val.trans (r.inv.frame_read hb).contents.symm
  owner := A.setStatus_self ..
  thief i := by rw [A.setStatus_ne _ (by simp)]; exact r.thief i

/-- A call or a return of a thief. -/
theorem Rel.setThief (r : Rel d p th A) (i : Nat) (q : Option (ThiefPc τ)) (hq : ∀ q', q = some q' → ThiefOk d p q') :
    Rel d p (Function.update th i q) (A.setStatus (.thief i) (thiefStatus q)) where
  inv := r.inv
  thieves j q' hj := by
    by_cases e : j = i
    · subst e; exact hq q' (by simpa using hj)
    · rw [Function.update_of_ne e] at hj; exact r.thieves j q' hj
  val := r.val
  owner := by rw [A.setStatus_ne _ (by simp)]; exact r.owner
  thief j := by
    by_cases e : j = i
    · subst e; simp
    · rw [A.setStatus_ne _ (by simpa using e), Function.update_of_ne e]; exact r.thief j

/-- An access of the owner. -/
theorem Rel.owner_step (r : Rel d p th A) :
    ∃ A', (Atomic.Step (spec τ) A none A' ∨ A' = A) ∧ Rel (ownerStep d p).1 (ownerStep d p).2 th A' := by
  have hok := ownerStep_ok r.inv
  have hth : ∀ i q, th i = some q → ThiefOk (ownerStep d p).1 (ownerStep d p).2 q :=
    fun i q hi => hok.thief q (r.thieves i q hi)
  rcases owner_lin r.inv with ⟨hst, hc⟩ | ⟨op, res, hold, hnew, ha⟩
  · exact ⟨A, .inr rfl, hok.inv, hth, r.val.trans hc.symm, r.owner.trans hst.symm, r.thief⟩
  · refine ⟨_, .inl (.lin .owner op res _ (r.owner.trans hold) (r.val ▸ ha)), hok.inv, hth, rfl, ?_, fun i => ?_⟩
    · rw [hnew]; exact A.setStatus_self .owner (.done res)
    · exact (A.setStatus_ne (t := .owner) (.done res) (by simp)).trans (r.thief i)

/-- An access of thief `i`. -/
theorem Rel.thief_step (r : Rel d p th A) {i : Nat} {q : ThiefPc τ} (hi : th i = some q) :
    ∃ A', (Atomic.Step (spec τ) A none A' ∨ A' = A) ∧
      Rel (thiefStep d q).1 p (Function.update th i (some (thiefStep d q).2)) A' := by
  have hq := r.thieves i q hi
  have hok := thiefStep_ok r.inv hq
  have hth : ∀ j q', Function.update th i (some (thiefStep d q).2) j = some q' → ThiefOk (thiefStep d q).1 p q' := by
    intro j q' hj
    by_cases e : j = i
    · subst e
      obtain rfl : (thiefStep d q).2 = q' := by simpa using hj
      exact hok.self
    · rw [Function.update_of_ne e] at hj; exact hok.other q' (r.thieves j q' hj)
  -- a thief's step leaves the slots alone, so the owner's result stands
  have hown : A.status .owner = ownerStatus (thiefStep d q).1 p := by
    have hh : (thiefStep d q).1.heap = d.heap := by
      cases q <;> simp only [thiefStep] <;> split <;> rfl
    rw [r.owner]
    cases p <;> simp only [ownerStatus, hh]
  rcases thief_lin r.inv hq with ⟨hst, hc⟩ | ⟨res, hold, hnew, ha⟩
  · refine ⟨A, .inr rfl, hok.inv, hth, r.val.trans hc.symm, hown, fun j => ?_⟩
    by_cases e : j = i
    · subst e
      rw [Function.update_self, r.thief, hi, hst]
    · rw [Function.update_of_ne e]; exact r.thief j
  · refine ⟨_, .inl (.lin (.thief i) .steal res _ ((r.thief i).trans (hi ▸ hold)) (r.val ▸ ha)), hok.inv, hth, rfl,
      (A.setStatus_ne (.done res) (by simp)).trans hown, fun j => ?_⟩
    by_cases e : j = i
    · subst e
      rw [Function.update_self, hnew]
      exact A.setStatus_self (.thief j) (.done res)
    · rw [Function.update_of_ne e]
      exact (A.setStatus_ne (.done res) (by simpa using e)).trans (r.thief j)

variable [DecidableEq τ]

/-- Every step of the deque is a step of the atomic list, or invisible. -/
theorem simulates (cap : Int) (hcap : ∃ k : Nat, cap = 2 ^ k) :
    Simulates (machine (τ := τ) cap hcap) obs (spec τ) (fun s A => Rel s.d s.owner s.thief A) where
  init := ⟨inv_new cap hcap, by simp [machine], rfl, rfl, fun _ => rfl⟩
  step s a s' A r hs := by
    have hstep : step s a = some s' := hs
    cases a with
    | owner =>
      obtain rfl : _ = s' := by simpa [step] using hstep
      obtain ⟨A', hA, hr⟩ := r.owner_step
      exact ⟨A', hA.imp_right (fun e => ⟨rfl, e⟩), hr⟩
    | thief i =>
      simp only [step] at hstep
      split at hstep
      · cases hstep
      · next q hi =>
        cases hstep
        obtain ⟨A', hA, hr⟩ := r.thief_step hi
        exact ⟨A', hA.imp_right (fun e => ⟨rfl, e⟩), hr⟩
    | push x =>
      simp only [step] at hstep
      split at hstep
      · next ho =>
        cases hstep
        refine ⟨_, .inl (.call Thread.owner (Op.push x) (by rw [r.owner, ho]; rfl)),
          r.setOwner (.pushLoadBottom x) ?_ trivial⟩
        rw [ho]; rfl
      · cases hstep
    | pop =>
      simp only [step] at hstep
      split at hstep
      · next ho =>
        cases hstep
        refine ⟨_, .inl (.call Thread.owner Op.pop (by rw [r.owner, ho]; rfl)), r.setOwner .popLoadBottom ?_ trivial⟩
        rw [ho]; rfl
      · cases hstep
    | pushRet =>
      simp only [step] at hstep
      split at hstep
      · next ho =>
        cases hstep
        refine ⟨_, .inl (.ret Thread.owner none (by rw [r.owner, ho]; rfl)), r.setOwner .idle ?_ trivial⟩
        rw [ho]; rfl
      · cases hstep
    | popRet res =>
      simp only [step] at hstep
      split at hstep
      · next task ho =>
        split at hstep
        · next e =>
          cases hstep
          refine ⟨_, .inl (.ret Thread.owner res (by rw [r.owner, ho, ← e]; rfl)), r.setOwner .idle ?_ trivial⟩
          rw [ho]; rfl
        · cases hstep
      · cases hstep
    | steal i =>
      simp only [step] at hstep
      split at hstep
      · next hi =>
        cases hstep
        refine ⟨_, .inl (.call (Thread.thief i) Op.steal (by rw [r.thief, hi]; rfl)), r.setThief i (some .loadTop) ?_⟩
        intro q' e
        cases e; trivial
      · cases hstep
    | stealRet i res =>
      simp only [step] at hstep
      split at hstep
      · next task hi =>
        split at hstep
        · next e =>
          cases hstep
          refine ⟨_, .inl (.ret (Thread.thief i) res (by rw [r.thief, hi, ← e]; rfl)), r.setThief i none ?_⟩
          intro q' e
          cases e
        · cases hstep
      · cases hstep

/-! ## The refinement -/

/-- The slots `top_, …, bottom_ - 1` of the current array. -/
def slots (d : WorkStealingDeque τ) : List (Option τ) :=
  (List.range (d.bottom - d.top).toNat).map (fun i : Nat => d.cur.load (d.top + i))

omit [DecidableEq τ] in
theorem slots_idle (h : Inv d .idle) : slots d = (contents d .idle).map some :=
  (map_some_window h.full).symm

omit [DecidableEq τ] in
theorem pushes_of_owner {as : List (Act τ)} {t : Thread} {x : τ} (h : Event.call t (.push x) ∈ as.filterMap obs) :
    t = .owner := by
  obtain ⟨a, -, ha⟩ := List.mem_filterMap.1 h
  cases a <;> simp [obs] at ha
  exact ha.1.symm

/-- The deque refines an atomic double-ended list, for every initial capacity,
every sequence of pushes and pops by the owner and any number of thieves,
interleaved access by access. Hence no task is returned more often than it was
pushed, and when no call is in progress the tasks not yet returned are exactly
the slots from `top_` to `bottom_`, in push order. -/
theorem deque_refines_list (k : Nat) (as : List (Act τ)) (s : Sys τ) (h : (machine (2 ^ k) ⟨k, rfl⟩).Run as s) :
    (∃ A, Atomic.History (spec τ) (as.filterMap obs) A ∧ A.val = contents s.d s.owner) ∧
    (∀ x, (returned (as.filterMap obs)).count x ≤ (pushed (as.filterMap obs)).count x) ∧
    (s.owner = .idle → (∀ i, s.thief i = none) →
      ∃ rest : List τ, slots s.d = rest.map some ∧ rest.Sublist (pushed (as.filterMap obs)) ∧
        (pushed (as.filterMap obs)).Perm (returned (as.filterMap obs) ++ rest)) := by
  obtain ⟨A, hh, r⟩ := (simulates _ _).trace h
  obtain ⟨ins, out, b⟩ := books_of_history hh (fun t x => pushes_of_owner)
  refine ⟨⟨A, hh, r.val⟩, fun x => ?_, fun ho ht => ⟨A.val, ?_, ?_, ?_⟩⟩
  · have hcount := b.balance.count_eq x
    simp only [List.count_append] at hcount
    rw [b.pushed, List.count_append]
    omega
  · have hinv := r.inv
    rw [ho] at hinv
    rw [slots_idle hinv, r.val, ho]
  · rw [b.pushed]
    exact b.order.trans (List.sublist_append_left _ _)
  · -- no call is in progress, so no task is on its way out
    have hidle : ∀ t, A.status t = .idle := by
      intro t
      cases t with
      | owner => rw [r.owner, ho]; rfl
      | thief i => rw [r.thief, ht i]; rfl
    have hout : out = [] := by
      refine List.eq_nil_iff_forall_not_mem.2 (fun e he => ?_)
      have := (b.out_iff e.1 e.2).1 he
      rw [hidle] at this; cases this
    have hb := b.balance
    rw [b.pushed, hidle]
    simpa [hout, pendingPush] using hb

/-- From capacity 1: a thief has loaded an array that the next push replaces, and
still steals the oldest task from it. -/
def staleThief : List (Act Nat) := List.flatten
  [[.push 7], List.replicate 7 .owner, [.pushRet, .steal 0, .thief 0, .thief 0, .thief 0, .push 8],
    List.replicate 8 .owner, [.pushRet, .push 9], List.replicate 6 .owner, [.pushRet, .thief 0, .thief 0],
    [.stealRet 0 (some 7), .pop], List.replicate 5 .owner, [.popRet (some 9)]]

theorem deque_refines_list_stale_thief :
    ∃ s, (machine (2 ^ 0) ⟨0, rfl⟩).Run staleThief s ∧ s.d.history = [0, 1] ∧
      returned (staleThief.filterMap obs) = [7, 9] ∧
      (∃ A, Atomic.History (spec Nat) (staleThief.filterMap obs) A ∧ A.val = contents s.d s.owner) := by
  have hexec : ((machine (2 ^ 0) ⟨0, rfl⟩).exec staleThief).any (fun s => decide (s.d.history = [0, 1])) = true := by
    decide +kernel
  obtain ⟨s, hr, hh⟩ := Machine.exists_run_of_exec hexec
  exact ⟨s, hr, hh, by decide, (deque_refines_list 0 staleThief s hr).1⟩

end AsyncRuntime.Deque
