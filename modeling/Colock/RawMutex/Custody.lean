import Colock.Lib.Custody
import Colock.RawMutex.HeldWaker

/-! The wakers of `RawMutex` in custody: every waker that is queued is called once, in the order
of arrival, unless its owner takes it out of the queue, and until then it is in the queue or in
the hands of the party that popped it. This holds whatever is called, with every kind of unlock,
timeouts and dropped futures. -/
namespace Colock.RawMutex
open Transition Custody
variable {P : Type*} [DecidableEq P]

/-- What happened to the entries so far, newest first; a withdrawn one with the party that took
it out. `pending p` is the waker of the poll that returned `Pending` to `p` last, until `p` polls
again or is dropped. -/
structure Calls (P : Type*) where
  pushed : List (Entry P)
  called : List (Entry P)
  withdrawn : List (P × Entry P)
  pending : P → Option Nat

def noCalls : Calls P := ⟨[], [], [], fun _ => none⟩

def noteCalls (s : State P) : P × Act → Calls P → Calls P
  | (p, .next), h =>
    match s.pc p with
    | .pushHead c =>
      match s.node p with
      | some i => { h with pushed := ⟨i, p, c.waker p i⟩ :: h.pushed }
      | none => h
    | .removeNode _ =>
      { h with
        withdrawn := (s.queue.filter fun e => s.node p == some e.id).map (Prod.mk p) ++ h.withdrawn }
    | .wake _ e _ => { h with called := e :: h.called }
    | .unlockQueue (.pushed (.poll cx)) =>
      { h with pending := Function.update h.pending p (some cx) }
    | _ => h
  | (p, .start _), h | (p, .dropFuture), h =>
    { h with pending := Function.update h.pending p none }
  | _, h => h

def State.carried (s : State P) : List (Entry P) :=
  match s.qlock with
  | some q => (s.pc q).carries.toList
  | none => []

def State.items (s : State P) (h : Calls P) : Items (Entry P) :=
  ⟨h.pushed, s.queue, s.carried, h.called, h.withdrawn.map Prod.snd⟩

section carried
variable {P : Type*} {s t : State P}

theorem WellFormed.carried_some (hs : WellFormed s) {q : P} {e : Entry P}
    (h : (s.pc q).carries = some e) : s.carried = [e] := by
  have hq : s.qlock = some q := hs.locked (inSection_of_carries h)
  simp [State.carried, hq, h]

theorem carried_none (h : ∀ q, (s.pc q).carries = none) : s.carried = [] := by
  unfold State.carried
  split
  · simp [h]
  · rfl

theorem WellFormed.carried_eq (hs : WellFormed s) (ht : WellFormed t)
    (h : ∀ q, (t.pc q).carries = (s.pc q).carries) : t.carried = s.carried := by
  by_cases hnone : ∀ q, (s.pc q).carries = none
  · rw [carried_none hnone, carried_none fun q => (h q).trans (hnone q)]
  · obtain ⟨q, hq⟩ := not_forall.mp hnone
    obtain ⟨e, he⟩ := Option.ne_none_iff_exists'.mp hq
    rw [hs.carried_some he, ht.carried_some ((h q).trans he)]

theorem WellFormed.empty_handed (hs : WellFormed s) {p q : P} (hin : (s.pc p).inSection = true)
    (hq : q ≠ p) : (s.pc q).carries = none := by
  by_contra hne
  obtain ⟨e, he⟩ := Option.ne_none_iff_exists'.mp hne
  have hboth := (hs.locked (inSection_of_carries he)).symm.trans (hs.locked hin)
  exact hq (Option.some.inj hboth)

end carried

theorem carries_others {s t : State P} {p : P} {a : Act} (h : step s (p, a) = some t)
    (hp : (t.pc p).carries = (s.pc p).carries) (q : P) :
    (t.pc q).carries = (s.pc q).carries := by
  by_cases hq : q = p
  · exact hq ▸ hp
  · rw [step_others h hq]

omit [DecidableEq P] in
theorem Flow.hands {w : Word} {a : Act} {c d : Pc P} (h : Flow w a c d)
    (hpop : ∀ r, c ≠ .popTail r) (hwake : ∀ r e n, c ≠ .wake r e n) : d.carries = c.carries := by
  cases h with
  | dropOff k | dropped k =>
    cases k with
    | future held => cases held <;> rfl
    | _ => rfl
  | fetchAlone r | released r => cases r <;> rfl
  | popNone r | popTail r => exact absurd rfl (hpop r)
  | fairNone | fairTail => exact absurd rfl (hpop _)
  | wakeLast r _ e => exact absurd rfl (hwake r e 0)
  | wake r e n => exact absurd rfl (hwake r e n)
  | _ => rfl

theorem items_quiet {s t : State P} {p : P} {a : Act} (h h' : Calls P) (hs : WellFormed s)
    (hstep : step s (p, a) = some t) (hqueue : t.queue = s.queue)
    (hcarries : (t.pc p).carries = (s.pc p).carries) (hpushed : h'.pushed = h.pushed)
    (hcalled : h'.called = h.called) (hwithdrawn : h'.withdrawn = h.withdrawn) :
    Moves (s.items h) (t.items h') := by
  have hcarried : t.carried = s.carried :=
    hs.carried_eq (step_wellFormed hs hstep) (carries_others hstep hcarries)
  have hsame : t.items h' = s.items h := by
    simp [State.items, hqueue, hcarried, hpushed, hcalled, hwithdrawn]
  exact hsame ▸ .quiet

theorem step_moves {s t : State P} {l : P × Act} (hs : WellFormed s) (h : Calls P)
    (hstep : step s l = some t) : Moves (s.items h) (t.items (noteCalls s l h)) := by
  obtain ⟨p, a⟩ := l
  have ht := step_wellFormed hs hstep
  have quiet := items_quiet h (noteCalls s (p, a) h) hs hstep
  have hands : (∀ r, s.pc p ≠ .popTail r) → (∀ r e n, s.pc p ≠ .wake r e n) →
      (t.pc p).carries = (s.pc p).carries := (step_flow hstep).hands
  cases step_cases hstep with
  | pushHead c i hpc hnode =>
    have hcarried := hs.carried_eq ht (carries_others hstep (by simp [hpc, Pc.carries]))
    simp only [State.items, noteCalls, hpc, hnode, hcarried]
    exact .push _
  | removeNode k hpc =>
    have hcarried := hs.carried_eq ht (carries_others hstep (by simp [hpc, Pc.carries]))
    have hmove := Moves.withdraw (c := s.items h) fun e => s.node p == some e.id
    simp only [State.items, noteCalls, hpc, hcarried]
    simpa [State.items, State.remove, bne, Function.comp_def] using hmove
  | popTail r e hpc he =>
    have hin : (s.pc p).inSection = true := by rw [hpc]; rfl
    have hbefore : s.carried = [] := carried_none fun q => by
      by_cases hq : q = p
      · simp [hq, hpc, Pc.carries]
      · exact hs.empty_handed hin hq
    have hafter := ht.carried_some (q := p) (e := e) (by
      simp only [goto_fields, Function.update_self]; split <;> rfl)
    simp only [State.items, noteCalls, hpc, hbefore, hafter]
    exact .pop e he
  | wake r e n hpc =>
    have hbefore : s.carried = [e] := hs.carried_some (q := p) (by rw [hpc]; rfl)
    have hin : (s.pc p).inSection = true := by rw [hpc]; rfl
    have hafter : ((s.signal e).goto p (if r ≠ .unlockFair ∧ n = 0 then .clearWait r
        else .unlockQueue (.released r))).carried = [] := carried_none fun q => by
      by_cases hq : q = p
      · subst q
        simp only [goto_fields, Function.update_self]
        split <;> rfl
      · simpa [hq] using hs.empty_handed hin hq
    simp only [State.items, noteCalls, hpc, hbefore, hafter]
    have hmove := Moves.deliver (c := s.items h) e (by simp [State.items, hbefore])
    simpa [State.items, hbefore] using hmove
  | casTaken _ _ hpc | casFailed c _ hpc | casRetry _ _ hpc | loadState _ hpc | sleepMark _ _ hpc
  | sleepReload _ _ hpc | sleepTaken _ _ hpc | fairSeen _ hpc | fairUnseen _ hpc | fairClear hpc
  | bumpLoad hpc | fetchUnlock r hpc | mark _ _ hpc | onEmpty hpc | clearWait _ hpc
  | prepare _ hpc | lockPush _ hpc | park _ _ hpc | dropLinked _ hpc | lockDrop _ hpc
  | lockPop _ hpc | dropOff k hpc =>
    have hnote : noteCalls s (p, .next) h = h := by simp [noteCalls, hpc]
    exact quiet (by simp) (hands (by simp [hpc]) (by simp [hpc])) (by rw [hnote]) (by rw [hnote])
      (by rw [hnote])
  | popNone r hpc =>
    have hnote : noteCalls s (p, .next) h = h := by simp [noteCalls, hpc]
    refine quiet (by simp) ?_ (by rw [hnote]) (by rw [hnote]) (by rw [hnote])
    simp only [goto_fields, Function.update_self, hpc]
    split <;> rfl
  | start c hpc | release r hpc | timeout hpc =>
    exact quiet rfl (hands (by simp [hpc]) (by simp [hpc])) rfl rfl rfl
  | dropFuture held hpc =>
    have hout : s.pc p = .holding ∨ s.pc p = .idle := by cases held <;> simp [hpc]
    exact quiet rfl (hands (by rcases hout with h | h <;> simp [h])
      (by rcases hout with h | h <;> simp [h])) rfl rfl rfl
  | unlockQueue c hpc =>
    have hnote : (noteCalls s (p, .next) h).pushed = h.pushed ∧
        (noteCalls s (p, .next) h).called = h.called ∧
        (noteCalls s (p, .next) h).withdrawn = h.withdrawn := by
      simp only [noteCalls, hpc]
      split <;> simp_all
    exact quiet (by simp) (hands (by simp [hpc]) (by simp [hpc])) hnote.1 hnote.2.1 hnote.2.2

/-- The party waits: the call `c` has queued its node and has not been woken. -/
def Awaits (s : State P) (h : Calls P) (p : P) : Call → Prop
  | .tryLock => False
  | .lockInner timed => s.pc p = .unlockQueue (.pushed (.lockInner timed)) ∨ s.pc p = .park timed
  | .poll cx => s.pc p = .unlockQueue (.pushed (.poll cx)) ∨ h.pending p = some cx

structure Accounted (x : State P × Calls P) : Prop extends WellFormed x.1, Kept (x.1.items x.2) where
  used : ∀ e ∈ x.2.pushed, e.id < x.1.fresh
  parker : ∀ e ∈ x.2.pushed, ∀ i, e.data.parker = some i → e.id = i
  ids : (x.2.pushed.map Entry.id).Nodup
  unpushed : ∀ p i, (x.1.pc p).slot = .fresh → x.1.node p = some i → ∀ e ∈ x.2.pushed, e.id ≠ i
  own : ∀ y ∈ x.2.withdrawn, y.2.owner = y.1
  gone : ∀ y ∈ x.2.withdrawn, x.1.node y.1 = some y.2.id →
    ∃ k, x.1.pc y.1 = .unlockQueue (.dropped k)
  signalled : ∀ e ∈ x.2.called, ∀ i, e.data.parker = some i → x.1.flag i = true
  idle : ∀ p cx, x.2.pending p = some cx → x.1.pc p = .idle
  awaits : ∀ p c, Awaits x.1 x.2 p c → ∃ i, x.1.node p = some i ∧ ⟨i, p, c.waker p i⟩ ∈ x.2.pushed

theorem noteCalls_pushed {s t : State P} {p : P} {a : Act} (h : Calls P)
    (hstep : step s (p, a) = some t) :
    (∀ c, s.pc p ≠ .pushHead c) ∧ (noteCalls s (p, a) h).pushed = h.pushed ∨
      ∃ c i, s.pc p = .pushHead c ∧ s.node p = some i ∧
        (noteCalls s (p, a) h).pushed = ⟨i, p, c.waker p i⟩ :: h.pushed := by
  by_cases hc : ∃ c, s.pc p = .pushHead c
  · obtain ⟨c, hpc⟩ := hc
    obtain ⟨i, hi, -⟩ := step_pushHead hpc hstep
    cases a with
    | next => exact .inr ⟨c, i, hpc, hi, by simp [noteCalls, hpc, hi]⟩
    | _ => simp [step, hpc] at hstep
  · have hc : ∀ c, s.pc p ≠ .pushHead c := by simpa using hc
    refine .inl ⟨hc, ?_⟩
    cases a with
    | next =>
      simp only [noteCalls]
      split <;> simp_all
    | _ => rfl

theorem noteCalls_called {s t : State P} {p : P} {a : Act} (h : Calls P)
    (hstep : step s (p, a) = some t) {e : Entry P} (he : e ∈ (noteCalls s (p, a) h).called) :
    e ∈ h.called ∨ ∃ r n, s.pc p = .wake r e n ∧ ∀ i, e.data.parker = some i → t.flag i = true := by
  cases a with
  | next =>
    cases hpc : s.pc p with
    | wake r x n =>
      rcases List.mem_cons.mp (by simpa [noteCalls, hpc] using he) with rfl | he
      · refine .inr ⟨r, n, rfl, fun i hi => ?_⟩
        simp only [step, hpc, atomic, queueStep, Option.some.injEq] at hstep
        subst t
        simp [State.signal, hi]
      · exact .inl he
    | unlockQueue a =>
      refine .inl ?_
      simp only [noteCalls, hpc] at he
      split at he <;> simp_all
    | pushHead c =>
      obtain ⟨i, hi, -⟩ := step_pushHead hpc hstep
      exact .inl (by simpa [noteCalls, hpc, hi] using he)
    | _ => exact .inl (by simpa [noteCalls, hpc] using he)
  | _ => exact .inl he

theorem noteCalls_withdrawn {s t : State P} {p : P} {a : Act} (h : Calls P)
    (hstep : step s (p, a) = some t) {y : P × Entry P} (hy : y ∈ (noteCalls s (p, a) h).withdrawn) :
    y ∈ h.withdrawn ∨ y.1 = p ∧ y.2 ∈ s.queue ∧ s.node p = some y.2.id ∧
      ∃ k, s.pc p = .removeNode k ∧ t.pc p = .unlockQueue (.dropped k) := by
  cases a with
  | next =>
    cases hpc : s.pc p with
    | removeNode k =>
      simp only [step, hpc, atomic, queueStep, Option.some.injEq] at hstep
      subst t
      simp only [noteCalls, hpc, List.mem_append, List.mem_map, List.mem_filter, beq_iff_eq] at hy
      rcases hy with ⟨e, ⟨he, hn⟩, rfl⟩ | hy
      · exact .inr ⟨rfl, he, hn, k, rfl, by simp⟩
      · exact .inl hy
    | unlockQueue a =>
      refine .inl ?_
      simp only [noteCalls, hpc] at hy
      split at hy <;> simp_all
    | pushHead c =>
      obtain ⟨i, hi, -⟩ := step_pushHead hpc hstep
      exact .inl (by simpa [noteCalls, hpc, hi] using hy)
    | _ => exact .inl (by simpa [noteCalls, hpc] using hy)
  | _ => exact .inl hy

theorem noteCalls_pending {s t : State P} {p q : P} {a : Act} {cx : Nat} (h : Calls P)
    (hstep : step s (p, a) = some t) (hidle : ∀ cx, h.pending p = some cx → s.pc p = .idle)
    (hq : (noteCalls s (p, a) h).pending q = some cx) :
    h.pending q = some cx ∧ q ≠ p ∨
      q = p ∧ s.pc p = .unlockQueue (.pushed (.poll cx)) ∧ t.pc p = .idle := by
  have cleared : Function.update h.pending p none q = some cx → h.pending q = some cx ∧ q ≠ p := by
    rw [Function.update_apply]
    split
    · simp
    · next hne => exact fun h => ⟨h, hne⟩
  have kept : s.pc p ≠ .idle → h.pending q = some cx → h.pending q = some cx ∧ q ≠ p := by
    rintro hpc hpend
    refine ⟨hpend, ?_⟩
    rintro rfl
    exact hpc (hidle cx hpend)
  cases a with
  | start c | dropFuture => exact .inl (cleared hq)
  | release r | timeout =>
    cases step_cases hstep
    exact .inl (kept (by simp [*]) hq)
  | next =>
    cases hpc : s.pc p with
    | idle => simp [step, hpc, atomic, queueStep] at hstep
    | pushHead c =>
      obtain ⟨i, hi, -⟩ := step_pushHead hpc hstep
      exact .inl (kept (by simp [hpc]) (by simpa [noteCalls, hpc, hi] using hq))
    | unlockQueue b =>
      by_cases hb : ∃ cx, b = .pushed (.poll cx)
      · obtain ⟨cy, rfl⟩ := hb
        simp only [step, hpc, atomic, queueStep, Option.some.injEq] at hstep
        subst t
        simp only [noteCalls, hpc, Function.update_apply] at hq
        split at hq
        · next hqp =>
          cases hq
          exact .inr ⟨hqp, rfl, by simp [State.release]⟩
        · next hqp => exact .inl ⟨hq, hqp⟩
      · refine .inl (kept (by simp [hpc]) ?_)
        simp only [noteCalls, hpc] at hq
        split at hq <;> simp_all
    | _ => exact .inl (kept (by simp [hpc]) (by simpa [noteCalls, hpc] using hq))

omit [DecidableEq P] in
theorem Flow.waits {w : Word} {a : Act} {c d : Pc P} (h : Flow w a c d) :
    (∀ call, d = .unlockQueue (.pushed call) → c = .pushHead call) ∧
      ∀ timed, d = .park timed → c = .unlockQueue (.pushed (.lockInner timed)) := by
  cases h with
  | dropOff k | dropped k =>
    cases k with
    | future held => cases held <;> simp [Leave.next]
    | _ => simp [Leave.next]
  | fetchAlone r | released r => cases r <;> simp [afterRelease]
  | _ => simp

theorem step_pushed_node {s t : State P} {p : P} {a : Act} {c : Call}
    (hpc : s.pc p = .unlockQueue (.pushed c)) (h : step s (p, a) = some t) : t.node = s.node := by
  cases step_cases h with
  | unlockQueue b hb =>
    obtain rfl : b = .pushed c := by simpa [hpc] using hb.symm
    cases c <;> simp [State.release]
  | dropFuture held hb => cases held <;> simp [hpc] at hb
  | _ => simp_all

theorem awaits_step {s t : State P} {p q : P} {a : Act} {c : Call} {h : Calls P}
    (hstep : step s (p, a) = some t) (hidle : ∀ cx, h.pending p = some cx → s.pc p = .idle)
    (hq : Awaits t (noteCalls s (p, a) h) q c) :
    Awaits s h q c ∧ t.node q = s.node q ∨ q = p ∧ s.pc p = .pushHead c ∧ t.node q = s.node q := by
  have hnodes := step_nodes hstep
  have pushed : ∀ c, t.pc q = .unlockQueue (.pushed c) →
      s.pc q = .unlockQueue (.pushed c) ∧ q ≠ p ∨ q = p ∧ s.pc p = .pushHead c := by
    intro c hc
    by_cases hqp : q = p
    · subst q
      exact .inr ⟨rfl, (step_flow hstep).waits.1 c hc⟩
    · exact .inl ⟨by rw [← step_others hstep hqp, hc], hqp⟩
  have pushing : ∀ c, q = p → s.pc p = .pushHead c → t.node q = s.node q := by
    rintro c rfl hpc
    obtain ⟨i, -, rfl⟩ := step_pushHead hpc hstep
    simp
  cases c with
  | tryLock => exact hq.elim
  | lockInner timed =>
    rcases hq with hq | hq
    · rcases pushed _ hq with ⟨hold, hqp⟩ | ⟨hqp, hpc⟩
      · exact .inl ⟨.inl hold, hnodes.others hqp⟩
      · exact .inr ⟨hqp, hpc, pushing _ hqp hpc⟩
    · by_cases hqp : q = p
      · subst q
        have hpc := (step_flow hstep).waits.2 timed hq
        exact .inl ⟨.inl hpc, by rw [step_pushed_node hpc hstep]⟩
      · exact .inl ⟨.inr (by rw [← step_others hstep hqp, hq]), hnodes.others hqp⟩
  | poll cx =>
    rcases hq with hq | hq
    · rcases pushed _ hq with ⟨hold, hqp⟩ | ⟨hqp, hpc⟩
      · exact .inl ⟨.inl hold, hnodes.others hqp⟩
      · exact .inr ⟨hqp, hpc, pushing _ hqp hpc⟩
    · rcases noteCalls_pending h hstep hidle hq with ⟨hold, hqp⟩ | ⟨hqp, hpc, -⟩
      · exact .inl ⟨.inr hold, hnodes.others hqp⟩
      · subst q
        exact .inl ⟨.inl hpc, by rw [step_pushed_node hpc hstep]⟩

def Pc.renews : Pc P → Bool
  | .prepare _ | .dropNode (.renew _) | .unlockQueue (.dropped (.renew _)) => true
  | _ => false

omit [DecidableEq P] in
theorem Flow.fresh {w : Word} {a : Act} {c d : Pc P} (h : Flow w a c d) (hd : d.slot = .fresh) :
    c.slot = .fresh ∧ (∀ call, c ≠ .pushHead call) ∨ c.renews = true := by
  cases h with
  | dropOff k | dropped k =>
    cases k with
    | future held => cases held <;> simp [Leave.next, Pc.slot] at hd
    | renew cx => exact .inr rfl
    | _ => simp [Leave.next, Pc.slot] at hd
  | fetchAlone r | released r => cases r <;> simp [afterRelease, Pc.slot] at hd
  | pushHead c => cases c <;> simp [Pc.slot, Call.queued] at hd
  | dropLinked k | lockDrop k => cases k <;> simp [Pc.slot, Leave.slot] at hd
  | popTail r | popNone r | lockPop r | wakeLast r | wake r | clearWait r | fetchWaiting r =>
    cases r <;> simp [Pc.slot, Release.slot] at hd
  | start c | casRetry c => cases c <;> simp [Pc.slot] at hd
  | sleepTaken c => cases c <;> simp [Pc.slot, Call.aborted] at hd
  | _ => simp_all [Pc.slot, Release.slot, Leave.slot, Pc.renews]

theorem step_renews {s t : State P} {p : P} {a : Act} (hr : (s.pc p).renews = true)
    (hstep : step s (p, a) = some t) (hslot : (t.pc p).slot = .fresh) :
    t.node p = some s.fresh := by
  cases step_cases hstep with
  | prepare timed => simp [State.newNode]
  | dropOff k hpc =>
    cases k with
    | renew cx => simp [State.finish, State.newNode]
    | _ => simp [hpc, Pc.renews] at hr
  | unlockQueue b hpc =>
    cases b with
    | dropped k =>
      cases k with
      | renew cx => simp [State.release, State.finish, State.newNode]
      | _ => simp [hpc, Pc.renews] at hr
    | _ => simp [hpc, Pc.renews] at hr
  | dropLinked k hpc => cases k <;> simp [Pc.slot, Leave.slot] at hslot
  | dropFuture held hpc => cases held <;> simp [hpc, Pc.renews] at hr
  | _ => simp_all [Pc.renews]

theorem step_unpushed {s t : State P} {p q : P} {a : Act} {i : Nat}
    (hstep : step s (p, a) = some t) (hq : (t.pc q).slot = .fresh) (hi : t.node q = some i)
    (hlt : i < s.fresh) :
    (s.pc q).slot = .fresh ∧ s.node q = some i ∧ (q = p → ∀ c, s.pc p ≠ .pushHead c) := by
  have hold := (step_nodes hstep).old hlt hi
  by_cases hqp : q = p
  · subst q
    rcases (step_flow hstep).fresh hq with ⟨hslot, hpush⟩ | hr
    · exact ⟨hslot, hold, fun _ => hpush⟩
    · have hnew := step_renews hr hstep hq
      rw [hi, Option.some.injEq] at hnew
      omega
  · exact ⟨by rw [← step_others hstep hqp, hq], hold, fun h => absurd h hqp⟩

omit [DecidableEq P] in
theorem WellFormed.pushHead_fresh {s : State P} {p : P} {c : Call} (hs : WellFormed s)
    (hpc : s.pc p = .pushHead c) : (s.pc p).slot = .fresh := by
  have hslot := (hs.fits p).slot
  rw [hpc] at hslot ⊢
  cases c with
  | tryLock => exact hslot.elim
  | lockInner timed | poll cx => rfl

theorem step_dropped {s t : State P} {p : P} {a : Act} {k : Leave} {i : Nat} (hi : i < s.fresh)
    (hpc : s.pc p = .unlockQueue (.dropped k)) (hstep : step s (p, a) = some t) :
    t.node p ≠ some i := by
  cases step_cases hstep with
  | unlockQueue b hb =>
    obtain rfl : b = .dropped k := by simpa [hpc] using hb.symm
    cases k with
    | renew cx =>
      simp only [State.release, State.finish, State.newNode, goto_fields, Function.update_self,
        ne_eq, Option.some.injEq]
      omega
    | _ => simp [State.release, State.finish, State.freeNode]
  | dropFuture held hb => cases held <;> simp [hpc] at hb
  | _ => simp_all

theorem step_accounted {x y : State P × Calls P} {l : P × Act} (hx : Accounted x)
    (h : recorded step noteCalls x l = some y) : Accounted y := by
  obtain ⟨s, h0⟩ := x
  obtain ⟨t, h1⟩ := y
  obtain ⟨hstep, heq⟩ := recorded_eq h
  obtain ⟨p, a⟩ := l
  replace hstep : step s (p, a) = some t := hstep
  obtain rfl : h1 = noteCalls s (p, a) h0 := heq
  have hs : WellFormed s := hx.toWellFormed
  have hnodes := step_nodes hstep
  have hpushed := noteCalls_pushed h0 hstep
  have hkept : Kept (t.items (noteCalls s (p, a) h0)) := (step_moves hs h0 hstep).kept hx.toKept
  -- an entry of the history is an old one, or the one that `p` links now
  have pushed : ∀ e ∈ (noteCalls s (p, a) h0).pushed, e ∈ h0.pushed ∨
      ∃ c, s.pc p = .pushHead c ∧ s.node p = some e.id ∧ e = ⟨e.id, p, c.waker p e.id⟩ := by
    intro e he
    rcases hpushed with ⟨-, hsame⟩ | ⟨c, i, hpc, hi, hnew⟩
    · exact .inl (hsame ▸ he)
    · rcases List.mem_cons.mp (hnew ▸ he) with rfl | he
      · exact .inr ⟨c, hpc, hi, rfl⟩
      · exact .inl he
  have kept : ∀ e ∈ h0.pushed, e ∈ (noteCalls s (p, a) h0).pushed := by
    intro e he
    rcases hpushed with ⟨-, hsame⟩ | ⟨c, i, -, -, hnew⟩
    · exact hsame ▸ he
    · exact hnew ▸ List.mem_cons_of_mem _ he
  have placed : ∀ e, e ∈ s.queue ∨ e ∈ s.carried ∨ e ∈ h0.called ∨
      e ∈ h0.withdrawn.map Prod.snd → e ∈ h0.pushed := by
    intro e he
    refine hx.places.symm.subset ?_
    simpa [Items.inOrder, State.items, or_assoc] using he
  refine ⟨step_wellFormed hs hstep, hkept, ?_, ?_, ?_, ?_, ?_, ?_, ?_, ?_, ?_⟩
  · intro e he
    refine lt_of_lt_of_le ?_ hnodes.fresh_le
    rcases pushed e he with he | ⟨c, -, hi, -⟩
    · exact hx.used e he
    · exact hs.node_lt p e.id hi
  · intro e he i hi
    rcases pushed e he with he | ⟨c, -, -, heq⟩
    · exact hx.parker e he i hi
    · have hdata : e.data = c.waker p e.id := congrArg Entry.data heq
      rw [hdata] at hi
      cases c with
      | poll cx => cases hi
      | tryLock | lockInner timed => exact Option.some.inj hi
  · rcases hpushed with ⟨-, hsame⟩ | ⟨c, i, hpc, hi, hnew⟩
    · exact hsame ▸ hx.ids
    · rw [hnew, List.map_cons, List.nodup_cons, List.mem_map]
      refine ⟨?_, hx.ids⟩
      rintro ⟨e, he, heq⟩
      exact hx.unpushed p i (hs.pushHead_fresh hpc) hi e he heq
  · rintro q i hq hi e he rfl
    rcases pushed e he with he | ⟨c, hpc, hn, -⟩
    · obtain ⟨hslot, hold, -⟩ := step_unpushed hstep hq hi (hx.used e he)
      exact hx.unpushed q e.id hslot hold e he rfl
    · obtain ⟨-, hold, hpush⟩ := step_unpushed hstep hq hi (hs.node_lt p e.id hn)
      exact hpush (hs.node_inj q p e.id hold hn) c hpc
  · intro y hy
    rcases noteCalls_withdrawn h0 hstep hy with hy | ⟨rfl, hqueue, hn, -⟩
    · exact hx.own y hy
    · exact hs.node_inj _ _ y.2.id (hs.linked y.2 hqueue) hn
  · intro y hy hn
    rcases noteCalls_withdrawn h0 hstep hy with hy | ⟨rfl, -, -, k, -, hpc⟩
    · have hlt := hx.used y.2 (placed _ (.inr (.inr (.inr (List.mem_map_of_mem hy)))))
      obtain ⟨k, hk⟩ := hx.gone y hy (hnodes.old hlt hn)
      by_cases hyp : y.1 = p
      · exact absurd (hyp ▸ hn) (step_dropped hlt (hyp ▸ hk) hstep)
      · exact ⟨k, (step_others hstep hyp).trans hk⟩
    · exact ⟨k, hpc⟩
  · intro e he i hi
    rcases noteCalls_called h0 hstep he with he | ⟨r, n, -, hflag⟩
    · have hmem := placed e (.inr (.inr (.inl he)))
      have hlt : i < s.fresh := hx.parker e hmem i hi ▸ hx.used e hmem
      exact hnodes.flag_stays hlt (hx.signalled e he i hi)
    · exact hflag i hi
  · intro q cx hq
    rcases noteCalls_pending h0 hstep (hx.idle p) hq with ⟨hold, hqp⟩ | ⟨rfl, -, hidle⟩
    · exact (step_others hstep hqp).trans (hx.idle q cx hold)
    · exact hidle
  · intro q c hq
    rcases awaits_step hstep (hx.idle p) hq with ⟨hbefore, hnode⟩ | ⟨rfl, hpc, hnode⟩
    · obtain ⟨i, hi, hmem⟩ := hx.awaits q c hbefore
      exact ⟨i, hnode.trans hi, kept _ hmem⟩
    · obtain ⟨c', i, hpc', hi, hnew⟩ := hpushed.resolve_left fun h => h.1 c hpc
      obtain rfl : c' = c := by simpa [hpc] using hpc'.symm
      exact ⟨i, hnode.trans hi, by simp [hnew]⟩

omit [DecidableEq P] in
theorem accounted_init : Accounted ((init, noCalls) : State P × Calls P) := by
  refine ⟨wellFormed_init, kept_nothing, ?_, ?_, ?_, ?_, ?_, ?_, ?_, ?_, ?_⟩ <;>
    simp [init, noCalls, Pc.slot]
  rintro p (_ | _ | _) h <;> simp [Awaits] at h

theorem reach_accounted {x : State P × Calls P}
    (h : Reach (recorded step noteCalls) anyStep (init, noCalls) x) : Accounted x :=
  h.invariant accounted_init fun _ _ _ hx _ h => step_accounted hx h

/-- Every entry that was ever queued is still in the queue, in its popper's hands, called, or
taken out by its owner, and is only one of these. The wakers are called in the order in which
their nodes were queued, and when a waker is called, so are those queued before it, unless they
were taken out. -/
structure FirstCome (s : State P) (h : Calls P) : Prop where
  ids : (h.pushed.map Entry.id).Nodup
  places : h.pushed.Perm (s.queue ++ s.carried ++ h.called ++ h.withdrawn.map Prod.snd)
  order : (s.queue ++ s.carried ++ h.called).Sublist h.pushed
  served : ∀ e d, [e, d].Sublist h.pushed → e ∈ h.called → d ∈ h.called ∨ (d.owner, d) ∈ h.withdrawn

/-- In every run, whatever is called, no wake-up overtakes an earlier one, and none is made twice
or forgotten; an operation on the queue is one step, also for a `Node::drop` that comes meanwhile. -/
theorem wakers_first_come (s : State P) (h : Calls P)
    (hr : Reach (recorded step noteCalls) anyStep (init, noCalls) (s, h)) : FirstCome s h := by
  have hx := reach_accounted hr
  refine ⟨hx.ids, hx.places, hx.order, fun e d hafter he => ?_⟩
  refine (hx.toKept.no_overtaking (List.Nodup.of_map _ hx.ids) hafter he).imp_right fun hd => ?_
  obtain ⟨y, hy, rfl⟩ := List.mem_map.mp hd
  rw [hx.own y hy]
  exact hy

def wakeFirst (p q r : P) : List (P × Act) :=
  (p, .start (.lockInner false)) :: nexts p 1 ++ (q, .start (.lockInner false)) :: nexts q 8 ++
    (r, .start (.poll 7)) :: nexts r 6 ++ (p, .release .unlock) :: nexts p 4

theorem wakers_first_come_unlock : ∃ (s : State (Fin 3)) (h : Calls (Fin 3)),
    h.called.map Entry.owner = [1] ∧ s.queue.map Entry.owner = [2] ∧ FirstCome s h := by
  have hr : ((run (recorded step noteCalls) (init, noCalls)
      (wakeFirst (0 : Fin 3) 1 2)).map fun x =>
      (x.2.called.map Entry.owner, x.1.queue.map Entry.owner)) = some ([1], [2]) := by decide
  obtain ⟨x, hx, ho⟩ := Option.map_eq_some_iff.mp hr
  obtain ⟨s, h⟩ := x
  simp only [Prod.mk.injEq] at ho
  exact ⟨s, h, ho.1, ho.2, wakers_first_come s h (run_reach (meets_any _ _) hx)⟩

/-! ### Nobody forgotten -/

section places
variable {x : State P × Calls P}

omit [DecidableEq P] in
theorem Accounted.stays (hx : Accounted x) {e : Entry P} (he : e ∈ x.2.pushed)
    (hnode : x.1.node e.owner = some e.id)
    (hpc : ∀ k, x.1.pc e.owner ≠ .unlockQueue (.dropped k)) :
    e ∈ x.1.queue ++ x.1.carried ++ x.2.called := by
  refine (List.mem_append.mp (hx.places.subset he)).resolve_right fun hgone => ?_
  obtain ⟨y, hy, rfl⟩ := List.mem_map.mp hgone
  rw [hx.own y hy] at hnode hpc
  obtain ⟨k, hk⟩ := hx.gone y hy hnode
  exact hpc k hk

omit [DecidableEq P] in
theorem Accounted.parked (hx : Accounted x) {p : P} {timed : Bool} (hpc : x.1.pc p = .park timed) :
    ∃ i, x.1.node p = some i ∧
      (x.1.flag i = false → ⟨i, p, ⟨some i, .thread p⟩⟩ ∈ x.1.queue ++ x.1.carried) := by
  obtain ⟨i, hi, hmem⟩ := hx.awaits p (.lockInner timed) (.inr hpc)
  refine ⟨i, hi, fun hflag => ?_⟩
  have hplaced := hx.stays hmem hi (by simp [hpc])
  refine (List.mem_append.mp hplaced).resolve_right fun hcalled => ?_
  have hset : x.1.flag i = true := hx.signalled _ hcalled i rfl
  simp [hset] at hflag

omit [DecidableEq P] in
theorem Accounted.asleep_task (hx : Accounted x) {p : P} {cx : Nat} (h : x.2.pending p = some cx) :
    ∃ i, x.1.node p = some i ∧
      ⟨i, p, ⟨none, .task cx⟩⟩ ∈ x.1.queue ++ x.1.carried ++ x.2.called := by
  obtain ⟨i, hi, hmem⟩ := hx.awaits p (.poll cx) (.inr h)
  have hidle : x.1.pc p = .idle := hx.idle p cx h
  exact ⟨i, hi, hx.stays hmem hi (by simp [hidle])⟩

end places

/-- A thread asleep in `lock` is in the queue, or the party that popped it has not called its
waker yet. Of a pending future the waker of its latest poll is there, or it was called. Here too an
operation on the queue is one step. -/
theorem no_waiter_forgotten (s : State P) (h : Calls P)
    (hr : Reach (recorded step noteCalls) anyStep (init, noCalls) (s, h)) :
    (∀ p timed i, s.pc p = .park timed → s.node p = some i → s.flag i = false →
      ⟨i, p, ⟨some i, .thread p⟩⟩ ∈ s.queue ++ s.carried) ∧
    ∀ p cx, h.pending p = some cx →
      ∃ i, s.node p = some i ∧ ⟨i, p, ⟨none, .task cx⟩⟩ ∈ s.queue ++ s.carried ++ h.called := by
  have hx := reach_accounted hr
  refine ⟨fun p timed i hpc hnode hflag => ?_, fun p cx hpend => hx.asleep_task hpend⟩
  obtain ⟨j, hj, hmem⟩ := hx.parked hpc
  obtain rfl : i = j := Option.some.inj (hnode.symm.trans hj)
  exact hmem hflag

theorem no_waiter_forgotten_two : ∃ (s : State (Fin 3)) (h : Calls (Fin 3)),
    s.pc 1 = .park false ∧ h.pending 2 = some 7 ∧ ∃ i, s.node 2 = some i ∧
      ⟨i, 2, ⟨none, .task 7⟩⟩ ∈ s.queue ++ s.carried ++ h.called := by
  have hr : ((run (recorded step noteCalls) (init, noCalls)
      (wakeFirst (0 : Fin 3) 1 2)).map fun x =>
      (x.1.pc 1, x.2.pending 2)) = some (.park false, some 7) := by decide
  obtain ⟨x, hx, ho⟩ := Option.map_eq_some_iff.mp hr
  obtain ⟨s, h⟩ := x
  simp only [Prod.mk.injEq] at ho
  exact ⟨s, h, ho.1, ho.2,
    (no_waiter_forgotten s h (run_reach (meets_any _ _) hx)).2 2 7 ho.2⟩

end Colock.RawMutex
