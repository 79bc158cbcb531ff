import Colock.Mutex.Impl

/-! What a call of the mutex may cost. A call pays for the bit that it sets on the way to sleep, for
the push, the acquisition and the unlock; an unlock pays for the waker that it calls, with the next
try of the party that it wakes. A `compare_exchange` that fails was disturbed by one that
succeeded. -/
namespace Colock.RawMutex
open Transition LockImpl Custody
variable {P : Type*}

def Pc.share (hasNode called : Bool) (w : Word) : Pc P → Nat
  | .idle => if hasNode then if called then 8 else 6 else 0
  | .unlockQueue (.pushed _) | .park _ => if called then 8 else 6
  | .loadState _ | .sleepCas _ _ => if waiting w then 7 else 8
  | .pushHead _ => 7
  | .cas _ _ | .prepare _ | .lockPush _ | .fairLoad _ => 8
  | .dropNode k | .lockDrop k | .removeNode k | .unlockQueue (.dropped k) => if k.owns then 5 else 8
  | .unlockQueue (.aborted _) | .holding | .fetchUnlock _ => 5
  | .lockPop _ | .popTail _ | .wake _ _ _ => 4
  | .clearWait _ => 1
  | _ => 0

def Leave.rank : Leave → Nat
  | .retry _ => 18
  | .renew _ => 11
  | _ => 1

def Pc.rank (hasNode called : Bool) (w : Word) : Pc P → Nat
  | .unlockQueue (.pushed _) => 25
  | .idle | .park _ => if called then 24 else 0
  | .fairLoad _ => 23
  | .dropNode k => k.rank + 4
  | .lockDrop k => k.rank + 3
  | .removeNode k => k.rank + 2
  | .unlockQueue (.dropped k) => k.rank + 1
  | .cas _ expected => if expected = w then 16 else 17
  | .prepare _ => 11
  | .lockPush _ => 10
  | .loadState _ => 9
  | .unlockQueue (.aborted _) => 7
  | .holding => if hasNode then 6 else 0
  | .sleepCas _ current => if current = w then 2 else 3
  | .lockPop _ => 3
  | .popTail _ => 2
  | .pushHead _ | .wake _ _ _ | .clearWait _ | .unlockQueue (.released _) => 1
  | _ => 0

theorem Leave.rank_le (k : Leave) : k.rank ≤ 18 := by
  cases k <;> simp [Leave.rank]

theorem Pc.rank_le (hasNode called : Bool) (w : Word) (c : Pc P) : c.rank hasNode called w ≤ 25 := by
  cases c with
  | dropNode k | lockDrop k | removeNode k =>
    have hk := k.rank_le
    simp only [Pc.rank]
    omega
  | unlockQueue a =>
    cases a with
    | dropped k =>
      have hk := k.rank_le
      simp only [Pc.rank]
      omega
    | _ => simp [Pc.rank]
  | cas _ _ | sleepCas _ _ | idle | park _ | holding => simp only [Pc.rank]; split <;> omega
  | _ => simp [Pc.rank]

theorem Pc.share_word {c : Pc P} {v w : Word} (h : c.deciding = true → waiting v = waiting w)
    (hasNode called : Bool) : c.share hasNode called v = c.share hasNode called w := by
  cases c with
  | loadState _ | sleepCas _ _ => simp [Pc.share, h rfl]
  | unlockQueue a => cases a <;> rfl
  | _ => rfl

theorem Pc.share_called (c : Pc P) (hasNode called called' : Bool) (w : Word) :
    c.share hasNode called' w ≤ c.share hasNode called w + 2 := by
  cases c with
  | idle => cases hasNode <;> cases called <;> cases called' <;> simp [Pc.share]
  | park _ => cases called <;> cases called' <;> simp [Pc.share]
  | unlockQueue a =>
    cases a with
    | pushed c => cases called <;> cases called' <;> simp [Pc.share]
    | _ => simp [Pc.share]
  | _ => simp [Pc.share]

theorem sleepNext_lockedBit (c : Call) : (sleepNext c lockedBit : Pc P) = .sleepCas c lockedBit :=
  rfl

theorem sleepNext_pays (c : Call) (w : Word) (b b' : Bool) :
    (sleepNext c w : Pc P).share b b' w ≤ (if waiting w then 7 else 8) ∧
      (sleepNext c w : Pc P).rank b b' w ≤ 2 := by
  unfold sleepNext
  split
  · next hw => simp [hw, Pc.share, Pc.rank]
  · simp [Pc.share, Pc.rank]

variable [DecidableEq P]

def share (x : State P × Calls P) (p : P) : Nat :=
  (x.1.pc p).share (x.1.node p).isSome (rung x p) x.1.word

def rank (x : State P × Calls P) (p : P) : Nat :=
  (x.1.pc p).rank (x.1.node p).isSome (rung x p) x.1.word

section costs
variable {task : P → Option Nat} {x y : State P × Calls P} {p q : P} {a : Act}

theorem rung_others (hs : step x.1 (p, a) = some y.1) (hq : q ≠ p)
    (hcalled : y.2.called = x.2.called) : rung y q = rung x q := by
  unfold rung
  rw [hcalled, (step_nodes hs).others hq]

theorem step_keeps_wait (hs : step x.1 (p, a) = some y.1)
    (hout : (x.1.pc p).inSection = false) : waiting y.1.word = waiting x.1.word := by
  obtain ⟨t, h'⟩ := y
  replace hs : step x.1 (p, a) = some t := hs
  cases step_cases hs with
  | sleepMark c _ hpc | sleepTaken c _ hpc | mark _ _ hpc | clearWait _ hpc =>
    simp [hpc, Pc.inSection] at hout
  | casTaken c expected hpc hw => simp [hw]
  | _ => simp

theorem InUse.share_others (hx : InUse task x) (hs : step x.1 (p, a) = some y.1) (hq : q ≠ p)
    (hcalled : y.2.called = x.2.called) : share y q = share x q := by
  unfold share
  rw [step_others hs hq, (step_nodes hs).others hq, rung_others hs hq hcalled]
  refine Pc.share_word (fun hdeciding => step_keeps_wait hs ?_) _ _
  by_contra hin
  have hboth := (hx.locked (by simpa using hin)).symm.trans
    (hx.locked (inSection_of_deciding hdeciding))
  exact hq (Option.some.inj hboth).symm

theorem rank_others (hs : step x.1 (p, a) = some y.1) (hq : q ≠ p)
    (hcalled : y.2.called = x.2.called) (hword : y.1.word = x.1.word) : rank y q = rank x q := by
  unfold rank
  rw [step_others hs hq, (step_nodes hs).others hq, rung_others hs hq hcalled, hword]

theorem noteCalls_called_same (s : State P) (h : Calls P) (hwake : ∀ r e n, s.pc p ≠ .wake r e n) :
    (noteCalls s (p, a) h).called = h.called := by
  cases a with
  | next =>
    simp only [noteCalls]
    repeat' split
    all_goals simp_all
  | _ => rfl

omit [DecidableEq P] in
theorem Uses.not_waking [DecidableEq P] {how : Call} {c : Cmd Unit} (hu : Uses how x p c a)
    (hc : ∀ k, c ≠ .inner k) (r : Release) (e : Entry P) (n : Nat) : x.1.pc p ≠ .wake r e n := by
  cases hu with
  | call hpc | release hpc => simp [hpc]
  | poll | dropReady | next => exact absurd rfl (hc ())

omit [DecidableEq P] in
theorem rung_none (hnode : x.1.node p = none) : rung x p = false := by
  simp [rung, hnode]

omit [DecidableEq P] in
theorem InUse.rung_fresh [DecidableEq P] (hx : InUse task x) (hslot : (x.1.pc p).slot = .fresh) :
    rung x p = false := by
  refine List.any_eq_false.mpr fun e he hnode => ?_
  have hpushed : e ∈ x.2.pushed := by
    refine hx.places.symm.subset ?_
    simp [Items.inOrder, State.items, he]
  exact hx.unpushed p e.id hslot (by simpa using hnode) e hpushed rfl

/-- The party spends something, or leaves the word alone and gets on. -/
def Pays (x y : State P × Calls P) (p : P) : Prop :=
  share y p < share x p ∨
    y.1.word = x.1.word ∧ share y p ≤ share x p ∧ rank y p < rank x p

theorem finish_pays {how : Call} (s : State P) (h : Calls P) (p : P) {k : Leave}
    (hk : k.isOf how = true) :
    share (s.finish p k, h) p ≤ (if k.owns then 5 else 8) ∧ rank (s.finish p k, h) p < k.rank + 1 := by
  cases k with
  | timeout => simp [Leave.isOf] at hk
  | future held =>
    obtain rfl : held = true := by
      simp only [Leave.isOf, Bool.and_eq_true] at hk
      exact hk.1
    simp [share, rank, State.finish, State.freeNode, Pc.share, Pc.rank, Leave.owns, Leave.rank]
  | success =>
    simp [share, rank, State.finish, State.freeNode, Pc.share, Pc.rank, Leave.owns, Leave.rank]
  | renew cx => simp [share, rank, State.finish, Pc.share, Pc.rank, Leave.owns, Leave.rank]
  | retry timed =>
    simp only [share, rank, State.finish, goto_fields, Function.update_self, Pc.share, Pc.rank,
      Leave.owns, Leave.rank, Bool.false_eq_true, if_false]
    refine ⟨le_refl 8, ?_⟩
    split <;> omega

theorem InUse.unlockQueue_pays (hx : InUse task x) {b : After} {h' : Calls P}
    (hpc : x.1.pc p = .unlockQueue b) (hcalled : h'.called = x.2.called) :
    Pays x (x.1.release p b, h') p := by
  have hof := hx.isOf p
  have hrung : (x.1.release p b).node = x.1.node → rung (x.1.release p b, h') p = rung x p := by
    intro hnode
    simp only [rung, hnode, hcalled]
  rw [hpc] at hof
  cases b with
  | pushed c =>
    cases c with
    | tryLock => rcases callOf_cases (task p) with h | ⟨cx, h⟩ <;> simp [h, Pc.isOf] at hof
    | lockInner timed =>
      unfold Pays share rank
      rw [hrung rfl, hpc]
      refine .inr ⟨rfl, by simp [State.release, Pc.share], ?_⟩
      simp only [State.release, goto_fields, Function.update_self, Pc.rank]
      split <;> omega
    | poll cx =>
      obtain ⟨i, hi, -⟩ := hx.awaits p (.poll cx) (.inl hpc)
      unfold Pays share rank
      rw [hrung rfl, hpc]
      refine .inr ⟨rfl, by simp [hi, State.release, Pc.share], ?_⟩
      simp only [State.release, goto_fields, Function.update_self, Pc.rank]
      split <;> omega
  | aborted c =>
    cases c with
    | lockInner timed =>
      exact .inr ⟨rfl, by simp [share, hpc, State.release, Pc.share, Leave.owns],
        by simp [rank, hpc, State.release, Pc.rank, Leave.rank]⟩
    | tryLock | poll cx =>
      refine .inr ⟨rfl, by simp [share, hpc, State.release, Pc.share], ?_⟩
      simp only [rank, hpc, State.release, goto_fields, Function.update_self, Pc.rank]
      split <;> omega
  | dropped k =>
    obtain ⟨hshare, hrank⟩ := finish_pays { x.1 with qlock := none } h' p (k := k) hof
    refine .inr ⟨by simp, hshare.trans (by simp [share, hpc, Pc.share]), lt_of_lt_of_le hrank ?_⟩
    simp [rank, hpc, Pc.rank]
  | released r =>
    obtain rfl : r = .unlock := by simpa [Pc.isOf] using hof
    have hnode : x.1.node p = none := hx.bare p (by rw [hpc]; rfl)
    have hquiet : rung (x.1.release p (.released .unlock), h') p = false := rung_none hnode
    unfold Pays share rank
    rw [hquiet, hpc]
    exact .inr ⟨rfl, by simp [hnode, State.release, afterRelease, Pc.share],
      by simp [State.release, afterRelease, Pc.rank]⟩

theorem InUse.next_pays (hx : InUse task x) (hs : step x.1 (p, .next) = some y.1)
    (hnote : y.2 = noteCalls x.1 (p, .next) x.2) (hwake : ∀ r e n, x.1.pc p ≠ .wake r e n) :
    Pays x y p := by
  obtain ⟨t, h'⟩ := y
  replace hs : step x.1 (p, .next) = some t := hs
  obtain rfl : h' = noteCalls x.1 (p, .next) x.2 := hnote
  have hcalled := noteCalls_called_same (a := .next) x.1 x.2 hwake
  generalize noteCalls x.1 (p, .next) x.2 = h' at hcalled
  have hof := hx.isOf p
  have hbare := hx.bare p
  have hrung : t.node = x.1.node → rung (t, h') p = rung x p := by
    intro hnode
    simp only [rung, hnode, hcalled]
  cases step_cases hs with
  | casTaken c expected hpc | clearWait r hpc => exact .inl (by simp [share, hpc, Pc.share])
  | fetchUnlock r hpc =>
    rw [hpc] at hof
    obtain rfl : r = .unlock := by simpa [Pc.isOf] using hof
    have hnode : x.1.node p = none := hbare (by rw [hpc]; rfl)
    refine .inl ?_
    simp only [share, hpc, commit_fields, Function.update_self, hnode]
    split <;> simp [afterRelease, Pc.share]
  | sleepTaken c _ hpc =>
    refine .inl ?_
    simp only [share, hpc, commit_fields, Function.update_self, Pc.share]
    split <;> omega
  | sleepMark c current hpc hl hw =>
    exact .inl (by simp [share, hpc, Pc.share, hw, sleepNext_lockedBit])
  | pushHead c i hpc hi =>
    have hfresh := hx.rung_fresh (hx.pushHead_fresh hpc)
    have hsame : rung ((x.1.push p i c).goto p (.unlockQueue (.pushed c)), h') p = rung x p := hrung rfl
    exact .inl (by simp [share, hpc, Pc.share, hsame, hfresh])
  | popNone r hpc =>
    rw [hpc] at hof
    obtain rfl : r = .unlock := by simpa [Pc.isOf] using hof
    exact .inl (by simp [share, hpc, Pc.share])
  | casFailed c expected hpc =>
    rw [hpc] at hof
    have htried : 16 ≤ if expected = x.1.word then 16 else 17 := by split <;> omega
    cases c with
    | tryLock => rcases callOf_cases (task p) with h | ⟨cx, h⟩ <;> simp [h, Pc.isOf] at hof
    | lockInner timed =>
      refine .inr ⟨rfl, by simp [share, hpc, tryFailed, Pc.share], ?_⟩
      simp only [rank, hpc, commit_fields, Function.update_self, tryFailed, Pc.rank]
      omega
    | poll cx =>
      refine .inr ⟨rfl, by simp [share, hpc, tryFailed, Pc.share, Leave.owns], ?_⟩
      simp only [rank, hpc, commit_fields, Function.update_self, tryFailed, Pc.rank, Leave.rank]
      omega
  | casRetry c expected hpc hw =>
    exact .inr ⟨rfl, by simp [share, hpc, Pc.share], by simp [rank, hpc, Pc.rank, Ne.symm hw]⟩
  | loadState c hpc =>
    obtain ⟨hshare, hrank⟩ := sleepNext_pays (P := P) c x.1.word (x.1.node p).isSome (rung x p)
    refine .inr ⟨rfl, ?_, ?_⟩
    · simpa [share, hpc, hrung, Pc.share] using hshare
    · have hbefore : rank x p = 9 := by simp [rank, hpc, Pc.rank]
      rw [hbefore]
      simp only [rank, commit_fields, Function.update_self, hrung]
      omega
  | sleepReload c current hpc hw =>
    obtain ⟨hshare, hrank⟩ := sleepNext_pays (P := P) c x.1.word (x.1.node p).isSome (rung x p)
    have hstale : current ≠ x.1.word := by
      rintro rfl
      split at hw
      · next hl => exact hw (hx.snapshot p c _ hpc hl)
      · exact hw rfl
    refine .inr ⟨rfl, ?_, ?_⟩
    · simpa [share, hpc, hrung, Pc.share] using hshare
    · have hbefore : rank x p = 3 := by simp [rank, hpc, Pc.rank, hstale]
      rw [hbefore]
      simp only [rank, commit_fields, Function.update_self, hrung]
      omega
  | fairSeen timed hpc hf => simp [hx.fair] at hf
  | fairClear hpc | bumpLoad hpc | mark _ _ hpc | onEmpty hpc => simp [hpc, Pc.isOf] at hof
  | fairUnseen timed hpc =>
    exact .inr ⟨rfl, by simp [share, hpc, Pc.share, Leave.owns],
      by simp [rank, hpc, Pc.rank, Leave.rank]⟩
  | prepare timed hpc =>
    exact .inr ⟨rfl, by simp [share, hpc, Pc.share], by simp [rank, hpc, Pc.rank]⟩
  | lockPush c hpc =>
    refine .inr ⟨rfl, ?_, by simp [rank, hpc, Pc.rank]⟩
    simp only [share, hpc, goto_fields, Function.update_self, Pc.share]
    split <;> omega
  | park timed i hpc hi hflag =>
    obtain ⟨e, he, hid⟩ := hx.rings i hflag
    have hcalled : rung x p = true := List.any_eq_true.mpr ⟨e, he, by simp [hi, hid]⟩
    exact .inr ⟨rfl, by simp [share, hpc, Pc.share, hcalled], by simp [rank, hpc, Pc.rank, hcalled]⟩
  | dropLinked k hpc | lockDrop k hpc | removeNode k hpc =>
    exact .inr ⟨rfl, by simp [share, hpc, Pc.share], by simp [rank, hpc, Pc.rank]⟩
  | dropOff k hpc =>
    rw [hpc] at hof
    obtain ⟨hshare, hrank⟩ := finish_pays x.1 h' p (k := k) hof
    refine .inr ⟨by simp, hshare.trans (by simp [share, hpc, Pc.share]), lt_of_lt_of_le hrank ?_⟩
    simp [rank, hpc, Pc.rank]
  | lockPop r hpc =>
    exact .inr ⟨rfl, by simp [share, hpc, Pc.share], by simp [rank, hpc, Pc.rank]⟩
  | popTail r e hpc =>
    rw [hpc] at hof
    obtain rfl : r = .unlock := by simpa [Pc.isOf] using hof
    exact .inr ⟨rfl, by simp [share, hpc, Pc.share], by simp [rank, hpc, Pc.rank]⟩
  | wake r e n hpc => exact absurd hpc (hwake r e n)
  | unlockQueue b hpc => exact hx.unlockQueue_pays hpc hcalled

theorem InUse.inner_pays (hx : InUse task x) {k : Unit}
    (hu : Uses (callOf (task p)) x p (.inner k) a) (hs : step x.1 (p, a) = some y.1)
    (hnote : y.2 = noteCalls x.1 (p, a) x.2) (hwake : ∀ r e n, x.1.pc p ≠ .wake r e n) :
    Pays x y p := by
  cases hu with
  | next => exact hx.next_pays hs hnote hwake
  | poll hpc hrung =>
    obtain ⟨e, -, he⟩ := List.any_eq_true.mp hrung
    have hnode : x.1.node p = some e.id := by simpa using he
    obtain ⟨t, h'⟩ := y
    replace hs : step x.1 (p, .start (callOf (task p))) = some t := hs
    cases step_cases hs
    refine .inr ⟨rfl, by simp [share, hpc, hnode, hrung, Pc.share], ?_⟩
    simp only [rank, hpc, goto_fields, Function.update_self, Pc.rank, hrung, if_true]
    split <;> omega
  | dropReady hpc hnode =>
    have hsome : (x.1.node p).isSome = true := Option.isSome_iff_ne_none.mpr hnode
    obtain ⟨t, h'⟩ := y
    replace hs : step x.1 (p, .dropFuture) = some t := hs
    cases step_cases hs with
    | dropFuture held hpc' =>
      obtain rfl : held = true := by cases held <;> simp_all
      exact .inr ⟨rfl, by simp [share, hpc, Pc.share, Leave.owns],
        by simp [rank, hpc, hsome, Pc.rank, Leave.rank]⟩

theorem InUse.wake_pays [Fintype P] (hx : InUse task x) {r : Release} {e : Entry P} {n : Nat}
    (hpc : x.1.pc p = .wake r e n) (hs : step x.1 (p, .next) = some y.1)
    (hnote : y.2 = noteCalls x.1 (p, .next) x.2) : ∑ q, share y q < ∑ q, share x q := by
  have hof := hx.isOf p
  rw [hpc] at hof
  obtain rfl : r = .unlock := by simpa [Pc.isOf] using hof
  have hnode : x.1.node p = none := hx.bare p (by rw [hpc]; rfl)
  obtain ⟨t, h'⟩ := y
  replace hs : step x.1 (p, .next) = some t := hs
  have hcalled : h'.called = e :: x.2.called := by
    obtain rfl : h' = noteCalls x.1 (p, .next) x.2 := hnote
    simp [noteCalls, hpc]
  have hnodes : t.node = x.1.node ∧ t.word = x.1.word := by
    cases step_cases hs <;> simp_all
  have hspends : share (t, h') p + 3 ≤ share x p := by
    have hbefore : share x p = 4 := by simp [share, hpc, Pc.share]
    cases step_cases hs with
    | wake r' e' n' hpc' =>
      obtain ⟨rfl, rfl, rfl⟩ : r' = .unlock ∧ e' = e ∧ n' = n := by simp_all
      rw [hbefore]
      simp only [share, goto_fields, Function.update_self]
      split <;> simp [Pc.share]
    | _ => simp_all
  have hrung : ∀ q, x.1.node q ≠ some e.id → rung (t, h') q = rung x q := by
    intro q hq
    simp only [rung, hnodes.1, hcalled, List.any_cons]
    rw [beq_eq_false_iff_ne.mpr hq, Bool.false_or]
  have hothers : ∀ q, q ≠ p → x.1.node q ≠ some e.id → share (t, h') q = share x q := by
    intro q hqp hq
    simp only [share, step_others hs hqp, hnodes, hrung q hq]
  by_cases howner : ∃ q, x.1.node q = some e.id
  · obtain ⟨q, hq⟩ := howner
    have hqp : q ≠ p := by
      rintro rfl
      simp [hnode] at hq
    have hgets : share (t, h') q ≤ share x q + 2 := by
      simp only [share, step_others hs hqp, hnodes]
      exact Pc.share_called _ _ _ _ _
    have hsum := sum_update_two (f := share x) (g := share (t, h')) hqp fun u hup huq =>
      hothers u hup fun hu => huq (hx.node_inj u q e.id hu hq)
    omega
  · have hsum := sum_update (f := share x) (g := share (t, h')) (p := p) fun u hu =>
      hothers u hu fun hn => howner ⟨u, hn⟩
    omega

end costs

def lockCosts [Fintype P] (task : P → Option Nat) : (lock task).Costs where
  budget x := ∑ p, share x p
  rank := rank
  price := 8
  bound := 25
  rank_le x p := Pc.rank_le _ _ _ _
  call := by
    intro x p y hx h
    replace h : use task x (p, .call) = some y := h
    obtain ⟨a, hu, hs, hnote⟩ := use_eq h
    have hsum := sum_update (f := share x) (g := share y) (p := p) fun q hq =>
      InUse.share_others hx hs hq (by rw [hnote]; exact noteCalls_called_same x.1 x.2 (hu.not_waking (by simp)))
    cases hu with
    | call hpc hnode =>
      obtain ⟨t, h'⟩ := y
      replace hs : step x.1 (p, .start (callOf (task p))) = some t := hs
      have hown : share (t, h') p = 8 := by
        cases step_cases hs
        simp [share, Pc.share]
      omega
  release := by
    intro x p y hx h
    replace h : use task x (p, .release) = some y := h
    obtain ⟨a, hu, hs, hnote⟩ := use_eq h
    have hsum := sum_update (f := share x) (g := share y) (p := p) fun q hq =>
      InUse.share_others hx hs hq (by rw [hnote]; exact noteCalls_called_same x.1 x.2 (hu.not_waking (by simp)))
    cases hu with
    | release hpc hnode =>
      obtain ⟨t, h'⟩ := y
      replace hs : step x.1 (p, .release .unlock) = some t := hs
      have hown : share (t, h') p = share x p := by
        cases step_cases hs
        simp [share, hpc, Release.enter, Pc.share]
      omega
  inner := by
    intro x p k y hx h hne
    replace h : use task x (p, .inner k) = some y := h
    obtain ⟨a, hu, hs, hnote⟩ := use_eq h
    by_cases hwake : ∃ r e n, x.1.pc p = .wake r e n
    · obtain ⟨r, e, n, hpc⟩ := hwake
      cases hu with
      | next => exact .inl (InUse.wake_pays hx hpc hs hnote)
      | poll hpc' | dropReady hpc' => simp [hpc] at hpc'
    · have hwake : ∀ r e n, x.1.pc p ≠ .wake r e n := fun r e n hpc => hwake ⟨r, e, n, hpc⟩
      have hcalled : y.2.called = x.2.called := by
        rw [hnote]
        exact noteCalls_called_same x.1 x.2 hwake
      have hsum := sum_update (f := share x) (g := share y) (p := p)
        fun q hq => InUse.share_others hx hs hq hcalled
      rcases InUse.inner_pays hx hu hs hnote hwake with hless | ⟨hword, hle, hrank⟩
      · exact .inl (by omega)
      · exact .inr ⟨by omega, hrank, fun q hq => rank_others hs hq hcalled hword⟩

end Colock.RawMutex
