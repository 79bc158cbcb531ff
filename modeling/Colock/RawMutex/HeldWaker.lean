import Colock.RawMutex.Exclusion
import Colock.RawMutex.WellFormed

/-! A releaser that has popped a waker of `RawMutex` stores to the parker in it some steps
later. Whether that parker still exists is up to the waiter, which may be timing out. -/
namespace Colock.RawMutex
open Transition
variable {P : Type*} [DecidableEq P]

def Pc.carries : Pc P → Option (Entry P)
  | .mark e _ | .wake _ e _ => some e
  | _ => none

def Leave.isTimeout : Leave → Bool
  | .timeout => true
  | _ => false

/-- From the end of `push_head` in `lock_inner` to the end of the wait: parked, or leaving by
the timeout, with the parker alive. -/
def Pc.sleeps : Pc P → Bool
  | .unlockQueue (.pushed (.lockInner _)) | .park _ => true
  | .dropNode k | .lockDrop k | .removeNode k | .unlockQueue (.dropped k) => k.isTimeout
  | _ => false

/-- Every waker on its way to be called was built from the live parker of its waiter. -/
def State.WakersLive (s : State P) : Prop :=
  ∀ q e, (s.pc q).carries = some e → ∀ i, e.data.parker = some i → s.node e.owner = some i

/-- The next step of the party ends a wait that timed out: node and parker go out of scope. -/
def State.endsWait (s : State P) (p : P) : Bool :=
  match s.pc p with
  | .dropNode k => k.isTimeout && !s.isOnList p
  | .unlockQueue (.dropped k) => k.isTimeout
  | _ => false

/-- A wait that timed out does not end while a releaser holds its waker. -/
def KeepsParker (s : State P) : P × Act → Prop
  | (p, .next) => s.endsWait p = true →
      ∀ q, ∀ e ∈ (s.pc q).carries, e.owner = p → e.data.parker = none
  | _ => True

structure State.Sleeps (s : State P) (e : Entry P) (i : Nat) : Prop where
  node : s.node e.owner = some i
  flag : s.flag i = false
  sleeping : (s.pc e.owner).sleeps = true

structure Live (s : State P) : Prop extends WellFormed s where
  unused : ∀ p i, (s.pc p).slot = .fresh → s.node p = some i → s.flag i = false
  queued : ∀ e ∈ s.queue, ∀ i, e.data.parker = some i → s.Sleeps e i
  carried : ∀ q e, (s.pc q).carries = some e → ∀ i, e.data.parker = some i →
    s.Sleeps e i ∧ s.Off e.owner

section places
variable {P : Type*}

theorem Live.wakersLive {s : State P} (hs : Live s) : s.WakersLive :=
  fun q e he i hi => (hs.carried q e he i hi).1.node

theorem inSection_of_carries {c : Pc P} {e : Entry P} (h : c.carries = some e) :
    c.inSection = true := by
  cases c <;> simp_all [Pc.carries, Pc.inSection]

theorem State.Sleeps.frame {s t : State P} {e : Entry P} {i : Nat} (h : s.Sleeps e i)
    (hnode : t.node e.owner = s.node e.owner) (hflag : t.flag i = s.flag i)
    (hpc : (t.pc e.owner).sleeps = true) : t.Sleeps e i :=
  ⟨hnode.trans h.node, hflag.trans h.flag, hpc⟩

theorem sleeps_not_fresh {c : Pc P} (h : c.sleeps = true) : c.slot ≠ .fresh := by
  cases c with
  | dropNode k | lockDrop k | removeNode k => cases k <;> simp [Pc.slot, Leave.slot]
  | unlockQueue a =>
    cases a with
    | pushed c => cases c <;> simp [Pc.slot, Call.queued]
    | dropped k => simp [Pc.slot]
    | _ => simp [Pc.sleeps] at h
  | park timed => simp [Pc.slot]
  | _ => simp [Pc.sleeps] at h

end places

theorem Live.move {s t : State P} {p : P} (hs : Live s) (hwf : WellFormed t)
    (hpc : ∀ q, q ≠ p → t.pc q = s.pc q) (hnode : ∀ q, q ≠ p → t.node q = s.node q)
    (hflag : ∀ i, i < s.fresh → t.flag i = s.flag i) (hqueue : ∀ e ∈ t.queue, e ∈ s.queue)
    (hcarries : ∀ e, (t.pc p).carries = some e → (s.pc p).carries = some e)
    (hunused : (t.pc p).slot = .fresh → ∀ i, t.node p = some i → t.flag i = false)
    (hsleep : ∀ e i, e.data.parker = some i → e.owner = p → s.Sleeps e i →
      (e ∈ t.queue ∨ ∃ q, (t.pc q).carries = some e) →
      (t.pc p).sleeps = true ∧ t.node p = s.node p) : Live t := by
  have carries : ∀ q e, (t.pc q).carries = some e → (s.pc q).carries = some e := by
    intro q e hq
    by_cases h : q = p
    · subst q; exact hcarries e hq
    · rwa [hpc q h] at hq
  have sleeps : ∀ e i, e.data.parker = some i → s.Sleeps e i →
      (e ∈ t.queue ∨ ∃ q, (t.pc q).carries = some e) → t.Sleeps e i := by
    intro e i hi he hwhere
    have hflag := hflag i (hs.node_lt _ i he.node)
    by_cases h : e.owner = p
    · obtain ⟨hsl, hn⟩ := hsleep e i hi h he hwhere
      subst p
      exact he.frame hn hflag hsl
    · exact he.frame (hnode _ h) hflag (by rw [hpc _ h]; exact he.sleeping)
  refine ⟨hwf, ?_, ?_, ?_⟩
  · intro q i hq hn
    by_cases h : q = p
    · subst q; exact hunused hq i hn
    · rw [hpc q h] at hq
      rw [hnode q h] at hn
      rw [hflag i (hs.node_lt q i hn)]
      exact hs.unused q i hq hn
  · intro e he i hi
    exact sleeps e i hi (hs.queued e (hqueue e he) i hi) (.inl he)
  · intro q e hq i hi
    have hold := hs.carried q e (carries q e hq) i hi
    exact ⟨sleeps e i hi hold.1 (.inr ⟨q, hq⟩), fun x hx => hold.2 x (hqueue x hx)⟩

theorem Live.goto {s t : State P} {p : P} {c : Pc P} (hs : Live s) (hwf : WellFormed t)
    (hpc : t.pc = Function.update s.pc p c) (hnode : t.node = s.node) (hflag : t.flag = s.flag)
    (hqueue : ∀ e ∈ t.queue, e ∈ s.queue) (hcarries : c.carries = none)
    (hfresh : c.slot = .fresh → (s.pc p).slot = .fresh)
    (hsleep : (s.pc p).sleeps = true → c.sleeps = true ∨
      ∃ i, s.node p = some i ∧ s.flag i = true) : Live t := by
  have hp : t.pc p = c := by simp [hpc]
  refine hs.move (p := p) hwf (fun q hq => by simp [hpc, hq]) (by simp [hnode]) (by simp [hflag])
    hqueue (by simp [hp, hcarries]) ?_ ?_
  · rw [hp, hnode, hflag]
    exact fun hf i hn => hs.unused p i (hfresh hf) hn
  · rintro e i - rfl he -
    rw [hp]
    rcases hsleep he.sleeping with h | ⟨j, hj, hjf⟩
    · exact ⟨h, by rw [hnode]⟩
    · -- whoever was signalled is not asleep
      obtain rfl : i = j := Option.some.inj (he.node.symm.trans hj)
      simp [he.flag] at hjf

theorem Live.finish {s : State P} {p : P} {k : Leave} (hs : Live s) (ql : Option P)
    (hwf : WellFormed ({ s with qlock := ql }.finish p k)) (ho : s.Off p)
    (hsleeps : (s.pc p).sleeps = k.isTimeout)
    (hok : k.isTimeout = true → ∀ q, ∀ e ∈ (s.pc q).carries, e.owner = p → e.data.parker = none) :
    Live ({ s with qlock := ql }.finish p k) := by
  have hcarries : ∀ e, ((State.finish { s with qlock := ql } p k).pc p).carries = some e →
      (s.pc p).carries = some e := by
    intro e he
    cases k with
    | future held => cases held <;> simp [State.finish, Pc.carries] at he
    | _ => simp [State.finish, Pc.carries] at he
  refine hs.move (p := p) hwf (fun q hq => (finish_others _ p k q hq).1)
    (fun q hq => finish_node _ p k q hq) (fun i hi => ?_) (fun e he => by simpa using he) hcarries
    ?_ ?_
  · cases k with
    | renew cx => simp [State.finish, State.newNode, hi.ne]
    | _ => simp [State.finish]
  · intro hf i hn
    cases k with
    | renew cx =>
      have hi : i = s.fresh := by simpa [State.finish, State.newNode, eq_comm] using hn
      simp [State.finish, State.newNode, hi]
    | future held => cases held <;> simp [State.finish, Pc.slot] at hf
    | _ => simp [State.finish, Pc.slot] at hf
  · rintro e i hi rfl he hwhere
    have hk : k.isTimeout = true := hsleeps ▸ he.sleeping
    rcases hwhere with hq | ⟨q, hq⟩
    · exact absurd rfl (ho e (by simpa using hq))
    · have hold : (s.pc q).carries = some e := by
        by_cases h : q = e.owner
        · subst q; exact hcarries e hq
        · rwa [(finish_others _ e.owner k q h).1] at hq
      simp [hok hk q e hold rfl] at hi

theorem Live.push {s : State P} {p : P} {c : Call} {i : Nat} (hs : Live s)
    (hpc : s.pc p = .pushHead c) (hn : s.node p = some i) :
    Live ((s.push p i c).goto p (.unlockQueue (.pushed c))) := by
  have hslot : c.fresh.Holds s p := by
    have hslot := (hs.fits p).slot
    rwa [hpc] at hslot
  have hflag : s.flag i = false := by
    refine hs.unused p i ?_ hn
    rw [hpc]
    cases c with
    | tryLock => exact hslot.elim
    | lockInner timed | poll cx => rfl
  have awake : ∀ e j, s.Sleeps e j → e.owner ≠ p := by
    rintro e j he rfl
    have hsl := he.sleeping
    simp [hpc, Pc.sleeps] at hsl
  have old : ∀ e j, s.Sleeps e j →
      State.Sleeps ((s.push p i c).goto p (.unlockQueue (.pushed c))) e j := fun e j he =>
    he.frame rfl rfl (by simpa [awake e j he] using he.sleeping)
  have carries : ∀ q e, (((s.push p i c).goto p (.unlockQueue (.pushed c))).pc q).carries = some e →
      (s.pc q).carries = some e := by
    intro q e he
    by_cases h : q = p
    · subst q; simp [Pc.carries] at he
    · simpa [h] using he
  refine ⟨hs.toWellFormed.push hpc hn, ?_, ?_, ?_⟩
  · intro q j hq hj
    by_cases h : q = p
    · subst q
      cases c <;> simp [Pc.slot, Call.queued] at hq
    · exact hs.unused q j (by simpa [h] using hq) hj
  · intro e he j hj
    rcases List.mem_cons.mp he with rfl | he
    · cases c with
      | tryLock => exact hslot.elim
      | poll cx => cases hj
      | lockInner timed =>
        obtain rfl : i = j := Option.some.inj hj
        exact ⟨hn, hflag, by simp [Pc.sleeps]⟩
    · exact old e j (hs.queued e he j hj)
  · intro q e he j hj
    obtain ⟨hold, hoff⟩ := hs.carried q e (carries q e he) j hj
    refine ⟨old e j hold, fun x hx => ?_⟩
    rcases List.mem_cons.mp hx with rfl | hx
    · exact (awake e j hold).symm
    · exact hoff x hx

omit [DecidableEq P] in
theorem WellFormed.carries_alone {s : State P} {p q : P} {e : Entry P} (hs : WellFormed s)
    (hp : (s.pc p).inSection = true) (hq : (s.pc q).carries = some e) : q = p :=
  Option.some.inj ((hs.locked (inSection_of_carries hq)).symm.trans (hs.locked hp))

theorem Live.popped {s : State P} {p : P} {e : Entry P} {c : Pc P} (hs : Live s)
    (hwf : WellFormed ((s.popped e).goto p c)) (hin : (s.pc p).inSection = true)
    (hsl : (s.pc p).sleeps = false) (he : s.queue.getLast? = some e) (hc : c.carries = some e)
    (hslot : c.slot ≠ .fresh) : Live ((s.popped e).goto p c) := by
  have old : ∀ x j, s.Sleeps x j → State.Sleeps ((s.popped e).goto p c) x j := by
    intro x j hx
    have hne : x.owner ≠ p := by
      rintro rfl
      have hsleep := hx.sleeping
      simp [hsl] at hsleep
    exact hx.frame rfl rfl (by simpa [hne] using hx.sleeping)
  refine ⟨hwf, ?_, ?_, ?_⟩
  · intro q j hq hj
    by_cases h : q = p
    · subst q; exact absurd (by simpa using hq) hslot
    · exact hs.unused q j (by simpa [h] using hq) hj
  · exact fun x hx j hj => old x j (hs.queued x ((List.dropLast_sublist _).subset hx) j hj)
  · intro q x hx j hj
    by_cases h : q = p
    · subst q
      obtain rfl : e = x := by simpa [hc] using hx
      exact ⟨old e j (hs.queued e (List.mem_of_getLast? he) j hj), popped_off hs.toShape he⟩
    · exact absurd (hs.carries_alone hin (by simpa [h] using hx)) h

theorem Live.signal {s : State P} {p : P} {e : Entry P} {c : Pc P} (hs : Live s)
    (hwf : WellFormed ((s.signal e).goto p c)) (hp : (s.pc p).carries = some e)
    (hsl : (s.pc p).sleeps = false) (hc : c.carries = none) (hslot : c.slot ≠ .fresh) :
    Live ((s.signal e).goto p c) := by
  have hflag : ∀ j, (∀ i, e.data.parker = some i → j ≠ i) →
      ((s.signal e).goto p c).flag j = s.flag j := by
    intro j hj
    simp only [goto_fields, State.signal]
    cases hi : e.data.parker with
    | none => rfl
    | some i => simp [hj i hi]
  have hnone : ∀ q x, (((s.signal e).goto p c).pc q).carries ≠ some x := by
    intro q x hx
    by_cases h : q = p
    · subst q; simp [hc] at hx
    · have hq : (s.pc q).carries = some x := by simpa [h] using hx
      exact h (hs.carries_alone (inSection_of_carries hp) hq)
  refine ⟨hwf, ?_, ?_, fun q x hx => absurd hx (hnone q x)⟩
  · intro q j hq hj
    by_cases h : q = p
    · subst q; exact absurd (by simpa using hq) hslot
    · have hq : (s.pc q).slot = .fresh := by simpa [h] using hq
      have hj : s.node q = some j := by simpa using hj
      rw [hflag j]
      · exact hs.unused q j hq hj
      · rintro i hi rfl
        have hsleep := (hs.carried p e hp j hi).1
        obtain rfl := hs.node_inj _ _ _ hj hsleep.node
        exact sleeps_not_fresh hsleep.sleeping hq
  · intro x hx j hj
    have hx : x ∈ s.queue := by simpa using hx
    have hold := hs.queued x hx j hj
    have hne : x.owner ≠ p := by
      intro h
      have hsleep := hold.sleeping
      simp [h, hsl] at hsleep
    refine hold.frame (by simp) (hflag j ?_) (by simpa [hne] using hold.sleeping)
    rintro i hi rfl
    obtain ⟨hsleep, hoff⟩ := hs.carried p e hp j hi
    exact hoff x hx (hs.node_inj _ _ _ hold.node hsleep.node)

theorem step_live {s t : State P} {l : P × Act} (hs : Live s) (hok : KeepsParker s l)
    (h : step s l = some t) : Live t := by
  have hwf := step_wellFormed hs.toWellFormed h
  have hsub : ∀ e ∈ s.queue, e ∈ s.queue := fun _ he => he
  obtain ⟨p, a⟩ := l
  have sleeps : ∀ (c : Call) (u v : Word), WellFormed (s.commit p (sleepNext c u) v) →
      (s.pc p).slot = c.fresh → (s.pc p).sleeps = false → Live (s.commit p (sleepNext c u) v) := by
    intro c u v hwf hslot hsl
    refine hs.goto (p := p) hwf rfl rfl rfl hsub ?_ ?_ (by simp [hsl])
    · unfold sleepNext
      split <;> rfl
    · rw [(sleepNext_place c u).2.1, hslot]
      exact id
  cases step_cases h with
  | start c hpc =>
    exact hs.goto (p := p) hwf rfl rfl rfl hsub rfl (by cases c <;> rintro ⟨⟩)
      (by simp [hpc, Pc.sleeps])
  | release r hpc =>
    exact hs.goto (p := p) hwf rfl rfl rfl hsub (by cases r <;> rfl) (by cases r <;> rintro ⟨⟩)
      (by simp [hpc, Pc.sleeps])
  | timeout hpc => exact hs.goto (p := p) hwf rfl rfl rfl hsub rfl (by rintro ⟨⟩) fun _ => .inl rfl
  | dropFuture held hpc =>
    exact hs.goto (p := p) hwf rfl rfl rfl hsub rfl (by rintro ⟨⟩)
      (by cases held <;> simp [hpc, Pc.sleeps])
  | casTaken c _ hpc | casFailed c _ hpc | casRetry c _ hpc | sleepTaken c _ hpc =>
    cases c <;> exact hs.goto (p := p) hwf rfl rfl rfl hsub rfl (by rintro ⟨⟩)
      (by simp [hpc, Pc.sleeps])
  | loadState c hpc | sleepMark c _ hpc | sleepReload c _ hpc =>
    exact sleeps c _ _ hwf (by rw [hpc]; rfl) (by rw [hpc]; rfl)
  | fairSeen _ hpc | fairUnseen _ hpc | fairClear hpc | onEmpty hpc =>
    exact hs.goto (p := p) hwf rfl rfl rfl hsub rfl (by rintro ⟨⟩) (by simp [hpc, Pc.sleeps])
  | bumpLoad hpc =>
    refine hs.goto (p := p) hwf rfl rfl rfl hsub ?_ ?_ (by simp [hpc, Pc.sleeps])
    · split <;> rfl
    · split <;> rintro ⟨⟩
  | fetchUnlock r hpc =>
    refine hs.goto (p := p) hwf rfl rfl rfl hsub ?_ ?_ (by simp [hpc, Pc.sleeps])
    · split <;> cases r <;> rfl
    · split <;> cases r <;> rintro ⟨⟩
  | clearWait r hpc =>
    exact hs.goto (p := p) hwf rfl rfl rfl hsub rfl (by cases r <;> rintro ⟨⟩)
      (by simp [hpc, Pc.sleeps])
  | mark e n hpc =>
    -- the waker stays in the hands of the releaser
    refine hs.move (p := p) hwf (fun q hq => (commit_others s p _ _ q hq).1) (fun _ _ => rfl)
      (fun _ _ => rfl) hsub (fun x hx => ?_) (by simp [Pc.slot, Release.slot]) ?_
    · rw [hpc]
      simpa [Pc.carries] using hx
    · rintro x i - rfl hx -
      have hsleep := hx.sleeping
      simp [hpc, Pc.sleeps] at hsleep
  | prepare timed hpc =>
    refine hs.move (p := p) hwf (fun q hq => by simp [hq])
      (fun q hq => by simp [State.newNode, hq]) (fun i hi => by simp [State.newNode, hi.ne]) hsub
      (by simp [Pc.carries]) ?_ ?_
    · intro _ i hi
      have hi : i = s.fresh := by simpa [State.newNode, eq_comm] using hi
      simp [State.newNode, hi]
    · rintro e i - rfl he -
      have hsleep := he.sleeping
      simp [hpc, Pc.sleeps] at hsleep
  | lockPush _ hpc | lockPop _ hpc =>
    exact hs.goto (p := p) hwf rfl rfl rfl hsub rfl (fun hf => by rw [hpc]; exact hf)
      (by simp [hpc, Pc.sleeps])
  | lockDrop _ hpc | dropLinked _ hpc =>
    exact hs.goto (p := p) hwf rfl rfl rfl hsub rfl (fun hf => by rw [hpc]; exact hf)
      (fun hsleep => .inl (by simpa [hpc, Pc.sleeps] using hsleep))
  | pushHead c i hpc hi => exact hs.push hpc hi
  | park timed i hpc hi hf =>
    exact hs.goto (p := p) hwf rfl rfl rfl hsub rfl (by rintro ⟨⟩) (fun _ => .inr ⟨i, hi, hf⟩)
  | dropOff k hpc hoff =>
    refine hs.finish s.qlock hwf (off_of_isOnList hs.toShape hoff) (by rw [hpc]; rfl) fun hk =>
      hok ?_
    simp [State.endsWait, hpc, hk, hoff]
  | removeNode k hpc =>
    exact hs.goto (p := p) hwf rfl rfl rfl (fun e he => List.mem_of_mem_filter he) rfl
      (by rintro ⟨⟩) (fun hsleep => .inl (by simpa [hpc, Pc.sleeps] using hsleep))
  | popNone r hpc =>
    refine hs.goto (p := p) hwf rfl rfl rfl hsub ?_ ?_ (by simp [hpc, Pc.sleeps])
    · split <;> rfl
    · cases r <;> rintro ⟨⟩
  | popTail r e hpc he =>
    refine hs.popped hwf (by rw [hpc]; rfl) (by rw [hpc]; rfl) he ?_ ?_
    · split <;> rfl
    · cases r <;> rintro ⟨⟩
  | wake r e n hpc =>
    refine hs.signal hwf (by rw [hpc]; rfl) (by rw [hpc]; rfl) ?_ ?_
    · split <;> rfl
    · split <;> cases r <;> rintro ⟨⟩
  | unlockQueue a hpc =>
    cases a with
    | pushed c =>
      cases c with
      | lockInner timed =>
        exact hs.goto (p := p) hwf rfl rfl rfl hsub rfl (by rintro ⟨⟩) fun _ => .inl rfl
      | tryLock | poll cx =>
        exact hs.goto (p := p) hwf rfl rfl rfl hsub rfl (by rintro ⟨⟩) (by simp [hpc, Pc.sleeps])
    | aborted c =>
      cases c <;> exact hs.goto (p := p) hwf rfl rfl rfl hsub rfl (by rintro ⟨⟩)
        (by simp [hpc, Pc.sleeps])
    | released r =>
      cases r <;> exact hs.goto (p := p) hwf rfl rfl rfl hsub rfl (by rintro ⟨⟩)
        (by simp [hpc, Pc.sleeps])
    | dropped k =>
      have ho := (hs.fits p).slot
      rw [hpc] at ho
      exact hs.finish none hwf ho (by rw [hpc]; rfl) fun hk =>
        hok (by simp [State.endsWait, hpc, hk])

/-- When a wait ends under a releaser that holds its waker, that waker dangles. -/
theorem step_dangles {s t : State P} {l : P × Act} (hno : ¬ KeepsParker s l)
    (h : step s l = some t) : ¬ t.WakersLive := by
  obtain ⟨p, a⟩ := l
  cases a with
  | next =>
    simp only [KeepsParker, Classical.not_imp, not_forall] at hno
    obtain ⟨hend, q, e, hq, howner, hparker⟩ := hno
    have hgone : t.node p = none ∧ ∀ r, r ≠ p → t.pc r = s.pc r := by
      cases hpc : s.pc p with
      | dropNode k =>
        cases k <;> simp [State.endsWait, hpc, Leave.isTimeout] at hend
        simp only [step, hpc, atomic, queueStep, hend, Bool.false_eq_true, if_false,
          Option.some.injEq] at h
        subst t
        exact ⟨by simp [State.finish, State.freeNode], fun r hr => (finish_others _ p _ r hr).1⟩
      | unlockQueue a =>
        cases a with
        | dropped k =>
          cases k <;> simp [State.endsWait, hpc, Leave.isTimeout] at hend
          simp only [step, hpc, atomic, queueStep, Option.some.injEq] at h
          subst t
          exact ⟨by simp [State.release, State.finish, State.freeNode],
            fun r hr => (release_others _ p _ r hr).1⟩
        | _ => simp [State.endsWait, hpc] at hend
      | _ => simp [State.endsWait, hpc] at hend
    have hq : (s.pc q).carries = some e := hq
    have hne : q ≠ p := by
      rintro rfl
      cases hpc : s.pc q <;> simp_all [State.endsWait, Pc.carries]
    obtain ⟨i, hi⟩ := Option.ne_none_iff_exists'.mp hparker
    intro hlive
    have hnode := hlive q e (by rw [hgone.2 q hne, hq]) i hi
    simp [howner, hgone.1] at hnode
  | _ => exact absurd trivial hno

omit [DecidableEq P] in
theorem live_init : Live (init : State P) where
  toWellFormed := wellFormed_init
  unused := by simp [init]
  queued := by simp [init]
  carried := by simp [init, Pc.carries]

/-- In every run, a waker of the mutex is called on a live parker just as long as no wait that
timed out ends while a releaser holds its waker. -/
theorem wakers_live (s : State P) (ls : List (P × Act)) (h : run step init ls = some s) :
    Visits step State.WakersLive init ls ↔ Meets step KeepsParker init ls :=
  visits_iff_meets (I := Live) (fun _ hs => hs.wakersLive)
    (fun _ _ _ hs _ hok h => step_live hs hok h)
    (fun _ _ _ _ _ hno h => step_dangles hno h) live_init (meets_any _ _) h

instance [Fintype P] (s : State P) (l : P × Act) : Decidable (KeepsParker s l) :=
  match l with
  | (p, .next) =>
    inferInstanceAs (Decidable (s.endsWait p = true →
      ∀ q, ∀ e ∈ (s.pc q).carries, e.owner = p → e.data.parker = none))
  | (_, .start _) | (_, .release _) | (_, .timeout) | (_, .dropFuture) => isTrue trivial

def wakeTimed (p q : P) : List (P × Act) :=
  timedSleeps p q ++ (p, .release .unlock) :: nexts p 3

end Colock.RawMutex
