import Colock.RawMutex.Exclusion
import Colock.RawMutex.Party

/-! Wake-ups of `RawMutex` without fair hand-offs: while the lock is free and a waiter is
queued, somebody is on the way to wake a waiter or to take the lock. A wait that is
cancelled after its wake-up was consumed is the exception, and so is a future that returned
`Ready` and is kept, node and all, until after the lock was released.

`ready` tells whose wait is over, as `noteReady` records it. -/
namespace Colock.RawMutex
open Transition HandOff
variable {P : Type*} [DecidableEq P]

/-- The party goes on waiting; between two polls, if the future has not returned `Ready` yet. -/
def State.Retries (s : State P) (ready : P → Bool) (q : P) : Prop :=
  (s.pc q).retries = true ∧ (s.pc q = .idle → ready q = false)

/-- The party will pop the queue, or it was popped and will try to acquire the lock. -/
def State.OnTheWay (s : State P) (ready : P → Bool) (q : P) : Prop :=
  (s.pc q).pops = true ∨ s.woken q = true ∧ s.Retries ready q

/-- A node of the party is left over from a wait that is cancelled or over. -/
def State.gone (s : State P) (ready : P → Bool) (q : P) : Bool :=
  (s.pc q).quits || ready q

/-- The lock is taken, or no queued waiter goes on waiting, or somebody is on the way. -/
def State.Served (s : State P) (ready : P → Bool) : Prop :=
  locked s.word = true ∨ (∀ e ∈ s.queue, s.gone ready e.owner = true) ∨ ∃ q, s.OnTheWay ready q

/-- With the entries of `queue` left, the lock is taken, or nobody goes on waiting, or
somebody other than `p` is on the way. -/
def State.ServedWithout (s : State P) (ready : P → Bool) (p : P) (queue : List (Entry P)) : Prop :=
  locked s.word = true ∨ (∀ e ∈ queue, s.gone ready e.owner = true) ∨
    ∃ q, q ≠ p ∧ s.OnTheWay ready q

/-- A waiter that was popped cancels its wait, or `unlock` pops one that does not go on
waiting, only when nobody depends on that wake-up. -/
def PassesOn (s : State P) (ready : P → Bool) : P × Act → Prop
  | (p, .timeout) => s.OnTheWay ready p → s.ServedWithout ready p s.queue
  | (p, .dropFuture) =>
    s.pc p = .idle → s.OnTheWay ready p → s.ServedWithout ready p s.queue
  | (p, .next) => (s.pc p).pops = true ∧ (s.pc p).inSection = true →
      ∀ e ∈ s.queue.getLast?, ¬ s.Retries ready e.owner →
        s.ServedWithout ready p s.queue.dropLast
  | _ => True

/-- `WAIT_BIT` covers the queue, also for a waiter that is about to be queued, and nobody
waits in vain. -/
structure Handled (s : State P) (ready : P → Bool) : Prop where
  wait : s.queue ≠ [] → waiting s.word = true
  pushing : ∀ p c, s.pc p = .pushHead c →
    waiting s.word = true ∧ (locked s.word = true ∨ ∃ q, (s.pc q).pops = true)
  served : s.Served ready

structure Tended (s : State P) (ready : P → Bool) : Prop
    extends WellFormed s, Handled s ready where
  sane : ∀ q, (s.pc q).sane
  exclusive : Exclusive (view s)
  fair : fair s.word = false
  party : ∀ q, Party s q

variable {s t : State P} {ready ready' : P → Bool} {p : P}

omit [DecidableEq P] in
theorem onTheWay_frame {q : P} (hpc : t.pc q = s.pc q) (hwoken : t.woken q = s.woken q) :
    t.OnTheWay ready q ↔ s.OnTheWay ready q := by
  unfold State.OnTheWay State.Retries
  rw [hpc, hwoken]

omit [DecidableEq P] in
theorem gone_frame {q : P} (hpc : t.pc q = s.pc q) : t.gone ready q = s.gone ready q := by
  unfold State.gone
  rw [hpc]

omit [DecidableEq P] in
theorem owns_of_retries {c : Pc P} (h : c.retries = true) : c.owns = false := by
  cases c with
  | dropNode k | lockDrop k | removeNode k =>
    cases k <;> simp_all [Pc.retries, Leave.retries, Pc.owns, Leave.owns]
  | unlockQueue a =>
    cases a with
    | dropped k => cases k <;> simp_all [Pc.retries, Leave.retries, Pc.owns, Leave.owns]
    | _ => simp [Pc.retries] at h
  | _ => simp_all [Pc.retries, Pc.owns]

theorem noteReady_quiet {c : Pc P} (hpc : s.pc p = c) (hc : c.settles = false) :
    noteReady s (p, .next) ready = ready := by
  cases c with
  | cas call expected => cases call <;> simp_all [noteReady, Pc.settles]
  | unlockQueue a =>
    cases a with
    | aborted call => cases call <;> simp_all [noteReady, Pc.settles]
    | _ => simp [noteReady, hpc]
  | pushHead call => simp [Pc.settles] at hc
  | _ => simp [noteReady, hpc]

theorem Handled.move (hs : Handled s ready)
    (hpc : ∀ q, q ≠ p → t.pc q = s.pc q) (hwoken : ∀ q, q ≠ p → t.woken q = s.woken q)
    (hword : t.word = s.word) (hqueue : ∀ e ∈ t.queue, e ∈ s.queue)
    (hpush : ∀ c, t.pc p ≠ .pushHead c)
    (hpops : (s.pc p).pops = true → (t.pc p).pops = true ∨ ∀ q c, s.pc q ≠ .pushHead c)
    (hgone : (s.pc p).quits = true → (t.pc p).quits = true ∨ t.Off p)
    (hway : s.OnTheWay ready p → t.OnTheWay ready p ∨ t.Served ready) : Handled t ready := by
  have push_old : ∀ q c, t.pc q = .pushHead c → s.pc q = .pushHead c := by
    intro q c hq
    by_cases h : q = p
    · exact absurd (h ▸ hq) (hpush c)
    · rwa [hpc q h] at hq
  constructor
  · intro hne
    rw [hword]
    refine hs.wait fun hnil => ?_
    obtain ⟨e, he⟩ := List.exists_mem_of_ne_nil _ hne
    simp [hnil] at hqueue
    exact hqueue e he
  · intro q c hq
    rw [hword]
    have hq := push_old q c hq
    refine (hs.pushing q c hq).imp_right fun h => h.imp_right ?_
    rintro ⟨r, hr⟩
    by_cases h : r = p
    · exact ⟨p, (hpops (h ▸ hr)).resolve_right fun hno => hno q c hq⟩
    · exact ⟨r, by rwa [hpc r h]⟩
  · rcases hs.served with hl | hall | ⟨r, hr⟩
    · exact .inl (hword ▸ hl)
    · refine .inr (.inl fun e he => ?_)
      have hold := hall e (hqueue e he)
      by_cases h : e.owner = p
      · simp only [State.gone, Bool.or_eq_true] at hold ⊢
        refine hold.imp_left fun hquits => ?_
        rw [h] at hquits ⊢
        exact (hgone hquits).resolve_right fun ho => ho e he h
      · rwa [gone_frame (hpc _ h)]
    · by_cases h : r = p
      · subst r
        rcases hway hr with hway | hserved
        · exact .inr (.inr ⟨p, hway⟩)
        · exact hserved
      · exact .inr (.inr ⟨r, (onTheWay_frame (hpc r h) (hwoken r h)).mpr hr⟩)

theorem Handled.locks (hs : Handled s ready)
    (hpc : ∀ q, q ≠ p → t.pc q = s.pc q) (hqueue : t.queue = s.queue)
    (hwait : waiting s.word = true → waiting t.word = true) (hlocked : locked t.word = true)
    (hpush : ∀ c, t.pc p = .pushHead c → waiting t.word = true) : Handled t ready' := by
  refine ⟨fun hne => hwait (hs.wait (hqueue ▸ hne)), fun q c hq => ⟨?_, .inl hlocked⟩,
    .inl hlocked⟩
  by_cases h : q = p
  · exact hpush c (h ▸ hq)
  · rw [hpc q h] at hq
    exact hwait (hs.pushing q c hq).1

omit [DecidableEq P] in
theorem sleepNext_push {c d : Call} {w : Word} (h : (sleepNext c w : Pc P) = .pushHead d) :
    w = lockedBit ||| waitBit := by
  unfold sleepNext at h
  split at h
  · assumption
  · cases h

omit [DecidableEq P] in
theorem sleepNext_unlocked {w : Word} (hl : locked w = false) (c : Call) :
    (sleepNext c w : Pc P) = .sleepCas c w := by
  unfold sleepNext
  rw [if_neg]
  rintro rfl
  simp at hl

def Pc.attempts : Pc P → Bool
  | .cas _ _ | .loadState _ | .sleepCas _ _ | .fairLoad _ => true
  | _ => false

omit [DecidableEq P] in
theorem WellFormed.noPush (hs : WellFormed s) (hin : (s.pc p).inSection = true)
    (hp : ∀ c, s.pc p ≠ .pushHead c) (q : P) (c : Call) : s.pc q ≠ .pushHead c := by
  intro hq
  have hlq : s.qlock = some q := hs.locked (by rw [hq]; rfl)
  obtain rfl : q = p := Option.some.inj (hlq.symm.trans (hs.locked hin))
  exact hp c hq

/-- An attempt never clears `WAIT_BIT`, queues only under `LOCKED_BIT | WAIT_BIT`, and when it
leaves the lock free it changes nothing and is repeated. -/
theorem Tended.attempt {c : Pc P} {w : Word} (hs : Tended s ready)
    (hatt : (s.pc p).attempts = true) (hwait : waiting s.word = true → waiting w = true)
    (hpush : ∀ call, c = .pushHead call → w = lockedBit ||| waitBit)
    (hfree : locked w = false → w = s.word ∧ ready' = ready ∧ c.owns = false ∧
      ((s.pc p).retries = true → c.retries = true ∧ c ≠ .idle)) :
    Handled (s.commit p c w) ready' := by
  have hpops : (s.pc p).pops = false := by
    cases hpc : s.pc p <;> simp_all [Pc.attempts, Pc.pops]
  have hquits : (s.pc p).quits = false := by
    cases hpc : s.pc p <;> simp_all [Pc.attempts, Pc.quits]
  have hpcs : ∀ q, q ≠ p → (s.commit p c w).pc q = s.pc q := fun q hq =>
    (commit_others s p c w q hq).1
  cases hl : locked w with
  | true =>
    refine hs.toHandled.locks hpcs rfl hwait hl fun call hcall => ?_
    simp [hpush call (by simpa using hcall)]
  | false =>
    obtain ⟨rfl, rfl, ho, hr⟩ := hfree hl
    refine hs.toHandled.move hpcs (fun q hq => (commit_others s p c _ q hq).2) rfl
      (fun _ he => he) (fun call hcall => ?_) (by simp [hpops]) (by simp [hquits])
      fun hway => .inl ?_
    · simp [hpush call (by simpa using hcall)] at hl
    · obtain ⟨hw, hretries⟩ := hway.resolve_left (by simp [hpops])
      obtain ⟨hc, hne⟩ := hr hretries.1
      exact .inr ⟨by simp [State.commit, ho, hw], by simpa using hc, by simp [hne]⟩

theorem Tended.fetchUnlock {r : Release} (hs : Tended s ready) (hpc : s.pc p = .fetchUnlock r) :
    Handled (s.commit p (if waiting s.word then .lockPop r else afterRelease r)
      (s.word &&& ~~~lockedBit)) ready := by
  have hr : r ≠ .unlockFair := by
    have hsane := hs.sane p
    rwa [hpc] at hsane
  cases hw : waiting s.word with
  | true =>
    -- `p` itself will pop
    have hpops : ((s.commit p (.lockPop r) (s.word &&& ~~~lockedBit)).pc p).pops = true := by
      simp [Pc.pops, hr]
    exact ⟨fun _ => by simp [hw], fun q call hq => ⟨by simp [hw], .inr ⟨p, hpops⟩⟩,
      .inr (.inr ⟨p, .inl hpops⟩)⟩
  | false =>
    have hnil : s.queue = [] := by
      by_contra hne
      simp [hs.wait hne] at hw
    refine ⟨fun hne => absurd hnil hne, fun q call hq => ?_, .inr (.inl ?_)⟩
    · by_cases hqp : q = p
      · subst q
        cases r <;> simp [afterRelease] at hq
      · have hold : s.pc q = .pushHead call := by simpa [hqp] using hq
        simp [(hs.pushing q call hold).1] at hw
    · simp [hnil]

theorem Tended.clearWait {r : Release} (hs : Tended s ready) (hpc : s.pc p = .clearWait r) :
    Handled (s.commit p (.unlockQueue (.released r)) (s.word &&& ~~~waitBit)) ready := by
  have hnil : s.queue = [] := by
    have hlen := (hs.fits p).count 0 (by rw [hpc]; rfl)
    simpa using hlen
  have hnone := hs.noPush (p := p) (by rw [hpc]; rfl) (by simp [hpc])
  refine ⟨fun hne => absurd hnil hne, fun q call hq => ?_, .inr (.inl (by simp [hnil]))⟩
  by_cases hqp : q = p
  · subst q
    simp at hq
  · exact absurd (by simpa [hqp] using hq) (hnone q call)

theorem Handled.goesOn {c : Pc P} (hs : Handled s ready)
    (hpc : t.pc = Function.update s.pc p c) (hwoken : t.woken = s.woken) (hword : t.word = s.word)
    (hqueue : ∀ e ∈ t.queue, e ∈ s.queue) (hpush : ∀ call, c ≠ .pushHead call)
    (hpops : (s.pc p).pops = true → c.pops = true)
    (hquits : (s.pc p).quits = true → c.quits = true)
    (hretries : (s.pc p).retries = true → s.woken p = true → c.retries = true ∧ c ≠ .idle) :
    Handled t ready := by
  have hp : t.pc p = c := by simp [hpc]
  refine hs.move (p := p) (fun q hq => by simp [hpc, hq]) (by simp [hwoken]) hword hqueue
    (by simpa [hp] using hpush) (fun h => .inl (by simpa [hp] using hpops h))
    (fun h => .inl (by simpa [hp] using hquits h)) fun hway => .inl ?_
  unfold State.OnTheWay State.Retries
  rw [hp, hwoken]
  refine hway.imp hpops fun ⟨hw, hr⟩ => ?_
  obtain ⟨hc, hne⟩ := hretries hr.1 hw
  exact ⟨hw, hc, fun hidle => absurd hidle hne⟩

theorem Handled.finish {k : Leave} (hs : Handled s ready) (ho : s.Off p)
    (hpops : (s.pc p).pops = false) (hretries : (s.pc p).retries = k.retries) :
    Handled (s.finish p k) ready := by
  refine hs.move (fun q hq => (finish_others s p k q hq).1)
    (fun q hq => (finish_others s p k q hq).2) (by simp) (fun e he => by simpa using he) ?_
    (by simp [hpops]) (fun _ => .inr fun e he => ho e (by simpa using he)) fun hway => .inl ?_
  · intro c
    cases k with
    | future held => cases held <;> simp [State.finish]
    | _ => simp [State.finish]
  · obtain ⟨hw, hr⟩ := hway.resolve_left (by simp [hpops])
    have hk : k.retries = true := hretries ▸ hr.1
    cases k <;> simp_all [Leave.retries, State.OnTheWay, State.Retries, State.finish,
      State.freeNode, Pc.retries, Call.waits]

theorem Tended.release {a : After} (hs : Tended s ready) (hpc : s.pc p = .unlockQueue a) :
    Handled (s.release p a) (noteReady s (p, .next) ready) := by
  have hu : Handled { s with qlock := none } ready := ⟨hs.wait, hs.pushing, hs.served⟩
  have goes : ∀ c : Pc P, noteReady s (p, .next) ready = ready → (∀ k, a ≠ .dropped k) →
      (∀ call, c ≠ .pushHead call) →
      Handled ({ s with qlock := none }.goto p c) (noteReady s (p, .next) ready) := by
    intro c hready ha hc
    rw [hready]
    refine hu.goesOn (p := p) (c := c) rfl rfl rfl (fun _ he => he) hc ?_ ?_ ?_ <;>
      cases a <;> simp_all [Pc.pops, Pc.quits, Pc.retries]
  cases a with
  | pushed c =>
    have hready : noteReady s (p, .next) ready = ready := noteReady_quiet hpc rfl
    cases c <;> exact goes _ hready (by rintro _ ⟨⟩) (by rintro _ ⟨⟩)
  | released r =>
    have hready : noteReady s (p, .next) ready = ready := noteReady_quiet hpc rfl
    cases r <;> exact goes _ hready (by rintro _ ⟨⟩) (by rintro _ ⟨⟩)
  | aborted c =>
    have hl : locked s.word = true :=
      (hs.exclusive.owner_bits p (role_owner.mpr (by rw [hpc]; rfl))).1
    refine hs.toHandled.locks (p := p) (fun q hq => (release_others s p _ q hq).1) (by simp)
      (by simp) (by simpa using hl) fun call hcall => ?_
    cases c <;> simp [State.release] at hcall
  | dropped k =>
    have hslot := (hs.fits p).slot
    rw [hpc] at hslot
    have hready : noteReady s (p, .next) ready = ready := noteReady_quiet hpc rfl
    rw [hready]
    exact hu.finish hslot (by simp [hpc, Pc.pops]) (by simp [hpc, Pc.retries])

theorem Tended.push {c : Call} (hs : Tended s ready) (hpc : s.pc p = .pushHead c) (i : Nat) :
    Handled ((s.push p i c).goto p (.unlockQueue (.pushed c))) ready' := by
  obtain ⟨hwait, hnext⟩ := hs.pushing p c hpc
  have hl : s.qlock = some p := hs.locked (by rw [hpc]; rfl)
  refine ⟨fun _ => hwait, fun q call hq => ?_, ?_⟩
  · by_cases hqp : q = p
    · subst q
      simp at hq
    · have hold : s.pc q = .pushHead call := by simpa [hqp] using hq
      have hlq : s.qlock = some q := hs.locked (by rw [hold]; rfl)
      exact absurd (Option.some.inj (hlq.symm.trans hl)) hqp
  · -- the lock is taken, or whoever cleared `LOCKED_BIT` waits to pop
    rcases hnext with hlocked | ⟨q, hq⟩
    · exact .inl hlocked
    · refine .inr (.inr ⟨q, .inl ?_⟩)
      have hqp : q ≠ p := by
        rintro rfl
        simp [hpc, Pc.pops] at hq
      simpa [hqp] using hq

omit [DecidableEq P] in
theorem served_iff_without {queue : List (Entry P)} (hword : t.word = s.word)
    (hqueue : t.queue = queue) (hgone : ∀ e ∈ queue, t.gone ready e.owner = s.gone ready e.owner)
    (hway : ∀ q, t.OnTheWay ready q ↔ q ≠ p ∧ s.OnTheWay ready q) :
    t.Served ready ↔ s.ServedWithout ready p queue := by
  subst hqueue
  have hrest : (∀ e ∈ t.queue, t.gone ready e.owner = true) ↔
      ∀ e ∈ t.queue, s.gone ready e.owner = true :=
    forall₂_congr fun e he => by rw [hgone e he]
  unfold State.Served State.ServedWithout
  simp only [hword, hrest, hway]

/-- When the owner of the popped entry does not go on waiting, nothing but the popper is lost. -/
theorem popped_served {e : Entry P} {r : Release} {n : Nat} (hpc : s.pc p = .popTail r)
    (hno : ¬ s.Retries ready e.owner) :
    ((s.popped e).goto p (.wake r e n)).Served ready ↔
      s.ServedWithout ready p s.queue.dropLast := by
  refine served_iff_without rfl rfl (fun x _ => ?_) fun q => ?_
  · by_cases hxp : x.owner = p
    · simp [State.gone, hxp, hpc, Pc.quits]
    · rw [gone_frame (s := s) (by simp [hxp])]
  · by_cases hqp : q = p
    · subst q
      simp [State.OnTheWay, State.Retries, Pc.pops, Pc.retries]
    · by_cases hqe : q = e.owner
      · subst q
        have hretries : ¬ ((s.popped e).goto p (.wake r e n)).Retries ready e.owner := by
          simpa [State.Retries, hqp] using hno
        simp [State.OnTheWay, hqp, hno, hretries]
      · rw [onTheWay_frame (s := s) (by simp [hqp]) (by simp [State.popped, hqe])]
        simp [hqp]

theorem Tended.popped {e : Entry P} {r : Release} {n : Nat} (hs : Tended s ready)
    (hpc : s.pc p = .popTail r)
    (hok : ¬ s.Retries ready e.owner → s.ServedWithout ready p s.queue.dropLast) :
    Handled ((s.popped e).goto p (.wake r e n)) ready := by
  have hnone := hs.noPush (p := p) (by rw [hpc]; rfl) (by simp [hpc])
  refine ⟨fun h => hs.wait fun hnil => h (by simp [State.popped, hnil]), fun q call hq => ?_, ?_⟩
  · by_cases hqp : q = p
    · subst q
      simp at hq
    · exact absurd (by simpa [hqp] using hq) (hnone q call)
  · by_cases hretries : s.Retries ready e.owner
    · have hne : e.owner ≠ p := by
        rintro hep
        simp [State.Retries, hep, hpc, Pc.retries] at hretries
      refine .inr (.inr ⟨e.owner, .inr ⟨?_, by simpa [State.Retries, hne] using hretries⟩⟩)
      simp [State.popped, owns_of_retries hretries.1]
    · exact (popped_served hpc hretries).mpr (hok hretries)

theorem cancel_served {k : Leave} (hs : Tended s ready) (hk : k.quits = true)
    (hw : s.woken p = true) :
    (s.goto p (.dropNode k)).Served ready ↔ s.ServedWithout ready p s.queue := by
  have hne : ∀ x ∈ s.queue, x.owner ≠ p := by
    rintro x hx rfl
    simp [hs.asleep x hx] at hw
  have hkr : k.retries = false := by
    cases k <;> simp_all [Leave.quits, Leave.retries]
  refine served_iff_without rfl rfl
    (fun x hx => gone_frame (by simp [hne x hx])) fun q => ?_
  by_cases hqp : q = p
  · subst q
    simp [State.OnTheWay, State.Retries, Pc.pops, Pc.retries, hkr]
  · rw [onTheWay_frame (s := s) (by simp [hqp]) (by simp)]
    simp [hqp]

theorem Tended.cancel {k : Leave} (hs : Tended s ready) (hk : k.quits = true)
    (hpops : (s.pc p).pops = false)
    (hok : s.OnTheWay ready p → s.ServedWithout ready p s.queue) :
    Handled (s.goto p (.dropNode k)) ready := by
  refine hs.toHandled.move (p := p) (fun q hq => by simp [hq]) (by simp) rfl (fun _ he => he)
    (by simp) (by simp [hpops]) (fun _ => .inl (by simp [Pc.quits, hk])) fun hway => .inr ?_
  have hw : s.woken p = true := (hway.resolve_left (by simp [hpops])).1
  exact (cancel_served hs hk hw).mpr (hok hway)

theorem step_handled {l : P × Act} (hs : Tended s ready) (hok : PassesOn s ready l)
    (h : step s l = some t) : Handled t (noteReady s l ready) := by
  obtain ⟨p, a⟩ := l
  have hsub : ∀ e ∈ s.queue, e ∈ s.queue := fun _ he => he
  have hplain := (hs.party p).plain
  have goes : ∀ (u : State P) (c : Pc P), t = u.goto p c → noteReady s (p, a) ready = ready →
      u.pc = s.pc → u.woken = s.woken → u.word = s.word → (∀ e ∈ u.queue, e ∈ s.queue) →
      (∀ call, c ≠ .pushHead call) → ((s.pc p).pops = true → c.pops = true) →
      ((s.pc p).quits = true → c.quits = true) →
      ((s.pc p).retries = true → s.woken p = true → c.retries = true ∧ c ≠ .idle) →
      Handled t (noteReady s (p, a) ready) := by
    rintro u c rfl hready hpc hwoken hword hqueue hpush hpops hquits hretries
    rw [hready]
    exact hs.toHandled.goesOn (by simp [hpc]) (by simp [hwoken]) (by simp [hword])
      (by simpa using hqueue) hpush hpops hquits hretries
  cases step_cases h with
  | start c hpc hn =>
    refine goes _ _ rfl rfl rfl rfl rfl hsub (by rintro _ ⟨⟩) (by simp [hpc, Pc.pops])
      (by simp [hpc, Pc.quits]) fun _ hw => ⟨?_, by rintro ⟨⟩⟩
    -- a woken party outside every call has a node
    have hpoll : c.isPoll = true := hn.resolve_left ((hs.party p).pending hw hpc)
    cases c <;> simp_all [Call.isPoll, Pc.retries, Call.waits]
  | lockPush _ hpc | lockDrop _ hpc | lockPop _ hpc | dropLinked _ hpc | park _ _ hpc
  | prepare _ hpc =>
    exact goes _ _ rfl (noteReady_quiet hpc rfl) rfl rfl rfl hsub (by rintro _ ⟨⟩)
      (by simp [hpc, Pc.pops]) (by rw [hpc]; exact id)
      (by rw [hpc]; exact fun hr _ => ⟨hr, by rintro ⟨⟩⟩)
  | removeNode _ hpc =>
    exact goes _ _ rfl (noteReady_quiet hpc rfl) rfl rfl rfl
      (fun e he => List.mem_of_mem_filter he) (by rintro _ ⟨⟩) (by simp [hpc, Pc.pops])
      (by rw [hpc]; exact id) (by rw [hpc]; exact fun hr _ => ⟨hr, by rintro ⟨⟩⟩)
  | release r hpc =>
    exact goes _ _ rfl rfl rfl rfl rfl hsub (by cases r <;> rintro _ ⟨⟩) (by simp [hpc, Pc.pops])
      (by simp [hpc, Pc.quits]) (by simp [hpc, Pc.retries])
  | wake r e n hpc =>
    refine goes _ _ rfl (noteReady_quiet hpc rfl) (by simp) (by simp) (by simp)
      (fun e he => by simpa using he) (fun c hc => ?_) (by simp [hpc, Pc.pops])
      (by simp [hpc, Pc.quits]) (by simp [hpc, Pc.retries])
    split at hc <;> cases hc
  | timeout hpc => exact hs.cancel rfl (by rw [hpc]; rfl) hok
  | dropFuture held hpc =>
    cases held with
    | false => exact hs.cancel rfl (by rw [hpc]; rfl) (hok hpc)
    | true =>
      exact goes _ _ rfl rfl rfl rfl rfl hsub (by rintro _ ⟨⟩) (by simp [hpc, Pc.pops])
        (by simp [hpc, Pc.quits]) (by simp [hpc, Pc.retries])
  | casTaken c _ hpc hw | sleepTaken c _ hpc _ hw =>
    exact hs.attempt (by rw [hpc]; rfl) (by simp [hw]) (by rintro _ ⟨⟩) (by simp)
  | casFailed c _ hpc _ hl =>
    exact hs.attempt (by rw [hpc]; rfl) id (by cases c <;> rintro _ ⟨⟩) (by simp [hl])
  | casRetry c _ hpc hw =>
    refine hs.attempt (by rw [hpc]; rfl) id (by rintro _ ⟨⟩) fun _ => ⟨rfl, ?_, rfl, ?_⟩
    · cases c <;> simp [noteReady, hpc, hw]
    · rw [hpc]
      exact fun hr => ⟨hr, by rintro ⟨⟩⟩
  | loadState c hpc | sleepReload c _ hpc =>
    refine hs.attempt (by rw [hpc]; rfl) id (fun _ hd => sleepNext_push hd) fun hl => ?_
    rw [sleepNext_unlocked hl]
    rw [hpc]
    exact ⟨rfl, noteReady_quiet hpc rfl, rfl, fun hr => ⟨hr, by rintro ⟨⟩⟩⟩
  | sleepMark c _ hpc =>
    exact hs.attempt (by rw [hpc]; rfl) (by simp) (fun _ _ => rfl) (by simp)
  | fairSeen timed hpc hf => simp [hs.fair] at hf
  | fairUnseen timed hpc =>
    exact hs.attempt (by rw [hpc]; rfl) id (by rintro _ ⟨⟩) fun _ =>
      ⟨rfl, noteReady_quiet hpc rfl, rfl, fun _ => ⟨rfl, by rintro ⟨⟩⟩⟩
  | fairClear hpc | mark _ _ hpc | onEmpty hpc => simp [hpc, Pc.plain] at hplain
  | bumpLoad hpc =>
    rw [noteReady_quiet hpc rfl]
    refine hs.toHandled.move (p := p) (fun q hq => (commit_others s p _ _ q hq).1)
      (fun q hq => (commit_others s p _ _ q hq).2) rfl hsub (fun call hcall => ?_)
      (by simp [hpc, Pc.pops]) (by simp [hpc, Pc.quits]) fun hway => ?_
    · simp only [commit_fields, Function.update_self] at hcall
      split at hcall <;> cases hcall
    · simp [State.OnTheWay, State.Retries, hpc, Pc.pops, Pc.retries] at hway
  | fetchUnlock r hpc =>
    rw [noteReady_quiet hpc rfl]
    exact hs.fetchUnlock hpc
  | clearWait r hpc =>
    rw [noteReady_quiet hpc rfl]
    exact hs.clearWait hpc
  | pushHead c i hpc => exact hs.push hpc i
  | dropOff k hpc hoff =>
    rw [noteReady_quiet hpc rfl]
    exact hs.toHandled.finish (off_of_isOnList hs.toShape hoff) (by simp [hpc, Pc.pops])
      (by simp [hpc, Pc.retries])
  | popNone r hpc he =>
    have hr : r ≠ .unlockFair := by
      rw [hpc] at hplain
      simpa [Pc.plain] using hplain
    have hnil : s.queue = [] := List.getLast?_eq_none_iff.mp he
    rw [if_neg hr, noteReady_quiet hpc rfl]
    refine hs.toHandled.move (p := p) (fun q hq => by simp [hq]) (by simp) rfl hsub (by simp)
      (fun _ => .inr (hs.noPush (by rw [hpc]; rfl) (by simp [hpc])))
      (by simp [hpc, Pc.quits]) fun _ => .inr (.inr (.inl (by simp [hnil])))
  | popTail r e hpc he =>
    have hr : r ≠ .unlockFair := by
      rw [hpc] at hplain
      simpa [Pc.plain] using hplain
    rw [if_neg hr, noteReady_quiet hpc rfl]
    exact hs.popped hpc fun hno => hok ⟨by simp [hpc, Pc.pops, hr], by rw [hpc]; rfl⟩ e he hno
  | unlockQueue a hpc => exact hs.release hpc

theorem step_tended {l : P × Act} (hs : Tended s ready) (hl : Plain l) (hok : PassesOn s ready l)
    (h : step s l = some t) : Tended t (noteReady s l ready) where
  toWellFormed := step_wellFormed hs.toWellFormed h
  toHandled := step_handled hs hok h
  sane := step_sane hs.sane h
  fair := by
    obtain ⟨p, a⟩ := l
    refine (step_plain (hs.party p).plain (hs.sane p) hs.fair ?_ h).2
    rintro rfl
    exact hl rfl
  party := step_party hs.toWellFormed hs.sane hs.fair hs.party hl h
  exclusive := step_exclusive hs.sane hs.exclusive (readsAlone_of_fair hs.fair l) h

omit [DecidableEq P] in
theorem tended_init : Tended (init : State P) fun _ => false where
  toWellFormed := wellFormed_init
  toHandled := ⟨by simp [init], by simp [init], .inr (.inl (by simp [init]))⟩
  sane := fun _ => trivial
  exclusive := by
    rw [view_init]
    constructor <;> simp [free]
  fair := by simp [init]
  party := fun q => by constructor <;> simp [init, Pc.plain]

/-- Breaking `PassesOn` strands a waiter at once. -/
theorem step_unserved {l : P × Act} (hs : Tended s ready) (hno : ¬ PassesOn s ready l)
    (h : step s l = some t) : ¬ t.Served (noteReady s l ready) := by
  obtain ⟨p, a⟩ := l
  cases a with
  | next =>
    simp only [PassesOn, Classical.not_imp, not_forall] at hno
    obtain ⟨⟨hpops, hin⟩, e, he, hretries, hno⟩ := hno
    have he : s.queue.getLast? = some e := he
    cases hpc : s.pc p with
    | popTail r =>
      have hr : r ≠ .unlockFair := by simpa [hpc, Pc.pops] using hpops
      simp only [step, hpc, atomic, queueStep, he, hr, if_false, Option.some.injEq] at h
      subst t
      rw [noteReady_quiet hpc rfl]
      exact fun hserved => hno ((popped_served hpc hretries).mp hserved)
    | _ => simp [hpc, Pc.pops, Pc.inSection] at hpops hin
  | timeout =>
    simp only [PassesOn, Classical.not_imp] at hno
    obtain ⟨hway, hno⟩ := hno
    cases step_cases h with
    | timeout hpc =>
      have hw : s.woken p = true := (hway.resolve_left (by simp [hpc, Pc.pops])).1
      exact fun hserved => hno ((cancel_served hs rfl hw).mp hserved)
  | dropFuture =>
    simp only [PassesOn, Classical.not_imp] at hno
    obtain ⟨hidle, hway, hno⟩ := hno
    have hw : s.woken p = true := (hway.resolve_left (by simp [hidle, Pc.pops])).1
    cases step_cases h with
    | dropFuture held hpc =>
      cases held with
      | true => simp [hidle] at hpc
      | false => exact fun hserved => hno ((cancel_served hs rfl hw).mp hserved)
  | _ => exact absurd trivial hno

/-- Cancelling a wait strands nobody, in any run without fair hand-offs, just as long as every
wake-up that goes to a cancelling waiter, or to a future that returned `Ready` and is still there,
is one that nobody depends on. -/
theorem cancel_passes_on (x : State P × (P → Bool)) (ls : List (P × Act))
    (hplain : Meets (recorded step noteReady) (fun _ l => Plain l) (init, fun _ => false) ls)
    (h : run (recorded step noteReady) (init, fun _ => false) ls = some x) :
    Visits (recorded step noteReady) (fun x => x.1.Served x.2) (init, fun _ => false) ls ↔
      Meets (recorded step noteReady) (fun x l => PassesOn x.1 x.2 l) (init, fun _ => false) ls := by
  refine visits_iff_meets (I := fun x => Tended x.1 x.2) (fun _ hx => hx.served) ?_ ?_
    tended_init hplain h
  · intro x l y hx hl hok hstep
    obtain ⟨hstep, hnote⟩ := recorded_eq hstep
    exact hnote ▸ step_tended hx hl hok hstep
  · intro x l y hx _ hno hstep
    obtain ⟨hstep, hnote⟩ := recorded_eq hstep
    exact hnote ▸ step_unserved hx hno hstep

section decidable
variable {P : Type*} [DecidableEq P] [Fintype P]

instance (s : State P) (ready : P → Bool) (q : P) : Decidable (s.Retries ready q) :=
  inferInstanceAs (Decidable (_ ∧ (_ → _)))

instance (s : State P) (ready : P → Bool) (q : P) : Decidable (s.OnTheWay ready q) :=
  inferInstanceAs (Decidable (_ ∨ _))

instance (s : State P) (ready : P → Bool) : Decidable (s.Served ready) :=
  inferInstanceAs (Decidable (_ ∨ _ ∨ _))

instance (s : State P) (ready : P → Bool) (p : P) (queue : List (Entry P)) :
    Decidable (s.ServedWithout ready p queue) :=
  inferInstanceAs (Decidable (_ ∨ _ ∨ _))

instance (l : P × Act) : Decidable (Plain l) :=
  match l with
  | (_, .release r) => inferInstanceAs (Decidable (r ≠ .unlockFair))
  | (_, .next) | (_, .start _) | (_, .timeout) | (_, .dropFuture) => isTrue trivial

instance (s : State P) (ready : P → Bool) (l : P × Act) : Decidable (PassesOn s ready l) :=
  match l with
  | (p, .timeout) =>
    inferInstanceAs (Decidable (s.OnTheWay ready p → s.ServedWithout ready p s.queue))
  | (p, .dropFuture) => inferInstanceAs
      (Decidable (s.pc p = .idle → s.OnTheWay ready p → s.ServedWithout ready p s.queue))
  | (p, .next) =>
    inferInstanceAs (Decidable ((s.pc p).pops = true ∧ (s.pc p).inSection = true →
      ∀ e ∈ s.queue.getLast?, ¬ s.Retries ready e.owner →
        s.ServedWithout ready p s.queue.dropLast))
  | (_, .start _) | (_, .release _) => isTrue trivial

end decidable

def unlockForTimed (p q r : P) : List (P × Act) :=
  timedSleeps p q ++ (r, .start (.lockInner false)) :: nexts r 6 ++ (p, .release .unlock) :: nexts p 5

/-- When 0 takes the lock again before 1 times out, its next `unlock` is for 2. -/
theorem cancel_passes_on_relocked :
    Visits (recorded step noteReady) (fun x => x.1.Served x.2) (init, fun _ => false)
      (unlockForTimed 0 1 2 ++ (0, .start .tryLock) :: nexts 0 2 ++
        (1, .timeout) :: nexts 1 1 : List (Fin 3 × Act)) := by
  have hr : (run (restrict (recorded step noteReady) fun x l => Plain l ∧ PassesOn x.1 x.2 l)
      ((init : State (Fin 3)), fun _ => false)
      (unlockForTimed 0 1 2 ++ (0, .start .tryLock) :: nexts 0 2 ++ (1, .timeout) :: nexts 1 1)).isSome =
        true := by decide
  obtain ⟨x, hx⟩ := Option.isSome_iff_exists.mp hr
  obtain ⟨hm, h⟩ := restrict_run_meets hx
  exact (cancel_passes_on x _ (hm.mono fun _ _ h => h.1) h).mpr (hm.mono fun _ _ h => h.2)

/-- The waiter 1 was woken and times out: the lock stays free and 2 queued for ever. -/
theorem cancel_strands : ¬ ∀ (x y z : State (Fin 3) × (Fin 3 → Bool)) (p : Fin 3) (n : Nat),
    Reach (recorded step noteReady) (fun _ l => Plain l) (init, fun _ => false) x →
    recorded step noteReady x (p, .timeout) = some y →
    run (recorded step noteReady) y (nexts p n) = some z → z.1.pc p = .idle →
    z.1.Served z.2 := by
  have hr : ((run (restrict (recorded step noteReady) fun _ l => Plain l)
      ((init : State (Fin 3)), fun _ => false) (unlockForTimed 0 1 2)).bind fun x =>
      (recorded step noteReady x (1, .timeout)).bind fun y =>
        (run (recorded step noteReady) y (nexts 1 1)).map fun z =>
          (z.1.pc 1, decide (z.1.Served z.2))) = some (.idle, false) := by decide
  obtain ⟨x, hx, hr⟩ := Option.bind_eq_some_iff.mp hr
  obtain ⟨y, hy, hr⟩ := Option.bind_eq_some_iff.mp hr
  obtain ⟨z, hz, hr⟩ := Option.map_eq_some_iff.mp hr
  simp only [Prod.mk.injEq, decide_eq_false_iff_not] at hr
  intro h
  exact hr.2 (h x y z 1 1 (restrict_run_reach hx) hy hz hr.1)

end Colock.RawMutex
