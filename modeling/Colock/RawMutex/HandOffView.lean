import Colock.RawMutex.Steps
import Colock.Lib.HandOff

/-! The state word of `RawMutex`, together with who owns it and who may inherit it, refines
the lock with a hand-off bit: every step is one event of that lock or none. -/
namespace Colock.RawMutex
open Transition HandOff
variable {P : Type*} [DecidableEq P]

def Pc.looks : Pc P → Bool
  | .park _ | .fairLoad _ => true
  | _ => false

/-- What a party is to the hand-off: a woken waiter that has yet to look at `FAIR_BIT` is a
possible heir. -/
def Pc.role (woken : Bool) : Pc P → Role
  | .fairClear => .accepting
  | c => if c.owns then .owner else if c.looks && woken then .heir else .out

def view (s : State P) : Lock P where
  locked := locked s.word
  fair := fair s.word
  role := fun p => (s.pc p).role (s.woken p)

def atomicEvent (p : P) (woken : Bool) : Pc P → Word → Option (Event P)
  | .cas _ expected, w => if w = expected then some (.acquire p) else none
  | .sleepCas _ current, w => if ¬ locked current ∧ w = current then some (.acquire p) else none
  | .fairLoad _, w =>
    if fair w then some (.see p) else if woken then some (.dismiss p) else none
  | .fairClear, _ => some (.take p)
  | .fetchUnlock _, _ | .onEmpty, _ => some (.release p)
  | .mark _ n, _ => some (.handOff p (n == 0))
  | _, _ => none

/-- A list operation matters to the hand-off only when it makes a waiter a woken one. -/
def queueEvent (s : State P) (p : P) : Option (Event P) :=
  match s.pc p with
  | .popTail _ =>
    match s.queue.getLast? with
    | some e =>
      if (s.pc e.owner).looks ∧ ¬ s.woken e.owner then some (.designate e.owner) else none
    | none => none
  | .unlockQueue (.pushed (.lockInner _)) => if s.woken p then some (.designate p) else none
  | _ => none

def eventOf (s : State P) : P × Act → Option (Event P)
  | (p, .next) =>
    match atomic (s.pc p) s.word with
    | some _ => atomicEvent p (s.woken p) (s.pc p) s.word
    | none => queueEvent s p
  | (p, .timeout) => if s.woken p then some (.dismiss p) else none
  | _ => none

/-- `w` is what `v` becomes by the event, or `v` itself when there is none. -/
def Answers (v w : Lock P) : Option (Event P) → Prop
  | none => w = v
  | some e => HandOff.next v e = some w

/-- Every `compare_exchange` of `try_lock` expects a word without `LOCKED_BIT`, and
`unlock_fair` does not begin by clearing it. -/
def Pc.sane : Pc P → Prop
  | .cas _ expected => locked expected = false
  | .fetchUnlock r => r ≠ .unlockFair
  | _ => True

omit [DecidableEq P] in
@[simp] theorem view_fields (s : State P) :
    (view s).locked = locked s.word ∧ (view s).fair = fair s.word ∧
      ∀ p, (view s).role p = (s.pc p).role (s.woken p) :=
  ⟨rfl, rfl, fun _ => rfl⟩

theorem view_quiet {s t : State P} (p : P) (hl : locked t.word = locked s.word)
    (hf : fair t.word = fair s.word)
    (hp : (t.pc p).role (t.woken p) = (s.pc p).role (s.woken p))
    (hq : ∀ q, q ≠ p → t.pc q = s.pc q ∧ t.woken q = s.woken q) : view t = view s := by
  ext q
  · exact hl
  · exact hf
  · by_cases h : q = p
    · subst q; exact hp
    · simp only [(view_fields _).2.2, (hq q h).1, (hq q h).2]

theorem view_assign {s t : State P} (p : P)
    (hq : ∀ q, q ≠ p → t.pc q = s.pc q ∧ t.woken q = s.woken q) :
    view t = ⟨locked t.word, fair t.word,
      ((view s).assign p ((t.pc p).role (t.woken p))).role⟩ := by
  ext q
  · rfl
  · rfl
  · by_cases h : q = p
    · subst q; simp
    · simp [(hq q h).1, (hq q h).2, h]

omit [DecidableEq P] in
theorem owns_of_looks {c : Pc P} (h : c.looks) : c.owns = false := by
  cases c <;> simp_all [Pc.looks, Pc.owns]

omit [DecidableEq P] in
theorem role_of_looks {c : Pc P} (h : c.looks) (b : Bool) :
    c.role b = if b then .heir else .out := by
  cases c <;> simp_all [Pc.looks, Pc.role, Pc.owns, Pc.looks]

omit [DecidableEq P] in
theorem role_of_not_looks {c : Pc P} (h : c.looks = false) (b b' : Bool) :
    c.role b = c.role b' := by
  unfold Pc.role
  split <;> simp [h]

theorem commit_role (s : State P) (p : P) (c : Pc P) (w : Word) :
    ((s.commit p c w).pc p).role ((s.commit p c w).woken p) = c.role (s.woken p) := by
  cases hc : c.owns with
  | true =>
    have hl : c.looks = false := by
      by_contra hl
      simp [owns_of_looks (by simpa using hl)] at hc
    simpa using role_of_not_looks hl _ _
  | false => simp [State.commit, hc]

theorem commit_quiet {s : State P} {p : P} {c : Pc P} {w : Word}
    (hr : c.role (s.woken p) = (s.pc p).role (s.woken p)) (hl : locked w = locked s.word)
    (hf : fair w = fair s.word) : view (s.commit p c w) = view s :=
  view_quiet p hl hf ((commit_role s p c w).trans hr) (commit_others s p c w)

omit [DecidableEq P] in
theorem sleepNext_role (c : Call) (w : Word) (b : Bool) :
    (sleepNext c w : Pc P).role b = .out := by
  unfold sleepNext
  split <;> rfl

omit [DecidableEq P] in
theorem released_role (b waits : Bool) {r : Release} (h : r ≠ .unlockFair) :
    (if waits then .lockPop r else afterRelease r : Pc P).role b = .out := by
  cases waits <;> cases r <;> first | rfl | exact absurd rfl h

theorem view_commit (s : State P) (p : P) (c : Pc P) (w : Word) :
    view (s.commit p c w) =
      ⟨locked w, fair w, ((view s).assign p (c.role (s.woken p))).role⟩ := by
  rw [view_assign p (commit_others s p c w), commit_role]
  rfl

theorem finish_role (s : State P) (p : P) (k : Leave) :
    ((s.finish p k).pc p).role ((s.finish p k).woken p) = if k.owns then .owner else .out := by
  cases k with
  | future held => cases held <;> simp [State.finish, Pc.role, Pc.owns, Pc.looks, Leave.owns]
  | _ => simp [State.finish, Pc.role, Pc.owns, Pc.looks, Leave.owns]

theorem finish_quiet {s : State P} {p : P} {k : Leave}
    (hp : (s.pc p).role (s.woken p) = if k.owns then .owner else .out) :
    view (s.finish p k) = view s :=
  view_quiet p (by simp) (by simp) ((finish_role s p k).trans hp.symm) (finish_others s p k)

theorem goto_quiet {s t : State P} {p : P} {c : Pc P} (hw : t.word = s.word) (hpc : t.pc = s.pc)
    (hwk : ∀ q, q ≠ p → t.woken q = s.woken q)
    (hp : c.role (t.woken p) = (s.pc p).role (s.woken p)) : view (t.goto p c) = view s := by
  refine view_quiet p (by simp [hw]) (by simp [hw]) (by simpa using hp) fun q hq => ?_
  simp [hq, hpc, hwk q hq]

theorem popped_role (s : State P) (e : Entry P) (q : P) :
    (s.pc q).role ((s.popped e).woken q) =
      if q = e.owner ∧ (s.pc q).looks then .heir else (s.pc q).role (s.woken q) := by
  by_cases hq : q = e.owner
  · subst hq
    cases hl : (s.pc e.owner).looks with
    | true => simp [State.popped, owns_of_looks hl, role_of_looks hl]
    | false => simpa using role_of_not_looks hl _ _
  · simp [State.popped, hq]

theorem popped_answers {s : State P} {p : P} {c : Pc P} (e : Entry P)
    (hc : ∀ b, c.role b = (s.pc p).role b) :
    Answers (view s) (view ((s.popped e).goto p c))
      (if (s.pc e.owner).looks ∧ ¬ s.woken e.owner then some (.designate e.owner) else none) := by
  have hrole : ∀ q, (view ((s.popped e).goto p c)).role q =
      if q = e.owner ∧ (s.pc q).looks then .heir else (s.pc q).role (s.woken q) := by
    intro q
    rw [← popped_role]
    by_cases hq : q = p
    · subst hq; simp [hc]
    · simp [hq]
  split
  · next h =>
    have hw : s.woken e.owner = false := by simpa using h.2
    have hout : (view s).role e.owner = .out := by simp [role_of_looks h.1, hw]
    simp only [Answers, HandOff.next, hout, if_true, Option.some.injEq]
    ext q
    · simp
    · simp
    · rw [hrole, assign_role, (view_fields s).2.2]
      grind
  · next h =>
    ext q
    · simp
    · simp
    · rw [hrole, (view_fields s).2.2]
      split
      · next hq =>
        obtain ⟨rfl, hq⟩ := hq
        have hw : s.woken e.owner = true := by simpa [hq] using h
        simp [role_of_looks hq, hw]
      · rfl

theorem release_answers {s : State P} {p : P} {a : After} (hpc : s.pc p = .unlockQueue a) :
    Answers (view s) (view (s.release p a)) (queueEvent s p) := by
  simp only [queueEvent, hpc]
  cases a with
  | pushed c =>
    cases c with
    | lockInner timed =>
      cases hw : s.woken p with
      | false =>
        exact goto_quiet rfl rfl (fun _ _ => rfl) (by rw [hpc]; simp [hw, Pc.role, Pc.looks, Pc.owns])
      | true =>
        have event := view_assign (s := s) (t := s.release p (.pushed (.lockInner timed))) p
          fun q hq => by simp [State.release, hq]
        simp only [Answers, HandOff.next, event]
        simp [State.release, hpc, hw, Pc.role, Pc.owns, Pc.looks, Lock.ext_iff]
    | _ => exact goto_quiet rfl rfl (fun _ _ => rfl) (by rw [hpc]; rfl)
  | aborted c =>
    cases c <;> exact goto_quiet rfl rfl (fun _ _ => rfl) (by rw [hpc]; rfl)
  | dropped k =>
    have h1 : view { s with qlock := none } = view s := rfl
    exact (finish_quiet (s := { s with qlock := none }) (by rw [hpc]; rfl)).trans h1
  | released r =>
    exact goto_quiet rfl rfl (fun _ _ => rfl) (by rw [hpc]; cases r <;> rfl)

theorem step_answers {s t : State P} {l : P × Act} (hs : ∀ q, (s.pc q).sane)
    (h : step s l = some t) : Answers (view s) (view t) (eventOf s l) := by
  obtain ⟨p, a⟩ := l
  have answers : ∀ e, eventOf s (p, a) = e → Answers (view s) (view t) e →
      Answers (view s) (view t) (eventOf s (p, a)) := fun e he h => he ▸ h
  have sleeps : ∀ (c : Call) (u v : Word), (∀ b, (s.pc p).role b = .out) →
      locked v = locked s.word → fair v = fair s.word →
      view (s.commit p (sleepNext c u) v) = view s := by
    intro c u v hp hl hf
    exact commit_quiet (by rw [sleepNext_role, hp]) hl hf
  cases step_cases h with
  | start c hpc => exact goto_quiet rfl rfl (fun _ _ => rfl) (by rw [hpc]; rfl)
  | release r hpc => exact goto_quiet rfl rfl (fun _ _ => rfl) (by rw [hpc]; cases r <;> rfl)
  | timeout hpc =>
    simp only [eventOf]
    cases hw : s.woken p with
    | false =>
      exact goto_quiet rfl rfl (fun _ _ => rfl)
        (by rw [hpc]; simp [hw, Pc.role, Pc.owns, Pc.looks, Leave.owns])
    | true =>
      have event := view_assign (s := s) (t := s.goto p (.dropNode .timeout)) p
        fun q hq => by simp [hq]
      simp only [Answers, HandOff.next, event]
      simp [hpc, hw, Pc.role, Pc.owns, Pc.looks, Leave.owns, Lock.ext_iff]
  | dropFuture held hpc =>
    cases held <;> exact goto_quiet rfl rfl (fun _ _ => rfl) (by rw [hpc]; rfl)
  | casTaken c expected hpc hw =>
    have hexp : locked expected = false := by simpa [hpc, Pc.sane] using hs p
    refine answers (some (.acquire p)) (by simp [eventOf, hpc, atomic, atomicEvent, hw]) ?_
    simp [Answers, HandOff.next, view_commit, hw, hpc, hexp, Pc.role, Pc.owns, Pc.looks]
  | casFailed c expected hpc hw hl =>
    refine answers none (by simp [eventOf, hpc, atomic, atomicEvent, hw, hl]) ?_
    refine commit_quiet ?_ rfl rfl
    cases c <;> simp [hpc, tryFailed, Pc.role, Pc.owns, Pc.looks, Leave.owns]
  | casRetry c expected hpc hw hl =>
    refine answers none (by simp [eventOf, hpc, atomic, atomicEvent, hw, hl]) ?_
    exact commit_quiet (by simp [hpc, Pc.role, Pc.owns, Pc.looks]) rfl rfl
  | loadState c hpc =>
    refine answers none (by simp [eventOf, hpc, atomic, atomicEvent]) ?_
    exact sleeps c _ _ (fun _ => by rw [hpc]; rfl) rfl rfl
  | sleepMark c current hpc hl hw =>
    refine answers none (by simp [eventOf, hpc, atomic, atomicEvent, hl, hw]) ?_
    exact sleeps c _ _ (fun _ => by rw [hpc]; rfl) (by simp [hw]) (by simp [hw])
  | sleepReload c current hpc hw =>
    refine answers none ?_ (sleeps c _ _ (fun _ => by rw [hpc]; rfl) rfl rfl)
    cases hl : locked current <;> simp_all [eventOf, atomic, atomicEvent]
  | sleepTaken c current hpc hl hw =>
    refine answers (some (.acquire p)) (by simp [eventOf, hpc, atomic, atomicEvent, hl, hw]) ?_
    simp [Answers, HandOff.next, view_commit, hw, hpc, hl, Pc.role, Pc.owns, Pc.looks]
  | fairSeen timed hpc hf =>
    refine answers (some (.see p)) (by simp [eventOf, hpc, atomic, atomicEvent, hf]) ?_
    cases hwk : s.woken p <;>
      simp [Answers, HandOff.next, view_commit, hpc, hf, hwk, Pc.role, Pc.owns, Pc.looks,
        Lock.ext_iff]
  | fairUnseen timed hpc hf =>
    cases hwk : s.woken p with
    | true =>
      refine answers (some (.dismiss p)) (by simp [eventOf, hpc, atomic, atomicEvent, hf, hwk]) ?_
      simp [Answers, HandOff.next, view_commit, hpc, hf, hwk, Pc.role, Pc.owns, Pc.looks,
        Leave.owns, Lock.ext_iff]
    | false =>
      refine answers none (by simp [eventOf, hpc, atomic, atomicEvent, hf, hwk]) ?_
      exact commit_quiet (by simp [hpc, hwk, Pc.role, Pc.owns, Pc.looks, Leave.owns]) rfl rfl
  | fairClear hpc =>
    refine answers (some (.take p)) (by simp [eventOf, hpc, atomic, atomicEvent]) ?_
    simp [Answers, HandOff.next, view_commit, hpc, Pc.role, Pc.owns, Leave.owns]
  | bumpLoad hpc =>
    refine answers none (by simp [eventOf, hpc, atomic, atomicEvent]) (commit_quiet ?_ rfl rfl)
    split <;> simp [hpc, Pc.role, Pc.owns]
  | fetchUnlock r hpc =>
    have hr : r ≠ .unlockFair := by simpa [hpc, Pc.sane] using hs p
    refine answers (some (.release p)) (by simp [eventOf, hpc, atomic, atomicEvent]) ?_
    simp only [Answers, HandOff.next, view_commit, released_role _ _ hr]
    simp [hpc, Pc.role, Pc.owns]
  | mark e n hpc =>
    refine answers (some (.handOff p (n == 0))) (by simp [eventOf, hpc, atomic, atomicEvent]) ?_
    simp only [Answers, view_commit]
    by_cases hn : n = 0 <;> simp [HandOff.next, hpc, hn, Pc.role, Pc.owns, Pc.looks]
  | onEmpty hpc =>
    refine answers (some (.release p)) (by simp [eventOf, hpc, atomic, atomicEvent]) ?_
    simp [Answers, HandOff.next, view_commit, hpc, Pc.role, Pc.owns, Pc.looks]
  | clearWait r hpc =>
    refine answers none (by simp [eventOf, hpc, atomic, atomicEvent]) ?_
    exact commit_quiet (by simp [hpc, Pc.role, Pc.owns, Pc.looks]) (by simp) (by simp)
  | prepare _ hpc | lockPush _ hpc | lockDrop _ hpc | lockPop _ hpc | dropLinked _ hpc
  | removeNode _ hpc =>
    refine answers none (by simp [eventOf, hpc, atomic, queueEvent]) ?_
    exact goto_quiet rfl rfl (fun _ _ => rfl) (by rw [hpc]; rfl)
  | pushHead c i hpc =>
    refine answers none (by simp [eventOf, hpc, atomic, queueEvent]) ?_
    exact goto_quiet rfl rfl (fun q hq => by simp [State.push, hq])
      (by simp [hpc, Pc.role, Pc.owns, Pc.looks])
  | park timed i hpc =>
    refine answers none (by simp [eventOf, hpc, atomic, queueEvent]) ?_
    exact goto_quiet rfl rfl (fun _ _ => rfl) (by simp [hpc, Pc.role, Pc.owns, Pc.looks])
  | dropOff k hpc =>
    refine answers none (by simp [eventOf, hpc, atomic, queueEvent]) ?_
    exact finish_quiet (by rw [hpc]; rfl)
  | popNone r hpc he =>
    refine answers none (by simp [eventOf, hpc, atomic, queueEvent, he]) ?_
    exact goto_quiet rfl rfl (fun _ _ => rfl)
      (by cases r <;> simp [hpc, Pc.role, Pc.owns, Pc.looks])
  | popTail r e hpc he =>
    refine answers _ (by simp only [eventOf, hpc, atomic, queueEvent, he]; rfl) ?_
    exact popped_answers e (by rw [hpc]; cases r <;> exact fun _ => rfl)
  | wake r e n hpc =>
    refine answers none (by simp [eventOf, hpc, atomic, queueEvent]) ?_
    refine goto_quiet (by simp) (by simp) (by simp) ?_
    split <;> simp [hpc, Pc.role, Pc.owns, Pc.looks]
  | unlockQueue a hpc =>
    refine answers _ (by simp only [eventOf, hpc, atomic]; rfl) ?_
    exact release_answers hpc

omit [DecidableEq P] in
theorem Flow.sane {w : Word} {a : Act} {c d : Pc P} (h : Flow w a c d) : d.sane := by
  cases h with
  | casRetry c expected hl => exact hl
  | dropOff k | dropped k =>
    cases k with
    | future held => cases held <;> simp [Leave.next, Pc.sane]
    | _ => simp [Leave.next, Pc.sane]
  | fetchAlone r | released r => cases r <;> simp [afterRelease, Pc.sane]
  | _ => simp [Pc.sane]

theorem step_sane {s t : State P} {l : P × Act} (hs : ∀ q, (s.pc q).sane)
    (h : step s l = some t) : ∀ q, (t.pc q).sane := by
  obtain ⟨p, a⟩ := l
  intro q
  by_cases hq : q = p
  · exact hq ▸ (step_flow h).sane
  · rw [step_others h hq]
    exact hs q

theorem reach_sane {ok : State P → P × Act → Prop} {s : State P} (h : Reach step ok init s) :
    ∀ q, (s.pc q).sane :=
  h.invariant (I := fun s => ∀ q, (s.pc q).sane) (fun _ => trivial) fun _ _ _ hs _ h =>
    step_sane hs h

omit [DecidableEq P] in
theorem role_owner {c : Pc P} {b : Bool} : c.role b = .owner ↔ c.owns = true := by
  cases hc : c.owns <;> cases c <;> simp_all [Pc.role, Pc.owns] <;> grind

omit [DecidableEq P] in
theorem role_accepting {c : Pc P} {b : Bool} : c.role b = .accepting ↔ c = .fairClear := by
  cases c <;> simp [Pc.role] <;> grind

omit [DecidableEq P] in
theorem view_init : view (init : State P) = free := by
  ext <;> simp [view, init, free, Pc.role, Pc.owns, Pc.looks]

/-- The faithful machine refines the lock with a hand-off bit, under any pair of guards of
which the concrete one implies the abstract one. -/
theorem reach_view {ok : State P → P × Act → Prop} {aok : Lock P → Event P → Prop}
    (hok : ∀ s l e, ok s l → eventOf s l = some e → aok (view s) e) {s : State P}
    (h : Reach step ok init s) : Reach HandOff.next aok free (view s) := by
  rw [← view_init]
  refine h.simulate view (I := fun s => ∀ q, (s.pc q).sane) (fun q => by trivial)
    (fun s l t hs _ h => step_sane hs h) fun s l t hs hl h => ?_
  have ha := step_answers hs h
  cases he : eventOf s l with
  | none =>
    rw [he] at ha
    exact ha ▸ .refl
  | some e =>
    rw [he] at ha
    exact .single (hok s l e hl he) ha

end Colock.RawMutex
